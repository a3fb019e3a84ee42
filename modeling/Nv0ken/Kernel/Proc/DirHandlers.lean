/-
The system calls on directories: `kernel/proc/syscall_handlers.c`.

An open directory is a descriptor like any other; its offset counts the entries that
`sys_readdir` has delivered, and the next one is found by walking that many links of the
list of children.  The current directory is one text for the whole kernel.
-/
import Nv0ken.Kernel.Proc.SyscallHandlers

namespace Nv0ken.Proc

open Word Fs

/-- `user_dirent_t`; the inode number of a node is its address. -/
structure Dirent where
  dIno : NodeId
  dType : Nat
  dName : List UInt8
  deriving DecidableEq, Repr

def direntType (node : Node) : Nat :=
  if node.type = .dir then 4 else if node.type = .pipe then 1 else 8

/-- `sizeof(entry->d_name)`. -/
def direntNameMax : Nat := 256

def dirent (vfs : Vfs) (child : NodeId) : Option Dirent :=
  (vfs.get child).map fun node =>
    { dIno := child, dType := direntType node, dName := node.name.take (direntNameMax - 1) }

def sysOpendir (s : Files) (path : List UInt8) : Files × Int :=
  match vfsLookup s.vfs path with
  | none => (s, -eNoEnt)
  | some id =>
    if (s.vfs.get id).any fun node => node.type = .dir then
      let (fds, fd) := fdAlloc s.fds id oDirectory
      ({ s with fds := fds }, if fd < 0 then -eNoMem else fd)
    else (s, -eNoEnt)

/-- The value returned and what is put into the buffer, if one is given.  The offset grows
only where there is a child at it, so it does not wrap. -/
def sysReaddir (s : Files) (fd : Nat) (buffer : Bool) : Files × Int × Option Dirent :=
  match fdGet s.fds (toInt32 fd) with
  | none => (s, -eBadF, none)
  | some entry =>
    match s.vfs.get entry.node with
    | none => (s, -eBadF, none)
    | some node =>
      if !buffer || node.type ≠ .dir then (s, -eBadF, none)
      else
        match node.children[entry.offset]? with
        | none => (s, 0, none)
        | some child =>
          let entry := { entry with offset := entry.offset + 1 }
          ({ s with fds := s.fds.set (toInt32 fd).toNat (some entry) }, 1, dirent s.vfs child)

/-- `sizeof(cwd)`. -/
def cwdMax : Nat := 256

/-- `static char cwd[256] = "/"`. -/
def cwdInit : List UInt8 := [slash]

/-- The text of the current directory after the call, and the value returned. -/
def sysChdir (vfs : Vfs) (cwd path : List UInt8) : List UInt8 × Int :=
  match vfsLookup vfs path with
  | none => (cwd, -eNoEnt)
  | some id =>
    if ((vfs.get id).any fun node => node.type = .dir) && path.length < cwdMax then (path, 0)
    else (cwd, -eNoEnt)

/-- What is copied to the buffer; there is nothing when the call fails. -/
def sysGetcwd (cwd : List UInt8) (buffer : Bool) (size : Nat) : Option (List UInt8) :=
  if !buffer || size = 0 || cwd.length + 1 > size then none else some cwd

end Nv0ken.Proc
