/-
The system calls on files: `kernel/proc/syscall_handlers.c`.

Descriptors arrive as 64-bit numbers.  The handlers compare them with 0, 1 and 2 as they
are and pass on what is left of them as an `int`, so two numbers can name one slot of
the table and still be treated differently.  What the console delivers during a call,
and what the allocator answers, are arguments.
-/
import Nv0ken.Kernel.Fs.FdTable
import Nv0ken.Kernel.Lib.Klog

namespace Nv0ken.Proc

open Buffer Word Fs

def eNoEnt : Int := 2
def eBadF : Int := 9
def eNoMem : Int := 12
def eFault : Int := 14
def eInval : Int := 22

def oCreat : Nat := 0x40
def oTrunc : Nat := 0x200
def oAppend : Nat := 0x400
def oDirectory : Nat := 0x10000

/-- What the calls work on. -/
structure System where
  files : Files
  klog : Klog := {}

abbrev System.vfs (s : System) : Vfs := s.files.vfs

abbrev System.fds (s : System) : FdTable := s.files.fds

/-- A root with nothing in it and a table with nothing open. -/
def System.initial : System := { files := { vfs := mountRoot, fds := fdTableInit } }

/-- What `console_read` delivers, and what it puts on the log while it polls the keyboard. -/
structure ConsoleInput where
  bytes : List UInt8
  echo : List UInt8

/-- The name `klog`. -/
def klogName : List UInt8 := [107, 108, 111, 103]

/-- Whether a descriptor reads from the log instead of a file. -/
def readsKlog (s : System) (entry : FdEntry) : Bool :=
  (s.vfs.get entry.node).any fun node => node.name = klogName

/-- `result < 0 ? errno_ret(err) : result`. -/
def orErrno (err result : Int) : Int := if result < 0 then -err else result

/-- The value returned and the bytes put into the buffer. -/
def sysRead (s : System) (input : ConsoleInput) (fd : Nat) (buffer : Bool) (length : Nat) :
    Except Fault (System × Int × List UInt8) :=
  if !buffer && length ≠ 0 then .ok (s, -eFault, [])
  else if fd = 0 then
    if !buffer || length = 0 then .ok (s, 0, [])
    else
      let bytes := input.bytes.take length
      .ok ({ s with klog := input.echo.foldl klogPutc s.klog }, bytes.length, bytes)
  else
    match fdGet s.fds (toInt32 fd) with
    | none => .ok (s, -eBadF, [])
    | some entry =>
      if readsKlog s entry then
        let bytes := klogRead s.klog entry.offset buffer length
        let entry := { entry with offset := u64 (entry.offset + bytes.length) }
        let fds := s.fds.set (toInt32 fd).toNat (some entry)
        .ok ({ s with files := { s.files with fds := fds } }, bytes.length, bytes)
      else
        (fdRead s.files (toInt32 fd) buffer length).map fun r =>
          ({ s with files := r.1 }, orErrno eBadF r.2.1, r.2.2)

def sysWrite (s : System) (reply : Reply) (fd : Nat) (buffer : Option (List UInt8)) :
    Except Fault (System × Int) :=
  match buffer with
  | none => .ok (s, -eFault)
  | some bytes =>
    if fd = 1 ∨ fd = 2 then
      .ok ({ s with klog := bytes.foldl klogPutc s.klog }, bytes.length)
    else
      (fdWrite s.files reply (toInt32 fd) (some bytes)).map fun r =>
        ({ s with files := r.1 }, orErrno eBadF r.2)

/-- The parts of a path before each of its slashes, the first byte apart. -/
def parentPaths (path : List UInt8) : List (List UInt8) :=
  ((List.range path.length).filter fun i => 1 ≤ i ∧ path[i]? = some slash).map path.take

/-- `allocs` answers for each directory whether there is memory for it. -/
def makeParentDirs (vfs : Vfs) (path : List UInt8) (allocs : List UInt8 → Bool) : Vfs :=
  if path.length ≥ pathMax then vfs
  else
    (parentPaths path).foldl (fun vfs dir =>
      if (vfsLookup vfs dir).isSome then vfs else (vfsCreate vfs dir .dir (allocs dir)).1) vfs

/-- The answers of the allocator to one `sys_open`: for the directories on the way, for
the node itself, and for its truncation. -/
structure OpenReply where
  dirs : List UInt8 → Bool
  node : Bool
  truncate : Reply

/-- Memory for everything. -/
def OpenReply.served : OpenReply :=
  { dirs := fun _ => true, node := true, truncate := ⟨true, some fun _ => 0⟩ }

/-- The node a path stands for, created if it must be and may be. -/
def openNode (vfs : Vfs) (path : List UInt8) (flags : Nat) (reply : OpenReply) :
    Vfs × Option NodeId :=
  match vfsLookup vfs path with
  | some node => (vfs, some node)
  | none =>
    if flags &&& oCreat ≠ 0 then
      let type := if flags &&& oDirectory ≠ 0 then NodeType.dir else NodeType.file
      vfsCreate (makeParentDirs vfs path reply.dirs) path type reply.node
    else (vfs, none)

/-- `node->ops->truncate(node, 0)`, where the table has such an operation. -/
def openTruncate (node : Node) (reply : Reply) : Node :=
  if node.ops = .tmpfs then (tmpfsTruncate node reply 0).1 else node

def sysOpen (s : System) (reply : OpenReply) (path : Option (List UInt8)) (flags : Nat) :
    System × Int :=
  match path with
  | none => (s, -eFault)
  | some path =>
    match openNode s.vfs path flags reply with
    | (vfs, none) => ({ s with files := { s.files with vfs := vfs } }, -eNoEnt)
    | (vfs, some id) =>
      let vfs :=
        if flags &&& oTrunc ≠ 0 then vfs.modify id fun node => openTruncate node reply.truncate
        else vfs
      let (fds, fd) := fdAlloc s.fds id (toInt32 flags)
      let fds :=
        if fd ≥ 0 ∧ flags &&& oAppend ≠ 0 then
          match fdGet fds fd with
          | none => fds
          | some entry =>
            let size := ((vfs.get id).map Node.size).getD 0
            fds.set fd.toNat (some { entry with offset := size })
        else fds
      ({ s with files := { vfs := vfs, fds := fds } }, if fd < 0 then -eNoMem else fd)

def sysSeek (s : System) (fd offset whence : Nat) : System × Int :=
  let r := fdSeek s.files (toInt32 fd) (toInt64 offset) (toInt32 whence)
  ({ s with files := { s.files with fds := r.1 } }, orErrno eInval r.2)

def sysDup2 (s : System) (oldfd newfd : Nat) : System × Int :=
  let r := fdDup2 s.fds (toInt32 oldfd) (toInt32 newfd)
  ({ s with files := { s.files with fds := r.1 } }, orErrno eBadF r.2)

/-- The name `pipe`. -/
def pipeName : List UInt8 := [112, 105, 112, 101]

/-- The value returned and the two descriptors stored; `fds` says whether there is
somewhere to store them.  Nothing is taken back when the second one cannot be had. -/
def sysPipe (s : System) (reply : PipeReply) (fds : Bool) : System × Int × Option (Int × Int) :=
  if !fds then (s, -eFault, none)
  else
    match pipefsCreateNode pipeName reply with
    | none => (s, -eNoMem, none)
    | some node =>
      let id := s.vfs.nodes.length
      let vfs := { s.vfs with nodes := s.vfs.nodes ++ [node] }
      let (table, readFd) := fdAlloc s.fds id 0
      let (table, writeFd) := fdAlloc table id 1
      let s := { s with files := { vfs := vfs, fds := table } }
      if readFd < 0 ∨ writeFd < 0 then (s, -eNoMem, none)
      else (s, 0, some (readFd, writeFd))

end Nv0ken.Proc
