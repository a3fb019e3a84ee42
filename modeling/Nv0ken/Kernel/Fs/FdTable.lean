/-
The descriptor table: `kernel/fs/fd_table.c`.

There is one table for the whole kernel.  An entry holds its own offset, and duplicating
a descriptor copies the entry.  A slot is free when its node is null; such a slot is
zero throughout, so it holds nothing.
-/
import Nv0ken.Kernel.Fs.Vfs
import Nv0ken.Lib.Slots

namespace Nv0ken.Fs

open Buffer Word

/-- `FD_TABLE_MAX`. -/
def fdTableMax : Nat := 128

/-- `fd_entry_t` with a node. -/
structure FdEntry where
  node : NodeId
  offset : Nat
  flags : Int
  refs : Int
  deriving DecidableEq, Repr

abbrev FdTable := Slots FdEntry fdTableMax

def fdTableInit : FdTable := Slots.empty FdEntry fdTableMax

/-- The tree and the table. -/
structure Files where
  vfs : Vfs
  fds : FdTable

/-- The descriptor returned, or `-1`. -/
def fdAlloc (fds : FdTable) (node : NodeId) (flags : Int) : FdTable × Int :=
  match fds.firstFree 3 with
  | some fd => (fds.set fd (some { node := node, offset := 0, flags := flags, refs := 1 }), fd)
  | none => (fds, -1)

def fdGet (fds : FdTable) (fd : Int) : Option FdEntry :=
  if fd < 0 ∨ fd ≥ fdTableMax then none else fds.get fd.toNat

def fdClose (fds : FdTable) (fd : Int) : FdTable × Int :=
  match fdGet fds fd with
  | none => (fds, -1)
  | some _ => (fds.set fd.toNat none, 0)

/-- `table[newfd] = *entry; ++entry->refs;` -/
def copyEntry (fds : FdTable) (oldfd : Int) (entry : FdEntry) (newfd : Nat) : FdTable :=
  (fds.set newfd (some entry)).set oldfd.toNat (some { entry with refs := entry.refs + 1 })

def fdDup2 (fds : FdTable) (oldfd newfd : Int) : FdTable × Int :=
  match fdGet fds oldfd with
  | none => (fds, -1)
  | some entry =>
    if newfd < 0 ∨ newfd ≥ fdTableMax then (fds, -1)
    else if oldfd = newfd then (fds, newfd)
    else (copyEntry (fdClose fds newfd).1 oldfd entry newfd.toNat, newfd)

/-- `base + offset`; the sum wraps like the machine's. -/
def seekNext (s : Files) (entry : FdEntry) (offset whence : Int) : Int :=
  let base : Int :=
    if whence = 1 then toInt64 entry.offset
    else if whence = 2 then toInt64 (((s.vfs.get entry.node).map Node.size).getD 0)
    else 0
  toInt64 (ofInt (base + offset))

def fdSeek (s : Files) (fd offset whence : Int) : FdTable × Int :=
  match fdGet s.fds fd with
  | none => (s.fds, -1)
  | some entry =>
    if whence ≠ 0 ∧ whence ≠ 1 ∧ whence ≠ 2 then (s.fds, -1)
    else
      let next := seekNext s entry offset whence
      if next < 0 then (s.fds, -1)
      else
        (s.fds.set fd.toNat (some { entry with offset := next.toNat }), toInt32 next.toNat)

/-- `if (n > 0) entry->offset += n;` -/
def advance (fds : FdTable) (fd : Int) (entry : FdEntry) (n : Int) : FdTable :=
  if n > 0 then fds.set fd.toNat (some { entry with offset := u64 (entry.offset + n.toNat) })
  else fds

/-- The value returned and the bytes put into the buffer. -/
def fdRead (s : Files) (fd : Int) (buffer : Bool) (count : Nat) :
    Except Fault (Files × Int × List UInt8) :=
  match fdGet s.fds fd with
  | none => .ok (s, -1, [])
  | some entry =>
    match s.vfs.get entry.node with
    | none => .ok (s, -1, [])
    | some node =>
      (vfsRead node entry.offset buffer count).map fun r =>
        ({ vfs := s.vfs.modify entry.node fun _ => r.1
           fds := advance s.fds fd entry r.2.1 }, r.2.1, r.2.2)

def fdWrite (s : Files) (reply : Reply) (fd : Int) (buffer : Option (List UInt8)) :
    Except Fault (Files × Int) :=
  match fdGet s.fds fd with
  | none => .ok (s, -1)
  | some entry =>
    match s.vfs.get entry.node with
    | none => .ok (s, -1)
    | some node =>
      (vfsWrite node reply entry.offset buffer).map fun r =>
        ({ vfs := s.vfs.modify entry.node fun _ => r.1
           fds := advance s.fds fd entry r.2 }, r.2)

end Nv0ken.Fs
