/-
The kernel heap: `kernel/mm/heap.c`.

The heap is one region of memory cut into blocks, each a 32-byte header followed by
its payload.  The headers form a doubly linked list in address order, and they live
in the same bytes the callers write to, so the model keeps the memory itself: a
header is four words read out of it.

Two loops follow links through memory, the first-fit search along `next` and the
recursion of `coalesce` along `prev`.  Neither is bounded by anything but the links,
so both take a fuel, and `none` means the code does not return.  A list without a
repetition has fewer blocks than there are addresses, so the fuel the code is given
here is never what stops it.
-/
import Nv0ken.Lib.ByteMem
import Nv0ken.Lib.Word

namespace Nv0ken.Heap

open Word

/-- `sizeof(block_header_t)`. -/
def headerSize : Nat := 32

/-- How many addresses there are. -/
def addressSpace : Nat := 2 ^ 64

/-! ### The fields of a header -/

/-- `block->size`. -/
def blockSize (m : Mem) (block : Nat) : Nat := m.load block 8

/-- `block->free`, an `int`. -/
def blockFree (m : Mem) (block : Nat) : Nat := m.load (block + 8) 4

/-- `block->next`. -/
def blockNext (m : Mem) (block : Nat) : Nat := m.load (block + 16) 8

/-- `block->prev`. -/
def blockPrev (m : Mem) (block : Nat) : Nat := m.load (block + 24) 8

def setSize (m : Mem) (block v : Nat) : Mem := m.store block 8 v

def setFree (m : Mem) (block v : Nat) : Mem := m.store (block + 8) 4 v

def setNext (m : Mem) (block v : Nat) : Mem := m.store (block + 16) 8 v

def setPrev (m : Mem) (block v : Nat) : Mem := m.store (block + 24) 8 v

/-! ### The allocator -/

/-- The memory and the three globals of the allocator. -/
structure State where
  mem : Mem
  head : Nat
  totalSize : Nat
  usedSize : Nat

/-- `(size + 15u) & ~15u`: the mask is a 32-bit constant, widened with zeros. -/
def alignSize (size : Nat) : Nat := u64 (size + 15) &&& 0xfffffff0

def heapInit (m : Mem) (base size : Nat) : State :=
  if base = 0 ∨ size ≤ headerSize then
    { mem := m, head := 0, totalSize := 0, usedSize := 0 }
  else
    let m := setSize m base (u64Sub size headerSize)
    let m := setFree m base 1
    let m := setNext m base 0
    let m := setPrev m base 0
    { mem := m, head := base, totalSize := blockSize m base, usedSize := 0 }

def splitBlock (m : Mem) (block size : Nat) : Mem :=
  if blockSize m block < u64 (size + headerSize + 16) then m
  else
    let next := block + headerSize + size
    let m := setSize m next (u64Sub (u64Sub (blockSize m block) size) headerSize)
    let m := setFree m next 1
    let m := setNext m next (blockNext m block)
    let m := setPrev m next block
    let m := if blockNext m next ≠ 0 then setPrev m (blockNext m next) next else m
    let m := setNext m block next
    setSize m block size

/-- The search loop of `kmalloc`: the first free block from `block` on that holds
`size` bytes, `0` when the list ends before one is found. -/
def findFit (m : Mem) (size : Nat) : Nat → Nat → Option Nat
  | 0, _ => none
  | fuel + 1, block =>
    if block = 0 then some 0
    else if blockFree m block ≠ 0 ∧ blockSize m block ≥ size then some block
    else findFit m size fuel (blockNext m block)

/-- The heap after the call and the pointer returned, `0` for a null pointer. -/
def kmalloc (h : State) (size : Nat) : Option (State × Nat) :=
  if size = 0 ∨ size > 2 ^ 64 - 16 then some (h, 0)
  else
    (findFit h.mem (alignSize size) addressSpace h.head).map fun block =>
      if block = 0 then (h, 0)
      else
        let m := splitBlock h.mem block (alignSize size)
        let m := setFree m block 0
        ({ h with mem := m, usedSize := u64 (h.usedSize + blockSize m block) },
          block + headerSize)

def kcalloc (h : State) (count size : Nat) : Option (State × Nat) :=
  if count ≠ 0 ∧ size > (2 ^ 64 - 1) / count then some (h, 0)
  else
    let total := u64 (count * size)
    (kmalloc h total).map fun r =>
      if r.2 = 0 then r else ({ r.1 with mem := r.1.mem.memset r.2 0 total }, r.2)

/-- Merge `block` with a free successor, then do the same from a free predecessor. -/
def coalesce : Nat → Mem → Nat → Option Mem
  | 0, _, _ => none
  | fuel + 1, m, block =>
    let m :=
      if blockNext m block ≠ 0 ∧ blockFree m (blockNext m block) ≠ 0 then
        let m := setSize m block
          (u64 (blockSize m block + (headerSize + blockSize m (blockNext m block))))
        let m := setNext m block (blockNext m (blockNext m block))
        if blockNext m block ≠ 0 then setPrev m (blockNext m block) block else m
      else m
    if blockPrev m block ≠ 0 ∧ blockFree m (blockPrev m block) ≠ 0 then
      coalesce fuel m (blockPrev m block)
    else some m

/-- Whether the header a pointer stands behind lies outside the heap region. -/
def outside (h : State) (block : Nat) : Prop :=
  block < h.head ∨ block ≥ h.head + h.totalSize + headerSize

instance (h : State) (block : Nat) : Decidable (outside h block) :=
  inferInstanceAs (Decidable (_ ∨ _))

def kfree (h : State) (ptr : Nat) : Option State :=
  if ptr = 0 then some h
  else
    let block := ptr - headerSize
    if outside h block then some h
    else
      let used :=
        if blockFree h.mem block = 0 then u64Sub h.usedSize (blockSize h.mem block)
        else h.usedSize
      (coalesce addressSpace (setFree h.mem block 1) block).map fun m =>
        { h with mem := m, usedSize := used }

def krealloc (h : State) (ptr size : Nat) : Option (State × Nat) :=
  if ptr = 0 then kmalloc h size
  else if size = 0 then (kfree h ptr).map fun h => (h, 0)
  else
    let block := ptr - headerSize
    if outside h block ∨ blockFree h.mem block ≠ 0 then some (h, 0)
    else if blockSize h.mem block ≥ size then some (h, ptr)
    else
      (kmalloc h size).bind fun r =>
        if r.2 = 0 then some (r.1, 0)
        else
          let m := r.1.mem.memcpy r.2 ptr (blockSize r.1.mem block)
          (kfree { r.1 with mem := m } ptr).map fun h => (h, r.2)

end Nv0ken.Heap
