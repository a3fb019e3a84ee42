/-
Page tables: `kernel/mm/vmm.c`, with the constants of `kernel/arch/x86_64/paging.h`.

Tables fill whole pages and every pointer to one is a page-aligned physical address plus
the same offset, so the entries of two tables never share a byte: the memory is kept as
one array of 512 entries for each table pointer.  New tables come from the frame
allocator.  `0` is the null pointer, as in the source.
-/
import Nv0ken.Kernel.Mm.Pmm

namespace Nv0ken.Vmm

open Pmm

abbrev Pte := BitVec 64

/-- `PAGE_SIZE`. -/
def pageSize : BitVec 64 := 4096#64

/-- `PAGE_MASK`. -/
def pageMask : BitVec 64 := ~~~ (pageSize - 1#64)

def ptePresent : Pte := 1#64 <<< 0
def pteWritable : Pte := 1#64 <<< 1
def pteUser : Pte := 1#64 <<< 2
def pteWritethrough : Pte := 1#64 <<< 3
def pteNocache : Pte := 1#64 <<< 4
def pteAccessed : Pte := 1#64 <<< 5
def pteDirty : Pte := 1#64 <<< 6
def pteHuge : Pte := 1#64 <<< 7
def pteGlobal : Pte := 1#64 <<< 8
def pteNoexec : Pte := 1#64 <<< 63

/-- An index into a table. -/
abbrev Index := BitVec 9

def pml4Index (virt : BitVec 64) : Index := BitVec.extractLsb' 39 9 virt
def pdptIndex (virt : BitVec 64) : Index := BitVec.extractLsb' 30 9 virt
def pdIndex (virt : BitVec 64) : Index := BitVec.extractLsb' 21 9 virt
def ptIndex (virt : BitVec 64) : Index := BitVec.extractLsb' 12 9 virt

/-- `vmm_space_t`. -/
structure Space where
  pml4Phys : BitVec 64
  hhdmOffset : BitVec 64

/-- The tables in memory and the frame allocator. -/
structure State where
  tables : BitVec 64 → Index → Pte
  pmm : Pmm.State

def physToVirt (space : Space) (phys : BitVec 64) : BitVec 64 := phys + space.hhdmOffset

/-- `table[index] = entry`. -/
def State.write (s : State) (table : BitVec 64) (index : Index) (entry : Pte) : State :=
  { s with tables := fun t i => if t = table ∧ i = index then entry else s.tables t i }

/-- `memset(table, 0, PAGE_SIZE)`. -/
def State.clear (s : State) (table : BitVec 64) : State :=
  { s with tables := fun t i => if t = table then 0#64 else s.tables t i }

def vmmNextTable (space : Space) (s : State) (parent : BitVec 64) (index : Index)
    (flags : BitVec 64) : State × BitVec 64 :=
  let entry := s.tables parent index
  if entry &&& ptePresent = 0#64 then
    let r := pmmAllocFrame s.pmm
    let s := { s with pmm := r.1 }
    if r.2 = 0 then (s, 0#64)
    else
      let frame := BitVec.ofNat 64 r.2
      let table := physToVirt space frame
      if table = 0#64 then ({ s with pmm := pmmFreeFrame s.pmm r.2 }, 0#64)
      else
        ((s.clear table).write parent index
          (frame ||| ptePresent ||| pteWritable ||| (flags &&& pteUser)), table)
  else if entry &&& pteHuge ≠ 0#64 then (s, 0#64)
  else (s, physToVirt space (entry &&& pageMask))

def vmmLookupTable (space : Space) (s : State) (parent : BitVec 64) (index : Index) : BitVec 64 :=
  let entry := s.tables parent index
  if entry &&& ptePresent = 0#64 ∨ entry &&& pteHuge ≠ 0#64 then 0#64
  else physToVirt space (entry &&& pageMask)

/-- The state after the call and whether it returned `0`. -/
def vmmMapPage (space : Space) (s : State) (virt phys flags : BitVec 64) : State × Bool :=
  if space.pml4Phys = 0#64 then (s, false)
  else
    let pml4 := physToVirt space space.pml4Phys
    if pml4 = 0#64 then (s, false)
    else
      let (s, pdpt) := vmmNextTable space s pml4 (pml4Index virt) flags
      let (s, pd) :=
        if pdpt ≠ 0#64 then vmmNextTable space s pdpt (pdptIndex virt) flags else (s, 0#64)
      let (s, pt) := if pd ≠ 0#64 then vmmNextTable space s pd (pdIndex virt) flags else (s, 0#64)
      if pt = 0#64 then (s, false)
      else (s.write pt (ptIndex virt) ((phys &&& pageMask) ||| flags ||| ptePresent), true)

def vmmUnmapPage (space : Space) (s : State) (virt : BitVec 64) : State × Bool :=
  if space.pml4Phys = 0#64 then (s, false)
  else
    let pml4 := physToVirt space space.pml4Phys
    if pml4 = 0#64 then (s, false)
    else
      let pdpt := vmmLookupTable space s pml4 (pml4Index virt)
      let pd := if pdpt ≠ 0#64 then vmmLookupTable space s pdpt (pdptIndex virt) else 0#64
      let pt := if pd ≠ 0#64 then vmmLookupTable space s pd (pdIndex virt) else 0#64
      if pt = 0#64 ∨ s.tables pt (ptIndex virt) &&& ptePresent = 0#64 then (s, false)
      else (s.write pt (ptIndex virt) 0#64, true)

def vmmVirtToPhys (space : Space) (s : State) (virt : BitVec 64) : BitVec 64 :=
  if space.pml4Phys = 0#64 then 0#64
  else
    let pml4 := physToVirt space space.pml4Phys
    let pml4e := s.tables pml4 (pml4Index virt)
    if pml4e &&& ptePresent = 0#64 then 0#64
    else
      let pdpt := physToVirt space (pml4e &&& pageMask)
      let pdpte := s.tables pdpt (pdptIndex virt)
      if pdpte &&& ptePresent = 0#64 then 0#64
      else
        let pd := physToVirt space (pdpte &&& pageMask)
        let pde := s.tables pd (pdIndex virt)
        if pde &&& ptePresent = 0#64 then 0#64
        else if pde &&& pteHuge ≠ 0#64 then
          (pde &&& ~~~ ((1#64 <<< 21) - 1#64)) ||| (virt &&& ((1#64 <<< 21) - 1#64))
        else
          let pt := physToVirt space (pde &&& pageMask)
          let pte := s.tables pt (ptIndex virt)
          if pte &&& ptePresent = 0#64 then 0#64
          else (pte &&& pageMask) ||| (virt &&& (pageSize - 1#64))

end Nv0ken.Vmm
