/-
Memory at boot: `init_memory` of `kernel/main.c`.

What the boot loader left behind is read, not parsed: the limine response if there is
one, the entries of the multiboot memory map and the first module otherwise.  Only the
part that sets up the frame allocator is here.
-/
import Nv0ken.Kernel.Mm.Mmap
import Nv0ken.Kernel.Mm.Pmm

namespace Nv0ken.Boot

open Word Mmap Pmm

/-- What multiboot hands over: the memory map, and where the first module starts and ends. -/
structure Multiboot where
  entries : List Entry
  module : Option (Nat × Nat)

/-- What the kernel finds when it starts.  `kernelEnd` is the physical address behind the
kernel's image. -/
structure Info where
  limine : Option (List (Option Entry))
  multiboot : Option Multiboot
  kernelEnd : Nat

/-- The table `init_memory` works on. -/
def regions (info : Info) : List Region :=
  match info.limine with
  | some entries => mmapInitFromLimine entries
  | none =>
    match info.multiboot with
    | some mb => multiboot2InitMemoryMap mb.entries
    | none => []

/-- `multiboot2_module(0, …)`. -/
def multiboot2Module (info : Info) : Option (Nat × Nat) :=
  (info.multiboot.bind Multiboot.module).bind fun m =>
    if m.2 < m.1 then none else some (m.1, m.2 - m.1)

def markRegion (s : State) (r : Region) : State :=
  if r.type = .usable then pmmMarkUsable s r.base r.length else pmmMarkReserved s r.base r.length

def initMemory (info : Info) : State :=
  if (regions info).length > 0 then
    let s := pmmInit (mmapHighestAddr (regions info))
    let s := (regions info).foldl markRegion s
    let kernelStart := 0x100000
    let s := pmmMarkReserved s 0 0x100000
    let s := pmmMarkReserved s kernelStart (u64Sub info.kernelEnd kernelStart)
    match multiboot2Module info with
    | some m => pmmMarkReserved s m.1 m.2
    | none => s
  else pmmInit 0

end Nv0ken.Boot
