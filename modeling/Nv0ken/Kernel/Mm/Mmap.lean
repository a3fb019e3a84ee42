/-
The memory map: `kernel/mm/mmap.c`.

The map of the boot loader is copied into a table of fixed size.  Entries without length
are skipped, and entries behind the last free place of the table are dropped.
-/
import Nv0ken.Lib.Word

namespace Nv0ken.Mmap

open Word

/-- `MMAP_MAX_REGIONS`. -/
def maxRegions : Nat := 128

/-- `mmap_region_type_t`. -/
inductive RegionType
  | usable
  | reserved
  | acpi
  | bootloader
  | kernel
  | framebuffer
  | bad
  deriving DecidableEq, Repr

/-- `mmap_region_t`. -/
structure Region where
  base : Nat
  length : Nat
  type : RegionType
  deriving DecidableEq, Repr

/-- An entry of the boot loader's map, with the number it uses for the type. -/
structure Entry where
  base : Nat
  length : Nat
  type : Nat
  deriving DecidableEq, Repr

def mmapAddRegion (regions : List Region) (r : Region) : List Region :=
  if r.length = 0 ∨ regions.length ≥ maxRegions then regions else regions ++ [r]

def mmapTypeFromLimine : Nat → RegionType
  | 0 => .usable
  | 2 => .acpi
  | 3 => .acpi
  | 5 => .bootloader
  | 6 => .kernel
  | 7 => .framebuffer
  | 4 => .bad
  | _ => .reserved

/-- What a limine entry says. -/
def limineRegion (e : Entry) : Region := ⟨e.base, e.length, mmapTypeFromLimine e.type⟩

/-- What a multiboot entry says: type 1 is usable. -/
def multibootRegion (e : Entry) : Region :=
  ⟨e.base, e.length, if e.type = 1 then .usable else .reserved⟩

/-- The loop of `mmap_init_from_limine`; a null entry is skipped. -/
def limineLoop : List Region → List (Option Entry) → List Region
  | regions, [] => regions
  | regions, e :: entries =>
    if regions.length < maxRegions then
      match e with
      | none => limineLoop regions entries
      | some e =>
        if e.length = 0 then limineLoop regions entries
        else limineLoop (mmapAddRegion regions (limineRegion e)) entries
    else regions

def mmapInitFromLimine (entries : List (Option Entry)) : List Region := limineLoop [] entries

/-- The loop of `multiboot2_init_memory_map`. -/
def multiboot2InitMemoryMap (entries : List Entry) : List Region :=
  entries.foldl (fun regions e => mmapAddRegion regions (multibootRegion e)) []

def mmapHighestAddr (regions : List Region) : Nat :=
  regions.foldl (fun highest r =>
    if u64 (r.base + r.length) > highest then u64 (r.base + r.length) else highest) 0

end Nv0ken.Mmap
