/-
The tags of the boot loader, `kernel/boot/multiboot2.c`.

Pointers into the information block are offsets from its start, and the memory there is a
function of the offset.
-/
import Nv0ken.Lib.Wire

namespace Nv0ken.Boot

open Wire

abbrev InfoBlock := Nat → UInt8

/-- `MULTIBOOT2_BOOTLOADER_MAGIC`. -/
def multiboot2Magic : Nat := 0x36D76289

def word32 (info : InfoBlock) (offset : Nat) : Nat :=
  leValue ((List.range 4).map fun i => info (offset + i))

def tagType (info : InfoBlock) (tag : Nat) : Nat := word32 info tag

def tagSize (info : InfoBlock) (tag : Nat) : Nat := word32 info (tag + 4)

/-- `(tag->size + 7u) & ~7u`. -/
def tagAdvance (info : InfoBlock) (tag : Nat) : Nat := (tagSize info tag + 7) % 2 ^ 32 / 8 * 8

/-- The loop has come to a tag, and not to the end. -/
def AtTag (info : InfoBlock) (cursor : Nat) : Prop :=
  cursor + 8 ≤ word32 info 0 ∧ tagType info cursor ≠ 0 ∧ 8 ≤ tagSize info cursor

instance (info : InfoBlock) (cursor : Nat) : Decidable (AtTag info cursor) := by
  unfold AtTag
  infer_instance

/-- The loop of `find_tag`: what it returns, or nothing if that takes more rounds. -/
def findTagLoop (info : InfoBlock) (wanted : Nat) : Nat → Nat → Nat → Option (Option Nat)
  | 0, _, _ => none
  | rounds + 1, cursor, occurrence =>
    if ¬ AtTag info cursor then some none
    else if tagType info cursor = wanted then
      match occurrence with
      | 0 => some (some cursor)
      | occurrence + 1 =>
        findTagLoop info wanted rounds (cursor + tagAdvance info cursor) occurrence
    else findTagLoop info wanted rounds (cursor + tagAdvance info cursor) occurrence

/-- `info` is nothing where `multiboot2_boot_info` is 0. -/
def findTag (magic : Nat) (info : Option InfoBlock) (wanted occurrence rounds : Nat) :
    Option (Option Nat) :=
  match info with
  | none => some none
  | some info =>
    if magic ≠ multiboot2Magic ∨ word32 info 0 < 16 then some none
    else findTagLoop info wanted rounds 8 occurrence

end Nv0ken.Boot
