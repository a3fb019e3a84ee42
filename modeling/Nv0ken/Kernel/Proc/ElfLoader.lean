/-
The ELF loader, `kernel/proc/elf_loader.c`.

An image is the list of its bytes, and the fields of its headers are read at their offsets.
-/
import Nv0ken.Lib.Wire
import Nv0ken.Lib.Word

namespace Nv0ken.Proc

open Wire Word

def elfField (image : List UInt8) (offset bytes : Nat) : Nat :=
  leValue ((image.drop offset).take bytes)

def elfEntry (image : List UInt8) : Nat := elfField image 24 8

def elfPhoff (image : List UInt8) : Nat := elfField image 32 8

def elfPhentsize (image : List UInt8) : Nat := elfField image 54 2

def elfPhnum (image : List UInt8) : Nat := elfField image 56 2

/-- Magic, class, byte order, machine and the sizes of the headers. -/
def elf64Validate (image : List UInt8) : Bool :=
  64 ≤ image.length ∧ elfField image 0 4 = 0x464C457F ∧ elfField image 4 1 = 2 ∧
    elfField image 5 1 = 1 ∧ elfField image 18 2 = 0x3E ∧ elfField image 52 2 = 64 ∧
    elfPhentsize image = 56 ∧ elfPhnum image ≠ 0 ∧ elfPhoff image ≤ image.length ∧
    elfPhnum image ≤ (image.length - elfPhoff image) / elfPhentsize image

structure ProgramHeader where
  type : Nat
  offset : Nat
  vaddr : Nat
  filesz : Nat
  memsz : Nat
  deriving DecidableEq

/-- The address behind the segment, as the machine computes it. -/
def ProgramHeader.stop (p : ProgramHeader) : Nat := u64 (p.vaddr + p.memsz)

def programOffset (image : List UInt8) (index : Nat) : Nat :=
  u64 (elfPhoff image + index * elfPhentsize image)

def programHeader (image : List UInt8) (index : Nat) : ProgramHeader :=
  let offset := programOffset image index
  { type := elfField image offset 4
    offset := elfField image (offset + 8) 8
    vaddr := elfField image (offset + 16) 8
    filesz := elfField image (offset + 32) 8
    memsz := elfField image (offset + 40) 8 }

/-- `low` and `high`. -/
structure Extent where
  low : Nat := 2 ^ 64 - 1
  high : Nat := 0

/-- One round of the loop over the program headers, or nothing if it returns -1. -/
def loadSegment (image : List UInt8) (e : Extent) (index : Nat) : Option Extent :=
  let program := programHeader image index
  if u64 (programOffset image index + 56) > image.length then none
  else if program.type ≠ 1 then some e
  else if program.offset > image.length ∨ program.filesz > image.length - program.offset ∨
      program.filesz > program.memsz ∨ program.stop < program.vaddr then none
  else if program.memsz = 0 then some e
  else
    some
      { low := if program.vaddr < e.low then program.vaddr else e.low
        high := if program.stop > e.high then program.stop else e.high }

structure ElfLoadResult where
  entry : Nat
  lowestVaddr : Nat
  highestVaddr : Nat
  deriving DecidableEq

def elfLoadProcess (image : List UInt8) : Option ElfLoadResult :=
  if !elf64Validate image then none
  else
    ((List.range (elfPhnum image)).foldlM (loadSegment image) {}).bind fun e =>
      if e.low = 2 ^ 64 - 1 ∨ elfEntry image < e.low ∨ elfEntry image ≥ e.high then none
      else some { entry := elfEntry image, lowestVaddr := e.low, highestVaddr := e.high }

end Nv0ken.Proc
