/-
Bitmaps: `kernel/lib/bitmap.c`.

A bitmap is an array of 64-bit words and the number of bits in use.  Every access checks
its bit against that number; the words behind the last one in use are there, but never
read.
-/
import Mathlib.Data.List.Basic

namespace Nv0ken

/-- `bitmap_t`. -/
structure Bitmap where
  words : Nat → BitVec 64
  bitCount : Nat

namespace Bitmap

/-- `BITS_PER_WORD`. -/
def bitsPerWord : Nat := 64

def bitmapStorageWords (bitCount : Nat) : Nat := (bitCount + bitsPerWord - 1) / bitsPerWord

/-- The word with one bit. -/
def bitMask (bit : Nat) : BitVec 64 := 1#64 <<< (bit % bitsPerWord)

/-- The bitmap with one word replaced. -/
def setWord (b : Bitmap) (i : Nat) (w : BitVec 64) : Bitmap :=
  { b with words := fun j => if j = i then w else b.words j }

def bitmapInit (storage : Nat → BitVec 64) (bitCount : Nat) : Bitmap := ⟨storage, bitCount⟩

def bitmapSetAll (b : Bitmap) : Bitmap :=
  { b with words := fun i =>
      if i < bitmapStorageWords b.bitCount then BitVec.allOnes 64 else b.words i }

def bitmapSet (b : Bitmap) (bit : Nat) : Bitmap :=
  if bit ≥ b.bitCount then b
  else b.setWord (bit / bitsPerWord) (b.words (bit / bitsPerWord) ||| bitMask bit)

def bitmapClear (b : Bitmap) (bit : Nat) : Bitmap :=
  if bit ≥ b.bitCount then b
  else b.setWord (bit / bitsPerWord) (b.words (bit / bitsPerWord) &&& ~~~ bitMask bit)

def bitmapTest (b : Bitmap) (bit : Nat) : Bool :=
  if bit ≥ b.bitCount then false
  else b.words (bit / bitsPerWord) &&& bitMask bit ≠ 0#64

/-- The first clear bit, `none` for `-1`. -/
def bitmapFindClear (b : Bitmap) : Option Nat :=
  (List.range b.bitCount).find? fun bit => !bitmapTest b bit

/-- The loop of `bitmap_find_clear_range` over the bits from `bit` on, `left` of them. -/
def findClearRun (b : Bitmap) (count : Nat) : Nat → Nat → Nat → Nat → Option Nat
  | 0, _, _, _ => none
  | left + 1, bit, runStart, runLength =>
    if bitmapTest b bit then findClearRun b count left (bit + 1) runStart 0
    else
      let runStart := if runLength = 0 then bit else runStart
      if runLength + 1 = count then some runStart
      else findClearRun b count left (bit + 1) runStart (runLength + 1)

def bitmapFindClearRange (b : Bitmap) (count : Nat) : Option Nat :=
  if count = 0 ∨ count > b.bitCount then none else findClearRun b count b.bitCount 0 0 0

end Bitmap

end Nv0ken
