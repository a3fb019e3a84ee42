/-
The physical frame allocator: `kernel/mm/pmm.c`, with the rounding of `kernel/lib/math.h`.

A set bit is a frame in use.  The two marking functions walk a range of addresses frame
by frame; their bounds are rounded in opposite directions, with 64-bit additions that
may wrap.
-/
import Nv0ken.Kernel.Lib.Bitmap
import Nv0ken.Lib.Word

namespace Nv0ken.Pmm

open Bitmap Word

/-- `PMM_FRAME_SIZE`. -/
def frameSize : Nat := 4096

/-- `PMM_MAX_FRAMES`. -/
def maxFrames : Nat := 1024 * 1024

/-- `value & ~(alignment - 1)`. -/
def alignDownU64 (value alignment : Nat) : Nat := value &&& (2 ^ 64 - alignment)

def alignUpU64 (value alignment : Nat) : Nat :=
  alignDownU64 (u64 (value + alignment - 1)) alignment

/-- The static variables of the allocator. -/
structure State where
  frameMap : Bitmap
  totalFrames : Nat
  freeFrames : Nat

def frameIndex (addr : Nat) : Nat := addr / frameSize

def pmmInit (memoryTop : Nat) : State :=
  let total := min (memoryTop / frameSize) maxFrames
  { frameMap := bitmapSetAll (bitmapInit (fun _ => 0) total), totalFrames := total,
    freeFrames := 0 }

/-- `for (addr = start; addr < end; addr += PMM_FRAME_SIZE)`. -/
def frameLoop (body : State → Nat → State) (start stop : Nat) (s : State) : State :=
  (List.range' start ((stop - start + frameSize - 1) / frameSize) frameSize).foldl body s

/-- A frame that is in use becomes free. -/
def release (s : State) (index : Nat) : State :=
  if index < s.totalFrames ∧ bitmapTest s.frameMap index then
    { s with frameMap := bitmapClear s.frameMap index, freeFrames := u64 (s.freeFrames + 1) }
  else s

/-- The body of the loop of `pmm_mark_usable`. -/
def releaseAt (s : State) (addr : Nat) : State := release s (frameIndex addr)

/-- The body of the loop of `pmm_mark_reserved`. -/
def reserveAt (s : State) (addr : Nat) : State :=
  let index := frameIndex addr
  if index < s.totalFrames ∧ !bitmapTest s.frameMap index then
    { s with frameMap := bitmapSet s.frameMap index, freeFrames := u64Sub s.freeFrames 1 }
  else s

def pmmMarkUsable (s : State) (base length : Nat) : State :=
  frameLoop releaseAt (alignUpU64 base frameSize) (alignDownU64 (u64 (base + length)) frameSize) s

def pmmMarkReserved (s : State) (base length : Nat) : State :=
  frameLoop reserveAt (alignDownU64 base frameSize) (alignUpU64 (u64 (base + length)) frameSize) s

/-- The address returned is `0` when no frame is free. -/
def pmmAllocFrame (s : State) : State × Nat :=
  match bitmapFindClear s.frameMap with
  | none => (s, 0)
  | some index =>
    ({ s with frameMap := bitmapSet s.frameMap index, freeFrames := u64Sub s.freeFrames 1 },
      index * frameSize)

def pmmAllocFrames (s : State) (count : Nat) : State × Nat :=
  match bitmapFindClearRange s.frameMap count with
  | none => (s, 0)
  | some index =>
    ({ s with
      frameMap := (List.range count).foldl (fun b i => bitmapSet b (index + i)) s.frameMap
      freeFrames := u64Sub s.freeFrames count },
      index * frameSize)

def pmmFreeFrames (s : State) (frame count : Nat) : State :=
  (List.range count).foldl (fun s i => release s (u64 (frameIndex frame + i))) s

def pmmFreeFrame (s : State) (frame : Nat) : State := pmmFreeFrames s frame 1

end Nv0ken.Pmm
