/-
Text with a gap.

An editor that inserts where it stands keeps its text in one block of memory with a
hole: the bytes up to `lo`, then the hole, then the bytes from `hi` on.  The text is
what is left when the hole is cut out.  Moving the hole copies the bytes between the
old and the new place across it, growing it copies everything behind it towards the
new end, filling it from the left inserts, and widening it to the right deletes.  Each
of these is one equation about the text here; all of them come down to what the front
and the back of an overwritten block are.
-/
import Nv0ken.Lib.Buffer

namespace Nv0ken.Buffer

open List

variable {buf src : List UInt8} {off n p : Nat}

/-- The block after a move of `n` bytes inside it; the two places may overlap. -/
def shift (buf : List UInt8) (dst src n : Nat) : List UInt8 := overwrite buf dst (slice buf src n)

/-- The text around the hole from `lo` to `hi`. -/
def around (buf : List UInt8) (lo hi : Nat) : List UInt8 := buf.take lo ++ buf.drop hi

/-! ### Parts of an overwritten block -/

theorem length_slice (h : off + n ≤ buf.length) : (slice buf off n).length = n := by
  unfold slice
  rw [length_take, length_drop]
  omega

theorem take_append_slice (h : off ≤ n) : buf.take off ++ slice buf off (n - off) = buf.take n := by
  unfold slice
  rw [← take_add, Nat.add_sub_cancel' h]

theorem take_overwrite_of_le (hn : n ≤ off) (h : off ≤ buf.length) :
    (overwrite buf off src).take n = buf.take n := by
  have hlen : n ≤ (buf.take off).length := by
    rw [length_take]
    omega
  unfold overwrite
  rw [append_assoc, take_append_of_le_length hlen, take_take, Nat.min_eq_left hn]

theorem take_overwrite (h : off ≤ buf.length) :
    (overwrite buf off src).take (off + src.length) = buf.take off ++ src := by
  have hlen : off + src.length = (buf.take off ++ src).length := by
    rw [length_append, length_take]
    omega
  unfold overwrite
  rw [hlen, take_left]

theorem drop_overwrite (h : off ≤ buf.length) :
    (overwrite buf off src).drop off = src ++ buf.drop (off + src.length) := by
  have hlen : (buf.take off).length = off := by
    rw [length_take]
    omega
  unfold overwrite
  rw [append_assoc, drop_left' hlen]

theorem drop_overwrite_of_le (hn : off + src.length ≤ n) (h : off ≤ buf.length) :
    (overwrite buf off src).drop n = buf.drop n := by
  obtain ⟨k, rfl⟩ := Nat.exists_eq_add_of_le hn
  have hlen : (buf.take off ++ src).length = off + src.length := by
    rw [length_append, length_take]
    omega
  unfold overwrite
  rw [← drop_drop, drop_left' hlen, drop_drop]

/-! ### The text -/

section

variable {lo hi : Nat} (hlo : lo ≤ hi) (hhi : hi ≤ buf.length)
include hlo hhi

theorem length_around : (around buf lo hi).length = buf.length - (hi - lo) := by
  unfold around
  rw [length_append, length_take, length_drop]
  omega

theorem byteAt_around (i : Nat) :
    byteAt (around buf lo hi) i = byteAt buf (if i < lo then i else i + (hi - lo)) := by
  have hlen : (buf.take lo).length = lo := by
    rw [length_take]
    omega
  unfold byteAt around
  by_cases hi' : i < lo
  · rw [if_pos hi', getElem?_append_left (by omega), getElem?_take_of_lt hi']
  · rw [if_neg hi', getElem?_append_right (by omega), hlen, getElem?_drop]
    congr 2
    omega

theorem take_around : (around buf lo hi).take lo = buf.take lo := by
  unfold around
  rw [take_left']
  rw [length_take]
  omega

theorem drop_around (n : Nat) : (around buf lo hi).drop (lo + n) = buf.drop (hi + n) := by
  have hlen : (buf.take lo).length = lo := by
    rw [length_take]
    omega
  unfold around
  rw [← drop_drop, drop_left' hlen, drop_drop]

/-- Moving the hole towards the front. -/
theorem around_move_front (hp : p ≤ lo) :
    around (shift buf (hi - (lo - p)) p (lo - p)) p (hi - (lo - p)) = around buf lo hi := by
  have hlen : (slice buf p (lo - p)).length = lo - p := length_slice (by omega)
  have hback : hi - (lo - p) + (lo - p) = hi := by omega
  unfold around shift
  rw [take_overwrite_of_le (by omega) (by omega), drop_overwrite (by omega), hlen, hback,
    ← append_assoc, take_append_slice hp]

/-- Moving the hole towards the back. -/
theorem around_move_back (hp : lo ≤ p) (hroom : hi + (p - lo) ≤ buf.length) :
    around (shift buf lo hi (p - lo)) p (hi + (p - lo)) = around buf lo hi := by
  have hlen : (slice buf hi (p - lo)).length = p - lo := length_slice hroom
  have htake : (shift buf lo hi (p - lo)).take p = buf.take lo ++ slice buf hi (p - lo) := by
    have := @take_overwrite buf (slice buf hi (p - lo)) lo (by omega)
    rwa [hlen, Nat.add_sub_cancel' hp] at this
  have hdrop : (shift buf lo hi (p - lo)).drop (hi + (p - lo)) = buf.drop (hi + (p - lo)) := by
    exact drop_overwrite_of_le (by omega) (by omega)
  unfold around
  rw [htake, hdrop, append_assoc, ← drop_drop]
  unfold slice
  rw [take_append_drop]

/-- Growing the hole by what has been appended to the block. -/
theorem around_grow (new : List UInt8) :
    around (shift (buf ++ new) (hi + new.length) hi (buf.length - hi)) lo (hi + new.length) =
      around buf lo hi := by
  have hslice : slice (buf ++ new) hi (buf.length - hi) = buf.drop hi := by
    unfold slice
    rw [drop_append_of_le_length hhi, ← length_drop, take_left]
  have hend : (buf ++ new).drop (hi + new.length + (buf.drop hi).length) = [] := by
    apply drop_eq_nil_of_le
    rw [length_append, length_drop]
    omega
  have hroom : hi + new.length ≤ (buf ++ new).length := by
    rw [length_append]
    omega
  unfold around shift
  rw [hslice, take_overwrite_of_le (by omega) hroom, drop_overwrite hroom, hend, append_nil,
    take_append_of_le_length (by omega)]

/-- Filling the hole from the left inserts. -/
theorem around_fill (hroom : lo + src.length ≤ hi) :
    around (overwrite buf lo src) (lo + src.length) hi =
      (around buf lo hi).take lo ++ src ++ (around buf lo hi).drop lo := by
  have hdrop : (around buf lo hi).drop lo = buf.drop hi := drop_around hlo hhi 0
  rw [take_around hlo hhi, hdrop]
  unfold around
  rw [take_overwrite (by omega), drop_overwrite_of_le hroom (by omega)]

/-- Widening the hole to the right deletes. -/
theorem around_widen (n : Nat) :
    around buf lo (hi + n) = (around buf lo hi).take lo ++ (around buf lo hi).drop (lo + n) := by
  rw [take_around hlo hhi, drop_around hlo hhi]
  rfl

end

end Nv0ken.Buffer
