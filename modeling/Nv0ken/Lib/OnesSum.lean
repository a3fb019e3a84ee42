/-
Sums with end-around carry.

Packets are summed as 16-bit numbers, high byte first, and a carry out of the top comes back in at
the bottom.  Such a sum is the ordinary sum modulo `65535`, with `65535` itself standing for zero as
soon as anything but zeros has been added; so a packet sums to all ones exactly when its ordinary
sum is a positive multiple of `65535` (`allOnes_iff`).

Exchanging the two bytes of a number multiplies it by `256` modulo `65535`.  A checksum that is
stored with its bytes exchanged therefore does not complement the sum any more, unless that sum is a
multiple of `257`: `swapped_iff`.
-/
import Mathlib

namespace Nv0ken.OnesSum

open List

variable {a b c : Nat} {ws : List Nat} {bytes more : List UInt8}

/-- The bytes as 16-bit numbers, high byte first; a last single byte is a high byte. -/
def words : List UInt8 → List Nat
  | hi :: lo :: rest => (hi.toNat * 256 + lo.toNat) :: words rest
  | [hi] => [hi.toNat * 256]
  | [] => []

/-- The ordinary sum. -/
def total (bytes : List UInt8) : Nat := (words bytes).sum

/-- Addition with end-around carry. -/
def add (a b : Nat) : Nat := (a + b) % 65536 + (a + b) / 65536

def sum (ws : List Nat) : Nat := ws.foldl add 0

def AllOnes (bytes : List UInt8) : Prop := sum (words bytes) = 0xFFFF

instance (bytes : List UInt8) : Decidable (AllOnes bytes) := inferInstanceAs (Decidable (_ = _))

/-- The number with its two bytes exchanged. -/
def swap (w : Nat) : Nat := w % 256 * 256 + w / 256

theorem words_lt (bytes : List UInt8) : ∀ w ∈ words bytes, w < 65536 := by
  intro w hw
  induction bytes using words.induct with
  | case1 hi lo rest ih =>
    have hhi := hi.toNat_lt
    have hlo := lo.toNat_lt
    rcases mem_cons.mp hw with rfl | hrest
    · omega
    · exact ih hrest
  | case2 hi =>
    have hhi := hi.toNat_lt
    rw [mem_singleton.mp hw]
    omega
  | case3 => exact absurd hw not_mem_nil

theorem words_append (h : bytes.length % 2 = 0) :
    words (bytes ++ more) = words bytes ++ words more := by
  induction bytes using words.induct with
  | case1 hi lo rest ih =>
    rw [length_cons, length_cons] at h
    show (hi.toNat * 256 + lo.toNat) :: words (rest ++ more) = _
    rw [ih (by omega)]
    rfl
  | case2 hi => simp at h
  | case3 => rfl

theorem total_append (h : bytes.length % 2 = 0) :
    total (bytes ++ more) = total bytes + total more := by
  unfold total
  rw [words_append h, sum_append]

theorem total_le (bytes : List UInt8) : total bytes ≤ 65535 * bytes.length := by
  unfold total
  induction bytes using words.induct with
  | case1 hi lo rest ih =>
    have hhi := hi.toNat_lt
    have hlo := lo.toNat_lt
    rw [words, sum_cons, length_cons, length_cons]
    omega
  | case2 hi =>
    have hhi := hi.toNat_lt
    rw [words, sum_singleton, length_singleton]
    omega
  | case3 => exact Nat.le_refl 0

theorem foldl_add (hws : ∀ w ∈ ws, w < 65536) (ha : a < 65536) :
    ws.foldl add a < 65536 ∧ ws.foldl add a % 65535 = (a + ws.sum) % 65535 ∧
      (ws.foldl add a = 0 ↔ a + ws.sum = 0) := by
  induction ws generalizing a with
  | nil => simp [ha]
  | cons w ws ih =>
    rw [forall_mem_cons] at hws
    have hadd : add a w < 65536 ∧ add a w % 65535 = (a + w) % 65535 ∧
        (add a w = 0 ↔ a + w = 0) := by
      unfold add
      omega
    obtain ⟨hlt, hmod, hzero⟩ := ih hws.2 hadd.1
    rw [foldl_cons, sum_cons]
    refine ⟨hlt, ?_, ?_⟩
    · rw [hmod]
      omega
    · rw [hzero]
      omega

/-- **A packet sums to all ones exactly when its ordinary sum is a positive multiple of
`65535`.** -/
theorem allOnes_iff : AllOnes bytes ↔ 0 < total bytes ∧ 65535 ∣ total bytes := by
  have h := foldl_add (words_lt bytes) (by omega : 0 < 65536)
  unfold AllOnes sum total
  omega

/-- **A checksum stored with its bytes exchanged.**  `c` complements `a + b`, the sum over a part
`a` in which bytes are exchanged as well and a part `b` in which they are not.  With `c` exchanged,
and `a` as it should be, the sum is right exactly when `257` divides `b`. -/
theorem swapped_iff {a' : Nat} (ha : a' % 65535 = 256 * a % 65535) (h : 65535 ∣ a + b + c) :
    65535 ∣ a' + b + swap c ↔ 257 ∣ b := by
  unfold swap
  omega

end Nv0ken.OnesSum
