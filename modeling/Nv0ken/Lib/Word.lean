/-
Machine integers as natural numbers.

Sizes, offsets and addresses of the program are unsigned 64-bit numbers.  They are
kept as natural numbers, and every operation whose result may not fit is followed by
the reduction the machine performs.  A conversion to a signed 32-bit `int` keeps the
low half and reads its top bit as the sign.
-/
import Mathlib.Data.Int.Basic
import Mathlib.Data.Nat.Bitwise
import Mathlib.Algebra.Order.Group.Nat

namespace Nv0ken.Word

/-- The result of an unsigned 64-bit operation. -/
def u64 (n : Nat) : Nat := n % 2 ^ 64

/-- Unsigned 64-bit subtraction. -/
def u64Sub (a b : Nat) : Nat := (a + 2 ^ 64 - b) % 2 ^ 64

/-- Conversion to a signed 32-bit number. -/
def toInt32 (n : Nat) : Int :=
  if n % 2 ^ 32 < 2 ^ 31 then (n % 2 ^ 32 : Nat) else (n % 2 ^ 32 : Nat) - 2 ^ 32

/-- The result of a signed 32-bit operation. -/
def int32 (n : Int) : Int := n.bmod (2 ^ 32)

/-- The result of a signed 32-bit operation that must not overflow. -/
def checked (n : Int) : Option Int := if -2 ^ 31 ≤ n ∧ n < 2 ^ 31 then some n else none

/-- Conversion of any number to an unsigned 64-bit one. -/
def ofInt (n : Int) : Nat := (n % 2 ^ 64).toNat

/-- Conversion to a signed 64-bit number. -/
def toInt64 (n : Nat) : Int :=
  if n % 2 ^ 64 < 2 ^ 63 then (n % 2 ^ 64 : Nat) else (n % 2 ^ 64 : Nat) - 2 ^ 64

@[simp] theorem u64_of_lt {n : Nat} (h : n < 2 ^ 64) : u64 n = n := Nat.mod_eq_of_lt h

theorem u64_lt (n : Nat) : u64 n < 2 ^ 64 := Nat.mod_lt _ (by decide)

theorem u64Sub_of_le {a b : Nat} (hb : b ≤ a) (ha : a < 2 ^ 64) : u64Sub a b = a - b := by
  unfold u64Sub
  omega

@[simp] theorem toInt32_of_lt {n : Nat} (h : n < 2 ^ 31) : toInt32 n = n := by
  have hmod : n % 2 ^ 32 = n := Nat.mod_eq_of_lt (by omega)
  rw [toInt32, hmod, if_pos h]

theorem toInt32_lt (n : Nat) : toInt32 n < 2 ^ 31 := by
  unfold toInt32
  split <;> omega

theorem int32_of_range {n : Int} (hlo : -2 ^ 31 ≤ n) (hhi : n < 2 ^ 31) : int32 n = n := by
  unfold int32
  rw [Int.bmod_eq_of_le]
  · omega
  · omega

theorem checked_of_range {n : Int} (hlo : -2 ^ 31 ≤ n) (hhi : n < 2 ^ 31) : checked n = some n :=
  if_pos ⟨hlo, hhi⟩

theorem checked_eq_some {n m : Int} : checked n = some m ↔ (-2 ^ 31 ≤ n ∧ n < 2 ^ 31) ∧ n = m := by
  unfold checked
  rw [Option.ite_none_right_eq_some, Option.some.injEq]

/-- Masking away the low `k` bits of a `w`-bit number rounds it down. -/
theorem and_high_mask {w k : Nat} (hk : k ≤ w) (v : Nat) :
    v &&& (2 ^ w - 2 ^ k) = v % 2 ^ w / 2 ^ k * 2 ^ k := by
  have hsplit : 2 ^ w = 2 ^ (w - k) * 2 ^ k := by
    rw [← pow_add, Nat.sub_add_cancel hk]
  have hmask : 2 ^ w - 2 ^ k = (2 ^ (w - k) - 1) <<< k := by
    rw [Nat.shiftLeft_eq, Nat.sub_mul, ← hsplit, Nat.one_mul]
  have hdiv : v % 2 ^ w / 2 ^ k = v / 2 ^ k % 2 ^ (w - k) := by
    rw [hsplit, Nat.mul_comm (2 ^ (w - k)), Nat.mod_mul_right_div_self]
  apply Nat.eq_of_testBit_eq
  intro j
  rw [hdiv, ← Nat.and_two_pow_sub_one_eq_mod, hmask, Nat.testBit_and, Nat.testBit_shiftLeft,
    ← Nat.shiftLeft_eq, Nat.testBit_shiftLeft, Nat.testBit_and, Nat.testBit_div_two_pow]
  by_cases hj : k ≤ j
  · simp [hj, Nat.sub_add_cancel hj]
  · simp [hj]

end Nv0ken.Word
