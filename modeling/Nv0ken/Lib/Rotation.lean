/-
A list read in a circle.

Somebody who goes round a list and stops at an element goes on from the place behind it:
`turnedPast l a` is the list in that order, with `a` last.  Whatever turn the round began
with, stopping at `a` in the middle of it leaves the rest of the round to be followed by
what was passed, which is `turnedPast_split`.
-/
import Mathlib.Data.List.Nodup

namespace Nv0ken.Rotation

open List

variable {α : Type*} [DecidableEq α] {l u v x y : List α} {a : α}

/-- The list from the place behind `a` on, round to `a` itself. -/
def turnedPast (l : List α) (a : α) : List α :=
  l.drop (l.idxOf a + 1) ++ l.take (l.idxOf a + 1)

theorem turnedPast_append (ha : a ∉ x) : turnedPast (x ++ a :: y) a = y ++ (x ++ [a]) := by
  have hidx : (x ++ a :: y).idxOf a = x.length := by
    rw [idxOf_append_of_notMem ha, idxOf_cons_self, Nat.add_zero]
  have hsplit : x ++ a :: y = (x ++ [a]) ++ y := by simp
  have hlen : x.length + 1 = (x ++ [a]).length := by simp
  unfold turnedPast
  rw [hidx, hsplit, hlen, drop_left, take_left]

/-- **A round that stops at `a` goes on behind it**: first what was still to come, then
what was passed. -/
theorem turnedPast_split (hl : (u ++ v).Nodup) (h : v ++ u = x ++ a :: y) :
    turnedPast (u ++ v) a = y ++ (x ++ [a]) := by
  have hbefore {p q : List α} (hpq : (p ++ a :: q).Nodup) : a ∉ p :=
    fun ha => (nodup_append.mp hpq).2.2 a ha a (by simp) rfl
  rcases append_eq_append_iff.mp h with ⟨z, rfl, rfl⟩ | ⟨z, rfl, hy⟩
  · -- `a` stands before the place the round began at
    rw [append_assoc, cons_append] at hl ⊢
    rw [turnedPast_append (hbefore hl)]
    simp
  · cases z with
    | nil =>
      obtain rfl : a :: y = u := hy
      exact (turnedPast_append (x := []) (by simp)).trans (by simp)
    | cons b z =>
      -- `a` stands at that place or behind it
      obtain ⟨rfl, rfl⟩ := cons.inj (hy : a :: y = b :: (z ++ u))
      rw [← append_assoc] at hl ⊢
      rw [turnedPast_append (hbefore hl)]
      simp

theorem turnedPast_perm : (turnedPast l a).Perm l := by
  exact perm_append_comm.trans (Perm.of_eq (take_append_drop _ l))

end Nv0ken.Rotation
