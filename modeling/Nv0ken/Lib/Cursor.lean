/-
Reading a list by position while it changes.

A reader remembers how many elements it has passed and asks for the one at that
position; meanwhile elements are put in front of the list and taken out of it.  `Seen`
says of the elements that matter that those before the position have been read once and
the others not yet.  It survives a change that moves no element over the position.
-/
import Mathlib.Data.List.Nodup

namespace Nv0ken.Cursor

open List

variable {α : Type*} [DecidableEq α] {P : α → Prop} {l log : List α} {k : Nat} {x : α}

/-- Of the elements with `P`, those before the position have been read once, and the others
have not been read. -/
def Seen (P : α → Prop) (l : List α) (k : Nat) (log : List α) : Prop :=
  ∀ i x, l[i]? = some x → P x → log.count x = if i < k then 1 else 0

theorem seen_start (P : α → Prop) (l : List α) : Seen P l 0 [] := by
  intro i x _ _
  simp

theorem idxOf_eq (hnodup : l.Nodup) (hx : l[k]? = some x) : l.idxOf x = k := by
  obtain ⟨hlt, rfl⟩ := List.getElem?_eq_some_iff.mp hx
  exact hnodup.idxOf_getElem k hlt

section

variable (h : Seen P l k log)
include h

/-- The element at the position is read. -/
theorem Seen.next (hnodup : l.Nodup) (hx : l[k]? = some x) : Seen P l (k + 1) (log ++ [x]) := by
  intro i y hy hP
  rw [count_append, h i y hy hP]
  by_cases hik : i = k
  · subst hik
    obtain rfl := Option.some.inj (hx.symm.trans hy)
    simp
  · have hne : x ≠ y := by
      rintro rfl
      exact hik ((idxOf_eq hnodup hy).symm.trans (idxOf_eq hnodup hx))
    have hlt : i < k + 1 ↔ i < k := by omega
    simp [hne, hlt]

/-- An element that does not matter is put in front, before anything was read or after
everything was passed. -/
theorem Seen.cons (hx : ¬ P x) (hk : k = 0 ∨ l.length < k) : Seen P (x :: l) k log := by
  intro i y hy hP
  cases i with
  | zero =>
    obtain rfl := Option.some.inj hy
    exact absurd hP hx
  | succ i =>
    rw [getElem?_cons_succ] at hy
    have hlt := (List.getElem?_eq_some_iff.mp hy).1
    have hiff : i + 1 < k ↔ i < k := by omega
    rw [h i y hy hP]
    simp only [hiff]

/-- An element that was not passed yet is taken out, or any after everything was passed. -/
theorem Seen.erase (hk : k ≤ l.idxOf x ∨ l.length ≤ k) : Seen P (l.erase x) k log := by
  intro i y hy hP
  rw [erase_eq_eraseIdx_of_idxOf rfl, getElem?_eraseIdx] at hy
  by_cases hi : i < l.idxOf x
  · rw [if_pos hi] at hy
    exact h i y hy hP
  · rw [if_neg hi] at hy
    have hlt := (List.getElem?_eq_some_iff.mp hy).1
    have hiff : i + 1 < k ↔ i < k := by omega
    rw [h (i + 1) y hy hP]
    simp only [hiff]

/-- When there is nothing at the position every element was read once. -/
theorem Seen.all (hend : l[k]? = none) (hx : x ∈ l) (hP : P x) : log.count x = 1 := by
  obtain ⟨i, hi⟩ := mem_iff_getElem?.mp hx
  have hlt := (List.getElem?_eq_some_iff.mp hi).1
  have hle := getElem?_eq_none_iff.mp hend
  rw [h i x hi hP, if_pos (by omega)]

end

/-- Taking out the element just read leaves the position one element too far. -/
theorem erase_read (hnodup : l.Nodup) (hx : l[k]? = some x) : l.erase x = l.eraseIdx k :=
  erase_eq_eraseIdx_of_idxOf (idxOf_eq hnodup hx)

end Nv0ken.Cursor
