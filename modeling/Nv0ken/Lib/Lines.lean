/-
Text kept as a list of lines.

A place in the text splits one of the lines: the lines before it, the part of its own line
before it, the part behind it, and the lines behind.  Text that is put in at a place extends
what stands before it, character by character: a separator ends the line, anything else is
put at the end of it.  So `extend` says what an insertion does, and the text that leads from
one place to a later one is the one that extends the first to the second.
-/
import Mathlib.Data.List.GetD
import Mathlib.Data.List.Induction

namespace Nv0ken.Lines

open List

variable {α : Type*} {sep : α} {xs ys zs : List (List α)} {x y t u v : List α} {L : List (List α)}
  {p : List (List α) × List α} {r c : Nat}

/-! ### Places -/

/-- The lines with a place in them. -/
def place (p : List (List α) × List α) (y : List α) (ys : List (List α)) : List (List α) :=
  p.1 ++ (p.2 ++ y) :: ys

/-- Every place of a text is somewhere in a line. -/
theorem exists_place (hr : r < L.length) (hc : c ≤ (L.getD r []).length) :
    ∃ p y ys, L = place p y ys ∧ p.1.length = r ∧ p.2.length = c := by
  refine ⟨(L.take r, (L.getD r []).take c), (L.getD r []).drop c, L.drop (r + 1), ?_, ?_, ?_⟩
  · unfold place
    rw [take_append_drop, getD_eq_getElem _ _ hr, getElem_cons_drop, take_append_drop]
  · rw [length_take]
    omega
  · rw [length_take]
    omega

@[simp] theorem length_place : (place p y ys).length = p.1.length + ys.length + 1 := by
  unfold place
  simp
  omega

@[simp] theorem getD_place : (place p y ys).getD p.1.length [] = p.2 ++ y := by
  unfold place
  simp

@[simp] theorem take_place : (place p y ys).take p.1.length = p.1 := by
  unfold place
  simp

@[simp] theorem drop_place : (place p y ys).drop (p.1.length + 1) = ys := by
  unfold place
  simp

/-! ### The text as a whole -/

/-- The text before a place. -/
def before (sep : α) (p : List (List α) × List α) : List α := p.1.flatMap (· ++ [sep]) ++ p.2

theorem intercalate_place (sep : α) :
    intercalate [sep] (place p y ys) = before sep p ++ intercalate [sep] (y :: ys) := by
  obtain ⟨xs, x⟩ := p
  unfold place before
  induction xs with
  | nil => cases ys <;> simp [intercalate]
  | cons w xs ih =>
    have hcons : intercalate [sep] (w :: (xs ++ (x ++ y) :: ys)) =
        w ++ ([sep] ++ intercalate [sep] (xs ++ (x ++ y) :: ys)) := by
      cases xs <;> rfl
    rw [cons_append, hcons, ih, flatMap_cons]
    simp

/-! ### Texts put in -/

variable [DecidableEq α]

/-- The lines before a place with the part of its own line before it, after one more
character. -/
def step (sep : α) (p : List (List α) × List α) (a : α) : List (List α) × List α :=
  if a = sep then (p.1 ++ [p.2], []) else (p.1, p.2 ++ [a])

/-- The same after a text. -/
def extend (sep : α) (p : List (List α) × List α) (t : List α) : List (List α) × List α :=
  t.foldl (step sep) p

section

variable (p)

@[simp] theorem extend_nil : extend sep p [] = p := rfl

theorem extend_cons (a : α) (t : List α) :
    extend sep p (a :: t) = extend sep (step sep p a) t := rfl

theorem extend_append (t u : List α) :
    extend sep p (t ++ u) = extend sep (extend sep p t) u := List.foldl_append

theorem extend_sep : extend sep p [sep] = (p.1 ++ [p.2], []) := by
  unfold extend step
  simp

end

/-- A text without a separator stays in its line. -/
theorem extend_of_not_mem (h : sep ∉ t) : extend sep (xs, x) t = (xs, x ++ t) := by
  induction t generalizing x with
  | nil => simp
  | cons a t ih =>
    rw [mem_cons, not_or] at h
    have hstep : step sep (xs, x) a = (xs, x ++ [a]) := by
      unfold step
      rw [if_neg (Ne.symm h.1)]
    rw [extend_cons, hstep, ih h.2, append_assoc]
    rfl

theorem before_extend (p : List (List α) × List α) (t : List α) :
    before sep (extend sep p t) = before sep p ++ t := by
  induction t generalizing p with
  | nil => rw [extend_nil, append_nil]
  | cons a t ih =>
    have hstep : before sep (step sep p a) = before sep p ++ [a] := by
      unfold before step
      split_ifs with ha
      · simp [ha]
      · simp
    rw [extend_cons, ih, hstep, append_assoc, singleton_append]

/-- What was there before stays in front. -/
theorem extend_shape (t : List α) :
    (∃ w, extend sep (xs, x) t = (xs, x ++ w)) ∨
      ∃ w zs v, extend sep (xs, x) t = (xs ++ (x ++ w) :: zs, v) := by
  induction t using reverseRecOn with
  | nil => exact Or.inl ⟨[], by simp⟩
  | append_singleton t a ih =>
    rw [extend_append, extend_cons]
    rcases ih with ⟨w, hw⟩ | ⟨w, zs, v, hw⟩
    · rw [hw, step]
      split_ifs
      · exact Or.inr ⟨w, [], [], rfl⟩
      · exact Or.inl ⟨w ++ [a], by simp⟩
    · rw [hw, step]
      split_ifs
      · exact Or.inr ⟨w, zs ++ [v], [], by simp⟩
      · exact Or.inr ⟨w, zs, v ++ [a], rfl⟩

/-- A place before a text is a place of the lines with the text in them. -/
theorem place_extend (sep : α) (p : List (List α) × List α) (t : List α) (y : List α)
    (ys : List (List α)) : ∃ y' ys', place (extend sep p t) y ys = place p y' ys' := by
  rcases extend_shape t with ⟨w, hw⟩ | ⟨w, zs, v, hw⟩
  · exact ⟨w ++ y, ys, by rw [hw]; simp [place]⟩
  · exact ⟨w, zs ++ (v ++ y) :: ys, by rw [hw]; simp [place]⟩

end Nv0ken.Lines
