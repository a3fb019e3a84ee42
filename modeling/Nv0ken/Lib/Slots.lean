/-
Tables with a fixed number of slots.

A slot holds a value or is free.  What programs do with such a table is set a slot, look
one up, and search for the first free one from some number on; the lemmas say what a
lookup finds after a slot was set and what the search tells about the table.
-/
import Mathlib.Data.List.Basic

namespace Nv0ken

open List

/-- A table with `n` slots. -/
structure Slots (α : Type*) (n : Nat) where
  entries : List (Option α)
  size_eq : entries.length = n
  deriving DecidableEq

namespace Slots

variable {α : Type*} {n i j lo : Nat} {t : Slots α n} {e : Option α}

/-- The table with every slot free. -/
def empty (α : Type*) (n : Nat) : Slots α n := ⟨List.replicate n none, List.length_replicate⟩

/-- What is in a slot; there is nothing outside the table. -/
def get (t : Slots α n) (i : Nat) : Option α := t.entries[i]?.join

def set (t : Slots α n) (i : Nat) (e : Option α) : Slots α n :=
  ⟨t.entries.set i e, by rw [List.length_set, t.size_eq]⟩

/-- The first free slot that is not below `lo`. -/
def firstFree (t : Slots α n) (lo : Nat) : Option Nat :=
  (List.range' lo (n - lo)).find? fun i => (t.get i).isNone

theorem lt_of_get {a : α} (h : t.get i = some a) : i < n := by
  by_contra hle
  rw [get, getElem?_eq_none (by rw [t.size_eq]; exact Nat.le_of_not_lt hle)] at h
  simp at h

theorem get_set_self (hi : i < n) : (t.set i e).get i = e := by
  unfold get set
  rw [getElem?_set_self (by rw [t.size_eq]; exact hi)]
  rfl

theorem get_set_ne (hij : j ≠ i) : (t.set i e).get j = t.get j := by
  unfold get set
  rw [getElem?_set_ne (Ne.symm hij)]

theorem set_set (e' : Option α) : (t.set i e).set i e' = t.set i e' := by
  simp [set]

theorem firstFree_some (h : t.firstFree lo = some i) : lo ≤ i ∧ i < n ∧ t.get i = none := by
  have hmem := mem_range'_1.mp (mem_of_find?_eq_some h)
  exact ⟨hmem.1, by omega, by simpa using find?_some h⟩

theorem firstFree_none : t.firstFree lo = none ↔ ∀ i, lo ≤ i → i < n → t.get i ≠ none := by
  unfold firstFree
  rw [find?_eq_none]
  constructor
  · intro h i hlo hi
    simpa using h i (mem_range'_1.mpr ⟨hlo, by omega⟩)
  · intro h i hi
    have hmem := mem_range'_1.mp hi
    simpa using h i hmem.1 (by omega)

end Slots

end Nv0ken
