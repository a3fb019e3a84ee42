/-
Radix trees of tables.

A memory holds tables of entries; an entry may lead to a further table.  From a root, a
list of indices leads to a table or nowhere.  As long as no table is reached in two ways
(`Tree`), writing an entry can only be noticed on the paths through it:

  * a write into a table of the last level changes that entry and leaves every path where
    it led (`walk_setEntry`, `entry_setEntry`);
  * hanging an unused, cleared table below an empty entry adds the path to it, with
    nothing behind, and leaves all others where they led (`walk_grow`, `entry_grow`).
-/
import Mathlib.Data.List.Basic

namespace Nv0ken.RadixTree

open List Option

variable {P I E : Type*} {child : E → Option P} {m m' : P → I → E} {root t n : P} {p q : List I}
  {i j : I} {e z : E} {d : Nat}

/-- The table that a list of indices leads to. -/
def walk (child : E → Option P) (m : P → I → E) : P → List I → Option P
  | t, [] => some t
  | t, i :: is => (child (m t i)).bind fun t' => walk child m t' is

/-- The entry behind a list of indices. -/
def entry (child : E → Option P) (m : P → I → E) (root : P) (q : List I) (j : I) : Option E :=
  (walk child m root q).map fun t => m t j

/-- No table is reached in two ways within the first `d` levels. -/
def Tree (child : E → Option P) (m : P → I → E) (root : P) (d : Nat) : Prop :=
  ∀ p q t, p.length ≤ d → q.length ≤ d →
    walk child m root p = some t → walk child m root q = some t → p = q

/-- The table is not reached within the first `d` levels. -/
def Unused (child : E → Option P) (m : P → I → E) (root : P) (d : Nat) (n : P) : Prop :=
  ∀ q, q.length ≤ d → walk child m root q ≠ some n

theorem walk_append (t : P) (p q : List I) :
    walk child m t (p ++ q) = (walk child m t p).bind fun t' => walk child m t' q := by
  induction p generalizing t with
  | nil => rfl
  | cons i p ih =>
    rw [cons_append, walk, walk]
    cases child (m t i) with
    | none => rfl
    | some t' => exact ih t'

theorem walk_snoc (t : P) (p : List I) (i : I) :
    walk child m t (p ++ [i]) = (walk child m t p).bind fun t' => child (m t' i) := by
  rw [walk_append]
  refine congrArg (Option.bind _) (funext fun t' => ?_)
  rw [walk]
  cases child (m t' i) <;> rfl

/-- A path leads to the same table in two memories that agree along it. -/
theorem walk_congr (h : ∀ p i rest t, q = p ++ i :: rest → walk child m root p = some t →
    child (m' t i) = child (m t i)) : walk child m' root q = walk child m root q := by
  induction q generalizing root with
  | nil => rfl
  | cons i q ih =>
    rw [walk, walk, h [] i q root rfl rfl]
    cases hchild : child (m root i) with
    | none => rfl
    | some t' =>
      refine ih fun p j rest t hq hwalk => h (i :: p) j rest t (by rw [hq]; rfl) ?_
      rw [walk, hchild]
      exact hwalk

section
variable [DecidableEq P] [DecidableEq I]

/-- The memory with one entry replaced. -/
def setEntry (m : P → I → E) (t : P) (i : I) (e : E) : P → I → E :=
  fun t' i' => if t' = t ∧ i' = i then e else m t' i'

/-- The memory with all entries of a table replaced. -/
def fill (m : P → I → E) (t : P) (e : E) : P → I → E := fun t' i' => if t' = t then e else m t' i'

omit [DecidableEq I] in
theorem fill_of_ne (h : t ≠ n) : fill m n z t i = m t i := if_neg h

theorem setEntry_same : setEntry m t i e t i = e := if_pos ⟨rfl, rfl⟩

theorem setEntry_of_ne (h : ¬ (n = t ∧ j = i)) : setEntry m t i e n j = m n j := if_neg h

/-! ### Writing an entry of the last level -/

section

variable (htree : Tree child m root d) (hp : walk child m root p = some t)
include htree hp

theorem walk_setEntry (hlen : p.length = d) (hq : q.length ≤ d) :
    walk child (setEntry m t i e) root q = walk child m root q := by
  apply walk_congr
  intro p' j rest t' hsplit hwalk
  have hshort : p'.length < d := by
    rw [hsplit, length_append, length_cons] at hq
    omega
  rw [setEntry_of_ne]
  rintro ⟨rfl, -⟩
  have heq := htree p' p t' (by omega) (by omega) hwalk hp
  rw [heq] at hshort
  omega

theorem tree_setEntry (hlen : p.length = d) : Tree child (setEntry m t i e) root d := by
  intro q r t' hq hr hwalk hwalk'
  rw [walk_setEntry htree hp hlen hq] at hwalk
  rw [walk_setEntry htree hp hlen hr] at hwalk'
  exact htree q r t' hq hr hwalk hwalk'

theorem entry_setEntry (hlen : p.length = d) (hq : q.length ≤ d) :
    entry child (setEntry m t i e) root q j =
      if q = p ∧ j = i then some e else entry child m root q j := by
  unfold entry
  rw [walk_setEntry htree hp hlen hq]
  by_cases hhere : q = p ∧ j = i
  · obtain ⟨rfl, rfl⟩ := hhere
    rw [if_pos ⟨rfl, rfl⟩, hp, map_some, setEntry_same]
  · rw [if_neg hhere]
    cases hwalk : walk child m root q with
    | none => rfl
    | some t' =>
      rw [map_some, map_some, setEntry_of_ne]
      rintro ⟨rfl, rfl⟩
      exact hhere ⟨htree q p t' hq (by omega) hwalk hp, rfl⟩

end

/-! ### Hanging in a new table -/

/-- The memory with the cleared table `n` below the entry `i` of `t`. -/
def grow (m : P → I → E) (t : P) (i : I) (e : E) (n : P) (z : E) : P → I → E :=
  setEntry (fill m n z) t i e

theorem grow_of_ne {t' : P} (ht' : t' ≠ n) (h : ¬ (t' = t ∧ j = i)) :
    grow m t i e n z t' j = m t' j := by
  unfold grow
  rw [setEntry_of_ne h, fill_of_ne ht']

theorem grow_new (hn : n ≠ t) : grow m t i e n z n j = z := by
  unfold grow
  rw [setEntry_of_ne fun h => hn h.1]
  exact if_pos rfl

section

variable (htree : Tree child m root d) (hp : walk child m root p = some t) (hlen : p.length < d)
  (hnone : child (m t i) = none) (hunused : Unused child m root d n) (hz : child z = none)
  (he : child e = some n)
include htree hp hlen hnone hunused hz he

theorem walk_grow (hq : q.length ≤ d) :
    walk child (grow m t i e n z) root q =
      if q = p ++ [i] then some n else walk child m root q := by
  have hnt : n ≠ t := by
    rintro rfl
    exact hunused p (by omega) hp
  have hframe : ∀ {q : List I}, q.length ≤ d → (∀ rest, q ≠ p ++ i :: rest) →
      walk child (grow m t i e n z) root q = walk child m root q := by
    intro q hq hbeside
    apply walk_congr
    intro p' j rest t' hsplit hwalk
    have hshort : p'.length < d := by
      rw [hsplit, length_append, length_cons] at hq
      omega
    rw [grow_of_ne]
    · rintro rfl
      exact hunused p' (by omega) hwalk
    · rintro ⟨rfl, rfl⟩
      have heq := htree p' p t' (by omega) (by omega) hwalk hp
      exact hbeside rest (by rw [hsplit, heq])
  by_cases hthrough : ∃ rest, q = p ++ i :: rest
  · obtain ⟨rest, rfl⟩ := hthrough
    -- the way to the old table is as before, the new one has nothing below it
    have hold : walk child (grow m t i e n z) root p = some t :=
      (hframe (Nat.le_of_lt hlen) (by simp)).trans hp
    have hentry : grow m t i e n z t i = e := setEntry_same
    rw [walk_append, hold, bind_some, walk, hentry, he, bind_some]
    cases rest with
    | nil => rw [if_pos rfl, walk]
    | cons j rest =>
      rw [if_neg (by simp), walk, grow_new hnt, hz, walk_append, hp, bind_some, walk, hnone]
      rfl
  · rw [if_neg fun h => hthrough ⟨[], h⟩]
    exact hframe hq fun rest h => hthrough ⟨rest, h⟩

theorem tree_grow : Tree child (grow m t i e n z) root d := by
  intro q r t' hq hr hwalk hwalk'
  rw [walk_grow htree hp hlen hnone hunused hz he hq] at hwalk
  rw [walk_grow htree hp hlen hnone hunused hz he hr] at hwalk'
  by_cases hqnew : q = p ++ [i]
  · by_cases hrnew : r = p ++ [i]
    · rw [hqnew, hrnew]
    · rw [if_pos hqnew] at hwalk
      rw [if_neg hrnew, ← hwalk] at hwalk'
      exact absurd hwalk' (hunused r hr)
  · by_cases hrnew : r = p ++ [i]
    · rw [if_neg hqnew] at hwalk
      rw [if_pos hrnew] at hwalk'
      rw [← hwalk'] at hwalk
      exact absurd hwalk (hunused q hq)
    · rw [if_neg hqnew] at hwalk
      rw [if_neg hrnew] at hwalk'
      exact htree q r t' hq hr hwalk hwalk'

theorem entry_grow (hq : q.length = d) :
    entry child (grow m t i e n z) root q j =
      if q = p ++ [i] then some z else entry child m root q j := by
  have hnt : n ≠ t := by
    rintro rfl
    exact hunused p (by omega) hp
  unfold entry
  rw [walk_grow htree hp hlen hnone hunused hz he (Nat.le_of_eq hq)]
  by_cases hnew : q = p ++ [i]
  · rw [if_pos hnew, if_pos hnew, map_some, grow_new hnt]
  · rw [if_neg hnew, if_neg hnew]
    cases hwalk : walk child m root q with
    | none => rfl
    | some t' =>
      rw [map_some, map_some, grow_of_ne]
      · rintro rfl
        exact hunused q (Nat.le_of_eq hq) hwalk
      · rintro ⟨rfl, -⟩
        have heq := htree q p t' (Nat.le_of_eq hq) (by omega) hwalk hp
        rw [heq] at hq
        omega

end

end

end Nv0ken.RadixTree
