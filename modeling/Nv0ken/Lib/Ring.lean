/-
A ring that keeps the last things put into it.

The slots of a ring are read from `head` on, `count` of them, round the end of the list.
Putting a value behind the last one appends it; a full ring first gives up its oldest
value.  So what a ring of capacity `cap` holds is always the last `cap` of everything put
into it: `keepLast cap`.

A program may by mistake put one value into its ring `n` times where it should put `n`
different ones, and the two rings can still look the same; `keepLast_replicate_eq_iff` says
exactly when.
-/
import Mathlib.Data.List.DropRight
import Mathlib.Algebra.Order.Group.Nat

namespace Nv0ken.Ring

open List Option

variable {α : Type*} {ring l old new : List α} {x : α} {head count cap i j n : Nat}

/-- The values in the ring, oldest first. -/
def window (ring : List α) (head count : Nat) : List (Option α) :=
  (List.range count).map fun i => ring[(head + i) % ring.length]?

/-- The last `n` values of a list. -/
def keepLast (n : Nat) (l : List α) : List α := l.drop (l.length - n)

@[simp] theorem length_window : (window ring head count).length = count := by
  unfold window
  rw [length_map, length_range]

@[simp] theorem length_keepLast : (keepLast n l).length = min n l.length := by
  unfold keepLast
  rw [length_drop]
  omega

theorem keepLast_of_le (h : l.length ≤ n) : keepLast n l = l := by
  unfold keepLast
  rw [Nat.sub_eq_zero_of_le h, drop_zero]

@[simp] theorem keepLast_zero : keepLast 0 l = [] := by
  unfold keepLast
  rw [Nat.sub_zero, drop_length]

/-! ### Putting values into the ring -/

/-- Positions less than one round apart are different slots. -/
theorem slot_ne (hij : i < j) (hj : j < cap) : (head + i) % cap ≠ (head + j) % cap := by
  intro h
  have hdvd : cap ∣ (head + j) - (head + i) := by
    rw [Nat.dvd_iff_mod_eq_zero]
    exact Nat.sub_mod_eq_zero_of_mod_eq h.symm
  have hle : cap ≤ (head + j) - (head + i) := Nat.le_of_dvd (by omega) hdvd
  omega

/-- A write behind the last value is not seen. -/
theorem window_set (h : count < ring.length) :
    window (ring.set ((head + count) % ring.length) x) head count = window ring head count := by
  unfold window
  rw [length_set]
  apply map_congr_left
  intro i hi
  rw [getElem?_set_ne]
  exact (slot_ne (mem_range.mp hi) h).symm

theorem window_push (h : count < ring.length) :
    window (ring.set ((head + count) % ring.length) x) head (count + 1) =
      window ring head count ++ [some x] := by
  have hslot : (head + count) % ring.length < ring.length := Nat.mod_lt _ (by omega)
  have hold : window (ring.set ((head + count) % ring.length) x) head count =
      window ring head count := window_set h
  unfold window at hold ⊢
  rw [range_succ, map_append, hold, map_singleton, length_set, getElem?_set_self hslot]

/-- Giving up the oldest value. -/
theorem window_advance :
    window ring ((head + 1) % ring.length) (count - 1) = (window ring head count).drop 1 := by
  apply ext_getElem?
  intro i
  rw [getElem?_drop]
  unfold window
  rw [getElem?_map, getElem?_map]
  by_cases hi : i < count - 1
  · rw [getElem?_range hi, getElem?_range (by omega)]
    simp only [map_some, Nat.mod_add_mod]
    rw [Nat.add_assoc]
  · have hnone (m k : Nat) (h : m ≤ k) : (range m)[k]? = none := by
      rw [getElem?_eq_none]
      rw [length_range]
      exact h
    rw [hnone _ _ (by omega), hnone _ _ (by omega), map_none, map_none]

/-- The oldest value and the others. -/
theorem window_cons (h : 0 < count) :
    window ring head count =
      ring[head % ring.length]? :: window ring ((head + 1) % ring.length) (count - 1) := by
  obtain ⟨n, rfl⟩ := Nat.exists_eq_succ_of_ne_zero (Nat.ne_of_gt h)
  rw [window_advance]
  unfold window
  rw [range_succ_eq_map, map_cons, drop_one, tail_cons, Nat.add_zero]

theorem keepLast_append_singleton (h : l.length ≤ cap) (hcap : 0 < cap) :
    keepLast cap (l ++ [x]) = (if l.length = cap then l.drop 1 else l) ++ [x] := by
  unfold keepLast
  rw [length_append, length_singleton]
  by_cases hfull : l.length = cap
  · rw [if_pos hfull, hfull, Nat.add_sub_cancel_left, drop_append_of_le_length (by omega)]
  · rw [if_neg hfull, Nat.sub_eq_zero_of_le (by omega), drop_zero]

theorem keepLast_keepLast_append :
    keepLast cap (keepLast cap l ++ new) = keepLast cap (l ++ new) := by
  by_cases h : l.length ≤ cap
  · rw [keepLast_of_le h]
  · unfold keepLast
    rw [← drop_append_of_le_length (by omega), drop_drop]
    congr 1
    simp only [length_drop, length_append]
    omega

/-! ### Rings that look the same -/

theorem keepLast_eq_reverse : keepLast n l = (l.reverse.take n).reverse :=
  rtake_eq_reverse_take_reverse l n

/-- A list that begins like itself with copies of `x` before it begins with `x` only. -/
theorem eq_of_shifted (h : (replicate (n + 1) x ++ l).take cap = l.take cap) :
    ∀ y ∈ l.take cap, y = x := by
  have hget : ∀ i, i < cap → i < l.length → l[i]? = some x := by
    intro i
    induction i using Nat.strong_induction_on with
    | _ i ih =>
      intro hcap hi
      have hi' := congrArg (·[i]?) h
      simp only [getElem?_take_of_lt hcap] at hi'
      rw [← hi']
      by_cases hin : i < n + 1
      · rw [getElem?_append_left (by simpa using hin), getElem?_replicate, if_pos hin]
      · rw [getElem?_append_right (by simpa using hin), length_replicate]
        exact ih _ (by omega) (by omega) (by omega)
  intro y hy
  obtain ⟨i, hi, rfl⟩ := mem_take_iff_getElem.mp hy
  have hx := hget i (by omega) (by omega)
  rw [getElem?_eq_getElem (by omega)] at hx
  exact some.inj hx

-- by induction on `new`, which gives up its first value together with a copy of `x`
theorem take_replicate_eq_iff (hnew : new.length ≤ n) :
    (replicate n x ++ old).take cap = (new ++ old).take cap ↔
      (∀ y ∈ new.take cap, y = x) ∧
        (new.length < n → cap ≤ old.length + new.length ∧ ∀ y ∈ old.take (cap - new.length),
          y = x) := by
  induction new generalizing n cap with
  | nil =>
    cases n with
    | zero => simp
    | succ n =>
      constructor
      · intro h
        have hlen := congrArg length h
        simp only [length_take, length_append, length_replicate, nil_append] at hlen
        exact ⟨by simp, fun _ => ⟨by rw [length_nil]; omega, eq_of_shifted h⟩⟩
      · rintro ⟨-, hold⟩
        obtain ⟨hcap, hold⟩ := hold (Nat.succ_pos n)
        have hall : ∀ y ∈ (replicate (n + 1) x ++ old).take cap, y = x := by
          intro y hy
          rw [take_append, mem_append] at hy
          rcases hy with hy | hy
          · exact eq_of_mem_replicate (mem_of_mem_take hy)
          · exact hold y (take_subset_take_left _ (Nat.sub_le cap _) hy)
        rw [length_nil, Nat.sub_zero] at hold
        rw [eq_replicate_of_mem hall, nil_append, eq_replicate_of_mem hold]
        simp only [length_take, length_append, length_replicate, length_nil] at hcap ⊢
        congr 1
        omega
  | cons a new ih =>
    obtain ⟨n, rfl⟩ := Nat.exists_eq_add_of_le' (Nat.le_trans (Nat.succ_pos _) hnew)
    cases cap with
    | zero => simp
    | succ cap =>
      rw [replicate_succ, cons_append, cons_append, take_succ_cons, take_succ_cons, take_succ_cons,
        cons.injEq, ih (Nat.le_of_succ_le_succ hnew), forall_mem_cons, @eq_comm _ x a, and_assoc,
          length_cons,
        Nat.add_lt_add_iff_right, ← Nat.add_assoc, Nat.add_le_add_iff_right, Nat.add_sub_add_right]

/-- **When one value put in `n` times looks like `new`.**  The values of `new` that are kept must
all be that value; and where `new` is shorter than `n`, the ring must be full and so must be the
older values that stay beside `new`. -/
theorem keepLast_replicate_eq_iff (hnew : new.length ≤ n) :
    keepLast cap (old ++ List.replicate n x) = keepLast cap (old ++ new) ↔
      (∀ y ∈ keepLast cap new, y = x) ∧
        (new.length < n → cap ≤ old.length + new.length ∧
          ∀ y ∈ keepLast (cap - new.length) old, y = x) := by
  have htake := @take_replicate_eq_iff _ old.reverse new.reverse x cap n (by simpa using hnew)
  simp only [length_reverse] at htake
  simp only [keepLast_eq_reverse, reverse_append, reverse_replicate, reverse_inj, mem_reverse]
  exact htake

/-- When a full ring that gives up its oldest value looks like one that took in `new`. -/
theorem keepLast_pred_eq_iff (hold : old.length ≤ cap) :
    keepLast (cap - 1) old = keepLast cap (old ++ new) ↔ cap = 0 ∨ new = [] ∧ old.length < cap := by
  constructor
  · intro h
    have hlen := congrArg length h
    simp only [length_keepLast, length_append] at hlen
    by_cases hcap : cap = 0
    · exact Or.inl hcap
    · exact Or.inr ⟨length_eq_zero_iff.mp (by omega), by omega⟩
  · rintro (rfl | ⟨rfl, hlt⟩)
    · rw [keepLast_zero, keepLast_zero]
    · rw [append_nil, keepLast_of_le (by omega), keepLast_of_le hold]

end Nv0ken.Ring
