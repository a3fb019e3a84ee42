/-
Rows of cells in one block of memory.

A screen is kept as one list, row behind row, and programs move whole rows with one copy
inside it.  `row` is what stands in a row and `blit` the copy; `row_blit` says what such a
copy does to every row of the block, which is all a scrolling screen needs to know.
-/
import Mathlib.Data.List.Basic
import Mathlib.Tactic.Ring

namespace Nv0ken.Grid

open List

variable {α : Type*} {cells other : List α} {cols dst src n r s k i : Nat}

/-- The numbers a loop from `a` to below `b` counts through. -/
def upTo (a b : Int) : List Int := (List.range (b - a).toNat).map fun (i : Nat) => a + i

/-- The cells of a row. -/
def row (cells : List α) (cols r : Nat) : List α := (cells.drop (r * cols)).take cols

/-- The block after `n` cells have been copied inside it; the two places may overlap. -/
def blit (cells : List α) (dst src n : Nat) : List α :=
  cells.take dst ++ (cells.drop src).take n ++ cells.drop (dst + n)

theorem mem_upTo {a b x : Int} : x ∈ upTo a b ↔ a ≤ x ∧ x < b := by
  unfold upTo
  rw [mem_map]
  constructor
  · rintro ⟨i, hi, rfl⟩
    rw [mem_range] at hi
    omega
  · rintro ⟨ha, hb⟩
    refine ⟨(x - a).toNat, ?_, ?_⟩
    · rw [mem_range]
      omega
    · omega

/-! ### A copy inside the block -/

section

variable (hdst : dst + n ≤ cells.length) (hsrc : src + n ≤ cells.length)
include hdst hsrc

theorem length_blit : (blit cells dst src n).length = cells.length := by
  unfold blit
  simp only [length_append, length_take, length_drop]
  omega

theorem getElem?_blit :
    (blit cells dst src n)[i]? =
      if dst ≤ i ∧ i < dst + n then cells[src + (i - dst)]? else cells[i]? := by
  have htake : (cells.take dst).length = dst := by
    rw [length_take]
    omega
  have hmid : ((cells.drop src).take n).length = n := by
    rw [length_take, length_drop]
    omega
  unfold blit
  rw [append_assoc]
  by_cases hlow : i < dst
  · rw [if_neg (by omega), getElem?_append_left (by omega), getElem?_take_of_lt hlow]
  · rw [getElem?_append_right (by omega), htake]
    by_cases hhigh : i < dst + n
    · rw [if_pos ⟨Nat.not_lt.mp hlow, hhigh⟩, getElem?_append_left (by omega),
        getElem?_take_of_lt (by omega), getElem?_drop]
    · rw [if_neg (by omega), getElem?_append_right (by omega), getElem?_drop, hmid]
      congr 1
      omega

end

/-! ### Rows -/

theorem getElem?_row {c : Nat} (hc : c < cols) : (row cells cols r)[c]? = cells[r * cols + c]? := by
  unfold row
  rw [getElem?_take_of_lt hc, getElem?_drop]

/-- Rows are equal when they agree cell by cell. -/
theorem row_congr (h : ∀ c, c < cols → cells[r * cols + c]? = other[s * cols + c]?) :
    row cells cols r = row other cols s := by
  apply ext_getElem?
  intro c
  by_cases hc : c < cols
  · rw [getElem?_row hc, getElem?_row hc, h c hc]
  · have hnone : ∀ (l : List α) (q : Nat), (row l cols q)[c]? = none := by
      intro l q
      unfold row
      rw [getElem?_eq_none]
      rw [length_take]
      omega
    rw [hnone, hnone]

/-- A cell belongs to the rows from `d` on that are `k` in number when its row does. -/
theorem mem_rows_iff {d c : Nat} (hc : c < cols) :
    (d * cols ≤ r * cols + c ∧ r * cols + c < d * cols + k * cols) ↔ d ≤ r ∧ r < d + k := by
  have hlt (a b : Nat) : a * cols + c < b * cols ↔ a < b := by
    constructor
    · intro h
      by_contra hle
      have := Nat.mul_le_mul_right cols (Nat.not_lt.mp hle)
      omega
    · intro h
      have := Nat.mul_le_mul_right cols (Nat.succ_le_of_lt h)
      rw [Nat.succ_mul] at this
      omega
  rw [← Nat.add_mul, hlt, ← Nat.not_lt, hlt, Nat.not_lt]

/-- **What a copy of whole rows does to every row.** -/
theorem row_blit {d : Nat} (hdst : (d + k) * cols ≤ cells.length)
    (hsrc : (s + k) * cols ≤ cells.length) :
    row (blit cells (d * cols) (s * cols) (k * cols)) cols r =
      if d ≤ r ∧ r < d + k then row cells cols (s + (r - d)) else row cells cols r := by
  rw [Nat.add_mul] at hdst hsrc
  by_cases hin : d ≤ r ∧ r < d + k
  · rw [if_pos hin]
    apply row_congr
    intro c hc
    rw [getElem?_blit hdst hsrc, if_pos ((mem_rows_iff hc).mpr hin)]
    congr 1
    obtain ⟨q, rfl⟩ := Nat.exists_eq_add_of_le hin.1
    rw [Nat.add_sub_cancel_left, Nat.add_mul, Nat.add_mul]
    omega
  · rw [if_neg hin]
    apply row_congr
    intro c hc
    rw [getElem?_blit hdst hsrc, if_neg (fun h => hin ((mem_rows_iff hc).mp h))]

end Nv0ken.Grid
