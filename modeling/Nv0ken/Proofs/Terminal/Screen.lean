/-
What the screen functions do to the cells.

As long as the array has a cell for every place of the screen, no clearing function leaves it:
`screen_cell` refuses what lies outside.  Each of them overwrites a set of cells with the blank
one and touches nothing else, and two of them in a row overwrite both sets, which carries the
loops (`cleared_run`).

What a row of the screen holds afterwards is said row by row, for the clearing of whole rows in
`Cleared.line` and for the copy that scrolling makes in `moveRows_some`.
-/
import Nv0ken.Apps.Terminal.Vt100

namespace Nv0ken.Terminal

open Grid Word List Option
open Run (run)

variable {v v' u : Vt100} {S T : Nat → Prop} {r c a b : Int}

/-- The cells of a row of the screen in use. -/
def Vt100.line (v : Vt100) (r : Int) : List VtCell := row v.cells v.cols.toNat r.toNat

/-- A row as clearing leaves it. -/
def Vt100.blankLine (v : Vt100) : List VtCell := List.replicate v.cols.toNat v.blank

/-- The array in use has one cell for every place of the screen. -/
structure Sized (v : Vt100) : Prop where
  cols_pos : 0 < v.cols
  rows_pos : 0 < v.rows
  area : v.cols * v.rows ≤ 2 ^ 31
  size : (v.cells.length : Int) = v.cols * v.rows

@[simp] theorem cells_withCells (cells : List VtCell) : (v.withCells cells).cells = cells := by
  unfold Vt100.cells Vt100.withCells
  cases v.useAlt <;> simp

@[simp] theorem withCells_cells : v.withCells v.cells = v := by
  rcases v with ⟨cols, rows, screen, altScreen, useAlt⟩
  cases useAlt <;> rfl

@[simp] theorem withCells_withCells (cells other : List VtCell) :
    (v.withCells cells).withCells other = v.withCells other := by
  unfold Vt100.withCells
  cases v.useAlt <;> simp

theorem Sized.withCells (h : Sized v) {cells : List VtCell} (hlen : cells.length = v.cells.length) :
    Sized (v.withCells cells) := by
  refine ⟨h.cols_pos, h.rows_pos, h.area, ?_⟩
  rw [cells_withCells, hlen]
  exact h.size

/-- The index of a place is less than the number of places. -/
theorem place_lt (cols rows : Int) (hr : 0 ≤ r) (hr' : r < rows) (hc : 0 ≤ c) (hc' : c < cols) :
    0 ≤ r * cols + c ∧ r * cols + c < cols * rows := by
  have hlow : 0 ≤ r * cols := Int.mul_nonneg hr (by omega)
  have hhigh : (r + 1) * cols ≤ rows * cols := Int.mul_le_mul_of_nonneg_right hr' (by omega)
  rw [Int.add_mul, Int.mul_comm rows] at hhigh
  omega

/-- The index of a place of the screen is one of the array. -/
theorem Sized.index (h : Sized v) (hr : 0 ≤ r) (hr' : r < v.rows) (hc : 0 ≤ c) (hc' : c < v.cols) :
    0 ≤ r * v.cols + c ∧ r * v.cols + c < v.cells.length := by
  rw [h.size]
  exact place_lt v.cols v.rows hr hr' hc hc'

theorem Sized.small (h : Sized v) : (v.cells.length : Int) ≤ 2 ^ 31 := by
  rw [h.size]
  exact h.area

/-! ### Cleared cells -/

/-- The cells in `S` have been made blank, and nothing else has changed. -/
structure Cleared (S : Nat → Prop) (v v' : Vt100) : Prop where
  frame : v' = v.withCells v'.cells
  length : v'.cells.length = v.cells.length
  inside : ∀ i, i < v.cells.length → S i → v'.cells[i]? = some v.blank
  outside : ∀ i, ¬ S i → v'.cells[i]? = v.cells[i]?

theorem Cleared.refl (hS : ∀ i, ¬ S i) : Cleared S v v :=
  ⟨withCells_cells.symm, rfl, fun i _ hi => absurd hi (hS i), fun _ _ => rfl⟩

theorem Cleared.trans (h : Cleared S v v') (h' : Cleared T v' u) :
    Cleared (fun i => S i ∨ T i) v u := by
  have hblank : v'.blank = v.blank := by
    rw [h.frame]
    rfl
  refine ⟨?_, h'.length.trans h.length, ?_, ?_⟩
  · rw [h'.frame, h.frame, withCells_withCells, cells_withCells]
  · intro i hi hST
    by_cases hT : T i
    · rw [h'.inside i (by rw [h.length]; exact hi) hT, hblank]
    · rw [h'.outside i hT]
      exact h.inside i hi (hST.resolve_right hT)
  · intro i hST
    rw [not_or] at hST
    rw [h'.outside i hST.2, h.outside i hST.1]

theorem Cleared.congr (h : Cleared S v v') (hST : ∀ i, S i ↔ T i) : Cleared T v v' :=
  ⟨h.frame, h.length, fun i hi hT => h.inside i hi ((hST i).mpr hT),
    fun i hT => h.outside i (fun hS => hT ((hST i).mp hS))⟩

theorem Cleared.sized (h : Cleared S v v') (hv : Sized v) : Sized v' := by
  rw [h.frame]
  exact hv.withCells h.length

/-- A loop whose steps clear cells clears those of all its steps. -/
theorem cleared_run {f : Vt100 → Int → Option Vt100} {S : Vt100 → Int → Nat → Prop}
    (hf : ∀ {u}, Sized u → ∀ x, ∃ u', f u x = some u' ∧ Cleared (S u x) u u')
    (hS : ∀ u cells, S (u.withCells cells) = S u) (hv : Sized v) (l : List Int) :
    ∃ v', run f v l = some v' ∧ Cleared (fun i => ∃ x ∈ l, S v x i) v v' := by
  induction l generalizing v with
  | nil => exact ⟨v, rfl, Cleared.refl (by simp)⟩
  | cons x l ih =>
    obtain ⟨w, hw, hclear⟩ := hf hv x
    obtain ⟨v', hv', hrest⟩ := ih (hclear.sized hv)
    have hsame : S w = S v := by rw [hclear.frame, hS]
    rw [hsame] at hrest
    refine ⟨v', ?_, (hclear.trans hrest).congr ?_⟩
    · rw [Run.run_cons, hw]
      exact hv'
    · intro i
      simp

/-- The places of a row from one column to another. -/
def InLine (v : Vt100) (r a b : Int) (i : Nat) : Prop :=
  0 ≤ r ∧ r < v.rows ∧ ∃ c, a ≤ c ∧ c ≤ b ∧ 0 ≤ c ∧ c < v.cols ∧ (i : Int) = r * v.cols + c

/-- The places of the rows from one to another. -/
def InRows (v : Vt100) (a b : Int) (i : Nat) : Prop :=
  ∃ r, a ≤ r ∧ r ≤ b ∧ 0 ≤ r ∧ r < v.rows ∧ ∃ c, 0 ≤ c ∧ c < v.cols ∧ (i : Int) = r * v.cols + c

theorem clearCell_some (hv : Sized v) :
    ∃ v', clearCell r v c = some v' ∧ Cleared (InLine v r c c) v v' := by
  by_cases hout : c < 0 ∨ v.cols ≤ c ∨ r < 0 ∨ v.rows ≤ r
  · refine ⟨v, ?_, Cleared.refl ?_⟩
    · unfold clearCell screenCell
      rw [if_pos hout]
    · rintro i ⟨hr, hr', c', hc, hc', hc0, hc1, -⟩
      omega
  · have hindex := hv.index (v := v) (r := r) (c := c) (by omega) (by omega) (by omega) (by omega)
    have hsmall := hv.small
    refine ⟨v.withCells (v.cells.set (r * v.cols + c).toNat v.blank), ?_, ?_, ?_, ?_, ?_⟩
    · unfold clearCell screenCell storeAt
      rw [if_neg hout]
      show Option.map _ (if _ then _ else _) = _
      rw [if_pos ⟨hindex.1, by omega, hindex.2⟩, map_some]
    · rw [cells_withCells]
    · rw [cells_withCells, length_set]
    · rintro i hi ⟨-, -, c', hc, hc', -, -, hic⟩
      obtain rfl : c' = c := by omega
      rw [cells_withCells, show (r * v.cols + c').toNat = i by omega, getElem?_set_self hi]
    · intro i hi
      rw [cells_withCells, getElem?_set_ne]
      intro heq
      exact hi ⟨by omega, by omega, c, by omega, by omega, by omega, by omega, by omega⟩

theorem screenClearLine_some (hv : Sized v) :
    ∃ v', screenClearLine v r a b = some v' ∧ Cleared (InLine v r a b) v v' := by
  obtain ⟨v', hv', hclear⟩ := cleared_run (S := fun v c => InLine v r c c)
    (fun hu _ => clearCell_some hu) (fun _ _ => rfl) hv (upTo a (min (b + 1) v.cols))
  refine ⟨v', hv', hclear.congr fun i => ⟨?_, ?_⟩⟩
  · rintro ⟨x, hx, hr, hr', c, hc, hc', hc0, hc1, hi⟩
    rw [mem_upTo] at hx
    exact ⟨hr, hr', c, by omega, by omega, hc0, hc1, hi⟩
  · rintro ⟨hr, hr', c, hc, hc', hc0, hc1, hi⟩
    exact ⟨c, by rw [mem_upTo]; omega, hr, hr', c, by omega, by omega, hc0, hc1, hi⟩

theorem screenClearRows_some (hv : Sized v) :
    ∃ v', screenClearRows v a b = some v' ∧ Cleared (InRows v a b) v v' := by
  obtain ⟨v', hv', hclear⟩ := cleared_run (S := fun v r => InLine v r 0 (v.cols - 1))
    (fun hu _ => screenClearLine_some hu) (fun _ _ => rfl) hv (upTo a (min (b + 1) v.rows))
  refine ⟨v', hv', hclear.congr fun i => ⟨?_, ?_⟩⟩
  · rintro ⟨r, hr, hr0, hr1, c, -, -, hc0, hc1, hi⟩
    rw [mem_upTo] at hr
    exact ⟨r, by omega, by omega, hr0, hr1, c, hc0, hc1, hi⟩
  · rintro ⟨r, hr, hr', hr0, hr1, c, hc0, hc1, hi⟩
    exact ⟨r, by rw [mem_upTo]; omega, hr0, hr1, c, hc0, by omega, hc0, hc1, hi⟩

/-! ### Rows after clearing and moving -/

theorem line_index (hv : Sized v) (hr : 0 ≤ r) (k : Nat) :
    ((r.toNat * v.cols.toNat + k : Nat) : Int) = r * v.cols + k := by
  have hpos := hv.cols_pos
  push_cast
  rw [Int.toNat_of_nonneg hr, Int.toNat_of_nonneg (by omega)]

/-- Clearing whole rows, row by row. -/
theorem Cleared.line (h : Cleared (InRows v a b) v v') (hv : Sized v) (hr : 0 ≤ r)
    (hr' : r < v.rows) : v'.line r = if a ≤ r ∧ r ≤ b then v.blankLine else v.line r := by
  have hpos := hv.cols_pos
  have hcols : v'.cols = v.cols := by
    rw [h.frame]
    rfl
  have hplace : ∀ k : Nat, k < v.cols.toNat →
      (InRows v a b (r.toNat * v.cols.toNat + k) ↔ a ≤ r ∧ r ≤ b) := by
    intro k hk
    constructor
    · rintro ⟨q, hq, hq', hq0, hq1, c, hc0, hc1, hi⟩
      rw [line_index hv hr] at hi
      have hrow : q = r := by
        by_contra hne
        rcases lt_or_gt_of_ne hne with hlt | hlt
        all_goals
          have := Int.mul_le_mul_of_nonneg_right (Int.add_one_le_of_lt hlt) (Int.le_of_lt hpos)
          rw [Int.add_mul] at this
          omega
      subst hrow
      exact ⟨hq, hq'⟩
    · rintro ⟨ha, hb⟩
      exact ⟨r, ha, hb, hr, hr', k, by omega, by omega, line_index hv hr k⟩
  unfold Vt100.line
  rw [hcols]
  by_cases hin : a ≤ r ∧ r ≤ b
  · rw [if_pos hin]
    apply ext_getElem?
    intro k
    by_cases hk : k < v.cols.toNat
    · have hindex := hv.index (c := (k : Int)) hr hr' (by omega) (by omega)
      rw [getElem?_row hk, h.inside _ _ ((hplace k hk).mpr hin)]
      · unfold Vt100.blankLine
        rw [getElem?_replicate, if_pos hk]
      · have := line_index hv hr k
        omega
    · unfold Vt100.blankLine row
      rw [getElem?_replicate, if_neg hk, getElem?_eq_none]
      rw [length_take]
      omega
  · rw [if_neg hin]
    apply row_congr
    intro k hk
    exact h.outside _ (fun hi => hin ((hplace k hk).mp hi))

/-- The `memmove` of scrolling moves rows of the screen. -/
theorem moveRows_some (dst src lines : Int) (hv : Sized v) (hdst : 0 ≤ dst) (hsrc : 0 ≤ src)
    (hdst' : dst + lines ≤ v.rows) (hsrc' : src + lines ≤ v.rows) :
    ∃ v', moveRows v dst src lines = some v' ∧ v' = v.withCells v'.cells ∧
      v'.cells.length = v.cells.length ∧
      ∀ r, 0 ≤ r → v'.line r =
        if dst ≤ r ∧ r < dst + lines then v.line (src + (r - dst)) else v.line r := by
  by_cases hlines : 0 < lines
  · have hpos := hv.cols_pos
    have hsmall := hv.small
    have hend : ∀ q, 0 ≤ q → q + lines ≤ v.rows →
        0 ≤ q * v.cols ∧ q * v.cols < 2 ^ 31 ∧ q * v.cols + v.cols * lines ≤ v.cells.length := by
      intro q hq hq'
      have hfirst := hv.index (c := 0) hq (by omega) (by omega) hpos
      have hlast := Int.mul_le_mul_of_nonneg_right hq' (Int.le_of_lt hpos)
      rw [Int.add_mul, Int.mul_comm v.rows, ← hv.size, Int.mul_comm lines] at hlast
      omega
    obtain ⟨hd0, hd1, hd2⟩ := hend dst hdst hdst'
    obtain ⟨hs0, hs1, hs2⟩ := hend src hsrc hsrc'
    have hnat : ∀ q : Int, 0 ≤ q → (q * v.cols).toNat = q.toNat * v.cols.toNat := by
      intro q hq
      rw [Int.toNat_mul hq (Int.le_of_lt hpos)]
    have hcount : (v.cols * lines).toNat = lines.toNat * v.cols.toNat := by
      rw [Int.mul_comm, hnat lines (by omega)]
    have hfit : ∀ q : Int, 0 ≤ q → q * v.cols + v.cols * lines ≤ v.cells.length →
        (q.toNat + lines.toNat) * v.cols.toNat ≤ v.cells.length := by
      intro q hq hle
      rw [Nat.add_mul, ← hnat q hq]
      have h2 : 0 ≤ v.cols * lines := Int.mul_nonneg (Int.le_of_lt hpos) (by omega)
      omega
    refine ⟨v.withCells (blit v.cells (dst * v.cols).toNat (src * v.cols).toNat
      (v.cols * lines).toNat), ?_, ?_, ?_, ?_⟩
    · unfold moveRows moveAt
      rw [if_pos hlines, if_pos ⟨hd0, hs0, hd1, hs1, hd2, hs2⟩, map_some]
    · rw [cells_withCells]
    · rw [cells_withCells, length_blit]
      · have := hfit dst hdst hd2
        rwa [Nat.add_mul, ← hnat dst hdst, ← hcount] at this
      · have := hfit src hsrc hs2
        rwa [Nat.add_mul, ← hnat src hsrc, ← hcount] at this
    · intro r hr
      unfold Vt100.line
      rw [cells_withCells]
      show row _ v.cols.toNat r.toNat = _
      rw [hnat dst hdst, hnat src hsrc, hcount, row_blit (hfit dst hdst hd2) (hfit src hsrc hs2)]
      by_cases hin : dst ≤ r ∧ r < dst + lines
      · rw [if_pos hin, if_pos (by omega)]
        congr 1
        omega
      · rw [if_neg hin, if_neg (by omega)]
  · refine ⟨v, ?_, withCells_cells.symm, rfl, ?_⟩
    · unfold moveRows
      rw [if_neg hlines]
    · intro r _
      rw [if_neg (by omega)]

end Nv0ken.Terminal
