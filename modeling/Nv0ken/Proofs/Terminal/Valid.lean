/-
The invariant of the terminal.

In every state the cursor is on the screen, the scroll region is a range of its rows, the parameters
the parser has read are not negative and fit an `int`, and only bytes below `0x30` have been
collected as intermediate ones.  The last of these is why the other screen is never in use: the mark
of a private mode is the byte `0x3F`.

Every function of the emulator keeps this.  Those that draw change nothing but cells and the ring
(`Drawn`), and those that move the cursor clamp it; so each lemma below only has to say where a step
reads and writes.
-/
import Nv0ken.Proofs.Terminal.Scroll

namespace Nv0ken.Terminal

open Grid Word Option
open Run (run)

variable {v v' u : Vt100} {mem : Mem} {r c n top : Int}

structure Valid (v : Vt100) : Prop extends Sized v, RingOk v where
  rows_int : v.rows < 2 ^ 31
  main : v.useAlt = false
  col : 0 ≤ v.cursorCol ∧ v.cursorCol < v.cols
  row : 0 ≤ v.cursorRow ∧ v.cursorRow < v.rows
  region : 0 ≤ v.scrollTop ∧ v.scrollTop ≤ v.scrollBot ∧ v.scrollBot < v.rows
  params : ∀ p ∈ v.params, 0 ≤ p ∧ p < 2 ^ 31
  paramSlots : v.params.length = maxParams ∧ v.paramCount ≤ maxParams
  interm : ∀ b ∈ v.interm, b ≤ 0x2F

/-! ### Steps that draw -/

theorem Valid.drawn (h : Valid v) (hd : Drawn v v') : Valid v' := by
  have hsized := hd.sized h.toSized
  have hring := hd.ring h.toRingOk
  have hframe := hd.frame
  generalize v'.cells = cells at hframe
  generalize v'.scrollback = sb at hframe
  generalize v'.sbCount = count at hframe
  generalize v'.sbHead = head at hframe
  subst hframe
  exact { h with toSized := hsized, toRingOk := hring }

theorem Drawn.cursor (hd : Drawn v v') : v'.cursorCol = v.cursorCol ∧ v'.cursorRow = v.cursorRow ∧
    v'.cols = v.cols ∧ v'.rows = v.rows := by
  rw [hd.frame]
  exact ⟨rfl, rfl, rfl, rfl⟩

theorem screenClearLine_drawn (h : Sized v) (row a b : Int) :
    ∃ v', screenClearLine v row a b = some v' ∧ Drawn v v' := by
  obtain ⟨v', hv', hclear⟩ := screenClearLine_some (r := row) (a := a) (b := b) h
  exact ⟨v', hv', hclear.drawn⟩

theorem screenClearRows_drawn (h : Sized v) (a b : Int) :
    ∃ v', screenClearRows v a b = some v' ∧ Drawn v v' := by
  obtain ⟨v', hv', hclear⟩ := screenClearRows_some (a := a) (b := b) h
  exact ⟨v', hv', hclear.drawn⟩

theorem storeAt_drawn (h : Sized v) (hr : 0 ≤ r) (hr' : r < v.rows) (hc : 0 ≤ c) (hc' : c < v.cols)
    (cell : VtCell) :
    ∃ v', (storeAt v.cells (r * v.cols + c) cell).map v.withCells = some v' ∧ Drawn v v' := by
  have hindex := h.index hr hr' hc hc'
  have hsmall := h.small
  refine ⟨v.withCells (v.cells.set (r * v.cols + c).toNat cell), ?_, drawn_withCells (by simp)⟩
  unfold storeAt
  rw [if_pos ⟨hindex.1, by omega, hindex.2⟩, map_some]

section

variable (h : Valid v)
include h

/-- The copy inside the row of the cursor. -/
theorem moveChars_drawn (dst src remain : Int) (hdst : 0 ≤ dst) (hsrc : 0 ≤ src)
    (hdst' : dst + remain ≤ v.cols) (hsrc' : src + remain ≤ v.cols) :
    ∃ v', moveChars v dst src remain = some v' ∧ Drawn v v' := by
  unfold moveChars
  by_cases hremain : 0 < remain
  · have hsmall := h.small
    have hlast :=
      h.index h.row.1 h.row.2 (c := v.cols - 1) (by have := h.cols_pos; omega) (by omega)
    have hbase : 0 ≤ v.cursorRow * v.cols := Int.mul_nonneg h.row.1 (Int.le_of_lt h.cols_pos)
    unfold moveAt
    rw [if_pos hremain, if_pos ⟨by omega, by omega, by omega, by omega, by omega, by omega⟩]
    refine ⟨_, rfl, drawn_withCells (length_blit ?_ ?_)⟩
    · omega
    · omega
  · rw [if_neg hremain]
    exact ⟨v, rfl, Drawn.refl⟩

/-- One step of the loop that makes room for a character. -/
theorem shiftCell_drawn (hd : Drawn v u) (hc : v.cursorCol < c) (hc' : c < v.cols) :
    ∃ u', shiftCell u c = some u' ∧ Drawn v u' := by
  have hu : Valid u := h.drawn hd
  obtain ⟨hcol, hrow, hcols, hrows⟩ := hd.cursor
  have hcursor := h.col
  have hsmall := hu.small
  have hfrom := hu.index hu.row.1 hu.row.2 (c := c - 1) (by omega) (by omega)
  obtain ⟨u', hstore, hdrawn⟩ :=
    storeAt_drawn hu.toSized hu.row.1 hu.row.2 (c := c) (by omega) (by omega)
    (u.cells[(u.cursorRow * u.cols + c - 1).toNat]?.getD cellBlank)
  obtain ⟨cells, hcells, hput⟩ := map_eq_some_iff.mp hstore
  have hload : loadAt u.cells (u.cursorRow * u.cols + c - 1) =
      some (u.cells[(u.cursorRow * u.cols + c - 1).toNat]?.getD cellBlank) := by
    have hin : (u.cursorRow * u.cols + c - 1).toNat < u.cells.length := by omega
    unfold loadAt
    rw [if_pos ⟨by omega, by omega⟩, List.getElem?_eq_getElem hin, getD_some]
  refine ⟨u', ?_, hd.trans hdrawn⟩
  unfold shiftCell
  rw [hload, bind_eq_bind, bind_some, hcells]
  exact congrArg some hput

theorem makeRoom_drawn : ∃ v', makeRoom v = some v' ∧ Drawn v v' := by
  unfold makeRoom
  by_cases hinsert : v.modeInsert
  · rw [if_pos hinsert]
    have hmem : ∀ c ∈ (upTo (v.cursorCol + 1) v.cols).reverse, ∀ _ : Vt100, v.cursorCol < c ∧
        c < v.cols := by
      intro c hc _
      rw [List.mem_reverse, mem_upTo] at hc
      omega
    exact Run.run_keeps (I := Drawn v) (fun u c hd hc => shiftCell_drawn h hd hc.1 hc.2) Drawn.refl
      (Run.along_of_forall hmem v)
  · rw [if_neg hinsert]
    exact ⟨v, rfl, Drawn.refl⟩

theorem writeCell_drawn (codepoint : UInt32) :
    ∃ v', writeCell v codepoint = some v' ∧ Drawn v v' := by
  have hcol := h.col
  have hrow := h.row
  unfold writeCell screenCell
  rw [if_neg (by omega)]
  exact storeAt_drawn h.toSized hrow.1 hrow.2 hcol.1 hcol.2 _

theorem scrollUp_drawn (mem : Mem) (htop : 0 ≤ top) (htop' : top < v.rows)
    (hn : 1 ≤ n) (hlow : -2 ^ 31 ≤ v.scrollBot - top + 1 - n) :
    ∃ v', scrollUp mem v top v.scrollBot n = some v' ∧ Drawn v v' := by
  obtain ⟨v', hv', hdrawn, -⟩ :=
    scrollUp_some mem h.toSized h.toRingOk h.main htop htop' h.region.2.2 hn hlow
  exact ⟨v', hv', hdrawn⟩

theorem scrollDown_drawn (htop : 0 ≤ top) (hn : 1 ≤ n)
    (hlow : -2 ^ 31 ≤ v.scrollBot - top + 1 - n) (hhigh : top + n < 2 ^ 31) :
    ∃ v', scrollDown v top v.scrollBot n = some v' ∧ Drawn v v' := by
  obtain ⟨v', hv', hframe, hlen, -⟩ := scrollDown_some h.toSized htop h.region.2.2 hn hlow hhigh
  refine ⟨v', hv', ?_⟩
  rw [hframe]
  exact drawn_withCells hlen

end

/-! ### Steps that move the cursor -/

/-- A coordinate brought onto the screen. -/
def clamp (x size : Int) : Int := min (max x 0) (size - 1)

theorem cursorClamp_eq (v : Vt100) (h : Sized v) : cursorClamp v =
    { v with cursorCol := clamp v.cursorCol v.cols, cursorRow := clamp v.cursorRow v.rows } := by
  have hcols := h.cols_pos
  have hrows := h.rows_pos
  have hclamp : ∀ x size : Int, 0 < size →
      clamp x size = if size ≤ (if x < 0 then 0 else x) then size - 1 else if x < 0 then
        0 else x := by
    intro x size hsize
    unfold clamp
    split_ifs <;> omega
  rw [hclamp _ _ hcols, hclamp _ _ hrows]
  unfold cursorClamp
  have hc' : ¬ v.cols ≤ 0 := by omega
  have hr' : ¬ v.rows ≤ 0 := by omega
  by_cases hc : v.cursorCol < 0 <;> by_cases hc'' : v.cols ≤ v.cursorCol <;>
    by_cases hr : v.cursorRow < 0 <;> by_cases hr'' : v.rows ≤ v.cursorRow <;>
    simp [hc, hc', hc'', hr, hr', hr'']

section

variable (h : Valid v)
include h

/-- The cursor at another place of the screen. -/
theorem Valid.at {col row : Int} {wrap : Bool} (hcol : 0 ≤ col ∧ col < v.cols)
    (hrow : 0 ≤ row ∧ row < v.rows) :
    Valid { v with cursorCol := col, cursorRow := row, pendingWrap := wrap } :=
  { h with col := hcol, row := hrow }

theorem Valid.clamped (col row : Int) (wrap : Bool) :
    Valid (cursorClamp { v with cursorCol := col, cursorRow := row, pendingWrap := wrap }) := by
  have hcols := h.cols_pos
  have hrows := h.rows_pos
  have hsized : Sized { v with cursorCol := col, cursorRow := row, pendingWrap := wrap } :=
    { h.toSized with }
  rw [cursorClamp_eq _ hsized]
  refine h.at ?_ ?_
  · show 0 ≤ clamp col v.cols ∧ clamp col v.cols < v.cols
    unfold clamp
    omega
  · show 0 ≤ clamp row v.rows ∧ clamp row v.rows < v.rows
    unfold clamp
    omega

theorem Valid.moved (col row : Int) : Valid (cursorMove v col row) := h.clamped col row false

theorem cursorNextLine_valid (mem : Mem) : ∃ v', cursorNextLine mem v = some v' ∧ Valid v' := by
  have hregion := h.region
  have hrow := h.row
  unfold cursorNextLine
  by_cases hbot : v.cursorRow = v.scrollBot
  · rw [if_pos hbot]
    obtain ⟨v', hv', hdrawn⟩ := scrollUp_drawn h mem hregion.1 (by omega) (Int.le_refl 1) (by omega)
    exact ⟨v', hv', h.drawn hdrawn⟩
  · rw [if_neg hbot]
    by_cases hlast : v.rows ≤ v.cursorRow + 1
    · rw [if_pos hlast]
      exact ⟨_, rfl, h.at h.col ⟨by omega, by omega⟩⟩
    · rw [if_neg hlast]
      exact ⟨_, rfl, h.at h.col ⟨by omega, by omega⟩⟩

theorem putChar_valid (mem : Mem) (codepoint : UInt32) :
    ∃ v', putChar mem v codepoint = some v' ∧ Valid v' := by
  have hwrap : ∃ w, wrapPending mem v = some w ∧ Valid w := by
    unfold wrapPending
    by_cases hpending : v.pendingWrap ∧ v.modeAutoWrap
    · rw [if_pos hpending]
      exact cursorNextLine_valid (h.at ⟨Int.le_refl 0, h.cols_pos⟩ h.row) mem
    · rw [if_neg hpending]
      exact ⟨v, rfl, h⟩
  obtain ⟨w, hw, hwvalid⟩ := hwrap
  obtain ⟨x, hx, hxdrawn⟩ := makeRoom_drawn hwvalid
  have hxvalid := hwvalid.drawn hxdrawn
  obtain ⟨y, hy, hydrawn⟩ := writeCell_drawn hxvalid codepoint
  have hyvalid := hxvalid.drawn hydrawn
  unfold putChar
  rw [hw, bind_eq_bind, bind_some, hx, bind_some, hy, bind_some]
  have hcol := hyvalid.col
  by_cases hlast : y.cols - 1 ≤ y.cursorCol
  · rw [if_pos hlast]
    exact ⟨_, rfl, hyvalid.at hyvalid.col hyvalid.row⟩
  · rw [if_neg hlast]
    exact ⟨_, rfl, hyvalid.at ⟨by omega, by omega⟩ hyvalid.row⟩

end

end Nv0ken.Terminal
