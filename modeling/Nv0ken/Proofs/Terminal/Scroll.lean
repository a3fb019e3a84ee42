/-
What scrolling does to the rows and to the ring of saved lines.

The ring always holds the last lines put into it (`Ring.keepLast`): one push appends the row, or
gives up a line if there is no memory for the row.  `scroll_up` pushes the row `top` once for every
line it scrolls, so that is what stands in the ring afterwards: the same row `n` times.

The rows themselves are moved by one copy and the rest is cleared.  `scrollUp_some` and
`scrollDown_some` say what each row of the screen holds afterwards, for any rows `top` and `bot` of
the screen, not only for those of the scroll region.
-/
import Nv0ken.Lib.Ring
import Nv0ken.Proofs.Terminal.Screen

namespace Nv0ken.Terminal

open Grid Word List Option
open Run (run)

variable {v v' u : Vt100} {S : Nat → Prop} {r top bot n : Int} {cells : List VtCell}

/-! ### The ring -/

/-- The ring has a slot for each of its lines. -/
structure RingOk (v : Vt100) : Prop where
  slots : v.scrollback.length = v.sbCap
  count : v.sbCount ≤ v.sbCap
  head : v.sbCap = 0 ∨ v.sbHead < v.sbCap

/-- The lines in the ring, oldest first. -/
def Vt100.kept (v : Vt100) : List (Option ScrollbackLine) :=
  Ring.window v.scrollback v.sbHead v.sbCount

/-- A row of the screen as a line of the ring. -/
def Vt100.saved (v : Vt100) (r : Int) : Option ScrollbackLine := some ⟨some (v.line r), v.cols⟩

/-- A terminal with other cells and another ring. -/
def Vt100.redrawn (v : Vt100) (cells : List VtCell) (sb : List ScrollbackLine) (count head : Nat) :
    Vt100 :=
  { v.withCells cells with scrollback := sb, sbCount := count, sbHead := head }

theorem redrawn_redrawn (cells cells' : List VtCell) (sb sb' : List ScrollbackLine)
    (n n' h h' : Nat) :
    (v.redrawn cells sb n h).redrawn cells' sb' n' h' = v.redrawn cells' sb' n' h' := by
  rcases v with ⟨cols, rows, screen, altScreen, useAlt⟩
  cases useAlt <;> rfl

theorem redrawn_of_cells (hcells : cells = v.cells) (sb : List ScrollbackLine) (n h : Nat) :
    v.redrawn cells sb n h = { v with scrollback := sb, sbCount := n, sbHead := h } := by
  unfold Vt100.redrawn
  rw [hcells, withCells_cells]

/-- Only cells and the ring have changed. -/
structure Drawn (v v' : Vt100) : Prop where
  frame : v' = v.redrawn v'.cells v'.scrollback v'.sbCount v'.sbHead
  length : v'.cells.length = v.cells.length
  ring : RingOk v → RingOk v'

theorem drawn_withCells (hlen : cells.length = v.cells.length) : Drawn v (v.withCells cells) := by
  refine ⟨?_, ?_, fun h => ⟨h.slots, h.count, h.head⟩⟩
  · rw [cells_withCells]
    rfl
  · rw [cells_withCells, hlen]

/-- Only the ring has changed. -/
theorem drawn_ring {sb : List ScrollbackLine} {n h : Nat}
    (hring : RingOk v → RingOk { v with scrollback := sb, sbCount := n, sbHead := h }) :
    Drawn v { v with scrollback := sb, sbCount := n, sbHead := h } :=
  ⟨(redrawn_of_cells rfl sb n h).symm, rfl, hring⟩

theorem Cleared.drawn (h : Cleared S v v') : Drawn v v' := by
  rw [h.frame]
  exact drawn_withCells h.length

theorem Drawn.refl : Drawn v v := by
  have h := @drawn_withCells v v.cells rfl
  rwa [withCells_cells] at h

theorem Drawn.trans (h : Drawn v v') (h' : Drawn v' u) : Drawn v u := by
  refine ⟨?_, h'.length.trans h.length, fun hv => h'.ring (h.ring hv)⟩
  conv_lhs => rw [h'.frame, h.frame, redrawn_redrawn]

theorem Drawn.same (h : Drawn v v') :
    v'.cols = v.cols ∧ v'.rows = v.rows ∧ v'.sbCap = v.sbCap ∧ v'.blankLine = v.blankLine := by
  rw [h.frame]
  exact ⟨rfl, rfl, rfl, rfl⟩

theorem Drawn.line (h : Drawn v v') (hcells : v'.cells = v.cells) (r : Int) :
    v'.line r = v.line r := by
  unfold Vt100.line
  rw [hcells, h.same.1]

theorem Drawn.sized (h : Drawn v v') (hv : Sized v) : Sized v' := by
  obtain ⟨hcols, hrows, -, -⟩ := h.same
  refine ⟨?_, ?_, ?_, ?_⟩
  · rw [hcols]
    exact hv.cols_pos
  · rw [hrows]
    exact hv.rows_pos
  · rw [hcols, hrows]
    exact hv.area
  · rw [h.length, hcols, hrows]
    exact hv.size

theorem rowCells_some (hv : Sized v) (hr : 0 ≤ r) (hr' : r < v.rows) :
    rowCells v r = some (v.line r) := by
  have hpos := hv.cols_pos
  have hsmall := hv.small
  have hlast := hv.index (c := v.cols - 1) hr hr' (by omega) (by omega)
  exact if_pos ⟨hr, by omega, by omega⟩

/-- What the ring holds after one push: the last lines with the row behind them, or, if there is no
memory for it, one line less than a full ring. -/
theorem sbPushLine_some (mem : Mem) (hv : Sized v) (hring : RingOk v) (hr : 0 ≤ r)
    (hr' : r < v.rows) :
    ∃ v', sbPushLine mem v r = some v' ∧ Drawn v v' ∧ v'.cells = v.cells ∧
      v'.kept = if mem (16 * v.cols).toNat then Ring.keepLast v.sbCap (v.kept ++ [v.saved r])
        else Ring.keepLast (v.sbCap - 1) v.kept := by
  have hlen : v.kept.length = v.sbCount := Ring.length_window
  have hcount := hring.count
  by_cases hcap : v.sbCap = 0
  · have hnil : v.kept = [] := length_eq_zero_iff.mp (by omega)
    refine ⟨v, ?_, Drawn.refl, rfl, ?_⟩
    · unfold sbPushLine
      rw [if_pos hcap]
    · rw [hcap, hnil, Ring.keepLast_zero]
      split <;> rfl
  · -- the slot written is behind the last line once there is room for it
    have hroom : (v.sbHead + v.sbCount) % v.sbCap =
          ((sbMakeRoom v).sbHead + (sbMakeRoom v).sbCount) % (sbMakeRoom v).scrollback.length ∧
        (sbMakeRoom v).sbCount < (sbMakeRoom v).scrollback.length ∧
        (sbMakeRoom v).sbHead < v.sbCap ∧
        (sbMakeRoom v).kept = if v.kept.length = v.sbCap then v.kept.drop 1 else v.kept := by
      have hhead := hring.head.resolve_left hcap
      unfold sbMakeRoom
      by_cases hfull : v.sbCount = v.sbCap
      · rw [if_pos hfull, if_pos (hlen.trans hfull)]
        refine ⟨?_, ?_, Nat.mod_lt _ (by omega), ?_⟩
        · show _ = ((v.sbHead + 1) % v.sbCap + (v.sbCount - 1)) % v.scrollback.length
          rw [hring.slots, Nat.mod_add_mod]
          congr 1
          omega
        · show v.sbCount - 1 < v.scrollback.length
          rw [hring.slots]
          omega
        · show Ring.window v.scrollback ((v.sbHead + 1) % v.sbCap) (v.sbCount - 1) = _
          rw [← hring.slots, Ring.window_advance]
          rfl
      · rw [if_neg hfull, if_neg (by omega), hring.slots]
        exact ⟨rfl, by omega, hhead, rfl⟩
    obtain ⟨hslot, hfree, hhead, hkept⟩ := hroom
    have hsame : (sbMakeRoom v).cells = v.cells ∧ (sbMakeRoom v).cols = v.cols ∧
        (sbMakeRoom v).sbCap = v.sbCap ∧ (sbMakeRoom v).scrollback = v.scrollback := by
      unfold sbMakeRoom
      split <;> exact ⟨rfl, rfl, rfl, rfl⟩
    obtain ⟨hcells, hcols, hsbcap, hsb⟩ := hsame
    have hdrawn : Drawn v (sbMakeRoom v) := by
      refine ⟨?_, by rw [hcells], fun _ => ⟨?_, ?_, Or.inr ?_⟩⟩
      · rw [redrawn_of_cells hcells]
        unfold sbMakeRoom
        split <;> rfl
      · rw [hsb, hsbcap, hring.slots]
      · rw [hsb, hring.slots] at hfree
        omega
      · rw [hsbcap]
        exact hhead
    have hrow : rowCells (sbMakeRoom v) r = some (v.line r) := by
      rw [rowCells_some (hdrawn.sized hv) hr (hdrawn.same.2.1 ▸ hr'), hdrawn.line hcells]
    unfold sbPushLine
    rw [if_neg hcap]
    generalize hw : sbMakeRoom v = w at *
    rw [← hcols]
    by_cases hmem : mem (16 * w.cols).toNat
    · rw [if_pos hmem, if_pos hmem, hrow, map_some]
      refine ⟨_, rfl, hdrawn.trans (drawn_ring fun h => ⟨?_, ?_, h.head⟩), hcells, ?_⟩
      · show (w.scrollback.set _ _).length = w.sbCap
        rw [length_set]
        exact h.slots
      · show w.sbCount + 1 ≤ w.sbCap
        rw [← h.slots]
        exact hfree
      · show Ring.window (w.scrollback.set _ _) w.sbHead (w.sbCount + 1) = _
        rw [hslot, Ring.window_push hfree]
        rw [Ring.keepLast_append_singleton (by omega) (Nat.pos_of_ne_zero hcap), ← hkept, hcols]
        rfl
    · rw [if_neg hmem, if_neg hmem]
      refine ⟨_, rfl, hdrawn.trans (drawn_ring fun h => ⟨?_, h.count, h.head⟩), hcells, ?_⟩
      · show (w.scrollback.set _ _).length = w.sbCap
        rw [length_set]
        exact h.slots
      · show Ring.window (w.scrollback.set _ _) w.sbHead w.sbCount = _
        rw [hslot, Ring.window_set hfree]
        show w.kept = _
        rw [hkept]
        unfold Ring.keepLast
        by_cases hfull : v.kept.length = v.sbCap
        · rw [if_pos hfull]
          congr 1
          omega
        · rw [if_neg hfull, Nat.sub_eq_zero_of_le (by omega), drop_zero]

/-- The pushes of one scroll: the row goes in `n` times. -/
theorem sbPushLines_some (mem : Mem) (hv : Sized v) (hring : RingOk v) (hmain : v.useAlt = false)
    (hr : 0 ≤ r) (hr' : r < v.rows) (hn : 1 ≤ n) :
    ∃ v', sbPushLines mem v r n = some v' ∧ Drawn v v' ∧ v'.cells = v.cells ∧
      v'.kept = if mem (16 * v.cols).toNat then
          Ring.keepLast v.sbCap (v.kept ++ List.replicate n.toNat (v.saved r))
        else Ring.keepLast (v.sbCap - 1) v.kept := by
  have hloop : ∀ (l : List Int) (u : Vt100), Drawn v u → u.cells = v.cells →
      ∃ u', run (fun v _ => sbPushLine mem v r) u l = some u' ∧ Drawn v u' ∧ u'.cells = v.cells ∧
        u'.kept = if mem (16 * v.cols).toNat then
            Ring.keepLast v.sbCap (u.kept ++ replicate l.length (v.saved r))
          else if l = [] then u.kept else Ring.keepLast (v.sbCap - 1) u.kept := by
    intro l
    induction l with
    | nil =>
      intro u hu hcells
      refine ⟨u, rfl, hu, hcells, ?_⟩
      have hlen : u.kept.length ≤ v.sbCap := by
        rw [Vt100.kept, Ring.length_window, ← hu.same.2.2.1]
        exact (hu.ring hring).count
      rw [length_nil, replicate_zero, append_nil, Ring.keepLast_of_le hlen]
      split <;> simp
    | cons x l ih =>
      intro u hu hcells
      obtain ⟨hcols, hrows, hcap, -⟩ := hu.same
      have hsaved : u.saved r = v.saved r := by
        unfold Vt100.saved
        rw [hu.line hcells, hcols]
      obtain ⟨w, hw, hdrawn, hwcells, hwkept⟩ :=
        sbPushLine_some mem (hu.sized hv) (hu.ring hring) hr (by omega)
      obtain ⟨u', hu', hdrawn', hcells', hkept'⟩ := ih w (hu.trans hdrawn) (hwcells.trans hcells)
      refine ⟨u', ?_, hdrawn', hcells', ?_⟩
      · rw [Run.run_cons, hw]
        exact hu'
      · rw [hkept', hwkept, hcols, hcap, hsaved]
        by_cases hmem : mem (16 * v.cols).toNat
        · rw [if_pos hmem, if_pos hmem, if_pos hmem, Ring.keepLast_keepLast_append, append_assoc,
            singleton_append, ← replicate_succ, length_cons]
        · rw [if_neg hmem, if_neg hmem, if_neg hmem, if_neg (cons_ne_nil x l)]
          split
          · rfl
          · rw [Ring.keepLast_of_le]
            rw [Ring.length_keepLast]
            omega
  obtain ⟨v', hrun, hdrawn, hcells, hkept⟩ := hloop (upTo 0 n) v Drawn.refl rfl
  have hlen : (upTo 0 n).length = n.toNat := by
    unfold upTo
    rw [length_map, length_range, Int.sub_zero]
  have hne : upTo 0 n ≠ [] := by
    intro hnil
    rw [hnil, length_nil] at hlen
    omega
  refine ⟨v', ?_, hdrawn, hcells, ?_⟩
  · unfold sbPushLines
    rw [hmain]
    exact hrun
  · rw [hkept, hlen, if_neg hne]

/-! ### Scrolling -/

theorem Sized.rows_le (hv : Sized v) : v.rows ≤ 2 ^ 31 := by
  have hpos := hv.rows_pos
  have hcols := hv.cols_pos
  have hle : 1 * v.rows ≤ v.cols * v.rows :=
    Int.mul_le_mul_of_nonneg_right hcols (Int.le_of_lt hpos)
  have harea := hv.area
  omega

/-- Rows are moved, and rows are cleared. -/
theorem moveClear_some (dst src lines a b : Int) (hv : Sized v) (hdst : 0 ≤ dst) (hsrc : 0 ≤ src)
    (hdst' : dst + lines ≤ v.rows) (hsrc' : src + lines ≤ v.rows) :
    ∃ v', ((moveRows v dst src lines).bind fun u => screenClearRows u a b) = some v' ∧
      v' = v.withCells v'.cells ∧ v'.cells.length = v.cells.length ∧
      ∀ r, 0 ≤ r → r < v.rows → v'.line r = if a ≤ r ∧ r ≤ b then v.blankLine
        else if dst ≤ r ∧ r < dst + lines then v.line (src + (r - dst)) else v.line r := by
  obtain ⟨u, hmove, hframe, hlen, hline⟩ := moveRows_some dst src lines hv hdst hsrc hdst' hsrc'
  have hu : Sized u := by
    rw [hframe]
    exact hv.withCells hlen
  have hsame : u.rows = v.rows ∧ u.blankLine = v.blankLine := by
    rw [hframe]
    exact ⟨rfl, rfl⟩
  obtain ⟨v', hclear, hcleared⟩ := screenClearRows_some (a := a) (b := b) hu
  refine ⟨v', ?_, ?_, hcleared.length.trans hlen, ?_⟩
  · rw [hmove]
    exact hclear
  · conv_lhs => rw [hcleared.frame, hframe, withCells_withCells]
  · intro r hr hr'
    rw [hcleared.line hu hr (by omega), hsame.2, hline r hr]

theorem scrollDown_some (hv : Sized v) (htop : 0 ≤ top) (hbot : bot < v.rows) (hn : 1 ≤ n)
    (hlow : -2 ^ 31 ≤ bot - top + 1 - n) (hhigh : top + n < 2 ^ 31) :
    ∃ v', scrollDown v top bot n = some v' ∧ v' = v.withCells v'.cells ∧
      v'.cells.length = v.cells.length ∧
      ∀ r, 0 ≤ r → r < v.rows → v'.line r =
        if top ≤ r ∧ r < top + n then v.blankLine
        else if top + n ≤ r ∧ r ≤ bot then v.line (r - n) else v.line r := by
  have hrows := hv.rows_le
  obtain ⟨v', hscroll, hframe, hlen, hline⟩ := moveClear_some (top + n) top (bot - top + 1 - n) top
    (top + n - 1) hv (by omega) htop (by omega) (by omega)
  refine ⟨v', ?_, hframe, hlen, fun r hr hr' => ?_⟩
  · unfold scrollDown
    rw [checked_of_range hlow (by omega), checked_of_range (by omega) hhigh]
    exact hscroll
  · rw [hline r hr hr']
    refine if_congr ?_ rfl (if_congr ?_ ?_ rfl)
    · omega
    · omega
    · congr 1
      omega

theorem scrollDown_none (h : ¬ (-2 ^ 31 ≤ bot - top + 1 - n ∧ top + n < 2 ^ 31)) :
    scrollDown v top bot n = none := by
  unfold scrollDown
  cases hlines : checked (bot - top + 1 - n) with
  | none => rfl
  | some lines =>
    have hstop : checked (top + n) = none := by
      unfold checked
      rw [if_neg]
      intro hrange
      exact h ⟨(checked_eq_some.mp hlines).1.1, hrange.2⟩
    rw [bind_eq_bind, bind_some, hstop]
    cases moveRows v (top + n) top lines <;> rfl

theorem scrollUp_some (mem : Mem) (hv : Sized v) (hring : RingOk v) (hmain : v.useAlt = false)
    (htop : 0 ≤ top) (htop' : top < v.rows) (hbot : bot < v.rows) (hn : 1 ≤ n)
    (hlow : -2 ^ 31 ≤ bot - top + 1 - n) :
    ∃ v', scrollUp mem v top bot n = some v' ∧ Drawn v v' ∧
      (v'.kept = if mem (16 * v.cols).toNat then
          Ring.keepLast v.sbCap (v.kept ++ List.replicate n.toNat (v.saved top))
        else Ring.keepLast (v.sbCap - 1) v.kept) ∧
      ∀ r, 0 ≤ r → r < v.rows → v'.line r =
        if bot - n < r ∧ r ≤ bot then v.blankLine
        else if top ≤ r ∧ r ≤ bot - n then v.line (r + n) else v.line r := by
  have hrows := hv.rows_le
  obtain ⟨p, hpush, hpdrawn, hpcells, hpkept⟩ := sbPushLines_some mem hv hring hmain htop htop' hn
  have hp : Sized p := hpdrawn.sized hv
  obtain ⟨-, hprows, -, hpblank⟩ := hpdrawn.same
  have hpline := hpdrawn.line hpcells
  obtain ⟨v', hscroll, hframe, hlen, hline⟩ := moveClear_some top (top + n) (bot - top + 1 - n)
    (bot - n + 1) bot hp htop (by omega) (by omega) (by omega)
  have hkept : v'.kept = p.kept := by
    rw [hframe]
    rfl
  refine ⟨v', ?_, ?_, hkept.trans hpkept, fun r hr hr' => ?_⟩
  · unfold scrollUp
    rw [hpush, bind_eq_bind, checked_of_range hlow (by omega)]
    exact hscroll
  · refine hpdrawn.trans ?_
    rw [hframe]
    exact drawn_withCells hlen
  · rw [hline r hr (by omega), hpblank, hpline, hpline]
    refine if_congr ?_ rfl (if_congr ?_ ?_ rfl)
    · omega
    · omega
    · congr 1
      omega

theorem scrollUp_none {mem : Mem} (h : bot - top + 1 - n < -2 ^ 31) :
    scrollUp mem v top bot n = none := by
  have hlines : checked (bot - top + 1 - n) = none := by
    unfold checked
    rw [if_neg (by omega)]
  unfold scrollUp
  rw [hlines]
  cases sbPushLines mem v top n <;> rfl

end Nv0ken.Terminal
