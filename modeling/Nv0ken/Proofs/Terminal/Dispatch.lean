/-
One byte, from a state with the invariant.

No byte makes the emulator leave the screen.  What can go wrong is arithmetic: a parameter is read
digit by digit into an `int` without a bound, and several commands add a parameter to a coordinate.
`ByteOk` says for each byte that none of these overflows, in terms of the state before the byte, and
`feedByte_some` and `feedByte_none` that this is exactly when the byte has a defined effect.
-/
import Nv0ken.Proofs.Terminal.Valid

namespace Nv0ken.Terminal

open Grid Word List Option
open Run (run)

variable {v v' : Vt100} {c : UInt8} {final : Char}

/-- The invariant does not speak of the attributes, the saved cursor, the insert mode and the state
of the parser. -/
theorem Valid.other (h : Valid v) {attr : VtCell} {col row : Int} {on : Bool} {state : VtParseState}
    {osc : List UInt8} :
    Valid { v with
      currentAttr := attr, savedCol := col, savedRow := row, modeInsert := on, parseState := state
      oscBuf := osc } :=
  { h with }

/-! ### Parameters -/

theorem param_range (h : Valid v) (i : Nat) {d : Int} (hd : 0 ≤ d ∧ d < 2 ^ 31) :
    0 ≤ param v i d ∧ param v i d < 2 ^ 31 := by
  unfold param
  by_cases hmissing : v.paramCount ≤ i ∨ v.params.getD i 0 = 0
  · rw [if_pos hmissing]
    exact hd
  · rw [if_neg hmissing]
    by_cases hi : i < v.params.length
    · rw [getD_eq_getElem _ _ hi]
      exact h.params _ (getElem_mem hi)
    · rw [getD_eq_default _ _ (Nat.not_lt.mp hi)]
      omega

theorem param_pos (h : Valid v) (i : Nat) {d : Int} (hd : 1 ≤ d ∧ d < 2 ^ 31) :
    1 ≤ param v i d := by
  have hrange := param_range h i (d := d) (by omega)
  have hzero : param v i d ≠ 0 := by
    unfold param
    split <;> omega
  omega

/-! ### Colours -/

/-- No colour given by its three shares is too large. -/
def sgrOk : List Int → Bool
  | [] => true
  | 38 :: 5 :: _ :: ps => sgrOk ps
  | 38 :: 2 :: r :: g :: b :: ps => paletteColor r g b < 2 ^ 31 && sgrOk ps
  | 48 :: 5 :: _ :: ps => sgrOk ps
  | 48 :: 2 :: r :: g :: b :: ps => paletteColor r g b < 2 ^ 31 && sgrOk ps
  | _ :: ps => sgrOk ps

theorem paletteColor_nonneg {r g b : Int} (hr : 0 ≤ r) (hg : 0 ≤ g) (hb : 0 ≤ b) :
    0 ≤ paletteColor r g b := by
  have hdiv : ∀ x : Int, 0 ≤ x → 0 ≤ x.tdiv 43 := fun x hx => Int.tdiv_nonneg hx (by omega)
  have h1 := hdiv r hr
  have h2 := hdiv g hg
  have h3 := hdiv b hb
  unfold paletteColor
  omega

/-- A colour that is computed and then used. -/
theorem isSome_checked_bind {β : Type} {x : Int} {f : Int → Option β} (hx : 0 ≤ x) :
    ((checked x).bind f).isSome = (decide (x < 2 ^ 31) && (f x).isSome) := by
  by_cases hlt : x < 2 ^ 31
  · rw [checked_of_range (by omega) hlt, bind_some, decide_eq_true hlt, Bool.true_and]
  · have hnone : checked x = none := by
      unfold checked
      rw [if_neg (by omega)]
    rw [hnone, decide_eq_false hlt]
    rfl

theorem sgrLoop_isSome (a : VtCell) (ps : List Int) (h : ∀ p ∈ ps, 0 ≤ p) :
    (sgrLoop a ps).isSome = sgrOk ps := by
  induction a, ps using sgrLoop.induct with
  | case1 a => rfl
  | case2 a n ps ih | case4 a n ps ih =>
    simp only [forall_mem_cons] at h
    exact ih h.2.2.2
  | case3 a r g b ps ih | case5 a r g b ps ih =>
    simp only [forall_mem_cons] at h
    rw [sgrLoop, sgrOk, isSome_checked_bind (paletteColor_nonneg h.2.2.1 h.2.2.2.1 h.2.2.2.2.1)]
    rw [ih _ h.2.2.2.2.2]
  | case6 a p ps h1 h2 h3 h4 ih =>
    rw [forall_mem_cons] at h
    rw [sgrLoop, sgrOk]
    · exact ih h.2
    · exact h1
    · exact h2
    · exact h3
    · exact h4
    · exact h1
    · exact h2
    · exact h3
    · exact h4

/-! ### Control sequences -/

/-- The command adds its parameter to nothing it would overflow. -/
def CsiOk (v : Vt100) : Csi → Prop
  | .cursorDown => v.cursorRow + param v 0 1 < 2 ^ 31
  | .nextLine => v.cursorRow + param v 0 1 < 2 ^ 31
  | .cursorForward => v.cursorCol + param v 0 1 < 2 ^ 31
  | .eraseChars => v.cursorCol + param v 0 1 < 2 ^ 31
  | .tab => (v.cursorCol.tdiv 8 + param v 0 1) * 8 < 2 ^ 31
  | .insertLines =>
    -2 ^ 31 ≤ v.scrollBot - v.cursorRow + 1 - param v 0 1 ∧ v.cursorRow + param v 0 1 < 2 ^ 31
  | .deleteLines => -2 ^ 31 ≤ v.scrollBot - v.cursorRow + 1 - param v 0 1
  | .scrollDown => v.scrollTop + param v 0 1 < 2 ^ 31
  | .sgr => sgrOk (v.params.take v.paramCount)
  | _ => True

instance decidableCsiOk (v : Vt100) (op : Csi) : Decidable (CsiOk v op) := by
  unfold CsiOk
  cases op <;> infer_instance

section

variable (h : Valid v)
include h

theorem screenClearLine_valid (a b : Int) :
    ∃ u, screenClearLine v v.cursorRow a b = some u ∧ Valid u := by
  obtain ⟨u, hu, hd⟩ := screenClearLine_drawn h.toSized v.cursorRow a b
  exact ⟨u, hu, h.drawn hd⟩

theorem eraseDisplay_valid : ∃ v', eraseDisplay v = some v' ∧ Valid v' := by
  have hrows : ∀ u : Vt100, Valid u → ∀ a b, ∃ v', screenClearRows u a b = some v' ∧ Valid v' := by
    intro u hu a b
    obtain ⟨v', hv', hd⟩ := screenClearRows_drawn hu.toSized a b
    exact ⟨v', hv', hu.drawn hd⟩
  unfold eraseDisplay
  by_cases h0 : param v 0 0 = 0
  · rw [if_pos h0]
    obtain ⟨u, hu, huvalid⟩ := screenClearLine_valid h v.cursorCol (v.cols - 1)
    rw [hu]
    exact hrows u huvalid _ _
  · rw [if_neg h0]
    by_cases h1 : param v 0 0 = 1
    · rw [if_pos h1]
      obtain ⟨u, hu, huvalid⟩ := screenClearLine_valid h 0 v.cursorCol
      rw [hu]
      exact hrows u huvalid _ _
    · rw [if_neg h1]
      by_cases h2 : param v 0 0 = 2
      · rw [if_pos h2]
        exact hrows v h _ _
      · rw [if_neg h2]
        by_cases h3 : param v 0 0 = 3
        · rw [if_pos h3]
          obtain ⟨u, hu, huvalid⟩ := hrows v h 0 (v.rows - 1)
          rw [hu]
          refine ⟨_, rfl, huvalid.drawn (drawn_ring fun hring => ⟨hring.slots, Nat.zero_le _, ?_⟩)⟩
          show u.sbCap = 0 ∨ 0 < u.sbCap
          omega
        · rw [if_neg h3]
          exact ⟨v, rfl, h⟩

theorem eraseLine_valid : ∃ v', eraseLine v = some v' ∧ Valid v' := by
  unfold eraseLine
  split
  · exact screenClearLine_valid h _ _
  · split
    · exact screenClearLine_valid h _ _
    · split
      · exact screenClearLine_valid h _ _
      · exact ⟨v, rfl, h⟩

/-- Characters of a row are moved, and a part of the row is cleared. -/
theorem moveClear_valid (dst src remain : Int) (hdst : 0 ≤ dst) (hsrc : 0 ≤ src)
    (hdst' : dst + remain ≤ v.cols) (hsrc' : src + remain ≤ v.cols) (a b : Vt100 → Int) :
    ∃ v', ((moveChars v dst src remain).bind fun u => screenClearLine u u.cursorRow (a u) (b u)) =
      some v' ∧ Valid v' := by
  obtain ⟨u, hu, hd⟩ := moveChars_drawn h dst src remain hdst hsrc hdst' hsrc'
  obtain ⟨v', hv', hd'⟩ := screenClearLine_drawn (hd.sized h.toSized) u.cursorRow (a u) (b u)
  refine ⟨v', ?_, h.drawn (hd.trans hd')⟩
  rw [hu]
  exact hv'

theorem deleteChars_valid {p1 : Int} (hp : 1 ≤ p1) :
    ∃ v', deleteChars v p1 = some v' ∧ Valid v' := by
  have hcol := h.col
  unfold deleteChars
  exact moveClear_valid h _ _ _ (by omega) (by omega) (by omega) (by omega) _ _

theorem insertChars_valid {p1 : Int} (hp : 1 ≤ p1) :
    ∃ v', insertChars v p1 = some v' ∧ Valid v' := by
  have hcol := h.col
  unfold insertChars
  generalize hn : (if v.cols - v.cursorCol < p1 then v.cols - v.cursorCol else p1) = n
  exact moveClear_valid h _ _ _ (by omega) (by omega) (by omega) (by omega) _ _

theorem scrollRegion_valid : Valid (scrollRegion v) := by
  have hrows := h.rows_pos
  have htop := param_pos h 0 (d := 1) (by omega)
  have hset : ∀ top bot, 0 ≤ top ∧ top ≤ bot ∧ bot < v.rows →
      Valid { v with scrollTop := top, scrollBot := bot } := by
    intro top bot hregion
    exact { h with region := hregion }
  unfold scrollRegion
  dsimp only
  generalize hb : (if v.rows ≤ param v 1 v.rows - 1 then v.rows - 1 else param v 1 v.rows - 1) = bot
  rw [if_neg (by omega : ¬ param v 0 1 - 1 < 0)]
  by_cases hempty : bot < param v 0 1 - 1
  · rw [if_pos hempty]
    exact (hset 0 (v.rows - 1) (by omega)).moved 0 0
  · rw [if_neg hempty]
    exact (hset _ bot (by omega)).moved 0 0

/-- The mark of a private mode is never among the intermediate bytes. -/
theorem isPrivate_eq_false : isPrivate v = false := by
  unfold isPrivate
  cases hi : v.interm with
  | nil => rfl
  | cons b bs =>
    have hb : b ≤ 0x2F := h.interm b (by rw [hi]; exact mem_cons_self)
    have hne : b ≠ 63 := by
      rintro rfl
      exact absurd hb (by decide)
    exact beq_false_of_ne (fun heq => hne (some.inj heq))

theorem setMode_valid (p : Int) : ∃ v', setMode v p = some v' ∧ Valid v' := by
  unfold setMode
  rw [isPrivate_eq_false h]
  by_cases hp : p = 4
  · rw [if_pos hp]
    exact ⟨_, rfl, h.other⟩
  · rw [if_neg hp]
    exact ⟨v, rfl, h⟩

theorem resetMode_valid (p : Int) : ∃ v', resetMode v p = some v' ∧ Valid v' := by
  unfold resetMode
  rw [isPrivate_eq_false h]
  by_cases hp : p = 4
  · rw [if_pos hp]
    exact ⟨_, rfl, h.other⟩
  · rw [if_neg hp]
    exact ⟨v, rfl, h⟩

end

theorem modes_valid {f : Vt100 → Int → Option Vt100}
    (hf : ∀ u, Valid u → ∀ p, ∃ u', f u p = some u' ∧ Valid u') (h : Valid v) (ps : List Int) :
    ∃ v', run f v ps = some v' ∧ Valid v' :=
  Run.run_keeps (I := Valid) (fun u p hu _ => hf u hu p) h (Run.along_true v ps)

theorem isSome_sgrLoop (h : Valid v) :
    (sgrLoop v.currentAttr (v.params.take v.paramCount)).isSome =
      sgrOk (v.params.take v.paramCount) :=
  sgrLoop_isSome _ _ fun p hp => (h.params p (mem_of_mem_take hp)).1

theorem applySgr_valid (h : Valid v) (hok : sgrOk (v.params.take v.paramCount)) :
    ∃ v', applySgr v = some v' ∧ Valid v' := by
  unfold applySgr
  by_cases hcount : v.paramCount = 0
  · rw [if_pos hcount]
    exact ⟨_, rfl, h.other⟩
  · rw [if_neg hcount]
    obtain ⟨a, ha⟩ := isSome_iff_exists.mp ((isSome_sgrLoop h).trans hok)
    rw [ha]
    exact ⟨_, rfl, h.other⟩

theorem applySgr_none (h : Valid v) (hok : sgrOk (v.params.take v.paramCount) = false) :
    applySgr v = none := by
  unfold applySgr
  have hcount : v.paramCount ≠ 0 := by
    intro hzero
    rw [hzero] at hok
    cases hok
  have hnone : sgrLoop v.currentAttr (v.params.take v.paramCount) = none := by
    rw [← not_isSome_iff_eq_none, isSome_sgrLoop h, hok]
    exact Bool.false_ne_true
  rw [if_neg hcount, hnone, map_none]

/-- **A command that overflows nothing is carried out and keeps the invariant.** -/
theorem dispatchCsi_some (h : Valid v) (mem : Mem) (hok : CsiOk v (csiOf final)) :
    ∃ v', dispatchCsi mem v final = some v' ∧ Valid v' := by
  have hp := param_pos h 0 (d := 1) (by omega)
  have hp' := param_range h 0 (d := 1) (by omega)
  have hcol := h.col
  have hrow := h.row
  have hregion := h.region
  have hdrawn : ∀ {x : Option Vt100}, (∃ v', x = some v' ∧ Drawn v v') →
      ∃ v', x = some v' ∧ Valid v' := by
    rintro x ⟨v', hx, hd⟩
    exact ⟨v', hx, h.drawn hd⟩
  unfold dispatchCsi
  cases hop : csiOf final <;> rw [hop] at hok <;> dsimp only
  case cursorUp => exact ⟨_, rfl, h.moved _ _⟩
  case cursorDown =>
    rw [checked_of_range (by omega) hok]
    exact ⟨_, rfl, h.moved _ _⟩
  case cursorForward =>
    rw [checked_of_range (by omega) hok]
    exact ⟨_, rfl, h.moved _ _⟩
  case cursorBack => exact ⟨_, rfl, h.moved _ _⟩
  case nextLine =>
    rw [checked_of_range (by omega) hok]
    exact ⟨_, rfl, h.moved _ _⟩
  case previousLine => exact ⟨_, rfl, h.moved _ _⟩
  case column => exact ⟨_, rfl, h.moved _ _⟩
  case position => exact ⟨_, rfl, h.moved _ _⟩
  case tab =>
    have hdiv : 0 ≤ v.cursorCol.tdiv 8 := Int.tdiv_nonneg hcol.1 (by omega)
    rw [checked_of_range (by omega) hok]
    exact ⟨_, rfl, h.clamped _ v.cursorRow v.pendingWrap⟩
  case eraseDisplay => exact eraseDisplay_valid h
  case eraseLine => exact eraseLine_valid h
  case insertLines => exact hdrawn (scrollDown_drawn h hrow.1 hp hok.1 hok.2)
  case deleteLines => exact hdrawn (scrollUp_drawn h mem hrow.1 hrow.2 hp hok)
  case deleteChars => exact deleteChars_valid h hp
  case insertChars => exact insertChars_valid h hp
  case scrollUp => exact hdrawn (scrollUp_drawn h mem hregion.1 (by omega) hp (by omega))
  case scrollDown => exact hdrawn (scrollDown_drawn h hregion.1 hp (by omega) hok)
  case eraseChars =>
    rw [checked_of_range (by omega) hok]
    exact hdrawn (screenClearLine_drawn h.toSized _ _ _)
  case backTab => exact ⟨_, rfl, h.clamped _ v.cursorRow v.pendingWrap⟩
  case lineAbsolute => exact ⟨_, rfl, h.moved _ _⟩
  case sgr => exact applySgr_valid h hok
  case scrollRegion => exact ⟨_, rfl, scrollRegion_valid h⟩
  case setMode => exact modes_valid (fun u hu p => setMode_valid hu p) h _
  case resetMode => exact modes_valid (fun u hu p => resetMode_valid hu p) h _
  case save => exact ⟨_, rfl, h.other⟩
  case restore => exact ⟨_, rfl, h.moved _ _⟩
  case ignored => exact ⟨v, rfl, h⟩

theorem checked_eq_none {x : Int} (h : ¬ x < 2 ^ 31) : checked x = none := by
  unfold checked
  rw [if_neg (by omega)]

theorem dispatchCsi_none (h : Valid v) (mem : Mem) (hok : ¬ CsiOk v (csiOf final)) :
    dispatchCsi mem v final = none := by
  unfold dispatchCsi
  cases hop : csiOf final <;> rw [hop] at hok <;> dsimp only
  case cursorDown =>
    rw [checked_eq_none hok]
    rfl
  case cursorForward =>
    rw [checked_eq_none hok]
    rfl
  case nextLine =>
    rw [checked_eq_none hok]
    rfl
  case tab =>
    rw [checked_eq_none hok]
    rfl
  case insertLines => exact scrollDown_none hok
  case deleteLines => exact scrollUp_none (Int.not_le.mp hok)
  case scrollDown => exact scrollDown_none (fun hrange => hok hrange.2)
  case eraseChars =>
    rw [checked_eq_none hok]
    rfl
  case sgr => exact applySgr_none h (Bool.eq_false_iff.mpr hok)
  all_goals exact absurd trivial hok

/-! ### The parser -/

/-- The byte overflows nothing in this state. -/
def ByteOk (v : Vt100) (c : UInt8) : Prop :=
  match v.parseState with
  | .ground => c = 0x09 → (v.cursorCol.tdiv 8 + 1) * 8 < 2 ^ 31
  | .csi =>
    if 0x30 ≤ c ∧ c ≤ 0x39 then
      v.params.getD ((if v.paramCount = 0 then 1 else v.paramCount) - 1) 0 * 10 +
        (c.toNat - 48 : Nat) < 2 ^ 31
    else if 0x40 ≤ c ∧ c ≤ 0x7E then CsiOk v (csiOf (Char.ofNat c.toNat))
    else True
  | .escape => True
  | .osc => True

instance decidableByteOk (v : Vt100) (c : UInt8) : Decidable (ByteOk v c) := by
  unfold ByteOk
  cases v.parseState <;> infer_instance

section

variable (h : Valid v)
include h

theorem Valid.reset : Valid (parserReset v) := by
  refine { h with
    params := ?_, paramSlots := ⟨length_replicate, Nat.zero_le _⟩
    interm := fun b hb => absurd hb not_mem_nil }
  intro p hp
  rw [eq_of_mem_replicate hp]
  decide

theorem Valid.intermPush (hc : c ≤ 0x2F) : Valid (intermPush v c) := by
  unfold Terminal.intermPush
  split
  · refine { h with interm := ?_ }
    intro b hb
    rcases mem_append.mp hb with hold | hnew
    · exact h.interm b hold
    · rw [mem_singleton.mp hnew]
      exact hc
  · exact h

theorem Valid.paramNext : Valid (paramNext v) := by
  unfold Terminal.paramNext
  split
  · rename_i hlt
    exact { h with paramSlots := ⟨h.paramSlots.1, hlt⟩ }
  · exact h

theorem last_param_nonneg (i : Nat) : 0 ≤ v.params.getD i 0 := by
  by_cases hi : i < v.params.length
  · rw [getD_eq_getElem _ _ hi]
    exact (h.params _ (getElem_mem hi)).1
  · rw [getD_eq_default _ _ (Nat.not_lt.mp hi)]

theorem paramPushDigit_valid
    (hok : v.params.getD ((if v.paramCount = 0 then 1 else v.paramCount) - 1) 0 * 10 +
      (c.toNat - 48 : Nat) < 2 ^ 31) : ∃ v', paramPushDigit v c = some v' ∧ Valid v' := by
  unfold paramPushDigit
  dsimp only
  have hlast := last_param_nonneg h ((if v.paramCount = 0 then 1 else v.paramCount) - 1)
  rw [checked_of_range (by omega) hok]
  refine ⟨_, rfl, { h with params := ?_, paramSlots := ⟨?_, ?_⟩ }⟩
  · intro p hp
    rcases mem_or_eq_of_mem_set hp with hold | rfl
    · exact h.params p hold
    · omega
  · rw [length_set]
    exact h.paramSlots.1
  · have hcount := h.paramSlots.2
    show (if v.paramCount = 0 then 1 else v.paramCount) ≤ maxParams
    split
    · decide
    · exact hcount

theorem dispatchEsc_valid (mem : Mem) : ∃ v', dispatchEsc mem v final = some v' ∧ Valid v' := by
  have hregion := h.region
  have hrow := h.row
  have hrows := h.rows_int
  unfold dispatchEsc
  split
  · exact cursorNextLine_valid h mem
  · exact cursorNextLine_valid (@Valid.at v h 0 v.cursorRow v.pendingWrap ⟨Int.le_refl 0,
      h.cols_pos⟩ h.row) mem
  · by_cases htop : v.cursorRow = v.scrollTop
    · rw [if_pos htop]
      obtain ⟨v', hv', hd⟩ := scrollDown_drawn h hregion.1 (Int.le_refl 1) (by omega) (by omega)
      exact ⟨v', hv', h.drawn hd⟩
    · rw [if_neg htop]
      by_cases hfirst : 0 < v.cursorRow
      · rw [if_pos hfirst]
        exact ⟨_, rfl, h.at h.col ⟨by omega, by omega⟩⟩
      · rw [if_neg hfirst]
        exact ⟨v, rfl, h⟩
  · exact ⟨_, rfl, h.other⟩
  · exact ⟨_, rfl, h.moved _ _⟩
  · obtain ⟨u, hu, hd⟩ := screenClearRows_drawn h.toSized 0 (v.rows - 1)
    have hmoved : Valid (cursorMove u 0 0) := (h.drawn hd).moved 0 0
    have hpos := hmoved.rows_pos
    rw [hu]
    refine ⟨_, rfl, { hmoved with region := ⟨Int.le_refl 0, ?_, ?_⟩ }⟩
    · show 0 ≤ (cursorMove u 0 0).rows - 1
      omega
    · show (cursorMove u 0 0).rows - 1 < (cursorMove u 0 0).rows
      omega
  · exact ⟨v, rfl, h⟩

theorem feedOsc_valid : Valid (feedOsc v c) := by
  unfold feedOsc
  dsimp only
  split
  · exact h.other
  · split
    · exact h.other
    · exact h

theorem feedControl_valid (mem : Mem) (hok : c = 0x09 → (v.cursorCol.tdiv 8 + 1) * 8 < 2 ^ 31) :
    ∃ v', feedControl mem v c = some v' ∧ Valid v' := by
  have hcol := h.col
  unfold feedControl
  split
  · refine ⟨_, rfl, h.at ?_ h.row⟩
    split <;> omega
  · split
    · rename_i htab
      have hdiv : 0 ≤ v.cursorCol.tdiv 8 := Int.tdiv_nonneg hcol.1 (by omega)
      rw [checked_of_range (by omega) (hok htab)]
      refine ⟨_, rfl, h.at ?_ h.row⟩
      split <;> omega
    · split
      · exact cursorNextLine_valid h mem
      · split
        · exact ⟨_, rfl, h.at ⟨Int.le_refl 0, h.cols_pos⟩ h.row⟩
        · split
          · exact ⟨_, rfl, h.reset.other⟩
          · exact ⟨v, rfl, h⟩

theorem feedEscape_valid (mem : Mem) : ∃ v', feedEscape mem v c = some v' ∧ Valid v' := by
  unfold feedEscape
  split
  · exact ⟨_, rfl, h.reset.other⟩
  · split
    · exact ⟨_, rfl, h.other⟩
    · split
      · exact ⟨_, rfl, h.other⟩
      · split
        · rename_i hinterm
          exact ⟨_, rfl, h.intermPush hinterm.2⟩
        · split
          · obtain ⟨v', hv', hvalid⟩ := @dispatchEsc_valid v (Char.ofNat c.toNat) h mem
            rw [hv']
            exact ⟨_, rfl, hvalid.other⟩
          · exact ⟨_, rfl, h.other⟩

/-- **A byte that overflows nothing is taken in and keeps the invariant.** -/
theorem feedByte_some (mem : Mem) (hok : ByteOk v c) :
    ∃ v', feedByte mem v c = some v' ∧ Valid v' := by
  unfold ByteOk at hok
  unfold feedByte
  cases hstate : v.parseState with
  | osc => exact ⟨_, rfl, feedOsc_valid h⟩
  | ground =>
    rw [hstate] at hok
    show ∃ v', feedGround mem v c = some v' ∧ Valid v'
    unfold feedGround
    split
    · exact feedControl_valid h mem hok
    · exact putChar_valid h mem _
  | escape => exact feedEscape_valid h mem
  | csi =>
    rw [hstate] at hok
    show ∃ v', feedCsi mem v c = some v' ∧ Valid v'
    unfold feedCsi
    by_cases hdigit : 0x30 ≤ c ∧ c ≤ 0x39
    · simp only [if_pos hdigit] at hok
      rw [if_pos hdigit]
      exact paramPushDigit_valid h hok
    · simp only [if_neg hdigit] at hok
      rw [if_neg hdigit]
      split
      · exact ⟨_, rfl, h.paramNext⟩
      · split
        · exact ⟨_, rfl, h.paramNext⟩
        · split
          · rename_i hinterm
            exact ⟨_, rfl, h.intermPush hinterm.2⟩
          · by_cases hfinal : 0x40 ≤ c ∧ c ≤ 0x7E
            · rw [if_pos hfinal] at hok ⊢
              obtain ⟨v', hv', hvalid⟩ := dispatchCsi_some h mem hok
              rw [hv']
              exact ⟨_, rfl, hvalid.other⟩
            · rw [if_neg hfinal]
              split
              · exact ⟨_, rfl, h.reset.other⟩
              · exact ⟨_, rfl, h.other⟩

theorem feedByte_none (mem : Mem) (hok : ¬ ByteOk v c) : feedByte mem v c = none := by
  unfold ByteOk at hok
  unfold feedByte
  cases hstate : v.parseState with
  | osc | escape =>
    rw [hstate] at hok
    exact absurd trivial hok
  | ground =>
    rw [hstate] at hok
    obtain ⟨rfl, hcol⟩ := Classical.not_imp.mp hok
    unfold feedGround feedControl
    rw [checked_eq_none hcol]
    rfl
  | csi =>
    rw [hstate] at hok
    unfold feedCsi
    by_cases hdigit : 0x30 ≤ c ∧ c ≤ 0x39
    · simp only [if_pos hdigit] at hok
      rw [if_pos hdigit]
      unfold paramPushDigit
      dsimp only
      rw [checked_eq_none hok]
      rfl
    · simp only [if_neg hdigit] at hok
      by_cases hfinal : 0x40 ≤ c ∧ c ≤ 0x7E
      · rw [if_pos hfinal] at hok
        have hne : ∀ b : UInt8, b < 0x40 → c ≠ b := by
          rintro b hb rfl
          exact absurd hfinal.1 (UInt8.not_le.mpr hb)
        have hinterm : ¬ (0x20 ≤ c ∧ c ≤ 0x2F) := by
          intro hle
          exact absurd (UInt8.le_trans hfinal.1 hle.2) (by decide)
        rw [if_neg hdigit, if_neg (hne 0x3B (by decide)), if_neg (hne 0x3A (by decide)),
          if_neg hinterm, if_pos hfinal, dispatchCsi_none h mem hok]
        rfl
      · rw [if_neg hfinal] at hok
        exact absurd trivial hok

end

end Nv0ken.Terminal
