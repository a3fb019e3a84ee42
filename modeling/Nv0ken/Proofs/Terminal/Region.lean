/-
Scrolling inside the scroll region.

Four commands move lines: scrolling up and down, and inserting and deleting lines at the cursor.  A
terminal does this inside its scroll region, and what a full-screen scroll pushes off the top goes
to the scrollback, row after row.

The code meets this only in part.  It moves the rows from the top of the region, or from the cursor,
to the bottom of the region, and clears `n` rows: nothing keeps the count within the region or the
cursor inside it, so rows outside it are moved and cleared too.  And `scroll_up` puts the row `top`
into the scrollback once for every line it scrolls, also where it is called to delete lines in the
middle of the screen.  Whether this can be seen depends on what stands in the rows; `lines_law_iff`
says exactly when it cannot.
-/
import Nv0ken.Proofs.Terminal.Safety

namespace Nv0ken.Terminal

open Grid Word List Option
open Run (run)

variable {v v' : Vt100} {mem : Mem} {n r : Int} {op : LineOp}

/-- The commands that move lines. -/
inductive LineOp
  | scrollUp
  | scrollDown
  | insertLines
  | deleteLines
  deriving DecidableEq, Repr

namespace LineOp

def final : LineOp → Char
  | scrollUp => 'S'
  | scrollDown => 'T'
  | insertLines => 'L'
  | deleteLines => 'M'

/-- The first row that is moved. -/
def start (v : Vt100) : LineOp → Int
  | scrollUp => v.scrollTop
  | scrollDown => v.scrollTop
  | insertLines => v.cursorRow
  | deleteLines => v.cursorRow

/-- Whether lines move up. -/
def isUp : LineOp → Bool
  | scrollUp => true
  | scrollDown => false
  | insertLines => false
  | deleteLines => true

/-- What the command does with the count `n`. -/
def apply (mem : Mem) (v : Vt100) (n : Int) (op : LineOp) : Option Vt100 :=
  if op.isUp then Terminal.scrollUp mem v (op.start v) v.scrollBot n
  else Terminal.scrollDown v (op.start v) v.scrollBot n

/-- The final byte of a control sequence leads to the command, with the first parameter. -/
theorem dispatchCsi_final (mem : Mem) (v : Vt100) (op : LineOp) :
    dispatchCsi mem v op.final = op.apply mem v (param v 0 1) := by
  cases op <;> rfl

end LineOp

/-- The lines the scrollback shows, oldest first. -/
def Vt100.history (v : Vt100) : List (Option ScrollbackLine) :=
  (List.range v.sbCount).map fun i => vt100ScrollbackLine v (v.sbCount - 1 - i)

/-- A row outside the scroll region. -/
def Outside (v : Vt100) (r : Int) : Prop := r < v.scrollTop ∨ v.scrollBot < r

instance (v : Vt100) (r : Int) : Decidable (Outside v r) := inferInstanceAs (Decidable (_ ∨ _))

/-- The scroll region is the whole screen. -/
def FullRegion (v : Vt100) : Prop := v.scrollTop = 0 ∧ v.scrollBot = v.rows - 1

instance (v : Vt100) : Decidable (FullRegion v) := inferInstanceAs (Decidable (_ ∧ _))

/-- The rows that leave the screen at the top. -/
def LineOp.leaving (v : Vt100) (n : Int) : LineOp → List (Option ScrollbackLine)
  | .scrollUp => (upTo 0 (min n v.rows)).map v.saved
  | .deleteLines => if v.cursorRow = 0 then (upTo 0 (min n v.rows)).map v.saved else []
  | .scrollDown => []
  | .insertLines => []

/-- Rows outside the region stay as they are, and with the region on the whole screen the scrollback
receives the rows that leave it at the top. -/
def LinesLaw (mem : Mem) (op : LineOp) (v : Vt100) (n : Int) : Prop :=
  ∃ v', op.apply mem v n = some v' ∧
    (∀ r ∈ upTo 0 v.rows, Outside v r → v'.line r = v.line r) ∧
    (FullRegion v → v'.history = Ring.keepLast v.sbCap (v.history ++ op.leaving v n))

/-! ### The condition -/

/-- The count overflows no row number. -/
def CountOk (op : LineOp) (v : Vt100) (n : Int) : Prop :=
  -2 ^ 31 ≤ v.scrollBot - op.start v + 1 - n ∧ (op.isUp = false → op.start v + n < 2 ^ 31)

instance (op : LineOp) (v : Vt100) (n : Int) : Decidable (CountOk op v n) :=
  inferInstanceAs (Decidable (_ ∧ (_ → _)))

/-- The row is not changed when it is cleared or another row is moved to it. -/
def RowOk (op : LineOp) (v : Vt100) (n r : Int) : Prop :=
  if op.isUp then
    (v.scrollBot - n < r ∧ r ≤ v.scrollBot → v.line r = v.blankLine) ∧
      (op.start v ≤ r ∧ r ≤ v.scrollBot - n → v.line r = v.line (r + n))
  else
    (op.start v ≤ r ∧ r < op.start v + n → v.line r = v.blankLine) ∧
      (op.start v + n ≤ r ∧ r ≤ v.scrollBot → v.line r = v.line (r - n))

instance (op : LineOp) (v : Vt100) (n r : Int) : Decidable (RowOk op v n r) := by
  unfold RowOk
  infer_instance

/-- The scrollback looks alike with `n` copies of the first row moved and with the rows that leave
the screen: those that are kept look like that row, and if they are fewer, the ring is full and the
older lines that stay look like it too.  Without memory for a line nothing may leave a ring that is
not full. -/
def HistoryOk (mem : Mem) (op : LineOp) (v : Vt100) (n : Int) : Prop :=
  if mem (16 * v.cols).toNat then
    (∀ y ∈ Ring.keepLast v.sbCap (op.leaving v n), y = v.saved (op.start v)) ∧
      ((op.leaving v n).length < n.toNat → v.sbCap ≤ v.sbCount + (op.leaving v n).length ∧
        ∀ y ∈ Ring.keepLast (v.sbCap - (op.leaving v n).length) v.history, y = v.saved (op.start v))
  else v.sbCap = 0 ∨ op.leaving v n = [] ∧ v.sbCount < v.sbCap

instance (mem : Mem) (op : LineOp) (v : Vt100) (n : Int) : Decidable (HistoryOk mem op v n) := by
  unfold HistoryOk
  infer_instance

def LinesOk (mem : Mem) (op : LineOp) (v : Vt100) (n : Int) : Prop :=
  CountOk op v n ∧ (∀ r ∈ upTo 0 v.rows, Outside v r → RowOk op v n r) ∧
    (op.isUp → FullRegion v → HistoryOk mem op v n)

instance (mem : Mem) (op : LineOp) (v : Vt100) (n : Int) : Decidable (LinesOk mem op v n) :=
  inferInstanceAs (Decidable (_ ∧ (∀ _ ∈ _, _ → _) ∧ (_ → _ → _)))

/-! ### The scrollback -/

theorem history_eq_kept (h : RingOk v) : v.history = v.kept := by
  apply map_congr_left
  intro i hi
  rw [mem_range] at hi
  unfold vt100ScrollbackLine
  rw [if_neg (by omega), h.slots, show v.sbHead + v.sbCount - 1 - (v.sbCount - 1 - i) =
    v.sbHead + i by omega]

theorem length_history : v.history.length = v.sbCount := by
  unfold Vt100.history
  rw [length_map, length_range]

theorem length_leaving (hn : 1 ≤ n) (op : LineOp) : (op.leaving v n).length ≤ n.toNat := by
  have htop : ((upTo 0 (min n v.rows)).map v.saved).length ≤ n.toNat := by
    unfold upTo
    simp only [length_map, length_range]
    omega
  cases op with
  | scrollUp => exact htop
  | scrollDown | insertLines => exact Nat.zero_le _
  | deleteLines =>
    simp only [LineOp.leaving]
    split
    · exact htop
    · exact Nat.zero_le _

/-- **When the pushes of `scroll_up` leave the scrollback the law asks for.** -/
theorem history_iff (hv : Valid v) (hn : 1 ≤ n) (op : LineOp) :
    (if mem (16 * v.cols).toNat then
        Ring.keepLast v.sbCap (v.history ++ List.replicate n.toNat (v.saved (op.start v)))
      else Ring.keepLast (v.sbCap - 1) v.history) =
        Ring.keepLast v.sbCap (v.history ++ op.leaving v n) ↔
      HistoryOk mem op v n := by
  unfold HistoryOk
  by_cases hmem : mem (16 * v.cols).toNat
  · rw [if_pos hmem, if_pos hmem, Ring.keepLast_replicate_eq_iff (length_leaving hn op),
      length_history]
  · rw [if_neg hmem, if_neg hmem, Ring.keepLast_pred_eq_iff
      (by rw [length_history]; exact hv.count), length_history]

/-! ### The law -/

theorem row_same_iff {α : Type} {p q : Prop} [Decidable p] [Decidable q] {x y z : α}
    (hdisjoint : ¬ (p ∧ q)) :
    (if p then x else if q then y else z) = z ↔ (p → z = x) ∧ (q → z = y) := by
  by_cases hp : p
  · have hq : ¬ q := fun hq => hdisjoint ⟨hp, hq⟩
    simp [hp, hq, eq_comm]
  · by_cases hq : q
    · simp [hp, hq, eq_comm]
    · simp [hp, hq]

theorem start_range (hv : Valid v) (op : LineOp) : 0 ≤ op.start v ∧ op.start v < v.rows := by
  have hregion := hv.region
  have hrow := hv.row
  cases op with
  | scrollUp | scrollDown => exact ⟨hregion.1, by show v.scrollTop < v.rows; omega⟩
  | insertLines | deleteLines => exact hrow

theorem linesLaw_iff_of_apply {v' : Vt100} (happly : op.apply mem v n = some v')
    (hcount : CountOk op v n) (hrows : ∀ r ∈ upTo 0 v.rows, v'.line r = v.line r ↔ RowOk op v n r)
    (hhistory : v'.history = Ring.keepLast v.sbCap (v.history ++ op.leaving v n) ↔
      (op.isUp → HistoryOk mem op v n)) : LinesLaw mem op v n ↔ LinesOk mem op v n := by
  constructor
  · rintro ⟨w, hw, hsame, hsaved⟩
    obtain rfl := some.inj (happly.symm.trans hw)
    exact ⟨hcount, fun r hr hout => (hrows r hr).mp (hsame r hr hout),
      fun hup hfull => hhistory.mp (hsaved hfull) hup⟩
  · rintro ⟨-, hsame, hsaved⟩
    exact ⟨v', happly, fun r hr hout => (hrows r hr).mpr (hsame r hr hout),
      fun hfull => hhistory.mpr fun hup => hsaved hup hfull⟩

theorem linesLaw_iff_of_none (hnone : op.apply mem v n = none) (hcount : ¬ CountOk op v n) :
    LinesLaw mem op v n ↔ LinesOk mem op v n := by
  constructor
  · rintro ⟨w, hw, -⟩
    rw [hnone] at hw
    cases hw
  · rintro ⟨hok, -⟩
    exact absurd hok hcount

theorem linesLaw_iff_of_up (hv : Valid v) (hn : 1 ≤ n) (hup : op.isUp = true) :
    LinesLaw mem op v n ↔ LinesOk mem op v n := by
  have hstart := start_range hv op
  have happly : op.apply mem v n = scrollUp mem v (op.start v) v.scrollBot n := by
    unfold LineOp.apply
    rw [hup]
    rfl
  by_cases hlow : -2 ^ 31 ≤ v.scrollBot - op.start v + 1 - n
  · obtain ⟨v', hscroll, hdrawn, hkept, hline⟩ :=
      scrollUp_some mem hv.toSized hv.toRingOk hv.main hstart.1
      hstart.2 hv.region.2.2 hn hlow
    refine linesLaw_iff_of_apply (happly.trans hscroll) ⟨hlow, by rw [hup]; nofun⟩
      (fun r hr => ?_) ?_
    · rw [mem_upTo] at hr
      rw [hline r hr.1 hr.2, row_same_iff (by omega)]
      unfold RowOk
      rw [hup, if_pos rfl]
    · rw [imp_iff_right hup, ← history_iff hv hn, history_eq_kept (hdrawn.ring hv.toRingOk), hkept,
        history_eq_kept hv.toRingOk]
  · exact linesLaw_iff_of_none (happly.trans (scrollUp_none (Int.not_le.mp hlow))) fun hcount =>
      hlow hcount.1

theorem linesLaw_iff_of_down (hv : Valid v) (hn : 1 ≤ n) (hdown : op.isUp = false) :
    LinesLaw mem op v n ↔ LinesOk mem op v n := by
  have hstart := start_range hv op
  have hnone : op.leaving v n = [] := by
    cases op with
    | scrollUp | deleteLines => cases hdown
    | scrollDown | insertLines => rfl
  have happly : op.apply mem v n = scrollDown v (op.start v) v.scrollBot n := by
    unfold LineOp.apply
    rw [hdown]
    rfl
  by_cases hcount : -2 ^ 31 ≤ v.scrollBot - op.start v + 1 - n ∧ op.start v + n < 2 ^ 31
  · obtain ⟨v', hscroll, hframe, -, hline⟩ :=
      scrollDown_some hv.toSized hstart.1 hv.region.2.2 hn hcount.1 hcount.2
    refine linesLaw_iff_of_apply (happly.trans hscroll)
      ⟨hcount.1, fun _ => hcount.2⟩ (fun r hr => ?_) ?_
    · rw [mem_upTo] at hr
      rw [hline r hr.1 hr.2, row_same_iff (by omega)]
      unfold RowOk
      rw [hdown, if_neg Bool.false_ne_true]
    · refine iff_of_true ?_ (by rw [hdown]; nofun)
      rw [hnone, append_nil, Ring.keepLast_of_le (by rw [length_history]; exact hv.count), hframe]
      rfl
  · exact linesLaw_iff_of_none (happly.trans (scrollDown_none hcount))
      fun hok => hcount ⟨hok.1, hok.2 hdown⟩

/-- **Scrolling, inserting and deleting lines keep to the scroll region, and scrolling the whole
screen saves the rows that leave it, exactly under `LinesOk`.** -/
theorem lines_law_iff (hv : Reachable v) (hn : 1 ≤ n) (mem : Mem) (op : LineOp) :
    LinesLaw mem op v n ↔ LinesOk mem op v n := by
  cases hup : op.isUp with
  | true => exact linesLaw_iff_of_up hv.valid hn hup
  | false => exact linesLaw_iff_of_down hv.valid hn hup

/-- A terminal of two rows with one column, `A` above `B`. -/
def twoRows : Vt100 :=
  { blankTerminal 1 2 3 with
    screen := [{ cellBlank with codepoint := 0x41 }, { cellBlank with codepoint := 0x42 }]
    cursorRow := 1
    pendingWrap := true }

theorem lines_law_iff_twoRows :
    Reachable twoRows ∧ LinesLaw (fun _ => true) .scrollUp twoRows 1 := by
  have hreach : Reachable twoRows :=
    ⟨fun _ => true, fun _ => cellBlank, 1, 2, 3, blankTerminal 1 2 3,
      [.feed (fun _ => true) [0x41, 0x0D, 0x0A, 0x42]], by decide, by decide +kernel, by
        decide +kernel⟩
  exact ⟨hreach, (lines_law_iff hreach (by decide) _ _).mpr (by decide +kernel)⟩

/-- Scrolling `A` and `B` off the screen saves `A` twice; and scrolling the second row alone by two
lines clears the first one. -/
theorem scroll_two_lines_wrong :
    Reachable twoRows ∧ ¬ LinesLaw (fun _ => true) .scrollUp twoRows 2 ∧
      ∃ v, vt100Feed (fun _ => true) twoRows [0x1B, 0x5B, 0x32, 0x3B, 0x32, 0x72] = some v ∧
        ¬ LinesLaw (fun _ => true) .scrollUp v 2 := by
  refine ⟨⟨fun _ => true, fun _ => cellBlank, 1, 2, 3, blankTerminal 1 2 3,
      [.feed (fun _ => true) [0x41, 0x0D, 0x0A, 0x42]], by decide, by decide +kernel, by
        decide +kernel⟩, ?_,
    { twoRows with
      scrollTop := 1, cursorRow := 0, pendingWrap := false, paramCount := 2
      params := [2, 2, 0, 0, 0, 0, 0, 0, 0, 0, 0, 0, 0, 0, 0, 0] }, by decide +kernel, ?_⟩
  · rintro ⟨v', happly, -, hsaved⟩
    have hactual : (LineOp.scrollUp.apply (fun _ => true) twoRows 2).map Vt100.history =
        some [twoRows.saved 0, twoRows.saved 0] := by decide +kernel
    rw [happly, map_some, hsaved (by decide)] at hactual
    revert hactual
    decide +kernel
  · rintro ⟨v', happly, hrows, -⟩
    have hactual : (LineOp.scrollUp.apply (fun _ => true) { twoRows with
        scrollTop := 1, cursorRow := 0, pendingWrap := false, paramCount := 2
        params := [2, 2, 0, 0, 0, 0, 0, 0, 0, 0, 0, 0, 0, 0, 0, 0] } 2).map (·.line 0) =
        some [cellBlank] := by decide +kernel
    rw [happly, map_some, hrows 0 (by decide) (by decide)] at hactual
    revert hactual
    decide +kernel

end Nv0ken.Terminal
