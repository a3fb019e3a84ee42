/-
Movements of the cursor.

None of them touches the text.  Those that go by lines bring the line cache up to date
first; after that the number a search gives is one of a line, whatever it searched for,
and a position computed from it lies inside the text, as long as the length of the text
is an `int`: the column is clamped by way of one.
-/
import Nv0ken.Proofs.TextEditor.Represents

namespace Nv0ken.TextEditor

open List Option

open Nv0ken.Word (u64 u64Sub u64_of_lt u64Sub_of_le toInt32 ofInt)

/-- The buffer with the lines of `s` in its cache. -/
def Buffer.cached (b : Buffer) (s : List UInt8) (cap : Nat) : Buffer :=
  { b with lineOffsets := lineStarts s, lineCap := cap, linesDirty := false }

/-! ### Lines of an up-to-date cache -/

section

variable (b : Buffer) (s : List UInt8) (cap : Nat)

@[simp] theorem bufLength_cached : bufLength (b.cached s cap) = bufLength b := rfl

theorem lineOffset_cached_le (i : Int) : (b.cached s cap).lineOffset i ≤ s.length := by
  show (lineStarts s).getD i.toNat 0 ≤ s.length
  rw [getD_eq_getElem?_getD]
  cases hget : (lineStarts s)[i.toNat]? with
  | none => exact Nat.zero_le _
  | some n => exact le_of_mem_lineStarts (mem_of_getElem? hget)

theorem length_lineStarts_pos : 0 < (lineStarts s).length := by
  simp [lineStarts]

theorem clampLine_range (line : Int) :
    0 ≤ (b.cached s cap).clampLine line ∧
      (b.cached s cap).clampLine line < (lineStarts s).length := by
  have hpos := length_lineStarts_pos s
  show 0 ≤ (if (if line < 0 then 0 else line) ≥ ((lineStarts s).length : Int)
      then ((lineStarts s).length : Int) - 1 else (if line < 0 then 0 else line)) ∧
    (if (if line < 0 then 0 else line) ≥ ((lineStarts s).length : Int)
      then ((lineStarts s).length : Int) - 1 else (if line < 0 then 0 else line)) <
        (lineStarts s).length
  split_ifs <;> omega

theorem clampLine_of_lt {n : Nat} (h : n < (lineStarts s).length) :
    (b.cached s cap).clampLine n = n := by
  show (if (if (n : Int) < 0 then 0 else (n : Int)) ≥ ((lineStarts s).length : Int) then _
    else if (n : Int) < 0 then 0 else (n : Int)) = (n : Int)
  rw [if_neg (show ¬ (n : Int) < 0 by omega), if_neg (by omega)]

/-- A line starts before the next one. -/
theorem lineOffset_lt_next {i : Int} (hlow : 0 ≤ i) (hhigh : i + 1 < (lineStarts s).length) :
    (b.cached s cap).lineOffset i < (b.cached s cap).lineOffset (i + 1) := by
  obtain ⟨n, rfl⟩ := Int.eq_ofNat_of_zero_le hlow
  have hn : n + 1 < (lineStarts s).length := by omega
  show (lineStarts s).getD n 0 < (lineStarts s).getD (n + 1) 0
  rw [getD_eq_getElem _ _ (by omega), getD_eq_getElem _ _ hn]
  exact pairwise_iff_getElem.mp (lineStarts_pairwise s) n (n + 1) (by omega) hn (by omega)

theorem findLine_range (pos fuel : Nat) (lo hi : Int) (hlo : 0 ≤ lo)
    (hhi : hi < (lineStarts s).length) :
    0 ≤ findLine (b.cached s cap) pos fuel lo hi ∧
      findLine (b.cached s cap) pos fuel lo hi < (lineStarts s).length := by
  have hpos := length_lineStarts_pos s
  induction fuel generalizing lo hi with
  | zero => exact ⟨le_refl _, by unfold findLine; omega⟩
  | succ fuel ih =>
    unfold findLine
    by_cases hrange : lo ≤ hi
    · rw [if_pos hrange]
      simp only
      split_ifs
      · omega
      · exact ih lo _ hlo (by omega)
      · exact ih _ hi (by omega) hhi
    · rw [if_neg hrange]
      omega

end

/-! ### Queries -/

section

variable {b : Buffer} {s : List UInt8} (h : Represents b s)
  (hlines : (lineStarts s).length ≤ 2 ^ 30)
include h hlines

theorem linesEnsure_cap :
    ∃ cap, linesEnsure b = some (b.cached s cap) ∧ Represents (b.cached s cap) s :=
  represents_lines h hlines

theorem bufferPosToLc_eq (pos : Nat) :
    ∃ line col cap, bufferPosToLc b pos = some ((line, col), b.cached s cap) ∧
      Represents (b.cached s cap) s ∧ 0 ≤ line ∧ line < (lineStarts s).length := by
  obtain ⟨cap, heq, hrep⟩ := linesEnsure_cap h hlines
  unfold bufferPosToLc
  rw [heq]
  have hrange := findLine_range b s cap pos (lineStarts s).length 0 ((lineStarts s).length - 1)
    (le_refl _) (by omega)
  exact ⟨_, _, cap, rfl, hrep, hrange⟩

theorem bufferLineStart_eq (line : Int) :
    ∃ cap, bufferLineStart b line =
        some ((b.cached s cap).lineOffset ((b.cached s cap).clampLine line), b.cached s cap) ∧
      Represents (b.cached s cap) s := by
  obtain ⟨cap, heq, hrep⟩ := linesEnsure_cap h hlines
  unfold bufferLineStart
  rw [heq]
  exact ⟨cap, rfl, hrep⟩

theorem bufferLineEnd_eq (line : Int) :
    ∃ pos cap, bufferLineEnd b line = some (pos, b.cached s cap) ∧
      Represents (b.cached s cap) s ∧ pos ≤ s.length := by
  obtain ⟨cap, heq, hrep⟩ := linesEnsure_cap h hlines
  have hlen := h.holds.length
  unfold bufferLineEnd
  rw [heq]
  refine ⟨_, cap, rfl, hrep, ?_⟩
  generalize hnext : (if (b.cached s cap).clampLine line + 1 < (b.cached s cap).lineOffsets.length
    then (b.cached s cap).lineOffset ((b.cached s cap).clampLine line + 1)
    else bufLength (b.cached s cap)) = next
  have hle : next ≤ s.length := by
    rw [← hnext]
    split_ifs
    · exact lineOffset_cached_le b s cap _
    · rw [bufLength_cached, hlen]
  split_ifs <;> omega

theorem bufferLcToPos_eq (line col : Int) :
    ∃ pos cap, bufferLcToPos b line col = some (pos, b.cached s cap) ∧
      Represents (b.cached s cap) s ∧ (s.length < 2 ^ 31 → pos ≤ s.length) := by
  obtain ⟨cap, heq, hrep⟩ := linesEnsure_cap h hlines
  unfold bufferLcToPos
  rw [heq]
  refine ⟨_, cap, rfl, hrep, ?_⟩
  intro hint
  obtain ⟨hlow, hhigh⟩ := clampLine_range b s cap line
  generalize hline : (b.cached s cap).clampLine line = l at hlow hhigh
  generalize hstart : (b.cached s cap).lineOffset l = start
  have hstartLe : start ≤ s.length := hstart ▸ lineOffset_cached_le b s cap l
  generalize hend : (if l + 1 < ((b.cached s cap).lineOffsets.length : Int)
    then u64Sub ((b.cached s cap).lineOffset (l + 1)) 1 else bufLength (b.cached s cap)) = stop
  have hstop : start ≤ stop ∧ stop ≤ s.length := by
    rw [← hend]
    by_cases hnext : l + 1 < ((b.cached s cap).lineOffsets.length : Int)
    · have hlt := lineOffset_lt_next b s cap hlow hnext
      have hle := lineOffset_cached_le b s cap (l + 1)
      rw [if_pos hnext, u64Sub_of_le (by omega) (by omega)]
      omega
    · rw [if_neg hnext, bufLength_cached, h.holds.length]
      omega
  rw [u64Sub_of_le hstop.1 (by omega)]
  have hlenEq : ofInt (toInt32 (stop - start)) = stop - start := by
    rw [Word.toInt32_of_lt (by omega)]
    unfold ofInt
    omega
  by_cases hlong : ofInt col > stop - start
  · rw [if_pos hlong, hlenEq, u64_of_lt (by omega)]
    omega
  · rw [if_neg hlong, u64_of_lt (by omega)]
    omega

end

/-! ### Movements -/

/-- The lines can be counted in an `int` that is doubled. -/
def FewLines (b : Buffer) : Prop := (lineStarts (readBack b)).length ≤ 2 ^ 30

instance (b : Buffer) : Decidable (FewLines b) := inferInstanceAs (Decidable (_ ≤ _))

/-- The movement overflows nothing. -/
def CursorOp.Ok (b : Buffer) : CursorOp → Prop
  | .move delta => -2 ^ 31 < delta
  | .line delta =>
    FewLines b ∧ -2 ^ 31 ≤ delta ∧ ((lineStarts (readBack b)).length : Int) + delta ≤ 2 ^ 31
  | .home => FewLines b
  | .lineEnd => FewLines b
  | .set _ => True
  | .wordForward => True
  | .wordBack => True

instance decidableCursorOpOk (b : Buffer) (op : CursorOp) : Decidable (op.Ok b) := by
  unfold CursorOp.Ok
  cases op <;> infer_instance

/-- The text a movement needs so that it ends inside it. -/
def CursorOp.Measured (s : List UInt8) : CursorOp → Prop
  | .line _ => s.length < 2 ^ 31
  | _ => True

instance (s : List UInt8) (op : CursorOp) : Decidable (op.Measured s) := by
  unfold CursorOp.Measured
  cases op <;> infer_instance

/-- `b'` stands for the same text; records and mark are those of `b`. -/
structure Glided (b b' : Buffer) (s : List UInt8) : Prop where
  represents : Represents b' s
  stack : b'.undoStack = b.undoStack
  mark : b'.mark = b.mark
  markActive : b'.markActive = b.markActive

theorem Represents.glided {b : Buffer} {s : List UInt8} (h : Represents b s) (pos : Nat) :
    Glided b { b with cursor := pos } s := ⟨h.setCursor pos, rfl, rfl, rfl⟩

theorem Represents.glided_cached {b : Buffer} {s : List UInt8} {cap cap' : Nat}
    (h : Represents ((b.cached s cap).cached s cap') s) (pos : Nat) :
    Glided b { (b.cached s cap).cached s cap' with cursor := pos } s :=
      ⟨h.setCursor pos, rfl, rfl, rfl⟩

theorem advance_le (b : Buffer) (keep : UInt8 → Bool) (fuel : Nat) {pos : Nat}
    (hpos : pos ≤ bufLength b) : advance b keep fuel pos ≤ bufLength b := by
  induction fuel generalizing pos with
  | zero =>
    exact hpos
  | succ fuel ih =>
    unfold advance
    by_cases hgo : pos < bufLength b ∧ keep (bufferCharAt b pos) = true
    · rw [if_pos hgo]
      exact ih hgo.1
    · rw [if_neg hgo]
      exact hpos

theorem retreat_le (keep : Nat → Bool) (pos : Nat) : retreat keep pos ≤ pos := by
  induction pos with
  | zero => exact le_refl _
  | succ pos ih =>
    unfold retreat
    by_cases hgo : keep (pos + 1) = true
    · rw [if_pos hgo]
      omega
    · rw [if_neg hgo]

/-- **A movement of the cursor keeps the text**, and ends inside it. -/
theorem cursor_step {b : Buffer} {s : List UInt8} (h : Represents b s) {op : CursorOp}
    (hok : op.Ok b) :
    ∃ b', op.step b = some b' ∧ Glided b b' s ∧
      (b.cursor ≤ s.length → op.Measured s → b'.cursor ≤ s.length) := by
  have hlen := h.holds.length
  have hread := h.holds.readBack
  cases op with
  | set pos =>
    refine ⟨_, rfl, h.glided _, fun _ _ => ?_⟩
    show (if pos.toNat > bufLength b then bufLength b else pos.toNat) ≤ s.length
    split_ifs <;> omega
  | move delta =>
    have hdelta : -2 ^ 31 < delta := hok
    show ∃ b', bufferCursorMove b delta = some b' ∧ _
    unfold bufferCursorMove
    by_cases hneg : delta < 0
    · rw [if_pos hneg, if_neg (by omega)]
      refine ⟨_, rfl, h.glided _, fun hin _ => ?_⟩
      show (if b.cursor ≥ (-delta).toNat then b.cursor - (-delta).toNat else 0) ≤ s.length
      split_ifs <;> omega
    · rw [if_neg hneg]
      refine ⟨_, rfl, h.glided _, fun _ _ => ?_⟩
      show (if u64 (b.cursor + delta.toNat) > bufLength b then bufLength b
        else u64 (b.cursor + delta.toNat)) ≤ s.length
      split_ifs <;> omega
  | line delta =>
    obtain ⟨hfew, hlow, hhigh⟩ := hok
    unfold FewLines at hfew
    rw [hread] at hfew hhigh
    obtain ⟨l, col, cap, hpos, hrep, hl⟩ := bufferPosToLc_eq h hfew b.cursor
    obtain ⟨pos, cap', hback, hrep', hin⟩ := bufferLcToPos_eq hrep hfew (l + delta) col
    refine ⟨_, ?_, hrep'.glided_cached pos, fun _ => hin⟩
    show bufferCursorLine b delta = _
    unfold bufferCursorLine
    simp only [hpos, bind_eq_bind, bind_some]
    rw [if_neg (by omega), hback]
    rfl
  | home =>
    unfold CursorOp.Ok FewLines at hok
    rw [hread] at hok
    obtain ⟨l, col, cap, hpos, hrep, hl⟩ := bufferPosToLc_eq h hok b.cursor
    obtain ⟨cap', hstart, hrep'⟩ := bufferLineStart_eq hrep hok l
    have hin := lineOffset_cached_le (b.cached s cap) s cap'
      (((b.cached s cap).cached s cap').clampLine l)
    refine ⟨_, ?_, hrep'.glided_cached _, fun _ _ => hin⟩
    show bufferCursorHome b = _
    unfold bufferCursorHome
    simp only [hpos, bind_eq_bind, bind_some, hstart]
    rfl
  | lineEnd =>
    unfold CursorOp.Ok FewLines at hok
    rw [hread] at hok
    obtain ⟨l, col, cap, hpos, hrep, hl⟩ := bufferPosToLc_eq h hok b.cursor
    obtain ⟨pos, cap', hstop, hrep', hin⟩ := bufferLineEnd_eq hrep hok l
    refine ⟨_, ?_, hrep'.glided_cached pos, fun _ _ => hin⟩
    show bufferCursorEnd b = _
    unfold bufferCursorEnd
    simp only [hpos, bind_eq_bind, bind_some, hstop]
    rfl
  | wordForward =>
    refine ⟨_, rfl, h.glided _, fun hin _ => ?_⟩
    rw [← hlen] at hin ⊢
    exact advance_le b _ _ (advance_le b _ _ hin)
  | wordBack =>
    show ∃ b', some (bufferCursorWordBack b) = some b' ∧ _
    unfold bufferCursorWordBack
    by_cases hzero : b.cursor = 0
    · rw [if_pos hzero]
      exact ⟨b, rfl, ⟨h, rfl, rfl, rfl⟩, fun hin _ => hin⟩
    · rw [if_neg hzero]
      refine ⟨_, rfl, h.glided _, fun hin _ => ?_⟩
      refine (retreat_le _ _).trans ((retreat_le _ _).trans ?_)
      omega

end Nv0ken.TextEditor
