/-
The editor's buffer and a plain string.

Every sequence of insertions, deletions and cursor movements is also a sequence of
operations on a plain string, where an insertion behind the end goes to the end and a
deletion takes as much as there is.  `Op.plain` is that reading.  The buffer follows the
string, its characters and its lines, as long as each step keeps clear of four things:

  * `pos + len` of a deletion wraps, so that the comparison with the length does not see
    that too much is asked for;
  * the array of undo records has been enlarged, whose new half the next record frees
    (see `Proofs/TextEditor/History.lean`);
  * a size or the number of lines leaves the range of its type;
  * the movement of the cursor overflows an `int`.

`Op.Ok` is the condition, on the state before the step.  One step keeps `Represents`, and
a run is the induction over it.
-/
import Nv0ken.Proofs.TextEditor.Cursor

namespace Nv0ken.TextEditor

open List Option

open Nv0ken.Word (u64 u64Sub u64_of_lt u64Sub_of_le)

/-! ### The operations on a plain string -/

/-- Where line `i` of a text ends, its newline included. -/
def lineStop (s : List UInt8) (i : Nat) : Nat := (lineStarts s).getD (i + 1) s.length

/-- Start and length of a line, `none` if there is no such line. -/
def lineSpan (s : List UInt8) (line : Int) : Option (Nat × Nat) :=
  if line < 0 ∨ line ≥ (lineStarts s).length then none
  else
    let start := (lineStarts s).getD line.toNat 0
    some (start, lineStop s line.toNat - start)

/-- The operation on a plain string. -/
def Op.plain (s : List UInt8) : Op → List UInt8
  | .insert pos text => insertAt s pos.toNat text
  | .delete pos len => removeAt s pos.toNat len.toNat
  | .deleteRange start stop => removeAt s start.toNat (stop.toNat - start.toNat)
  | .deleteLine line =>
    match lineSpan s line with
    | none => s
    | some (start, len) => removeAt s start len
  | .cursor _ => s

/-- A sequence of operations on a plain string. -/
def plainRun (s : List UInt8) (ops : List Op) : List UInt8 := ops.foldl Op.plain s

/-! ### The condition -/

/-- A deletion of nothing, or one that is recorded and whose end is not wrapped. -/
def DeleteOk (b : Buffer) (pos len : Nat) : Prop :=
  len = 0 ∨ bufferLength b ≤ pos ∨ (b.undoCap ≤ undoCap ∧ pos + len < 2 ^ 64)

instance (b : Buffer) (pos len : Nat) : Decidable (DeleteOk b pos len) :=
  inferInstanceAs (Decidable (_ ∨ _))

def Op.Ok (b : Buffer) : Op → Prop
  | .insert _ text =>
    text = [] ∨ (b.undoCap ≤ undoCap ∧ bufferLength b + text.length + gapGrow + 1 < 2 ^ 64)
  | .delete pos len => DeleteOk b pos.toNat len.toNat
  | .deleteRange start stop => DeleteOk b start.toNat (stop.toNat - start.toNat)
  | .deleteLine line =>
    FewLines b ∧ ∀ span ∈ lineSpan (readBack b) line, DeleteOk b span.1 span.2
  | .cursor op => op.Ok b

instance decidableOpOk (b : Buffer) (op : Op) : Decidable (op.Ok b) := by
  unfold Op.Ok
  cases op <;> infer_instance

/-- Every step of the run meets the condition in the state it is made in. -/
def RunOk (fresh : Fresh) : Buffer → List Op → Prop
  | _, [] => True
  | b, op :: ops => op.Ok b ∧ ∀ b' ∈ op.step fresh b, RunOk fresh b' ops

instance decidableRunOk (fresh : Fresh) :
    (b : Buffer) → (ops : List Op) → Decidable (RunOk fresh b ops)
  | _, [] => isTrue trivial
  | b, op :: ops =>
    have : DecidablePred (RunOk fresh · ops) := fun b => decidableRunOk fresh b ops
    inferInstanceAs (Decidable (op.Ok b ∧ ∀ b' ∈ op.step fresh b, RunOk fresh b' ops))

/-! ### One step -/

section

variable {b : Buffer} {s : List UInt8} (h : Represents b s) {line : Int}
include h

theorem delete_refines {pos len : Nat} (hok : DeleteOk b pos len) :
    ∃ r b', bufferDelete b pos len = some (r, b') ∧ Represents b' (removeAt s pos len) := by
  have hlen := h.holds.length
  by_cases hzero : len = 0
  · refine ⟨-1, b, ?_, ?_⟩
    · unfold bufferDelete
      rw [if_pos hzero]
    · rw [hzero, removeAt_zero]
      exact h
  by_cases hbehind : s.length ≤ pos
  · refine ⟨-1, b, ?_, ?_⟩
    · unfold bufferDelete
      rw [if_neg hzero, hlen, if_pos hbehind]
    · rw [removeAt_of_le hbehind]
      exact h
  unfold DeleteOk bufferLength at hok
  rw [hlen] at hok
  obtain ⟨hcap, hsum⟩ := (hok.resolve_left hzero).resolve_left hbehind
  have htakes : (Edit.delete pos len).Takes s := ⟨hzero, Nat.not_le.mp hbehind, hsum⟩
  obtain ⟨b', heq, hrep, -⟩ := represents_edit h zeros hcap htakes
  exact ⟨0, b', heq, hrep⟩

omit h in
theorem bufferDeleteLine_eq {b₁ b₂ : Buffer} {start : Nat}
    (hens : linesEnsure b = some b₁) (hin : ¬ (line < 0 ∨ line ≥ b₁.lineOffsets.length))
    (hstart : bufferLineStart b₁ line = some (start, b₂)) :
    bufferDeleteLine b line = bufferDelete b₂ start
      (u64Sub (if line + 1 < b₂.lineOffsets.length then b₂.lineOffset (line + 1) else bufLength b₂)
        start) := by
  unfold bufferDeleteLine
  rw [hens, Option.bind_eq_bind, Option.bind_some, if_neg hin, hstart, Option.bind_eq_bind,
    Option.bind_some]

theorem deleteLine_refines (hfew : FewLines b)
    (hok : ∀ span ∈ lineSpan (readBack b) line, DeleteOk b span.1 span.2) :
    ∃ r b', bufferDeleteLine b line = some (r, b') ∧
      Represents b' ((Op.deleteLine line).plain s) := by
  unfold FewLines at hfew
  rw [h.holds.readBack] at hfew hok
  have hsize := h.small
  obtain ⟨cap, hens, hrep⟩ := linesEnsure_cap h hfew
  unfold Op.plain lineSpan
  unfold lineSpan at hok
  by_cases hout : line < 0 ∨ line ≥ ((lineStarts s).length : Int)
  · refine ⟨-1, b.cached s cap, ?_, ?_⟩
    · unfold bufferDeleteLine
      rw [hens]
      exact if_pos hout
    · simp only [if_pos hout]
      exact hrep
  · simp only [if_neg hout] at hok ⊢
    obtain ⟨n, rfl⟩ := Int.eq_ofNat_of_zero_le (show 0 ≤ line by omega)
    have hn : n < (lineStarts s).length := by omega
    have hok' := hok _ rfl
    obtain ⟨cap', hstart, hrep'⟩ := bufferLineStart_eq hrep hfew n
    have hclamp := clampLine_of_lt (b.cached s cap) s cap' hn
    have hstop : (if (n : Int) + 1 < ((lineStarts s).length : Int)
        then ((b.cached s cap).cached s cap').lineOffset (n + 1)
        else bufLength ((b.cached s cap).cached s cap')) = lineStop s n := by
      unfold lineStop
      by_cases hnext : (n : Int) + 1 < ((lineStarts s).length : Int)
      · rw [if_pos hnext, getD_eq_getElem _ _ (by omega)]
        show (lineStarts s).getD (n + 1) 0 = _
        rw [getD_eq_getElem _ _ (by omega)]
      · rw [if_neg hnext, getD_eq_default _ _ (by omega), bufLength_cached, bufLength_cached,
          h.holds.length]
    have hbounds : (lineStarts s).getD n 0 ≤ lineStop s n ∧ lineStop s n ≤ s.length := by
      rw [← hstop]
      by_cases hnext : (n : Int) + 1 < ((lineStarts s).length : Int)
      · rw [if_pos hnext]
        exact ⟨Nat.le_of_lt (lineOffset_lt_next (b.cached s cap) s cap' (by omega) hnext),
          lineOffset_cached_le (b.cached s cap) s cap' _⟩
      · rw [if_neg hnext, bufLength_cached, bufLength_cached, h.holds.length]
        exact ⟨lineOffset_cached_le b s cap n, le_refl _⟩
    obtain ⟨r, b', heq, hrep''⟩ := @delete_refines _ _ hrep' ((lineStarts s).getD n 0)
      (lineStop s n - (lineStarts s).getD n 0) hok'
    refine ⟨r, b', ?_, hrep''⟩
    rw [hclamp] at hstart
    refine (bufferDeleteLine_eq hens hout hstart).trans ?_
    have hlen : (lineStop s n - (lineStarts s).getD n 0) =
        u64Sub (lineStop s n) ((lineStarts s).getD n 0) := (u64Sub_of_le hbounds.1 (by omega)).symm
    rw [hlen, ← hstop] at heq
    exact heq

/-- **One operation.** -/
theorem step_refines (fresh : Fresh) {op : Op} (hok : op.Ok b) :
    ∃ b', op.step fresh b = some b' ∧ Represents b' (op.plain s) := by
  cases op with
  | insert pos text =>
    unfold Op.Ok bufferLength at hok
    rw [h.holds.length] at hok
    by_cases hnil : text = []
    · refine ⟨b, ?_, ?_⟩
      · show (bufferInsert fresh b pos.toNat text).map Prod.snd = some b
        rw [hnil]
        rfl
      · show Represents b (insertAt s pos.toNat text)
        rw [hnil, insertAt_nil]
        exact h
    · obtain ⟨hcap, hfits⟩ := hok.resolve_left hnil
      have htakes : (Edit.insert pos.toNat text).Takes s := ⟨hnil, hfits⟩
      obtain ⟨b', heq, hrep, -⟩ := represents_edit h fresh hcap htakes
      exact ⟨b', congrArg (Option.map Prod.snd) heq, hrep⟩
  | delete pos len =>
    obtain ⟨r, b', heq, hrep⟩ := delete_refines h hok
    exact ⟨b', congrArg (Option.map Prod.snd) heq, hrep⟩
  | deleteRange start stop =>
    show ∃ b', (bufferDeleteRange b start.toNat stop.toNat).map Prod.snd = some b' ∧
      Represents b' (removeAt s start.toNat (stop.toNat - start.toNat))
    unfold bufferDeleteRange
    by_cases hempty : stop.toNat ≤ start.toNat
    · rw [if_pos hempty, Nat.sub_eq_zero_of_le hempty, removeAt_zero]
      exact ⟨b, rfl, h⟩
    · obtain ⟨r, b', heq, hrep⟩ := delete_refines h hok
      rw [if_neg hempty, heq]
      exact ⟨b', rfl, hrep⟩
  | deleteLine line =>
    obtain ⟨r, b', heq, hrep⟩ := deleteLine_refines h hok.1 hok.2
    exact ⟨b', congrArg (Option.map Prod.snd) heq, hrep⟩
  | cursor op =>
    obtain ⟨b', heq, hglided, -⟩ := cursor_step h hok
    exact ⟨b', heq, hglided.represents⟩

/-! ### Runs -/

/-- **A whole run.** -/
theorem run_refines (fresh : Fresh) {ops : List Op} (hok : RunOk fresh b ops) :
    ∃ b', run fresh b ops = some b' ∧ Represents b' (plainRun s ops) := by
  induction ops generalizing b s with
  | nil => exact ⟨b, rfl, h⟩
  | cons op ops ih =>
    obtain ⟨b₁, hstep, hrep⟩ := step_refines h fresh hok.1
    obtain ⟨b', hrun, hrep'⟩ := ih hrep (hok.2 b₁ hstep)
    refine ⟨b', ?_, hrep'⟩
    unfold run
    rw [foldlM_cons, hstep]
    exact hrun

/-- The lines as they are read back: how many there are, and where each one starts. -/
theorem represents_readLines (hlines : (lineStarts s).length ≤ 2 ^ 30) :
    (bufferLineCount b).map Prod.fst = some (lineStarts s).length ∧
      ∀ i : Nat, i < (lineStarts s).length →
        (bufferLineStart b i).map Prod.fst = (lineStarts s)[i]? := by
  refine ⟨?_, ?_⟩
  · obtain ⟨cap, heq, -⟩ := linesEnsure_cap h hlines
    unfold bufferLineCount
    rw [heq]
    rfl
  · intro i hi
    obtain ⟨cap, heq, -⟩ := bufferLineStart_eq h hlines i
    rw [heq, clampLine_of_lt b s cap hi, getElem?_eq_getElem hi]
    show some ((lineStarts s).getD i 0) = some ((lineStarts s)[i])
    rw [getD_eq_getElem _ _ hi]

end

/-- **The buffer is a plain string**: after every run whose steps meet the condition, what is
read back from the buffer is the string on which the same operations were made, and so are
the number of its lines and their starts. -/
theorem buffer_refines_string (fresh : Fresh) (ops : List Op)
    (hok : RunOk fresh (bufferNew fresh) ops) :
    ∃ b, run fresh (bufferNew fresh) ops = some b ∧
      readBack b = plainRun [] ops ∧
      ((lineStarts (plainRun [] ops)).length ≤ 2 ^ 30 →
        (bufferLineCount b).map Prod.fst = some (lineStarts (plainRun [] ops)).length ∧
        ∀ i : Nat, i < (lineStarts (plainRun [] ops)).length →
          (bufferLineStart b i).map Prod.fst = (lineStarts (plainRun [] ops))[i]?) := by
  obtain ⟨b, hrun, hrep⟩ := run_refines (represents_bufferNew fresh) fresh hok
  exact ⟨b, hrun, hrep.holds.readBack, fun hlines => represents_readLines hrep hlines⟩

/-- `ab`, a newline and `cd` typed, the cursor moved, the first line deleted, `d` deleted. -/
def someEdits : List Op :=
  [.insert 0 [97, 98], .insert 9 [10, 99, 100], .cursor (.line 1), .deleteLine 0, .delete 1 7]

theorem buffer_refines_string_some :
    RunOk zeros (bufferNew zeros) someEdits ∧
      ∃ b, run zeros (bufferNew zeros) someEdits = some b ∧
        readBack b = plainRun [] someEdits ∧
        ((lineStarts (plainRun [] someEdits)).length ≤ 2 ^ 30 →
          (bufferLineCount b).map Prod.fst = some (lineStarts (plainRun [] someEdits)).length ∧
          ∀ i : Nat, i < (lineStarts (plainRun [] someEdits)).length →
            (bufferLineStart b i).map Prod.fst = (lineStarts (plainRun [] someEdits))[i]?) := by
  have hok : RunOk zeros (bufferNew zeros) someEdits := by decide +kernel
  exact ⟨hok, buffer_refines_string zeros someEdits hok⟩

/-- **A deletion that reaches behind every text is refused**: with `ab` in the buffer, deleting
from position 1 as much as a `size_t` can say leaves `ab`. -/
theorem delete_to_end_refused :
    (run zeros (bufferNew zeros) [.insert 0 [97, 98], .delete 1 (-1)]).map readBack =
      some [97, 98] ∧
      plainRun [] [.insert 0 [97, 98], .delete 1 (-1)] = [97] := by
  decide +kernel

end Nv0ken.TextEditor
