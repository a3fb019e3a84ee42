/-
What the editor's buffer stands for.

`Represents` puts together the text a buffer holds, its line cache, which is either out
of date or right, and its undo records, which are those of edits that led to this text.
Edits, undo, redo and the rebuilding of the cache keep it, at the text the operation
leads to.
-/
import Nv0ken.Proofs.TextEditor.History

namespace Nv0ken.TextEditor

open List

open Nv0ken.Word (u64 u64Sub u64_of_lt u64Sub_of_le)

/-- The buffer stands for `s`: the text, the lines if the cache claims to know them, and
records of edits that led to `s` and lead on from it. -/
structure Represents (b : Buffer) (s : List UInt8) : Prop where
  holds : Holds b s
  small : s.length + gapGrow + 1 < 2 ^ 64
  lines : b.linesDirty = false → b.lineOffsets = lineStarts s
  quiet : b.inUndo = false
  history : ∃ past future, Recorded b past future ∧ (∃ s₀, Leads s₀ past s) ∧ ∃ s₁,
    Leads s future s₁

/-- An edit that takes place leaves a text memory can hold. -/
theorem small_edit {e : Edit} {s : List UInt8} (htakes : e.Takes s)
    (hsmall : s.length + gapGrow + 1 < 2 ^ 64) : (e.plain s).length + gapGrow + 1 < 2 ^ 64 := by
  cases e with
  | insert pos text =>
    show (insertAt s pos text).length + gapGrow + 1 < 2 ^ 64
    rw [length_insertAt]
    exact htakes.2
  | delete pos len =>
    show (removeAt s pos len).length + gapGrow + 1 < 2 ^ 64
    rw [length_removeAt]
    omega

theorem represents_bufferNew (fresh : Fresh) : Represents (bufferNew fresh) [] := by
  have hdata : (bufferNew fresh).data = fresh.block 0 gapInitial := by
    simp only [bufferNew]
  have hend : (bufferNew fresh).gapEnd = gapInitial := rfl
  have hlen : (bufferNew fresh).data.length = gapInitial := by
    rw [hdata]
    simp [Fresh.block]
  have hrec : Recorded (bufferNew fresh) [] [] := by
    refine ⟨rfl, ?_⟩
    exact ⟨rfl, rfl⟩
  refine ⟨⟨Nat.zero_le _, ?_, ?_, ?_⟩, by decide, ?_, rfl, [], [], hrec, ⟨[], rfl⟩, [], rfl⟩
  · rw [hlen, hend]
  · rw [hlen]
    decide
  · have hstart : (bufferNew fresh).gapStart = 0 := rfl
    unfold Buffer.around
    rw [drop_of_length_le (by omega)]
    rfl
  · intro hclean
    cases hclean

section

variable {b : Buffer} {s : List UInt8} (h : Represents b s)
include h

/-- Fields beside the text, the lines and the records do not matter. -/
theorem Represents.of_eq {b' : Buffer} (hdata : b'.data = b.data)
    (hstart : b'.gapStart = b.gapStart)
    (hend : b'.gapEnd = b.gapEnd) (hlines : b'.linesDirty = false → b'.lineOffsets = lineStarts s)
    (hquiet : b'.inUndo = b.inUndo) (hstack : b'.undoStack = b.undoStack)
    (htop : b'.undoTop = b.undoTop) : Represents b' s := by
  obtain ⟨past, future, hrec, hleads⟩ := h.history
  refine ⟨h.holds.of_eq hdata hstart hend, h.small, hlines, hquiet.trans h.quiet, past, future,
    ⟨htop.trans hrec.top, ?_⟩, hleads⟩
  rw [hstack]
  exact hrec.stack

theorem Represents.setCursor (pos : Nat) : Represents { b with cursor := pos } s :=
  h.of_eq rfl rfl rfl h.lines rfl rfl rfl

/-- **Edits.** -/
theorem represents_edit (fresh : Fresh) (hcap : b.undoCap ≤ undoCap) {e : Edit}
    (htakes : e.Takes s) :
    ∃ b', e.call fresh b = some (0, b') ∧ Represents b' (e.plain s) ∧
      Moved b b' (e.plain s) (e.cursor s b.cursor) := by
  obtain ⟨past, future, hrec, ⟨s₀, hpast⟩, -⟩ := h.history
  obtain ⟨b', heq, hmoved, hrec'⟩ := edit_step fresh h.holds h.quiet hrec hcap htakes
  obtain ⟨hfit, hredone⟩ := record_fits htakes h.small
  refine ⟨b', heq, ⟨hmoved.holds, ?_, ?_, hmoved.quiet, _, _, hrec',
    ⟨s₀, leads_snoc.mpr ⟨s, hpast, hfit, hredone⟩⟩, _, rfl⟩, hmoved⟩
  · exact small_edit htakes h.small
  · intro hclean
    rw [hmoved.dirty] at hclean
    cases hclean

/-- **The cache.** -/
theorem represents_lines (hlines : (lineStarts s).length ≤ 2 ^ 30) :
    ∃ cap, linesEnsure b =
        some { b with lineOffsets := lineStarts s, lineCap := cap, linesDirty := false } ∧
      Represents { b with lineOffsets := lineStarts s, lineCap := cap, linesDirty := false } s := by
  obtain ⟨cap, heq⟩ := linesEnsure_eq h.holds h.lines hlines
  exact ⟨cap, heq, h.of_eq rfl rfl rfl (fun _ => rfl) rfl rfl rfl⟩

end

end Nv0ken.TextEditor
