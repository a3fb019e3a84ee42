/-
Loading a file.

A load that succeeds should leave the bytes of the file and no way back to what was there
before; a load that fails should leave everything.  Three things stand against it.

  * An empty file is treated as a new name for what the buffer already holds.
  * The number of records in effect is set to zero, but the records stay, and they are now
    in the place of undone edits: redo makes the first of them again, on the new text.
  * When the file turns out shorter than its size, the bytes read have already replaced
    the old ones, in a block of another size, under the old gap.

So the law of loading holds of an empty file only for a buffer that is empty and without
records, of any other file that is read to its end only for one without records, and of a
short read only in the coincidence that block and bytes are the old ones.
-/
import Nv0ken.Proofs.TextEditor.Undo

namespace Nv0ken.TextEditor

open Nv0ken.Buffer List Option
open Nv0ken.Word (u64Sub u64Sub_of_le)

/-- Neither undo nor redo has anything to do. -/
def NoSteps (fresh : Fresh) (b : Buffer) : Prop :=
  bufferUndo fresh b = some (-1, b) ∧ bufferRedo fresh b = some (-1, b)

/-- The bytes of the file. -/
def FileAnswer.bytes : FileAnswer → List UInt8
  | .file bytes _ _ => bytes
  | _ => []

/-- The size of the file is a `long`. -/
def FileAnswer.Ok (answer : FileAnswer) : Prop := answer.bytes.length < 2 ^ 63

instance decidableFileOk (answer : FileAnswer) : Decidable answer.Ok :=
  inferInstanceAs (Decidable (_ < _))

/-- A successful load leaves the bytes of the file and no step back, a failing one the text. -/
def LoadLaw (fresh : Fresh) (b : Buffer) (path : List UInt8) (answer : FileAnswer) : Prop :=
  ((bufferLoad fresh b path answer).1 = 0 →
    readBack (bufferLoad fresh b path answer).2 = answer.bytes ∧
      NoSteps fresh (bufferLoad fresh b path answer).2) ∧
  ((bufferLoad fresh b path answer).1 ≠ 0 →
    readBack (bufferLoad fresh b path answer).2 = readBack b)

/-- The array begins with no record of an edit. -/
def NoRecord (b : Buffer) : Prop := ∀ r ∈ b.undoRecord 0, r.text = none

/-- When the law holds. -/
def LoadOk (b : Buffer) : FileAnswer → Prop
  | .absent => True
  | .unseekable => True
  | .file bytes granted got =>
    if bytes = [] then bufferLength b = 0 ∧ b.undoTop = 0 ∧ NoRecord b
    else if granted = false then True
    else if got < bytes.length then
      b.data.length = bytes.length + gapInitial ∧
        ∀ i < got, (i < b.gapStart ∨ b.gapEnd ≤ i) → byteAt bytes i = byteAt b.data i
    else NoRecord b

/-! ### Nothing to undo, nothing to redo -/

variable {b' : Buffer} {fresh : Fresh} {path bytes : List UInt8} {answer : FileAnswer}

/-- A step that is made is not refused. -/
theorem not_refused {f : Buffer → Buffer} (step : Option Buffer) :
    ¬ (step.bind fun b' => some ((0 : Int), f b')) = some (-1, b) := by
  intro h
  obtain ⟨b', -, heq⟩ := bind_eq_some_iff.mp h
  have hcode : (0 : Int) = -1 := congrArg Prod.fst (some.inj heq)
  exact absurd hcode (by decide)

theorem undo_refused_iff (fresh : Fresh) (b : Buffer) :
    bufferUndo fresh b = some (-1, b) ↔ b.undoTop = 0 := by
  unfold bufferUndo
  by_cases htop : b.undoTop = 0
  · simp [htop]
  · rw [if_neg htop]
    refine ⟨?_, fun hzero => absurd hzero htop⟩
    intro h
    obtain ⟨r, -, h⟩ := bind_eq_some_iff.mp h
    cases htype : r.type with
    | insert | delete =>
      simp only [htype] at h
      exact absurd h (not_refused _)

/-- The first record of an array has been written. -/
theorem Recorded.written (h : Recorded b past future) (hcap : ¬ 0 ≥ b.undoCap) :
    ∃ r, b.undoRecord 0 = some r := by
  unfold Buffer.undoCap at hcap
  unfold Buffer.undoRecord
  rcases h.cases with ⟨hs, -⟩ | ⟨stack, hs, hlayout⟩
  · rw [hs] at hcap
    exact absurd (Nat.le_refl 0) hcap
  · rw [hs]
    have hpos : 0 < undoCap := by decide
    cases hlayout with
    | first rest hrest hlen =>
      have hlong : 0 < (past ++ future ++ rest).length := by
        simp only [length_append]
        omega
      refine ⟨(past ++ future ++ rest)[0], ?_⟩
      rw [bind_some, getElem?_map, getElem?_eq_getElem hlong]
      rfl
    | enlarged hlen =>
      have hlong : 0 < (past ++ future).length := by
        simp only [length_append]
        omega
      refine ⟨(past ++ future)[0], ?_⟩
      rw [bind_some, getElem?_append_left (by rw [length_map]; exact hlong),
        getElem?_map, getElem?_eq_getElem hlong]
      rfl

theorem redo_refused_iff (fresh : Fresh) (h : Recorded b past future) (htop : b.undoTop = 0) :
    bufferRedo fresh b = some (-1, b) ↔ NoRecord b := by
  unfold bufferRedo NoRecord
  rw [htop]
  by_cases hcap : 0 ≥ b.undoCap
  · rw [if_pos hcap]
    refine ⟨fun _ r hr => ?_, fun _ => rfl⟩
    have hnone : b.undoRecord 0 = none := by
      unfold Buffer.undoCap at hcap
      unfold Buffer.undoRecord
      cases hs : b.undoStack with
      | none => rfl
      | some stack =>
        rw [hs] at hcap
        have : stack = [] := length_eq_zero_iff.mp (Nat.le_zero.mp hcap)
        rw [this]
        rfl
    rw [hnone] at hr
    cases hr
  · rw [if_neg hcap]
    obtain ⟨r, hr⟩ := h.written hcap
    rw [hr, bind_eq_bind, bind_some]
    by_cases htext : r.text = none
    · rw [if_pos htext]
      refine ⟨fun _ q hq => ?_, fun _ => rfl⟩
      rw [← some.inj hq]
      exact htext
    · rw [if_neg htext]
      constructor
      · intro hredo
        cases htype : r.type with
        | insert | delete =>
          simp only [htype] at hredo
          exact absurd hredo (not_refused _)
      · intro hnone
        exact absurd (hnone r rfl) htext

/-! ### The three ways a load can go -/

theorem length_xrealloc (fresh : Fresh) (data : List UInt8) (n : Nat) :
    (xrealloc fresh data n).length = n := by
  unfold xrealloc Fresh.block
  simp only [length_append, length_take, length_map, length_range]
  omega

theorem xrealloc_self (fresh : Fresh) (data : List UInt8) :
    xrealloc fresh data data.length = data := by
  unfold xrealloc Fresh.block
  simp

/-- All records may be regarded as undone. -/
theorem Recorded.all_undone (h : Recorded b past future) (hstack : b'.undoStack = b.undoStack)
    (htop : b'.undoTop = 0) : Recorded b' [] (past ++ future) := by
  refine ⟨htop, ?_⟩
  rw [hstack]
  rcases h.cases with ⟨hs, rfl, rfl⟩ | ⟨stack, hs, hlayout⟩
  · rw [hs]
    exact ⟨rfl, rfl⟩
  · rw [hs]
    exact hlayout.of_eq rfl

theorem noSteps_iff (fresh : Fresh) (h : Recorded b past future)
    (hstack : b'.undoStack = b.undoStack)
    (htop : b'.undoTop = 0) : NoSteps fresh b' ↔ NoRecord b := by
  unfold NoSteps
  rw [undo_refused_iff, redo_refused_iff fresh (h.all_undone hstack htop) htop, and_iff_right htop]
  unfold NoRecord Buffer.undoRecord
  rw [hstack]

section

variable {b : Buffer} {s : List UInt8} {past future : List UndoRecord} (fresh : Fresh)
  (h : Ready b s past future)
include h

/-- The buffer with the name of an empty file. -/
theorem load_empty_iff (hdata : b'.data = b.data) (hstart : b'.gapStart = b.gapStart)
    (hend : b'.gapEnd = b.gapEnd) (hstack : b'.undoStack = b.undoStack)
    (htop : b'.undoTop = b.undoTop) :
    (readBack b' = [] ∧ NoSteps fresh b') ↔ bufferLength b = 0 ∧ b.undoTop = 0 ∧ NoRecord b := by
  have hholds := h.holds.of_eq hdata hstart hend
  have hlen : bufferLength b = s.length := h.holds.length
  rw [hholds.readBack, hlen, length_eq_zero_iff]
  by_cases hzero : b.undoTop = 0
  · rw [noSteps_iff fresh h.recorded hstack (htop.trans hzero), and_iff_right hzero]
  · simp [NoSteps, undo_refused_iff, htop, hzero]

/-- The buffer with a file that was read to its end. -/
theorem load_whole_iff (hsize : bytes.length < 2 ^ 63)
    (hdata : b'.data = overwrite (xrealloc fresh b.data (bytes.length + gapInitial)) 0 bytes)
    (hstart : b'.gapStart = bytes.length) (hend : b'.gapEnd = bytes.length + gapInitial)
    (hstack : b'.undoStack = b.undoStack) (htop : b'.undoTop = 0) :
    (readBack b' = bytes ∧ NoSteps fresh b') ↔ NoRecord b := by
  have hblock := length_xrealloc fresh b.data (bytes.length + gapInitial)
  generalize xrealloc fresh b.data (bytes.length + gapInitial) = block at hdata hblock
  have hgap : gapInitial + 1 < 2 ^ 63 := by decide
  have hlen : b'.data.length = bytes.length + gapInitial := by
    rw [hdata, length_overwrite (by omega), hblock]
  have hholds : Holds b' bytes := by
    refine ⟨by omega, by omega, by omega, ?_⟩
    have htake := @take_overwrite block bytes 0 (Nat.zero_le _)
    rw [Nat.zero_add] at htake
    unfold around
    rw [drop_of_length_le (by omega), hdata, hstart, htake]
    simp
  rw [hholds.readBack, noSteps_iff fresh h.recorded hstack htop]
  exact and_iff_right rfl

/-- The buffer after a read that stopped short. -/
theorem load_short_iff {got : Nat} (hgot : got < bytes.length) (hsize : bytes.length < 2 ^ 63)
    (hdata : b'.data =
      overwrite (xrealloc fresh b.data (bytes.length + gapInitial)) 0 (bytes.take got))
    (hstart : b'.gapStart = b.gapStart) (hend : b'.gapEnd = b.gapEnd) :
    readBack b' = readBack b ↔
      b.data.length = bytes.length + gapInitial ∧
        ∀ i < got, (i < b.gapStart ∨ b.gapEnd ≤ i) → byteAt bytes i = byteAt b.data i := by
  have hblock := length_xrealloc fresh b.data (bytes.length + gapInitial)
  have htaken : (bytes.take got).length = got := by
    rw [length_take]
    omega
  have hgapSize : gapInitial + 1 < 2 ^ 63 := by decide
  have hlen : b'.data.length = bytes.length + gapInitial := by
    rw [hdata, length_overwrite (by omega), hblock]
  have hgap := h.holds.gap
  have hin := h.holds.inside
  have hfits := h.holds.size
  rw [h.holds.readBack]
  by_cases hsame : b.data.length = bytes.length + gapInitial
  · rw [← hsame, xrealloc_self] at hdata
    have hholds : Holds b' (around b'.data b'.gapStart b'.gapEnd) :=
      ⟨by omega, by omega, by omega, rfl⟩
    rw [hholds.readBack, ← h.holds.text, hstart, hend, hdata]
    have hbyte : ∀ i, byteAt (overwrite b.data 0 (bytes.take got)) i =
        if i < got then byteAt bytes i else byteAt b.data i := by
      intro i
      rw [byteAt_overwrite (by omega)]
      by_cases hlow : i < got
      · rw [if_pos (by omega), if_pos hlow, Nat.sub_zero, byteAt_take, if_pos hlow]
      · rw [if_neg (by omega), if_neg hlow]
    have hlen' : (overwrite b.data 0 (bytes.take got)).length = b.data.length :=
      length_overwrite (by omega)
    refine ⟨fun heq => ⟨hsame, ?_⟩, fun hbytes => ?_⟩
    · intro i hi hside
      have hread : ∀ j, byteAt (overwrite b.data 0 (bytes.take got))
          (if j < b.gapStart then j else j + (b.gapEnd - b.gapStart)) =
            byteAt b.data (if j < b.gapStart then j else j + (b.gapEnd - b.gapStart)) := by
        intro j
        rw [← byteAt_around hgap hin, ← byteAt_around hgap (by omega), heq]
      rcases hside with hlow | hhigh
      · have := hread i
        rw [if_pos hlow, hbyte, if_pos hi] at this
        exact this
      · have := hread (i - (b.gapEnd - b.gapStart))
        rw [if_neg (by omega), Nat.sub_add_cancel (by omega), hbyte, if_pos hi] at this
        exact this
    · refine ext_byteAt ?_ ?_
      · rw [length_around hgap (by omega), length_around hgap hin, hlen']
      · intro i hi
        rw [byteAt_around hgap (by omega), byteAt_around hgap hin, hbyte]
        by_cases hread : (if i < b.gapStart then i else i + (b.gapEnd - b.gapStart)) < got
        · rw [if_pos hread]
          refine hbytes.2 _ hread ?_
          split_ifs <;> omega
        · rw [if_neg hread]
  · refine ⟨fun heq => absurd ?_ hsame, fun hboth => absurd hboth.1 hsame⟩
    -- The lengths differ, also where the new block is smaller than the gap.
    have hlens := congrArg length heq
    rw [h.holds.length_eq] at hlens
    unfold readBack bufferLength bufLength at hlens
    rw [length_map, length_range] at hlens
    unfold u64Sub at hlens
    omega

end

/-- What the law asks for, from the code returned and the buffer left. -/
theorem loadLaw_iff {code : Int} (heq : bufferLoad fresh b path answer = (code, b')) :
    LoadLaw fresh b path answer ↔
      (code = 0 → readBack b' = answer.bytes ∧ NoSteps fresh b') ∧
        (code ≠ 0 → readBack b' = readBack b) := by
  unfold LoadLaw
  rw [heq]

theorem loadLaw_of_success (heq : bufferLoad fresh b path answer = (0, b')) :
    LoadLaw fresh b path answer ↔ readBack b' = answer.bytes ∧ NoSteps fresh b' := by
  rw [loadLaw_iff heq]
  exact ⟨fun h => h.1 rfl, fun h => ⟨fun _ => h, fun hcode => absurd rfl hcode⟩⟩

theorem loadLaw_of_failure (heq : bufferLoad fresh b path answer = (-1, b')) :
    LoadLaw fresh b path answer ↔ readBack b' = readBack b := by
  have hcode : (-1 : Int) ≠ 0 := by decide
  rw [loadLaw_iff heq]
  exact ⟨fun h => h.2 hcode, fun h => ⟨fun hzero => absurd hzero hcode, fun _ => h⟩⟩

/-- **When loading keeps its law.** -/
theorem load_law_iff (fresh : Fresh) {b : Buffer} {s : List UInt8} {past future : List UndoRecord}
    (h : Ready b s past future) (path : List UInt8) {answer : FileAnswer} (hfile : answer.Ok) :
    LoadLaw fresh b path answer ↔ LoadOk b answer := by
  cases answer with
  | absent | unseekable => exact (loadLaw_of_failure rfl).trans (iff_true_intro rfl)
  | file bytes granted got =>
    have hsize : bytes.length < 2 ^ 63 := hfile
    simp only [LoadOk]
    by_cases hnil : bytes = []
    · rw [if_pos hnil]
      have heq : bufferLoad fresh b path (.file bytes granted got) = _ :=
        if_pos (length_eq_zero_iff.mpr hnil)
      rw [loadLaw_of_success heq]
      rw [hnil]
      exact load_empty_iff fresh h rfl rfl rfl rfl rfl
    · rw [if_neg hnil]
      have hlen : ¬ bytes.length = 0 := fun hzero => hnil (length_eq_zero_iff.mp hzero)
      cases granted with
      | false =>
        refine (loadLaw_of_failure ?_).trans (iff_true_intro rfl)
        simp only [bufferLoad, if_neg hlen]
        rfl
      | true =>
        have heq : bufferLoad fresh b path (.file bytes true got) = _ := if_neg hlen
        by_cases hshort : got < bytes.length
        · rw [if_pos hshort]
          rw [if_pos hshort] at heq
          rw [loadLaw_of_failure heq]
          exact load_short_iff fresh h hshort hsize rfl rfl rfl
        · rw [if_neg hshort]
          rw [if_neg hshort, take_of_length_le (Nat.not_lt.mp hshort)] at heq
          rw [loadLaw_of_success heq]
          exact load_whole_iff fresh h hsize rfl rfl rfl rfl rfl

/-- A file of two bytes loaded into a new buffer. -/
theorem load_law_iff_new : LoadLaw zeros (bufferNew zeros) [] (.file [104, 105] true 2) :=
  (load_law_iff zeros (ready_bufferNew zeros) [] (by decide)).mpr (by
    intro r hr
    cases hr)

/-- **An empty file keeps the old text**: loaded into a buffer with `ab`, it leaves `ab`. -/
theorem load_empty_keeps :
    ((bufferInsert zeros (bufferNew zeros) 0 [97, 98]).map fun r =>
      ((bufferLoad zeros r.2 [] (.file [] true 0)).1,
        readBack (bufferLoad zeros r.2 [] (.file [] true 0)).2)) = some (0, [97, 98]) := by
  decide +kernel

end Nv0ken.TextEditor
