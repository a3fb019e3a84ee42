/-
Typing a string.

A typed character is inserted at the cursor.  `buffer_insert` moves the cursor behind it,
and `editor_type_char` then moves the cursor once more; at the end of the text the second
movement is cut off, and only there does the next character follow the last one.  So a
non-empty string lands where it was typed exactly if the cursor is at the end.

Two more things can go wrong on the way.  Each character is an edit that is recorded for
undo, and an enlarged array of records ends the run (`Proofs/TextEditor/History.lean`).
And an active mark at the cursor selects nothing until the first character has moved the
cursor away from it: the second character replaces the first.

Without an active mark the run is followed character by character (`typeChars_spec`); the
induction carries the room that is left in the array, which also bounds the length of the
text.  With a mark the first two characters are followed by hand, and what comes behind
them is a run without a mark.
-/
import Nv0ken.Apps.TextEditor.Editor
import Nv0ken.Proofs.TextEditor.Undo

namespace Nv0ken.TextEditor

open List Option

open Nv0ken.Word (u64 u64_of_lt)

/-- A character that is neither a bracket nor a quote. -/
def Plain (c : UInt8) : Prop := c ∉ ([40, 41, 91, 93, 123, 125, 34, 39, 96] : List UInt8)

instance (c : UInt8) : Decidable (Plain c) := inferInstanceAs (Decidable (¬ _))

variable {c : UInt8} {e : Editor}

theorem Plain.not_pair (h : Plain c) : isOpen c = false ∧ isClose c = false := by
  simp only [Plain, mem_cons, not_mem_nil, or_false, not_or] at h
  obtain ⟨h₁, h₂, h₃, h₄, h₅, h₆, h₇, h₈, h₉⟩ := h
  constructor
  · simp [isOpen, pairClose, pairs, Ne.symm h₁, Ne.symm h₃, Ne.symm h₅, Ne.symm h₇, Ne.symm h₈,
      Ne.symm h₉]
  · simp [isClose, pairs, Ne.symm h₂, Ne.symm h₄, Ne.symm h₆]

theorem typeInto_plain (hc : Plain c) (fresh : Fresh) (autoPair : Bool) (b : Buffer) :
    typeInto fresh autoPair b c = typePlain fresh b c := by
  unfold typeInto
  simp [hc.not_pair.1, hc.not_pair.2]

/-! ### One character -/

/-- The text and the records still to come fit their types. -/
def Roomy (s : List UInt8) (past : List UndoRecord) : Prop :=
  s.length + (undoCap + 2 - past.length) + gapGrow + 1 < 2 ^ 64

section

variable {b : Buffer} {s : List UInt8} {past future : List UndoRecord} (fresh : Fresh)
  (h : Ready b s past future)
include h

theorem insertChar_takes (hroom : Roomy s past) (pos : Nat) (c : UInt8) :
    (Edit.insert pos [c]).Takes s := by
  have hle := h.recorded.length_le_succ
  unfold Roomy at hroom
  refine ⟨cons_ne_nil _ _, ?_⟩
  rw [length_singleton]
  omega

/-- The character is inserted, and the cursor goes one further than that, if it can. -/
theorem typePlain_step (hcap : b.undoCap ≤ undoCap) (hroom : Roomy s past)
    (hcursor : b.cursor ≤ s.length) (c : UInt8) :
    ∃ b' past', typePlain fresh b c = some (.insert, b') ∧
      Ready b' (insertAt s b.cursor [c]) past' [] ∧ past'.length = past.length + 1 ∧
      Roomy (insertAt s b.cursor [c]) past' ∧ b'.cursor = min (b.cursor + 2) (s.length + 1) ∧
      b'.mark = b.mark ∧ b'.markActive = b.markActive := by
  have htakes := insertChar_takes h hroom b.cursor c
  have hsmall := small_edit htakes h.small
  obtain ⟨b₁, hcall, hmoved, hrec⟩ := edit_step fresh h.holds h.quiet h.recorded hcap htakes
  have hlen : bufLength b₁ = s.length + 1 := by
    rw [hmoved.holds.length]
    exact length_insertAt s b.cursor [c]
  have hfits := htakes.2
  rw [length_singleton] at hfits
  have hcursor₁ : b₁.cursor = b.cursor + 1 := by
    rw [hmoved.cursor]
    show (if b.cursor ≥ min b.cursor s.length then u64 (b.cursor + 1) else b.cursor) = b.cursor + 1
    rw [if_pos (by omega), u64_of_lt (by omega)]
  have hmove : bufferCursorMove b₁ 1 =
      some { b₁ with cursor := min (b.cursor + 2) (s.length + 1) } := by
    unfold bufferCursorMove
    rw [if_neg (by decide), hlen, hcursor₁]
    have hsum : u64 (b.cursor + 1 + Int.toNat 1) = b.cursor + 2 := u64_of_lt (by
      omega)
    simp only [hsum]
    by_cases hend : b.cursor + 2 > s.length + 1
    · rw [if_pos hend, Nat.min_eq_right (by omega)]
    · rw [if_neg hend, Nat.min_eq_left (by omega)]
  refine ⟨{ b₁ with cursor := min (b.cursor + 2) (s.length + 1) }, _, ?_,
    ⟨hmoved.holds.of_eq rfl rfl rfl, hsmall, hmoved.quiet, hrec.top, hrec.stack⟩,
    length_append, ?_, rfl, hmoved.mark, hmoved.markActive⟩
  · unfold typePlain bufferInsertChar
    change bufferInsert fresh b b.cursor [c] = some (0, b₁) at hcall
    rw [hcall]
    show ((bufferCursorMove b₁ 1).bind fun b => some (EditorAction.insert, b)) = _
    rw [hmove]
    rfl
  · have hle := h.recorded.length_le hcap
    have hlen' := length_insertAt s b.cursor [c]
    unfold Roomy at hroom ⊢
    rw [length_append, length_singleton] at *
    omega

theorem typePlain_enlarged (hcap : undoCap < b.undoCap) (hroom : Roomy s past) (c : UInt8) :
    typePlain fresh b c = none := by
  have hnone := edit_enlarged fresh h.holds h.quiet h.recorded hcap
    (insertChar_takes h hroom b.cursor c)
  unfold typePlain bufferInsertChar
  change bufferInsert fresh b b.cursor [c] = none at hnone
  rw [hnone]
  rfl

end

/-! ### Characters without a mark -/

/-- A character typed with nothing selected. -/
theorem typeChars_cons (fresh : Fresh) (hsel : bufferHasSelection e.buf = false) (hc : Plain c)
    (cs : List UInt8) : typeChars fresh e (c :: cs) =
    (typePlain fresh e.buf c).bind fun r => typeChars fresh { e with buf := r.2 } cs := by
  have hunfold : typeChars fresh e (c :: cs) =
      (editorTypeChar fresh e c).bind fun r => typeChars fresh r.2 cs := rfl
  rw [hunfold]
  unfold editorTypeChar
  rw [hsel, if_neg Bool.false_ne_true, bind_eq_bind, bind_some]
  simp only [typeInto_plain hc]
  cases typePlain fresh e.buf c <;> rfl

theorem noSelection_of_unmarked (h : b.markActive = false) : bufferHasSelection b = false := by
  unfold bufferHasSelection
  rw [h]
  rfl

/-- What typing has left: a text longer by the characters typed, with the cursor twice as far
on as it should be, or at the end. -/
structure Typed (e e' : Editor) (s : List UInt8) (cs : List UInt8) : Prop where
  text : ∃ s' past', Ready e'.buf s' past' [] ∧ s'.length = s.length + cs.length ∧
    (e.buf.cursor = s.length → s' = s ++ cs)
  cursor : e'.buf.cursor = min (e.buf.cursor + 2 * cs.length) (s.length + cs.length)

theorem insertAt_end (s text : List UInt8) : insertAt s s.length text = s ++ text := by
  unfold insertAt
  simp

/-- **A run without a mark**, or of one character: as described if the records fit, and
undefined otherwise. -/
theorem typeChars_spec (fresh : Fresh) :
    ∀ (cs : List UInt8), cs ≠ [] → (∀ c ∈ cs, Plain c) →
    ∀ {e : Editor} {s : List UInt8} {past future : List UndoRecord}, Ready e.buf s past future →
      Roomy s past → e.buf.cursor ≤ s.length → bufferHasSelection e.buf = false →
      (e.buf.markActive = false ∨ cs.length = 1) →
      if e.buf.undoCap ≤ undoCap ∧ past.length + cs.length ≤ undoCap + 1 then
        ∃ e', typeChars fresh e cs = some e' ∧ Typed e e' s cs
      else typeChars fresh e cs = none := by
  intro cs
  induction cs with
  | nil => intro hne; exact absurd rfl hne
  | cons c cs ih =>
    intro _ hplain e s past future hready hroom hcursor hsel hmark
    rw [typeChars_cons fresh hsel (hplain c (mem_cons_self ..))]
    by_cases hcap : e.buf.undoCap ≤ undoCap
    · have hle := hready.recorded.length_le hcap
      obtain ⟨b₁, past₁, htype, hready₁, hplen, hroom₁, hcursor₁, -, hactive₁⟩ :=
        typePlain_step fresh hready hcap hroom hcursor c
      rw [htype]
      have hlen₁ : (insertAt s e.buf.cursor [c]).length = s.length + 1 := length_insertAt _ _ _
      by_cases hlast : cs = []
      · subst hlast
        rw [if_pos ⟨hcap, by rw [length_singleton]; omega⟩]
        refine ⟨{ e with buf := b₁ }, rfl, ⟨_, _, hready₁, hlen₁, ?_⟩, hcursor₁⟩
        intro hend
        rw [hend]
        exact insertAt_end s [c]
      · have hpos : 0 < cs.length := length_pos_iff.mpr hlast
        have hunmarked : b₁.markActive = false := by
          rw [hactive₁]
          refine hmark.resolve_right ?_
          rw [length_cons]
          omega
        have hrest := ih hlast (fun d hd => hplain d (mem_cons_of_mem _ hd))
          (e := { e with buf := b₁ }) hready₁ hroom₁ (by
            rw [hcursor₁]
            omega) (noSelection_of_unmarked hunmarked) (.inl hunmarked)
        by_cases hfits : past.length + (c :: cs).length ≤ undoCap + 1
        · rw [length_cons] at hfits
          have hcap₁ : b₁.undoCap ≤ undoCap := hready₁.recorded.cap_le (by
            rw [length_nil]
            omega)
          rw [if_pos ⟨hcap₁, by omega⟩] at hrest
          rw [if_pos ⟨hcap, hfits⟩]
          obtain ⟨e', heq, ⟨s', past', hready', hlen', htext'⟩, hcursor'⟩ := hrest
          refine ⟨e', heq, ⟨s', past', hready', ?_, ?_⟩, ?_⟩
          · rw [hlen', hlen₁, length_cons]
            omega
          · intro hend
            have hend₁ : b₁.cursor = (insertAt s e.buf.cursor [c]).length := by
              omega
            rw [htext' hend₁, hend, insertAt_end, append_assoc]
            rfl
          · rw [hcursor', hlen₁, length_cons]
            rw [hcursor₁]
            omega
        · rw [if_neg (fun hboth => hfits hboth.2)]
          rw [length_cons] at hfits
          rw [if_neg (by omega)] at hrest
          exact hrest
    · rw [if_neg (fun hboth => hcap hboth.1),
        typePlain_enlarged fresh hready (Nat.not_le.mp hcap) hroom]
      rfl

/-! ### Characters behind a mark -/

section

variable (fresh : Fresh) {e' : Editor} (h : Ready e.buf s past future) (hroom : Roomy s past)
  (hactive : e.buf.markActive = true)
include fresh h hroom hactive

/-- A character that replaces a selection from the mark up to the cursor: if it is typed at
all, the text has lost what was selected, and the mark is gone. -/
theorem typeOver_mark (hmark : e.buf.mark < e.buf.cursor) (hcursor : e.buf.cursor ≤ s.length)
    (hc : Plain c) {action : EditorAction} (htyped : editorTypeChar fresh e c = some (action, e')) :
    ∃ s' past', Ready e'.buf s' past' [] ∧ Roomy s' past' ∧ s'.length ≤ s.length ∧
      e'.buf.cursor ≤ s'.length ∧ e'.buf.markActive = false := by
  have hsel : bufferHasSelection e.buf = true := by
    unfold bufferHasSelection
    rw [hactive, Bool.true_and, bne_iff_ne]
    omega
  have hdelete : bufferDeleteSelection e.buf =
      bufferDelete { bufferMarkClear e.buf with cursor := e.buf.mark } e.buf.mark
        (e.buf.cursor - e.buf.mark) := by
    unfold bufferDeleteSelection bufferSelectionRange
    rw [if_pos hsel, if_neg (by omega)]
  generalize hb₀ : ({ bufferMarkClear e.buf with cursor := e.buf.mark } : Buffer) = b₀ at hdelete
  have hready₀ : Ready b₀ s past future := by
    rw [← hb₀]
    exact ⟨h.holds.of_eq rfl rfl rfl, h.small, h.quiet, h.recorded.top, h.recorded.stack⟩
  have hcursor₀ : b₀.cursor = e.buf.mark := by rw [← hb₀]
  have hactive₀ : b₀.markActive = false := by rw [← hb₀]; rfl
  have hsmall := h.small
  have htakes : (Edit.delete e.buf.mark (e.buf.cursor - e.buf.mark)).Takes s := by
    refine ⟨?_, ?_, ?_⟩ <;> omega
  unfold editorTypeChar at htyped
  rw [if_pos hsel, hdelete] at htyped
  by_cases hcap : b₀.undoCap ≤ undoCap
  · obtain ⟨b₁, hcall, hmoved, hrec⟩ :=
      edit_step fresh hready₀.holds hready₀.quiet hready₀.recorded hcap htakes
    change bufferDelete b₀ e.buf.mark (e.buf.cursor - e.buf.mark) = some (0, b₁) at hcall
    have hlen₁ : (removeAt s e.buf.mark (e.buf.cursor - e.buf.mark)).length + 1 ≤ s.length := by
      rw [length_removeAt]
      omega
    have hcursor₁ : b₁.cursor = e.buf.mark := by
      rw [hmoved.cursor, hcursor₀]
      exact if_neg (Nat.lt_irrefl _)
    have hready₁ := Ready.mk hmoved.holds (small_edit htakes h.small) hmoved.quiet hrec
    generalize hpast : past ++ [(Edit.delete e.buf.mark (e.buf.cursor - e.buf.mark)).record s] =
      past₁ at hready₁
    have hplen : past₁.length = past.length + 1 := by
      rw [← hpast, length_append, length_singleton]
    change Ready b₁ (removeAt s e.buf.mark (e.buf.cursor - e.buf.mark)) past₁ [] at hready₁
    generalize hs₁ : removeAt s e.buf.mark (e.buf.cursor - e.buf.mark) = s₁ at hready₁ hlen₁
    have hroom₁ : Roomy s₁ past₁ := by
      unfold Roomy at hroom ⊢
      omega
    have hmarkLe : e.buf.mark ≤ s₁.length := by
      rw [← hs₁, length_removeAt]
      omega
    rw [hcall] at htyped
    change ((typeInto fresh e.autoPair b₁ c).bind fun r =>
      some (r.1, { e with buf := r.2 })) = some (action, e') at htyped
    rw [typeInto_plain hc] at htyped
    by_cases hcap₁ : b₁.undoCap ≤ undoCap
    · have hle₂ := hready₁.recorded.length_le hcap₁
      obtain ⟨b₂, past₂, htype, hready₂, -, hroom₂, hcursor₂, -, hactive₂⟩ :=
        typePlain_step fresh hready₁ hcap₁ hroom₁ (by omega) c
      rw [htype] at htyped
      obtain rfl : { e with buf := b₂ } = e' := (Prod.mk.inj (some.inj htyped)).2
      have hlen₂ : (insertAt s₁ b₁.cursor [c]).length = s₁.length + 1 := length_insertAt _ _ _
      refine ⟨_, _, hready₂, hroom₂, by omega, ?_, ?_⟩
      · show b₂.cursor ≤ _
        omega
      · show b₂.markActive = false
        rw [hactive₂, hmoved.markActive, hactive₀]
    · rw [typePlain_enlarged fresh hready₁ (Nat.not_le.mp hcap₁) hroom₁] at htyped
      cases htyped
  · have hnone := edit_enlarged fresh hready₀.holds hready₀.quiet hready₀.recorded
      (Nat.not_le.mp hcap) htakes
    change bufferDelete b₀ e.buf.mark (e.buf.cursor - e.buf.mark) = none at hnone
    rw [hnone] at htyped
    cases htyped

/-- **Two characters typed at an active mark lose one.** -/
theorem typeChars_at_mark (hsel : bufferHasSelection e.buf = false)
    (hcursor : e.buf.cursor ≤ s.length) {d : UInt8} {ds : List UInt8}
    (hplain : ∀ x ∈ c :: d :: ds, Plain x) (htyped : typeChars fresh e (c :: d :: ds) = some e') :
    (readBack e'.buf).length < s.length + (c :: d :: ds).length := by
  have hmark : e.buf.mark = e.buf.cursor := by
    unfold bufferHasSelection at hsel
    rw [hactive] at hsel
    simpa using hsel
  rw [typeChars_cons fresh hsel (hplain c (by simp))] at htyped
  by_cases hcap : e.buf.undoCap ≤ undoCap
  · have hle := h.recorded.length_le hcap
    obtain ⟨b₁, past₁, htype, hready₁, -, hroom₁, hcursor₁, hmark₁, hactive₁⟩ :=
      typePlain_step fresh h hcap hroom hcursor c
    rw [htype] at htyped
    have hlen₁ : (insertAt s e.buf.cursor [c]).length = s.length + 1 := length_insertAt _ _ _
    change ((editorTypeChar fresh { e with buf := b₁ } d).bind fun r => typeChars fresh r.2 ds) =
      some e' at htyped
    obtain ⟨⟨action, e₂⟩, htype₂, htyped₂⟩ := bind_eq_some_iff.mp htyped
    obtain ⟨s₂, past₂, hready₂, hroom₂, hlen₂, hcursor₂, hactive₂⟩ :=
      typeOver_mark fresh (e := { e with buf := b₁ }) hready₁ hroom₁ (hactive₁.trans hactive) (by
        show b₁.mark < b₁.cursor
        omega) (by
        show b₁.cursor ≤ _
        omega) (hplain d (by simp)) htype₂
    rw [length_cons, length_cons]
    by_cases hlast : ds = []
    · subst hlast
      obtain rfl : e₂ = e' := some.inj htyped₂
      rw [hready₂.holds.readBack]
      omega
    · have hrest := typeChars_spec fresh ds hlast
        (fun x hx => hplain x (mem_cons_of_mem _ (mem_cons_of_mem _ hx))) hready₂ hroom₂
        hcursor₂ (noSelection_of_unmarked hactive₂) (.inl hactive₂)
      split_ifs at hrest
      · obtain ⟨e₃, heq, ⟨s₃, past₃, hready₃, hlen₃, -⟩, -⟩ := hrest
        obtain rfl : e₃ = e' := some.inj (heq.symm.trans htyped₂)
        rw [hready₃.holds.readBack]
        omega
      · exact absurd (hrest.symm.trans htyped₂) (by simp)
  · rw [typePlain_enlarged fresh h (Nat.not_le.mp hcap) hroom] at htyped
    cases htyped

end

/-! ### The string where it was typed -/

/-- **A typed string stands where it was typed exactly if the cursor was at the end**, with no
active mark (or one character only) and room for the records. -/
theorem typing_contiguous_iff (fresh : Fresh) {e : Editor} {s : List UInt8}
    {past future : List UndoRecord} (h : Ready e.buf s past future) (hsize : s.length < 2 ^ 63)
    (hcursor : e.buf.cursor ≤ s.length) (hsel : bufferHasSelection e.buf = false) (cs : List UInt8)
    (hplain : ∀ c ∈ cs, Plain c) :
    (∃ e', typeChars fresh e cs = some e' ∧ readBack e'.buf = insertAt s e.buf.cursor cs ∧
      e'.buf.cursor = e.buf.cursor + cs.length) ↔
    cs = [] ∨ (e.buf.cursor = s.length ∧ e.buf.undoCap ≤ undoCap ∧
      e.buf.undoTop + cs.length ≤ undoCap + 1 ∧ (e.buf.markActive = false ∨ cs.length = 1)) := by
  have hroom : Roomy s past := by
    unfold Roomy undoCap gapGrow
    omega
  by_cases hnil : cs = []
  · subst hnil
    refine ⟨fun _ => .inl rfl, fun _ => ⟨e, rfl, ?_, rfl⟩⟩
    rw [insertAt_nil]
    exact h.holds.readBack
  rw [or_iff_right hnil, h.recorded.top]
  have hpos : 0 < cs.length := length_pos_iff.mpr hnil
  by_cases hmark : e.buf.markActive = false ∨ cs.length = 1
  · have hspec := typeChars_spec fresh cs hnil hplain h hroom hcursor hsel hmark
    by_cases hfits : e.buf.undoCap ≤ undoCap ∧ past.length + cs.length ≤ undoCap + 1
    · rw [if_pos hfits] at hspec
      obtain ⟨e₁, heq, ⟨s', past', hready', hlen', htext'⟩, hcursor'⟩ := hspec
      constructor
      · rintro ⟨e', heq', htext, hcur⟩
        obtain rfl : e₁ = e' := some.inj (heq.symm.trans heq')
        refine ⟨?_, hfits.1, hfits.2, hmark⟩
        omega
      · rintro ⟨hend, -, -, -⟩
        refine ⟨e₁, heq, ?_, ?_⟩
        · rw [hready'.holds.readBack, htext' hend, hend, insertAt_end]
        · rw [hcursor', hend]
          omega
    · rw [if_neg hfits] at hspec
      constructor
      · rintro ⟨e', heq', -, -⟩
        exact absurd (hspec.symm.trans heq') (by simp)
      · rintro ⟨-, hcap, hcount, -⟩
        exact absurd ⟨hcap, hcount⟩ hfits
  · obtain ⟨hactive, hlong⟩ := not_or.mp hmark
    constructor
    · rintro ⟨e', heq', htext, -⟩
      match cs, hnil, hlong, heq', htext, hplain with
      | c :: d :: ds, _, _, heq', htext, hplain =>
        have hless :=
          typeChars_at_mark fresh h hroom (by simpa using hactive) hsel hcursor hplain heq'
        rw [htext, length_insertAt] at hless
        exact absurd hless (Nat.lt_irrefl _)
    · rintro ⟨-, -, -, hor⟩
      exact absurd hor hmark

/-- `ab` typed into a new buffer. -/
theorem typing_contiguous_new :
    ∃ e', typeChars zeros ⟨bufferNew zeros, true⟩ [97, 98] = some e' ∧
      readBack e'.buf = insertAt [] (bufferNew zeros).cursor [97, 98] ∧
      e'.buf.cursor = (bufferNew zeros).cursor + [(97 : UInt8), 98].length :=
  (typing_contiguous_iff zeros (e := ⟨bufferNew zeros, true⟩) (ready_bufferNew zeros) (by decide)
    (by decide) (by decide) [97, 98] (by decide +kernel)).mpr (.inr (by decide +kernel))

/-- **Typing in front of other text scatters the characters**: `ab` typed in front of `xy`
gives `axby`. -/
theorem typed_in_front_scattered :
    ((run zeros (bufferNew zeros) [.insert 0 [120, 121], .cursor (.set 0)]).bind fun b =>
      typeChars zeros ⟨b, true⟩ [97, 98]).map (fun e => (readBack e.buf, e.buf.cursor)) =
        some ([97, 120, 98, 121], 4) ∧
      insertAt [120, 121] 0 [97, 98] = [97, 98, 120, 121] := by
  decide +kernel

end Nv0ken.TextEditor
