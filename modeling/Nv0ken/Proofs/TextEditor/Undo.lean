/-
Undo and redo of any number of edits.

Edits are recorded one behind the other; undo goes back along the records, redo forward,
and an edit in between takes the place of what was undone.  All of that holds while the
records fit the array undo starts with.  The edit that fills it up enlarges it, and from
then on no edit can be recorded (`edit_enlarged`): not the next one, and not one made
after some undos either.  So the law of undo holds for `k` edits exactly when the records
in effect before them and the `k` new ones number at most `UNDO_CAP`; with one record
more, undo and redo still work, but an edit made after an undo does not.

The induction over the edits carries the list of their records, and undo and redo are
inductions over that list, from its end and from its beginning.
-/
import Nv0ken.Proofs.TextEditor.Represents

namespace Nv0ken.TextEditor

open List Option

/-! ### Sequences of edits, of undos and of redos -/

/-- Edits made one after the other. -/
def edits (fresh : Fresh) : Buffer → List Edit → Option Buffer
  | b, [] => some b
  | b, e :: es => (e.call fresh b).bind fun (_, b) => edits fresh b es

/-- `n` undos. -/
def undos (fresh : Fresh) : Nat → Buffer → Option Buffer
  | 0, b => some b
  | n + 1, b => (bufferUndo fresh b).bind fun (_, b) => undos fresh n b

/-- `n` redos. -/
def redos (fresh : Fresh) : Nat → Buffer → Option Buffer
  | 0, b => some b
  | n + 1, b => (bufferRedo fresh b).bind fun (_, b) => redos fresh n b

/-- The edits of a plain text. -/
def plainEdits (s : List UInt8) (es : List Edit) : List UInt8 := es.foldl Edit.plain s

/-- Every edit takes place in the text it is made in. -/
def TakePlace : List UInt8 → List Edit → Prop
  | _, [] => True
  | s, e :: es => e.Takes s ∧ TakePlace (e.plain s) es

instance decidableTakePlace : (s : List UInt8) → (es : List Edit) → Decidable (TakePlace s es)
  | _, [] => isTrue trivial
  | s, e :: es =>
    have := decidableTakePlace (e.plain s) es
    inferInstanceAs (Decidable (e.Takes s ∧ TakePlace (e.plain s) es))

/-- The records of the edits. -/
def records : List UInt8 → List Edit → List UndoRecord
  | _, [] => []
  | s, e :: es => e.record s :: records (e.plain s) es

theorem length_records (s : List UInt8) (es : List Edit) : (records s es).length = es.length := by
  induction es generalizing s with
  | nil => rfl
  | cons e es ih =>
    show (records (e.plain s) es).length + 1 = es.length + 1
    rw [ih]

variable {es fs : List Edit}

theorem leads_records (htake : TakePlace s es) (hsmall : s.length + gapGrow + 1 < 2 ^ 64) :
    Leads s (records s es) (plainEdits s es) := by
  induction es generalizing s with
  | nil => rfl
  | cons e es ih =>
    obtain ⟨hfit, hredone⟩ := record_fits htake.1 hsmall
    refine ⟨hfit, ?_⟩
    rw [hredone]
    exact ih htake.2 (small_edit htake.1 hsmall)

/-- The buffer holds `s`, and its records are in order; nothing is said about which texts
they belong to. -/
structure Ready (b : Buffer) (s : List UInt8) (past future : List UndoRecord) : Prop where
  holds : Holds b s
  small : s.length + gapGrow + 1 < 2 ^ 64
  quiet : b.inUndo = false
  recorded : Recorded b past future

section

variable {b : Buffer} {s : List UInt8} {past future : List UndoRecord} (fresh : Fresh)

section

variable (h : Recorded b past future)
include h

/-- The array has its first size and room for the records, or it was doubled for the last of
them. -/
theorem Recorded.cap_cases :
    b.undoCap ≤ undoCap ∧ past.length + future.length ≤ undoCap ∨
      undoCap < b.undoCap ∧ past.length + future.length = undoCap + 1 := by
  unfold Buffer.undoCap
  rcases h.cases with ⟨hs, rfl, rfl⟩ | ⟨stack, hs, hlayout⟩
  · rw [hs]
    exact Or.inl ⟨Nat.zero_le _, Nat.zero_le _⟩
  · rw [hs]
    cases hlayout with
    | first rest hrest hlen =>
      simp only [getD_some, length_map, length_append]
      omega
    | enlarged hlen =>
      simp only [getD_some, length_map, length_append, length_replicate]
      omega

theorem Recorded.cap_le (hcount : past.length + future.length ≤ undoCap) : b.undoCap ≤ undoCap := by
  have := h.cap_cases
  omega

theorem Recorded.cap_gt (hcount : undoCap < past.length + future.length) : undoCap < b.undoCap := by
  have := h.cap_cases
  omega

/-- There is never more than one record in the new half of the array. -/
theorem Recorded.length_le_succ : past.length + future.length ≤ undoCap + 1 := by
  have := h.cap_cases
  omega

/-- An array of the first size holds no more records than that. -/
theorem Recorded.length_le (hcap : b.undoCap ≤ undoCap) :
    past.length + future.length ≤ undoCap := by
  have := h.cap_cases
  omega

end

/-! ### Edits -/

/-- Edits are recorded one behind the other while the array has room. -/
theorem edits_ready (h : Ready b s past future) (hcap : b.undoCap ≤ undoCap) (hne : es ≠ [])
    (htake : TakePlace s es) (hcount : past.length + es.length ≤ undoCap + 1) :
    ∃ b', edits fresh b es = some b' ∧
      Ready b' (plainEdits s es) (past ++ records s es) [] := by
  induction es generalizing b s past future with
  | nil => exact absurd rfl hne
  | cons e es ih =>
    obtain ⟨b₁, hcall, hmoved, hrec⟩ := edit_step fresh h.holds h.quiet h.recorded hcap htake.1
    have hready : Ready b₁ (e.plain s) (past ++ [e.record s]) [] :=
      ⟨hmoved.holds, small_edit htake.1 h.small, hmoved.quiet, hrec⟩
    rw [length_cons] at hcount
    have hrun : edits fresh b (e :: es) = edits fresh b₁ es := by
      show ((e.call fresh b).bind fun (_, b) => edits fresh b es) = _
      rw [hcall]
      rfl
    rw [hrun]
    by_cases hlast : es = []
    · subst hlast
      exact ⟨b₁, rfl, hready⟩
    · have hpos : 0 < es.length := length_pos_iff.mpr hlast
      have hcap' : b₁.undoCap ≤ undoCap := hrec.cap_le (by simp; omega)
      obtain ⟨b', heq, hready'⟩ := ih hready hcap' hlast htake.2 (by simp; omega)
      refine ⟨b', heq, ?_⟩
      rw [append_assoc] at hready'
      exact hready'

/-- One edit more than the doubled array was meant for is undefined. -/
theorem edits_overflow (h : Ready b s past future) (hne : es ≠ []) (htake : TakePlace s es)
    (hcount : undoCap < b.undoCap ∨ undoCap + 1 < past.length + es.length) :
    edits fresh b es = none := by
  induction es generalizing b s past future with
  | nil => exact absurd rfl hne
  | cons e es ih =>
    unfold edits
    by_cases hcap : b.undoCap ≤ undoCap
    · have hlong := hcount.resolve_left (Nat.not_lt.mpr hcap)
      obtain ⟨b₁, hcall, hmoved, hrec⟩ := edit_step fresh h.holds h.quiet h.recorded hcap htake.1
      rw [hcall]
      rw [length_cons] at hlong
      by_cases hlast : es = []
      · -- The array had its first size, so it held at most as many records.
        subst hlast
        have hle := h.recorded.length_le hcap
        rw [length_nil] at hlong
        omega
      · refine ih ⟨hmoved.holds, small_edit htake.1 h.small, hmoved.quiet, hrec⟩ hlast htake.2 ?_
        rw [length_append, length_singleton]
        omega
    · rw [edit_enlarged fresh h.holds h.quiet h.recorded (Nat.not_le.mp hcap) htake.1]
      rfl

/-! ### Undo and redo -/

section

variable {t : List UInt8} {rs : List UndoRecord} (hleads : Leads s rs t)
include hleads

/-- Undo goes back along the records. -/
theorem undos_ready (h : Ready b t (past ++ rs) future) :
    ∃ b', undos fresh rs.length b = some b' ∧ Ready b' s past (rs ++ future) := by
  induction rs using reverseRecOn generalizing b t future with
  | nil =>
    cases hleads
    rw [append_nil] at h
    exact ⟨b, rfl, h⟩
  | append_singleton rs r ih =>
    obtain ⟨u, hrs, hfit, hredone⟩ := leads_snoc.mp hleads
    have hholds : Holds b (r.redone u) := by
      rw [hredone]
      exact h.holds
    have hrec := h.recorded
    rw [← append_assoc] at hrec
    obtain ⟨b₁, hundo, hmoved, hrec₁⟩ := undo_step fresh hfit hholds hrec
    obtain ⟨b', heq, hready⟩ := ih hrs ⟨hmoved.holds, hfit.small, hmoved.quiet, hrec₁⟩
    refine ⟨b', ?_, ?_⟩
    · rw [length_append, length_singleton]
      unfold undos
      rw [hundo]
      exact heq
    · rw [append_assoc]
      exact hready

/-- Redo goes forward along them. -/
theorem redos_ready (h : Ready b s past (rs ++ future)) :
    ∃ b', redos fresh rs.length b = some b' ∧ Ready b' t (past ++ rs) future := by
  induction rs generalizing b s past with
  | nil =>
    cases hleads
    rw [append_nil]
    exact ⟨b, rfl, h⟩
  | cons r rs ih =>
    obtain ⟨b₁, hredo, hmoved, hrec⟩ := redo_step fresh hleads.1 h.holds h.recorded
    obtain ⟨b', heq, hready⟩ :=
      ih hleads.2 ⟨hmoved.holds, hleads.1.small_redone, hmoved.quiet, hrec⟩
    refine ⟨b', ?_, ?_⟩
    · rw [length_cons]
      unfold redos
      rw [hredo]
      exact heq
    · rw [append_assoc] at hready
      exact hready

end

/-- With nothing undone and room in the array, there is nothing to redo. -/
theorem redo_refused (h : Recorded b past []) (hcount : past.length ≤ undoCap) :
    bufferRedo fresh b = some (-1, b) := by
  have htop := h.top
  unfold bufferRedo
  by_cases hfull : b.undoTop ≥ b.undoCap
  · rw [if_pos hfull]
  rw [if_neg hfull]
  unfold Buffer.undoCap at hfull
  rcases h.cases with ⟨hs, -⟩ | ⟨stack, hs, hlayout⟩
  · rw [hs] at hfull
    exact absurd (Nat.zero_le _) hfull
  · rw [hs] at hfull
    cases hlayout with
    | enlarged hlen =>
      rw [length_nil] at hlen
      omega
    | first rest hrest hlen =>
      simp only [getD_some, length_map, length_append, length_nil] at hfull hlen
      have hpos : 0 < rest.length := by omega
      have hread : b.undoRecord b.undoTop = some (rest[0]) := by
        unfold Buffer.undoRecord
        rw [hs, htop]
        simp [hpos]
      rw [hread, bind_eq_bind, bind_some, if_pos (hrest _ (getElem_mem hpos))]
      rfl

/-- The records in effect. -/
def Buffer.inEffect (b : Buffer) : List (Option UndoRecord) := (b.undoStack.getD []).take b.undoTop

theorem Recorded.inEffect (h : Recorded b past future) : b.inEffect = past.map some := by
  unfold Buffer.inEffect
  rw [h.top]
  rcases h.cases with ⟨hs, rfl, -⟩ | ⟨stack, hs, hlayout⟩
  · simp
  · rw [hs]
    cases hlayout <;> simp

/-! ### The law of undo -/

/-- As many undos as there were edits restore the text, and as many redos the edited text; and
an edit after some undos leaves of the records those that were not undone, with its own
behind them, and nothing to redo. -/
def UndoLaw (fresh : Fresh) (b : Buffer) (es : List Edit) : Prop :=
  ∃ b₁, edits fresh b es = some b₁ ∧ readBack b₁ = plainEdits (readBack b) es ∧
    (∃ b₂ b₃, undos fresh es.length b₁ = some b₂ ∧ readBack b₂ = readBack b ∧
      redos fresh es.length b₂ = some b₃ ∧ readBack b₃ = readBack b₁) ∧
    ∀ j, 0 < j → j ≤ es.length → ∃ b₄, undos fresh j b₁ = some b₄ ∧
      ∀ e : Edit, e.Takes (readBack b₄) → ∃ b₅, e.call fresh b₄ = some (0, b₅) ∧
        b₅.inEffect = b₁.inEffect.take (b₁.undoTop - j) ++ [some (e.record (readBack b₄))] ∧
        bufferRedo fresh b₅ = some (-1, b₅)

theorem plainEdits_nil (s : List UInt8) : plainEdits s [] = s := rfl

theorem plainEdits_append (s : List UInt8) (es fs : List Edit) :
    plainEdits s (es ++ fs) = plainEdits (plainEdits s es) fs := List.foldl_append

theorem records_append (s : List UInt8) (es fs : List Edit) :
    records s (es ++ fs) = records s es ++ records (plainEdits s es) fs := by
  induction es generalizing s with
  | nil => rfl
  | cons e es ih =>
    show e.record s :: records (e.plain s) (es ++ fs) = _
    rw [ih]
    rfl

theorem takePlace_append :
    TakePlace s (es ++ fs) ↔ TakePlace s es ∧ TakePlace (plainEdits s es) fs := by
  induction es generalizing s with
  | nil =>
    constructor
    · intro h
      exact ⟨trivial, h⟩
    · intro h
      exact h.2
  | cons e es ih =>
    constructor
    · rintro ⟨he, hrest⟩
      obtain ⟨hes, hfs⟩ := ih.mp hrest
      exact ⟨⟨he, hes⟩, hfs⟩
    · rintro ⟨⟨he, hes⟩, hfs⟩
      exact ⟨he, ih.mpr ⟨hes, hfs⟩⟩

theorem small_edits (hsmall : s.length + gapGrow + 1 < 2 ^ 64) (htake : TakePlace s es) :
    (plainEdits s es).length + gapGrow + 1 < 2 ^ 64 := by
  induction es generalizing s with
  | nil => exact hsmall
  | cons e es ih => exact ih (small_edit htake.1 hsmall) htake.2

/-- Undo of the last edits of a sequence. -/
theorem undos_edits (hsmall : s.length + gapGrow + 1 < 2 ^ 64) (htake : TakePlace s (es ++ fs))
    (h : Ready b (plainEdits s (es ++ fs)) (past ++ records s (es ++ fs)) []) :
    ∃ b', undos fresh fs.length b = some b' ∧
      Ready b' (plainEdits s es) (past ++ records s es) (records (plainEdits s es) fs) := by
  obtain ⟨hes, hfs⟩ := takePlace_append.mp htake
  have hleads := leads_records hfs (small_edits hsmall hes)
  rw [plainEdits_append, records_append, ← append_assoc] at h
  obtain ⟨b', heq, hready⟩ := undos_ready fresh hleads h
  rw [length_records] at heq
  rw [append_nil] at hready
  exact ⟨b', heq, hready⟩

/-- The law for edits whose records fit the array. -/
theorem undoLaw_of_fits (h : Ready b s past future) (hcap : b.undoCap ≤ undoCap) (hne : es ≠ [])
    (htake : TakePlace s es) (hcount : past.length + es.length ≤ undoCap) : UndoLaw fresh b es := by
  have hread := h.holds.readBack
  obtain ⟨b₁, hedits, hready⟩ := edits_ready fresh h hcap hne htake (by omega)
  have hread₁ := hready.holds.readBack
  have hundo : ∀ fs gs, fs ++ gs = es → ∃ b', undos fresh gs.length b₁ = some b' ∧
      Ready b' (plainEdits s fs) (past ++ records s fs) (records (plainEdits s fs) gs) := by
    intro fs gs hsplit
    rw [← hsplit] at htake hready
    exact undos_edits fresh h.small htake hready
  refine ⟨b₁, hedits, ?_, ?_, ?_⟩
  · rw [hread, hread₁]
  · obtain ⟨b₂, heq₂, hready₂⟩ := hundo [] es rfl
    have hback : Ready b₂ s past (records s es ++ []) := by
      change Ready b₂ s (past ++ []) (records s es) at hready₂
      rw [append_nil] at hready₂ ⊢
      exact hready₂
    obtain ⟨b₃, heq₃, hready₃⟩ := redos_ready fresh (leads_records htake h.small) hback
    rw [length_records] at heq₃
    refine ⟨b₂, b₃, heq₂, ?_, heq₃, ?_⟩
    · rw [hread, hback.holds.readBack]
    · rw [hread₁, hready₃.holds.readBack]
  · intro j hpos hj
    have hfs : (es.drop (es.length - j)).length = j := by
      rw [length_drop]
      omega
    have hes : (es.take (es.length - j)).length = es.length - j := by
      rw [length_take]
      omega
    have hsplit := take_append_drop (es.length - j) es
    generalize es.take (es.length - j) = fs at hes hsplit
    generalize es.drop (es.length - j) = gs at hfs hsplit
    obtain ⟨b₄, heq₄, hready₄⟩ := hundo fs gs hsplit
    rw [hfs] at heq₄
    refine ⟨b₄, heq₄, ?_⟩
    intro e htakes
    rw [hready₄.holds.readBack] at htakes ⊢
    have hcap₄ : b₄.undoCap ≤ undoCap := hready₄.recorded.cap_le (by
      rw [length_append, length_records, length_records]
      omega)
    obtain ⟨b₅, hcall, -, hrec⟩ :=
      edit_step fresh hready₄.holds hready₄.quiet hready₄.recorded hcap₄ htakes
    refine ⟨b₅, hcall, ?_, redo_refused fresh hrec ?_⟩
    · have htop : b₁.undoTop - j = (past ++ records s fs).length := by
        rw [hready.recorded.top, length_append, length_append, length_records, length_records]
        omega
      have hkept : (past ++ records s es).take (past ++ records s fs).length =
          past ++ records s fs := by
        rw [← hsplit, records_append, ← append_assoc, take_left]
      rw [hrec.inEffect, hready.recorded.inEffect, htop, ← map_take, hkept, map_append]
      rfl
    · rw [length_append, length_append, length_records, length_singleton]
      omega

end

/-- **Undo works exactly while the records fit the first array.** -/
theorem undo_law_iff (fresh : Fresh) {b : Buffer} {s : List UInt8} {past future : List UndoRecord}
    (h : Ready b s past future) (es : List Edit) (htake : TakePlace s es) :
    UndoLaw fresh b es ↔
      es = [] ∨ (b.undoCap ≤ undoCap ∧ b.undoTop + es.length ≤ undoCap) := by
  rw [h.recorded.top]
  constructor
  · intro hlaw
    by_contra hnot
    obtain ⟨hne, hover⟩ := not_or.mp hnot
    obtain ⟨b₁, hedits, -, -, hlater⟩ := hlaw
    by_cases hfull : b.undoCap ≤ undoCap ∧ past.length + es.length = undoCap + 1
    · -- The last edit has enlarged the array: undo it, and make it again.
      obtain ⟨b₁', hedits', hready⟩ := edits_ready fresh h hfull.1 hne htake (by omega)
      obtain rfl : b₁ = b₁' := some.inj (hedits.symm.trans hedits')
      obtain ⟨fs, e, rfl⟩ : ∃ fs e, es = fs ++ [e] :=
        ⟨es.dropLast, es.getLast hne, (dropLast_append_getLast hne).symm⟩
      rw [length_append, length_singleton] at hfull
      obtain ⟨b₄, hundo, hready₄⟩ := undos_edits fresh h.small htake hready
      obtain ⟨b₄', hundo', hedit⟩ := hlater 1 Nat.one_pos (by simp)
      obtain rfl : b₄ = b₄' := some.inj (hundo.symm.trans hundo')
      have htakes : e.Takes (plainEdits s fs) := (takePlace_append.mp htake).2.1
      obtain ⟨b₅, hcall, -⟩ := hedit e (by rw [hready₄.holds.readBack]; exact htakes)
      have hcap₄ : undoCap < b₄.undoCap := hready₄.recorded.cap_gt (by
        rw [length_append, length_records, length_records, length_singleton]
        omega)
      rw [edit_enlarged fresh hready₄.holds hready₄.quiet hready₄.recorded hcap₄ htakes] at hcall
      cases hcall
    · have hnone := edits_overflow fresh h hne htake (by omega)
      rw [hnone] at hedits
      cases hedits
  · intro hfits
    by_cases hnil : es = []
    · subst hnil
      refine ⟨b, rfl, (plainEdits_nil _).symm, ⟨b, b, rfl, rfl, rfl, rfl⟩, ?_⟩
      intro j hpos hj
      exact absurd hj (Nat.not_le.mpr hpos)
    · obtain ⟨hcap, hcount⟩ := hfits.resolve_left hnil
      exact undoLaw_of_fits fresh h hcap hnil htake hcount

theorem ready_bufferNew (fresh : Fresh) : Ready (bufferNew fresh) [] [] [] := by
  have h := represents_bufferNew fresh
  exact ⟨h.holds, h.small, h.quiet, rfl, rfl, rfl⟩

/-- `ab` typed and its first letter deleted. -/
theorem undo_law_iff_two : UndoLaw zeros (bufferNew zeros) [.insert 0 [97, 98], .delete 0 1] :=
  (undo_law_iff zeros (ready_bufferNew zeros) _ (by decide)).mpr (.inr (by decide))

/-- **The law ends at the size of the array**: it does not hold of 258 edits of an empty
buffer. -/
theorem undo_law_not_258 :
    ¬ UndoLaw zeros (bufferNew zeros) (List.replicate 258 (.insert 0 [97])) := by
  rintro ⟨b₁, hedits, -⟩
  have htake : TakePlace [] (replicate 258 (.insert 0 [97])) := by decide +kernel
  have hlen : (replicate 258 (Edit.insert 0 [97])).length = 258 := length_replicate
  have hne : replicate 258 (Edit.insert 0 [97]) ≠ [] := by
    intro hnil
    rw [hnil] at hlen
    cases hlen
  have hnone := edits_overflow zeros (ready_bufferNew zeros) hne htake (.inr (by
    rw [hlen]
    decide))
  rw [hnone] at hedits
  cases hedits

end Nv0ken.TextEditor
