/-
Edits of a text area as edits of its text.

The text is the lines joined by newlines.  An insertion puts its text in at the offset of a
position, a deletion takes out what stands between two offsets, and one takes back the other:
wherever the code is defined.  It is not where a line would need more than `lineMax` bytes,
whose capacity is doubled in an `int`, nor where the scroll bar cannot be set to the new
number of lines; an area of height 0 divides by zero with its first character
(`flat_area_traps`).
-/
import Nv0ken.Proofs.Widgets.EditSteps

namespace Nv0ken.Widgets

open Nv0ken.Lines List Option

variable {ta ta' : Textarea} {lines : Lines} {p q : Lines × List UInt8} {y z t : List UInt8}
  {ys zs : Lines} {pos start finish : TAPos} {row : Nat}

/-! ### The text -/

/-- How many characters of the text come before a position. -/
def offset (lines : Lines) (pos : TAPos) : Nat :=
  ((lines.take pos.row).flatMap (· ++ [newline])).length + pos.col

/-- The text with the part between two offsets replaced. -/
def spliced (text : List UInt8) (start finish : Nat) (t : List UInt8) : List UInt8 :=
  text.take start ++ t ++ text.drop finish

theorem offset_place : offset (place p y ys) (posOf p) = (before newline p).length := by
  simp [offset, posOf, before]

/-- What comes of the text when the part between two places is replaced. -/
theorem spliced_place (h : place p y ys = place q z zs) (t : List UInt8) :
    spliced (intercalate [newline] (place p y ys)) (offset (place p y ys) (posOf p))
      (offset (place p y ys) (posOf q)) t =
        before newline p ++ t ++ intercalate [newline] (z :: zs) := by
  have hdrop : (intercalate [newline] (place p y ys)).drop (offset (place p y ys) (posOf q)) =
      intercalate [newline] (z :: zs) := by
    rw [h, offset_place, intercalate_place, drop_left]
  rw [spliced, hdrop, offset_place, intercalate_place, take_left]

/-! ### Lengths of lines -/

/-- The bytes of a line with the 0 behind it. -/
def lineMax : Nat := 2 ^ 30

/-- From every capacity a line can have, the doubling reaches the same lengths. -/
theorem lineEnsure_isSome_iff {need fuel k : Nat} (hk : k ≤ 30) (hfuel : 30 < fuel + k) :
    (lineEnsure need fuel (2 ^ k)).isSome ↔ need ≤ lineMax := by
  have hle : 2 ^ k ≤ lineMax := Nat.pow_le_pow_right (by decide) hk
  induction fuel generalizing k with
  | zero => omega
  | succ fuel ih =>
    rw [lineEnsure]
    split_ifs with hneed hdouble
    · exact iff_of_true rfl (Nat.le_trans hneed hle)
    · rw [← Nat.pow_succ] at hdouble ⊢
      have hlt : k + 1 < 31 := (Nat.pow_lt_pow_iff_right (by decide)).mp hdouble
      exact ih (by omega) (by omega) (Nat.pow_le_pow_right (by decide) (by omega))
    · obtain rfl : k = 30 := by
        by_contra hne
        exact hdouble (by
          rw [← Nat.pow_succ]
          exact Nat.pow_lt_pow_right (by decide) (by omega))
      exact iff_of_false (by simp) hneed

theorem lineFits_iff {length : Nat} : lineFits length = true ↔ length < lineMax :=
  lineEnsure_isSome_iff (k := 6) (by decide) (by decide)

/-- The column behind a text that was begun at another. -/
def columnAfter (col : Nat) (text : List UInt8) : Nat :=
  text.foldl (fun col c => if c = newline then 0 else col + 1) col

/-- The position behind a text that was put in at another. -/
def posAfter (start : TAPos) (text : List UInt8) : TAPos :=
  ⟨start.row + text.count newline, columnAfter start.col text⟩

theorem posOf_extend (text : List UInt8) :
    posOf (extend newline p text) = posAfter (posOf p) text := by
  induction text generalizing p with
  | nil => rfl
  | cons c text ih =>
    rw [extend_cons, ih]
    unfold posAfter columnAfter posOf step
    by_cases hc : c = newline
    · subst hc
      simp
      omega
    · simp [hc]

/-- Every line that stands at the position while the text is put in there has its room. -/
def TypedFits (lines : Lines) (start : TAPos) (text : List UInt8) : Prop :=
  ∀ a b, text = a ++ b →
    columnAfter start.col a + (lineLen lines start.row - start.col) < lineMax

theorem columnAfter_le (col : Nat) (text : List UInt8) :
    columnAfter col text ≤ col + text.length := by
  induction text generalizing col with
  | nil => exact Nat.le_refl _
  | cons c text ih =>
    have hstep : columnAfter col (c :: text) =
        columnAfter (if c = newline then 0 else col + 1) text :=
      rfl
    rw [hstep, length_cons]
    refine Nat.le_trans (ih _) ?_
    split_ifs <;> omega

/-- It does if the whole text has room in the line. -/
theorem typedFits_of_length {text : List UInt8} (hcol : start.col ≤ lineLen lines start.row)
    (hlength : lineLen lines start.row + text.length < lineMax) : TypedFits lines start text := by
  intro a b heq
  have hle := columnAfter_le start.col a
  rw [heq, length_append] at hlength
  omega

theorem forall_beginning_cons {P : List UInt8 → Prop} {c : UInt8} {text : List UInt8} :
    (∀ a b, c :: text = a ++ b → P a) ↔ P [] ∧ ∀ a b, text = a ++ b → P (c :: a) := by
  constructor
  · intro h
    exact ⟨h [] _ rfl, fun a b heq => h (c :: a) b (congrArg (c :: ·) heq)⟩
  · rintro ⟨hnil, hcons⟩ a b heq
    rcases a with - | ⟨d, a⟩
    · exact hnil
    · obtain ⟨rfl, hrest⟩ := cons.inj heq
      exact hcons a b hrest

theorem insertFits_iff {text : List UInt8}
    (hroom : (place p y ys).length + text.count newline ≤ textareaMaxLines)
    (hshort : p.2.length + y.length < lineMax) :
    insertFits text (place p y ys) p.1.length p.2.length = true ↔
      ∀ a b, text = a ++ b → columnAfter p.2.length a + y.length < lineMax := by
  induction text generalizing p with
  | nil =>
    refine iff_of_true rfl fun a b heq => ?_
    obtain ⟨rfl, -⟩ := append_eq_nil_iff.mp heq.symm
    exact hshort
  | cons c text ih =>
    have hlen : lineLen (place p y ys) p.1.length = p.2.length + y.length := by
      rw [lineLen, getD_place, length_append]
    rw [insertFits, forall_beginning_cons, hlen]
    by_cases hc : c = newline
    · rw [count_cons, if_pos (by simp [hc])] at hroom
      have hplace : (place (p.1 ++ [p.2], []) y ys).length = (place p y ys).length + 1 := by
        simp
        omega
      have hrow : p.1.length < (place p y ys).length := by
        rw [length_place]
        omega
      have hnext := @ih (p.1 ++ [p.2], []) (by omega) (by simp; omega)
      rw [length_append, length_singleton, length_nil] at hnext
      rw [if_pos hc, if_neg (by omega), splitLine_place, Bool.and_eq_true, lineFits_iff, hnext]
      simp only [columnAfter, foldl_cons, foldl_nil, hc, if_true]
      exact and_congr_left fun _ => iff_of_true (by omega) hshort
    · rw [count_cons, if_neg (by simp [hc])] at hroom
      have hplace : (place (p.1, p.2 ++ [c]) y ys).length = (place p y ys).length := by simp
      rw [if_neg hc, lineInsert_place, Bool.and_eq_true, lineFits_iff]
      simp only [columnAfter, foldl_cons, foldl_nil, hc, if_false, and_iff_right hshort]
      by_cases hone : p.2.length + y.length + 1 < lineMax
      · have hnext := @ih (p.1, p.2 ++ [c]) (by omega) (by simp; omega)
        rw [length_append, length_singleton] at hnext
        rw [and_iff_right hone, hnext]
        rfl
      · refine iff_of_false (fun h => hone h.1) fun h => hone ?_
        have := h [] text rfl
        rw [foldl_nil] at this
        omega

/-! ### Where the edits are defined -/

/-- The insertion is defined: its lines fit, and so does their number. -/
def InsertDefined (ta : Textarea) (start : TAPos) (text : List UInt8) : Prop :=
  text = [] ∨
    TypedFits ta.lines start text ∧ RangeDefined ta (ta.lines.length + text.count newline)

/-- The deletion is defined: it stays in a line, or the line it leaves fits, and so does the
number of lines. -/
def DeleteDefined (ta : Textarea) (start finish : TAPos) : Prop :=
  posLt start finish = true → start.row = finish.row ∨
    start.col + (lineLen ta.lines finish.row - finish.col) < lineMax ∧
      RangeDefined ta (ta.lines.length - (finish.row - start.row))

theorem length_extend (text : List UInt8) :
    (place (extend newline p text) y ys).length =
      (place p y ys).length + text.count newline := by
  have hrow : (extend newline p text).1.length = p.1.length + text.count newline :=
    congrArg TAPos.row (posOf_extend text)
  rw [length_place, length_place, hrow]
  omega

theorem syncRangeChecked_eq_some (ta' : Textarea) :
    syncRangeChecked { ta with lines := lines } = some ta' ↔
      RangeDefined ta lines.length ∧ syncRange { ta with lines := lines } = ta' := by
  have heq : syncRangeChecked { ta with lines := lines } =
      if RangeDefined ta lines.length then some (syncRange { ta with lines := lines }) else none :=
    rfl
  rw [heq, Option.ite_none_right_eq_some, Option.some.injEq]

section

variable {row col : Int} {text : List UInt8} (hplace : ta.lines = place p y ys)
  (hstart : clampPos ta.lines row col = posOf p)
  (hroom : ta.lines.length + text.count newline ≤ textareaMaxLines)
include hplace hroom

theorem insertLoop_at : insertLoop text ta.lines (posOf p).row (posOf p).col =
    some (place (extend newline p text) y ys) := by
  rw [hplace]
  exact insertLoop_place text (hplace ▸ hroom)

include hstart

theorem insertAt_place (htext : text ≠ []) :
    textareaInsertAt ta row col text =
      some (syncRange { ta with lines := place (extend newline p text) y ys }) := by
  rw [textareaInsertAt, if_neg htext, hstart]
  dsimp only
  rw [insertLoop_at hplace hroom, map_some]

theorem insertAtChecked_eq_some (hline : p.2.length + y.length < lineMax) (ta' : Textarea) :
    textareaInsertAtChecked ta row col text = some ta' ↔
      InsertDefined ta (posOf p) text ∧ textareaInsertAt ta row col text = some ta' := by
  by_cases htext : text = []
  · simp [textareaInsertAtChecked, textareaInsertAt, InsertDefined, htext]
  have hfits : insertFits text ta.lines (posOf p).row (posOf p).col = true ↔
      TypedFits ta.lines (posOf p) text := by
    unfold TypedFits
    rw [hplace, posOf, lineLen, getD_place, length_append, Nat.add_sub_cancel_left]
    exact insertFits_iff (hplace ▸ hroom) hline
  have hlength : (place (extend newline p text) y ys).length =
      ta.lines.length + text.count newline := hplace ▸ length_extend text
  rw [insertAt_place hplace hstart hroom htext, textareaInsertAtChecked, if_neg htext, hstart]
  dsimp only
  rw [InsertDefined, or_iff_right htext, ← hfits, insertLoop_at hplace hroom, ← hlength,
    Option.ite_none_right_eq_some, bind_some, syncRangeChecked_eq_some, Option.some.injEq,
    and_assoc]

end

theorem deleteRangeChecked_eq_some {a b c d : Int} (hstart : clampPos ta.lines a b = start)
    (hfinish : clampPos ta.lines c d = finish) (hvalid : ValidPos ta.lines finish)
    (ta' : Textarea) :
    textareaDeleteRangeChecked ta a b c d = some ta' ↔
      DeleteDefined ta start finish ∧ textareaDeleteRange ta a b c d = ta' := by
  unfold textareaDeleteRangeChecked
  rw [hstart, hfinish]
  dsimp only
  by_cases hin : (!posLt start finish) = true ∨ start.row = finish.row
  · have hdefined : DeleteDefined ta start finish := by
      intro hlt
      exact Or.inl (hin.resolve_left (by simp [hlt]))
    rw [if_pos hin, Option.some.injEq, and_iff_right hdefined]
  · obtain ⟨hlt, hne⟩ := not_or.mp hin
    rw [Bool.not_eq_true, Bool.not_eq_false'] at hlt
    have hback : posLt finish start = false := by grind
    have hdelete : textareaDeleteRange ta a b c d =
        syncRange { ta with lines := joinLines ta.lines start finish } := by
      unfold textareaDeleteRange
      rw [hstart, hfinish]
      dsimp only
      rw [if_neg (by simp [hlt]), if_neg hne]
    have hdefined : DeleteDefined ta start finish ↔
        start.col + (lineLen ta.lines finish.row - finish.col) < lineMax ∧
          RangeDefined ta (joinLines ta.lines start finish).length := by
      rw [length_joinLines hvalid hback]
      exact ⟨fun h => (h hlt).resolve_left hne, fun h _ => Or.inr h⟩
    rw [if_neg hin, Option.ite_none_right_eq_some, lineFits_iff, syncRangeChecked_eq_some, hdelete,
      hdefined, and_assoc]

/-! ### Edits of the text -/

/-- What an insertion, the deletion that takes it back and a deletion do to the text. -/
structure EditsText (ta : Textarea) (row col endRow endCol : Int) (text : List UInt8) : Prop where
  inserts : ∃ ta', textareaInsertAtChecked ta row col text = some ta' ∧
    textareaGetText ta' = spliced (textareaGetText ta) (offset ta.lines (clampPos ta.lines row col))
      (offset ta.lines (clampPos ta.lines row col)) text
  restores : ∃ ta' ta'', textareaInsertAtChecked ta row col text = some ta' ∧
    ValidPos ta'.lines (posAfter (clampPos ta.lines row col) text) ∧
    offset ta'.lines (posAfter (clampPos ta.lines row col) text) =
      offset ta.lines (clampPos ta.lines row col) + text.length ∧
    textareaDeleteRangeChecked ta' (clampPos ta.lines row col).row (clampPos ta.lines row col).col
      (posAfter (clampPos ta.lines row col) text).row
      (posAfter (clampPos ta.lines row col) text).col = some ta'' ∧
    textareaGetText ta'' = textareaGetText ta
  deletes : ∃ ta', textareaDeleteRangeChecked ta row col endRow endCol = some ta' ∧
    textareaGetText ta' =
      if posLt (clampPos ta.lines row col) (clampPos ta.lines endRow endCol) then
        spliced (textareaGetText ta) (offset ta.lines (clampPos ta.lines row col))
          (offset ta.lines (clampPos ta.lines endRow endCol)) []
      else textareaGetText ta

theorem computeThumb_shape (sb : Scrollbar) : ∃ pos size,
    computeThumb sb = { sb with thumbPos := pos, thumbSize := size } := by
  unfold computeThumb
  dsimp only
  split_ifs <;> exact ⟨_, _, rfl⟩

theorem scrollbarSetRange_twice (sb : Scrollbar) (page : Int) {m n : Nat} (hle : n ≤ m) :
    scrollbarSetRange (scrollbarSetRange sb 0 m page) 0 n page = scrollbarSetRange sb 0 n page := by
  unfold scrollbarSetRange
  dsimp only
  obtain ⟨pos, size, hshape⟩ := computeThumb_shape { sb with
    minVal := 0
    maxVal := m
    pageSize := page
    value := if (if sb.value < 0 then 0 else sb.value) > (m : Int) then (m : Int)
      else if sb.value < 0 then 0 else sb.value }
  rw [hshape]
  dsimp only
  have hclamp : ∀ (k : Nat) (v : Int),
      (if (if v < 0 then 0 else v) > (k : Int) then (k : Int) else if v < 0 then 0 else v) =
        min (k : Int) (max 0 v) := by
    intro k v
    split_ifs <;> omega
  have htwice : min (n : Int) (max 0 (min (m : Int) (max 0 sb.value))) =
      min (n : Int) (max 0 sb.value) := by omega
  rw [hclamp, hclamp, hclamp, htwice]
  rfl

/-- Setting the bar to more lines first makes no difference. -/
theorem rangeDefined_syncRange {count : Nat} (hle : count ≤ lines.length) :
    RangeDefined (syncRange { ta with lines := lines }) count ↔ RangeDefined ta count := by
  unfold RangeDefined
  rw [← scrollbarSetRange_twice ta.vscroll (visibleRows ta) hle]
  rfl

theorem deleteDefined_inserted {text : List UInt8} (hshort : p.2.length + y.length < lineMax)
    (hplace : ta.lines = place p y ys) :
    DeleteDefined (syncRange { ta with lines := place (extend newline p text) y ys }) (posOf p)
        (posOf (extend newline p text)) ↔
      (newline ∈ text → RangeDefined ta ta.lines.length) := by
  have hrow : (posOf (extend newline p text)).row = (posOf p).row + text.count newline :=
    congrArg TAPos.row (posOf_extend text)
  have htail : lineLen (place (extend newline p text) y ys) (extend newline p text).1.length =
      (extend newline p text).2.length + y.length := by
    rw [lineLen, getD_place, length_append]
  have hcount : (place (extend newline p text) y ys).length - text.count newline =
      ta.lines.length := by
    rw [length_extend, hplace, Nat.add_sub_cancel]
  unfold DeleteDefined
  rw [hrow]
  by_cases hnl : newline ∈ text
  · have hpos : 0 < text.count newline := count_pos_iff.mpr hnl
    have hlt : posLt (posOf p) (posOf (extend newline p text)) = true := by
      rw [posLt_iff]
      omega
    have hjoined : (posOf p).col + (lineLen (place (extend newline p text) y ys)
        (extend newline p text).1.length - (extend newline p text).2.length) < lineMax := by
      rw [htail, Nat.add_sub_cancel_left]
      exact hshort
    rw [Nat.add_sub_cancel_left]
    have hrange := @rangeDefined_syncRange ta (place (extend newline p text) y ys) ta.lines.length
      (by rw [length_extend, hplace]; omega)
    constructor
    · intro h _
      rcases h hlt with hsame | ⟨-, hdefined⟩
      · omega
      · refine hrange.mp ?_
        rw [← hcount]
        exact hdefined
    · intro h _
      refine Or.inr ⟨?_, ?_⟩
      · rw [← hrow]
        exact hjoined
      · rw [← hrange, ← hcount] at h
        exact h hnl
  · refine iff_of_true (fun _ => Or.inl ?_) fun h => absurd h hnl
    rw [count_eq_zero.mpr hnl, Nat.add_zero]

theorem deletes_text (hlines : 0 < ta.lines.length) (row col endRow endCol : Int) :
    textareaGetText (textareaDeleteRange ta row col endRow endCol) =
      if posLt (clampPos ta.lines row col) (clampPos ta.lines endRow endCol) then
        spliced (textareaGetText ta) (offset ta.lines (clampPos ta.lines row col))
          (offset ta.lines (clampPos ta.lines endRow endCol)) []
      else textareaGetText ta := by
  have hvalid := validPos_clampPos hlines row col
  obtain ⟨p, y, ys, hplace, hstart⟩ := exists_posOf hvalid
  obtain ⟨q, z, zs, hplace', hfinish⟩ := exists_posOf (validPos_clampPos hlines endRow endCol)
  obtain ⟨vscroll, hdelete⟩ := deleteRange_eq ta row col endRow endCol
  unfold textareaGetText
  rw [hdelete]
  rw [← hstart] at hvalid ⊢
  rw [← hfinish]
  split_ifs with hlt
  · have hback : posLt (posOf q) (posOf p) = false := by grind
    rw [removed_eq_join hvalid hback, hplace, spliced_place (hplace.symm.trans hplace'),
      joinLines_places (hplace.symm.trans hplace'), intercalate_place, append_nil]
  · unfold removed
    simp [hlt]

section

variable {row col : Int} {text : List UInt8} (hplace : ta.lines = place p y ys)
  (hstart : clampPos ta.lines row col = posOf p)
  (hroom : ta.lines.length + text.count newline ≤ textareaMaxLines)
  (h : textareaInsertAt ta row col text = some ta')
include hplace hstart hroom h

/-- The insertion and the deletion of what was inserted. -/
theorem inserts_text :
    textareaGetText ta' =
        spliced (textareaGetText ta) (offset ta.lines (posOf p)) (offset ta.lines (posOf p)) text ∧
      ValidPos ta'.lines (posOf p) ∧ ValidPos ta'.lines (posAfter (posOf p) text) ∧
      offset ta'.lines (posAfter (posOf p) text) = offset ta.lines (posOf p) + text.length ∧
      textareaGetText (deleteBetween ta' (posOf p) (posAfter (posOf p) text)) =
        textareaGetText ta := by
  have hlines : ta'.lines = place (extend newline p text) y ys := by
    obtain ⟨vscroll, hinsert⟩ := insertAt_eq ta row col text
    rw [hinsert, hstart, posOf, hplace, insertLoop_place text (hplace ▸ hroom), map_some] at h
    exact congrArg Textarea.lines (Option.some.inj h).symm
  obtain ⟨y', ys', hsame⟩ := place_extend newline p text y ys
  have hthere : ValidPos ta'.lines (posOf p) := by
    rw [hlines, hsame]
    exact validPos_place
  have hend : ValidPos ta'.lines (posOf (extend newline p text)) := hlines ▸ validPos_place
  obtain ⟨vscroll, hdelete⟩ := deleteBetween_eq hthere hend
  rw [← posOf_extend]
  refine ⟨?_, hthere, hend, ?_, ?_⟩
  · unfold textareaGetText
    rw [hlines, hplace, spliced_place rfl, intercalate_place, before_extend]
  · rw [hlines, offset_place, hplace, offset_place, before_extend, length_append]
  · unfold textareaGetText
    rw [hdelete, hlines, removed_extend, hplace]

/-- Where the deletion of what was inserted is defined. -/
theorem takenBack_iff (hline : p.2.length + y.length < lineMax) :
    DeleteDefined ta' (posOf p) (posAfter (posOf p) text) ↔
      (newline ∈ text → RangeDefined ta ta.lines.length) := by
  by_cases htext : text = []
  · have hsame : posAfter (posOf p) [] = posOf p := rfl
    refine iff_of_true (fun hlt => ?_) fun hmem => ?_
    · rw [htext, hsame] at hlt
      grind
    · rw [htext] at hmem
      exact absurd hmem not_mem_nil
  · rw [insertAt_place hplace hstart hroom htext] at h
    obtain rfl := Option.some.inj h
    rw [← posOf_extend]
    exact deleteDefined_inserted hline hplace

end

/-- **Insertions and deletions are those of the text**, and a deletion takes back an insertion,
exactly where the edits are defined. -/
theorem edits_text_iff (ta : Textarea) (row col endRow endCol : Int) (text : List UInt8)
    (hlines : 0 < ta.lines.length) (hshort : ∀ line ∈ ta.lines, line.length < lineMax)
    (hroom : ta.lines.length + text.count newline ≤ textareaMaxLines) :
    EditsText ta row col endRow endCol text ↔
      InsertDefined ta (clampPos ta.lines row col) text ∧
        (newline ∈ text → RangeDefined ta ta.lines.length) ∧
        DeleteDefined ta (clampPos ta.lines row col) (clampPos ta.lines endRow endCol) := by
  have hvalid := validPos_clampPos hlines row col
  have hvalid' := validPos_clampPos hlines endRow endCol
  obtain ⟨p, y, ys, hplace, hstart⟩ := exists_posOf hvalid
  have hline : p.2.length + y.length < lineMax := by
    rw [← length_append]
    exact hshort _ (hplace ▸ by simp [place])
  have hinsert := insertAtChecked_eq_some hplace hstart.symm hroom hline
  have hdelete := deleteRangeChecked_eq_some (a := row) (b := col)
    (Eq.refl (clampPos ta.lines row col)) rfl hvalid'
  rw [← hstart]
  constructor
  · rintro ⟨⟨ta₁, hins, -⟩, ⟨ta₂, ta₃, hins', -, -, hback, -⟩, ta₄, hdel, -⟩
    obtain ⟨-, hins'⟩ := (hinsert ta₂).mp hins'
    obtain ⟨-, hthere, hend, -, -⟩ := inserts_text hplace hstart.symm hroom hins'
    rw [← hstart] at hback
    have hdefined := (deleteRangeChecked_eq_some (clampPos_of_valid hthere)
      (clampPos_of_valid hend) hend ta₃).mp hback
    refine ⟨((hinsert ta₁).mp hins).1, ?_, hstart ▸ ((hdelete ta₄).mp hdel).1⟩
    exact (takenBack_iff hplace hstart.symm hroom hins' hline).mp hdefined.1
  · rintro ⟨hinserts, hrange, hdeletes⟩
    obtain ⟨ta', hins⟩ : ∃ ta', textareaInsertAt ta row col text = some ta' := by
      by_cases htext : text = []
      · exact ⟨ta, by rw [textareaInsertAt, if_pos htext]⟩
      · exact ⟨_, insertAt_place hplace hstart.symm hroom htext⟩
    obtain ⟨htext, hthere, hend, hoffset, hrestored⟩ := inserts_text hplace hstart.symm hroom hins
    have hchecked := (hinsert ta').mpr ⟨hinserts, hins⟩
    have hback := (takenBack_iff hplace hstart.symm hroom hins hline).mpr hrange
    refine ⟨⟨ta', hchecked, ?_⟩, ⟨ta', deleteBetween ta' (posOf p) (posAfter (posOf p) text),
      hchecked, ?_, ?_, ?_, hrestored⟩, _,
      (hdelete _).mpr ⟨hstart ▸ hdeletes, rfl⟩, deletes_text hlines row col endRow endCol⟩
    · rw [← hstart]
      exact htext
    · rw [← hstart]
      exact hend
    · rw [← hstart]
      exact hoffset
    · rw [← hstart]
      exact (deleteRangeChecked_eq_some (clampPos_of_valid hthere) (clampPos_of_valid hend) hend
        _).mpr ⟨hback, rfl⟩

/-- `b`, a newline and `c` are put into the line `ad`. -/
theorem edits_text_iff_split :
    EditsText { textareaNew 0 0 400 300 with lines := [[97, 100]] } 0 1 0 2 [98, newline, 99] :=
  (edits_text_iff _ 0 1 0 2 [98, newline, 99] (by decide) (by decide) (by decide)).mpr
    ⟨Or.inr ⟨typedFits_of_length (by decide) (by decide), by decide⟩, by decide,
      fun _ => Or.inl rfl⟩

/-- An area of height 0 has -1 visible rows, and one line makes a divisor of 0. -/
theorem flat_area_traps : ¬ EditsText (textareaNew 0 0 100 0) 0 0 0 0 [97] := by
  rintro ⟨⟨ta', h, -⟩, -, -⟩
  cases h

end Nv0ken.Widgets
