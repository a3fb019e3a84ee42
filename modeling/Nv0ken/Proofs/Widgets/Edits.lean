/-
What insertions and deletions do to the lines of a text area.

Positions are looked at once, here: a valid position is a place in the lines, an insertion
extends what stands before it, and a deletion between two positions takes back the text that
leads from one to the other.  So the insertion of a text and the deletion of the range it
fills undo each other (`insertLoop_place`, `removed_extend`), whichever comes first.
-/
import Nv0ken.Graphics.Widgets.Textarea
import Nv0ken.Lib.Lines

namespace Nv0ken.Widgets

open Nv0ken.Lines List

variable {lines : Lines} {p q : Lines × List UInt8} {y z t : List UInt8} {ys zs : Lines}
  {pos start finish : TAPos} {row col : Nat}

/-- A position that is there. -/
structure ValidPos (lines : Lines) (pos : TAPos) : Prop where
  row : pos.row < lines.length
  col : pos.col ≤ lineLen lines pos.row

instance (lines : Lines) (pos : TAPos) : Decidable (ValidPos lines pos) :=
  decidable_of_iff (pos.row < lines.length ∧ pos.col ≤ lineLen lines pos.row)
    ⟨fun h => ⟨h.1, h.2⟩, fun h => ⟨h.row, h.col⟩⟩

@[grind =] theorem validPos_iff :
    ValidPos lines pos ↔ pos.row < lines.length ∧ pos.col ≤ lineLen lines pos.row :=
  ⟨fun h => ⟨h.row, h.col⟩, fun h => ⟨h.1, h.2⟩⟩

@[grind =] theorem posLt_iff {a b : TAPos} :
    posLt a b = true ↔ a.row < b.row ∨ a.row = b.row ∧ a.col < b.col := by
  unfold posLt
  simp

/-- The position of a place. -/
@[grind =] def posOf (p : Lines × List UInt8) : TAPos := ⟨p.1.length, p.2.length⟩

attribute [grind =] length_place getD_place take_place drop_place

@[grind =] theorem lineLen_place (row : Nat) :
    lineLen (place p y ys) row =
      if row < p.1.length then (p.1.getD row []).length
      else if row = p.1.length then p.2.length + y.length
      else (ys.getD (row - p.1.length - 1) []).length := by
  unfold lineLen place
  grind

theorem validPos_place : ValidPos (place p y ys) (posOf p) := by
  grind

theorem exists_posOf (h : ValidPos lines pos) : ∃ p y ys, lines = place p y ys ∧ posOf p = pos := by
  obtain ⟨p, y, ys, hlines, hrow, hcol⟩ := exists_place h.row h.col
  exact ⟨p, y, ys, hlines, by rw [posOf, hrow, hcol]⟩

theorem clampPos_of_valid (h : ValidPos lines pos) : clampPos lines pos.row pos.col = pos := by
  have hrow := h.row
  have hmin : min pos.row (lines.length - 1) = pos.row := by omega
  unfold clampPos
  simp only [Int.toNat_natCast, hmin, Nat.min_eq_left h.col]

@[grind .] theorem validPos_clampPos (h : 0 < lines.length) (row col : Int) :
    ValidPos lines (clampPos lines row col) := by
  unfold clampPos
  grind

/-! ### Insertion -/

theorem splitLine_place :
    splitLine (place p y ys) p.1.length p.2.length = place (p.1 ++ [p.2], []) y ys := by
  unfold splitLine
  simp [place]

theorem modify_place (f : List UInt8 → List UInt8) :
    (place p y ys).modify p.1.length f = p.1 ++ f (p.2 ++ y) :: ys := by
  unfold place
  rw [modify_eq_take_drop]
  simp

theorem lineInsert_place (c : UInt8) :
    (place p y ys).modify p.1.length (fun line => lineInsert line p.2.length [c]) =
      place (p.1, p.2 ++ [c]) y ys := by
  rw [modify_place]
  unfold lineInsert place
  rw [take_left, drop_left]

/-- **What an insertion does** while there is room for its lines. -/
theorem insertLoop_place (text : List UInt8)
    (hroom : (place p y ys).length + text.count newline ≤ textareaMaxLines) :
    insertLoop text (place p y ys) p.1.length p.2.length =
      some (place (extend newline p text) y ys) := by
  induction text generalizing p with
  | nil => rfl
  | cons c text ih =>
    rw [insertLoop, extend_cons]
    unfold Nv0ken.Lines.step
    by_cases hc : c = newline
    · rw [count_cons, if_pos (by simp [hc])] at hroom
      have hlen : (place (p.1 ++ [p.2], []) y ys).length = (place p y ys).length + 1 := by
        simp
        omega
      have hrow : p.1.length < (place p y ys).length := by
        rw [length_place]
        omega
      rw [if_pos hc, if_pos hc, if_neg (by omega), if_neg (by omega), splitLine_place]
      have hnext := @ih (p.1 ++ [p.2], []) (by omega)
      rw [length_append] at hnext
      exact hnext
    · rw [count_cons, if_neg (by simp [hc])] at hroom
      have hlen : (place (p.1, p.2 ++ [c]) y ys).length = (place p y ys).length := by simp
      rw [if_neg hc, if_neg hc, lineInsert_place]
      have hnext := @ih (p.1, p.2 ++ [c]) (by omega)
      rw [length_append] at hnext
      exact hnext

/-! ### Deletion -/

/-- What is left of the lines when the range between two positions is deleted. -/
def removed (lines : Lines) (start finish : TAPos) : Lines :=
  if !posLt start finish then lines
  else if start.row = finish.row then
    lines.modify start.row fun line => lineDelete line start.col (finish.col - start.col)
  else joinLines lines start finish

theorem joinLines_places (h : place p y ys = place q z zs) :
    joinLines (place p y ys) (posOf p) (posOf q) = place p z zs := by
  unfold joinLines posOf
  rw [take_place, getD_place, take_left, h, getD_place, drop_left, drop_place]
  simp [place]

theorem joinLines_self (h : ValidPos lines pos) : joinLines lines pos pos = lines := by
  obtain ⟨p, y, ys, rfl, rfl⟩ := exists_posOf h
  exact joinLines_places rfl

/-- Every deletion of a range in order joins the two ends. -/
theorem removed_eq_join (hstart : ValidPos lines start) (hle : posLt finish start = false) :
    removed lines start finish = joinLines lines start finish := by
  by_cases hlt : posLt start finish = true
  · obtain ⟨p, y, ys, rfl, rfl⟩ := exists_posOf hstart
    unfold removed joinLines
    grind [modify_place, lineDelete]
  · have hsame : finish = start := by
      cases start
      cases finish
      grind
    rw [hsame, joinLines_self hstart]
    unfold removed
    grind

theorem not_posLt_extend (t : List UInt8) :
    posLt (posOf (extend newline p t)) (posOf p) = false := by
  rcases extend_shape t with ⟨w, hw⟩ | ⟨w, zs, v, hw⟩
  all_goals
    rw [hw]
    simp [posLt, posOf]

/-- **A deletion takes back the text that leads from its beginning to its end.** -/
theorem removed_extend (t : List UInt8) :
    removed (place (extend newline p t) y ys) (posOf p) (posOf (extend newline p t)) =
      place p y ys := by
  obtain ⟨y', ys', hplace⟩ := place_extend newline p t y ys
  have hstart : ValidPos (place (extend newline p t) y ys) (posOf p) := by
    rw [hplace]
    exact validPos_place
  rw [removed_eq_join hstart (not_posLt_extend t), hplace]
  exact joinLines_places hplace.symm

/-! ### The text of a range -/

/-- No line holds a newline. -/
def Unbroken (lines : Lines) : Prop := ∀ line ∈ lines, newline ∉ line

end Nv0ken.Widgets
