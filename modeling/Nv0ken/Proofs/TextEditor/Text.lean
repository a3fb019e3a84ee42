/-
The text the editor's buffer holds.

A buffer stands for a plain text: the bytes around its gap.  `Holds` says that, and that
gap and block are in order.  Every internal function of the buffer is shown to keep the
text, and the two edits to change it the way the plain operation does; what a function
does to the rest of the record is said by naming the fields it writes, so that everything
else is unchanged by the form of the statement.  What an edit does to the undo records is
left to `undo_push`, which reads and writes nothing else.
-/
import Mathlib.Data.List.Range
import Nv0ken.Apps.TextEditor.Buffer

namespace Nv0ken.TextEditor

open Nv0ken.Buffer List Option
open Nv0ken.Word (u64 u64Sub u64_of_lt u64Sub_of_le)

/-! ### Plain text -/

/-- `text` inserted at a position, at the end if there is no such position. -/
def insertAt (s : List UInt8) (pos : Nat) (text : List UInt8) : List UInt8 :=
  s.take pos ++ text ++ s.drop pos

/-- `len` characters deleted from a position on, or as many as there are. -/
def removeAt (s : List UInt8) (pos len : Nat) : List UInt8 := s.take pos ++ s.drop (pos + len)

/-- The places where lines start: the beginning, and behind every newline. -/
def lineStarts (s : List UInt8) : List Nat :=
  0 :: ((List.range s.length).filter fun i => byteAt s i = newline).map (· + 1)

section

variable (s : List UInt8) (pos : Nat)
include s pos

theorem insertAt_nil : insertAt s pos [] = s := by
  simp [insertAt]

theorem insertAt_clamp (text : List UInt8) :
    insertAt s (min pos s.length) text = insertAt s pos text := by
  by_cases hpos : pos ≤ s.length
  · rw [Nat.min_eq_left hpos]
  · have hlen : s.length ≤ pos := by omega
    unfold insertAt
    rw [Nat.min_eq_right hlen, take_of_length_le hlen, drop_of_length_le hlen]
    simp

theorem removeAt_zero : removeAt s pos 0 = s := by
  simp [removeAt]

end

theorem removeAt_of_le {s : List UInt8} {pos : Nat} (h : s.length ≤ pos) (len : Nat) :
    removeAt s pos len = s := by
  unfold removeAt
  rw [take_of_length_le h, drop_of_length_le (by omega), append_nil]

theorem removeAt_clamp {s : List UInt8} {pos : Nat} (hpos : pos ≤ s.length) (len : Nat) :
    removeAt s pos (min len (s.length - pos)) = removeAt s pos len := by
  by_cases h : s.length ≤ pos + len
  · unfold removeAt
    rw [drop_of_length_le h, drop_of_length_le (by omega)]
  · rw [Nat.min_eq_left (by omega)]

theorem lineStarts_pairwise (s : List UInt8) : (lineStarts s).Pairwise (· < ·) := by
  refine Pairwise.cons ?_ ?_
  · intro a ha
    obtain ⟨i, -, rfl⟩ := mem_map.mp ha
    exact Nat.succ_pos i
  · rw [pairwise_map]
    refine (pairwise_lt_range.filter _).imp ?_
    omega

theorem le_of_mem_lineStarts {s : List UInt8} {n : Nat} (h : n ∈ lineStarts s) : n ≤ s.length := by
  rcases mem_cons.mp h with rfl | hmem
  · exact Nat.zero_le _
  · obtain ⟨i, hi, rfl⟩ := mem_map.mp hmem
    have := mem_range.mp (mem_filter.mp hi).1
    omega

/-- Memory that comes as zeros. -/
def zeros : Fresh := fun _ _ => 0

/-! ### The text a buffer holds -/

/-- The bytes around the gap are `s`. -/
structure Holds (b : Buffer) (s : List UInt8) : Prop where
  gap : b.gapStart ≤ b.gapEnd
  inside : b.gapEnd ≤ b.data.length
  /-- Room for the terminating zero of a copy of the whole text. -/
  size : b.data.length + 1 < 2 ^ 64
  text : around b.data b.gapStart b.gapEnd = s

section

variable {b : Buffer} {s : List UInt8} (h : Holds b s)
include h

/-- Only the block and the gap count. -/
theorem Holds.of_eq {b' : Buffer} (hdata : b'.data = b.data) (hstart : b'.gapStart = b.gapStart)
    (hend : b'.gapEnd = b.gapEnd) : Holds b' s := by
  refine ⟨?_, ?_, ?_, ?_⟩
  · rw [hstart, hend]
    exact h.gap
  · rw [hend, hdata]
    exact h.inside
  · rw [hdata]
    exact h.size
  · rw [hdata, hstart, hend]
    exact h.text

theorem Holds.gapSize : u64Sub b.gapEnd b.gapStart = b.gapEnd - b.gapStart := by
  have := h.inside
  have := h.size
  exact u64Sub_of_le h.gap (by omega)

theorem Holds.length_eq : s.length = b.data.length - (b.gapEnd - b.gapStart) := by
  rw [← h.text]
  exact length_around h.gap h.inside

theorem Holds.length : bufLength b = s.length := by
  have := h.size
  unfold bufLength
  rw [h.gapSize, h.length_eq]
  have := h.inside
  exact u64Sub_of_le (by omega) (by omega)

theorem Holds.byteAt {i : Nat} (hi : i < s.length) :
    Buffer.byteAt b.data (phys b i) = Buffer.byteAt s i := by
  have hlen := h.length_eq
  have hsize := h.size
  rw [← h.text, byteAt_around h.gap h.inside]
  unfold phys
  by_cases hlow : i < b.gapStart
  · rw [if_pos hlow, if_pos hlow]
  · rw [if_neg hlow, if_neg hlow, h.gapSize, u64_of_lt (by omega)]

theorem Holds.charAt {i : Nat} (hi : i < s.length) : bufferCharAt b i = Buffer.byteAt s i := by
  unfold bufferCharAt
  rw [h.length, if_neg (by omega), h.byteAt hi]

theorem Holds.readBack : readBack b = s := by
  unfold TextEditor.readBack bufferLength
  rw [h.length]
  refine ext_getElem (by simp) ?_
  intro i hi hs
  rw [getElem_map, getElem_range, h.charAt hs]
  unfold Buffer.byteAt
  rw [getElem?_eq_getElem hs]
  rfl

/-- The gap is moved, and nothing but the gap. -/
theorem gapMove_holds {pos : Nat} (hpos : pos ≤ s.length) :
    ∃ data gapEnd,
      gapMove b pos = { b with data := data, gapStart := pos, gapEnd := gapEnd } ∧
      Holds { b with data := data, gapStart := pos, gapEnd := gapEnd } s ∧
      gapEnd - pos = b.gapEnd - b.gapStart := by
  have hgap := h.gap
  have hin := h.inside
  have hlen := h.length_eq
  unfold gapMove
  by_cases heq : pos = b.gapStart
  · subst heq
    exact ⟨b.data, b.gapEnd, by simp, h, rfl⟩
  rw [if_neg heq]
  by_cases hlow : pos < b.gapStart
  · rw [if_pos hlow]
    have hkeep : (shift b.data (b.gapEnd - (b.gapStart - pos)) pos (b.gapStart - pos)).length =
        b.data.length := by
      refine length_overwrite ?_
      rw [length_slice (by omega)]
      omega
    refine ⟨shift b.data (b.gapEnd - (b.gapStart - pos)) pos (b.gapStart - pos),
      b.gapEnd - (b.gapStart - pos), ?_, ⟨?_, ?_, ?_, ?_⟩, ?_⟩
    · simp only [Nat.sub_sub_self (Nat.le_of_lt hlow)]
    · show pos ≤ b.gapEnd - (b.gapStart - pos)
      omega
    · show b.gapEnd - (b.gapStart - pos) ≤ (shift _ _ _ _).length
      omega
    · show (shift _ _ _ _).length + 1 < 2 ^ 64
      rw [hkeep]
      exact h.size
    · exact (around_move_front hgap hin (Nat.le_of_lt hlow)).trans h.text
    · omega
  · rw [if_neg hlow]
    have hkeep : (shift b.data b.gapStart b.gapEnd (pos - b.gapStart)).length = b.data.length := by
      refine length_overwrite ?_
      rw [length_slice (by omega)]
      omega
    refine ⟨shift b.data b.gapStart b.gapEnd (pos - b.gapStart),
      b.gapEnd + (pos - b.gapStart), ?_, ⟨?_, ?_, ?_, ?_⟩, ?_⟩
    · simp only [Nat.add_sub_cancel' (Nat.not_lt.mp hlow)]
    · show pos ≤ b.gapEnd + (pos - b.gapStart)
      omega
    · show b.gapEnd + (pos - b.gapStart) ≤ (shift _ _ _ _).length
      omega
    · show (shift _ _ _ _).length + 1 < 2 ^ 64
      rw [hkeep]
      exact h.size
    · exact (around_move_back hgap hin (by omega) (by omega)).trans h.text
    · omega

/-- The gap is made large enough, and nothing but the gap. -/
theorem gapEnsure_holds (fresh : Fresh) {needed : Nat}
    (hfits : s.length + needed + gapGrow + 1 < 2 ^ 64) :
    ∃ data gapEnd,
      gapEnsure fresh b needed = some { b with data := data, gapEnd := gapEnd } ∧
      Holds { b with data := data, gapEnd := gapEnd } s ∧
      b.gapStart + needed ≤ gapEnd := by
  have hgap := h.gap
  have hin := h.inside
  have hlen := h.length_eq
  unfold gapEnsure
  simp only [h.gapSize]
  by_cases hroom : b.gapEnd - b.gapStart ≥ needed
  · rw [if_pos hroom]
    exact ⟨b.data, b.gapEnd, rfl, h, by omega⟩
  rw [if_neg hroom, if_pos (by omega)]
  generalize hgrow : needed - (b.gapEnd - b.gapStart) + gapGrow = grow
  have hnew : (fresh.block b.data.length grow).length = grow := by simp [Fresh.block]
  have htext := around_grow hgap hin (fresh.block b.data.length grow)
  rw [hnew] at htext
  have hkeep : (shift (b.data ++ fresh.block b.data.length grow) (b.gapEnd + grow) b.gapEnd
      (b.data.length - b.gapEnd)).length = b.data.length + grow := by
    unfold shift
    rw [length_overwrite]
    · rw [length_append, hnew]
    · rw [length_slice, length_append, hnew]
      · omega
      · rw [length_append]
        omega
  refine ⟨_, b.gapEnd + grow, rfl, ⟨?_, ?_, ?_, htext.trans h.text⟩, by omega⟩
  · show b.gapStart ≤ b.gapEnd + grow
    omega
  · show b.gapEnd + grow ≤ (shift _ _ _ _).length
    omega
  · show (shift _ _ _ _).length + 1 < 2 ^ 64
    omega

end

/-! ### Edits -/

/-- The records of `h` in the buffer `b`. -/
def Buffer.withHistory (b h : Buffer) : Buffer :=
  { b with undoStack := h.undoStack, undoTop := h.undoTop }

/-- The buffer after an edit of the text, with the records of `h`. -/
def Buffer.edited (b h : Buffer) (data : List UInt8) (gapStart gapEnd cursor : Nat) : Buffer :=
  { b with
    data := data, gapStart := gapStart, gapEnd := gapEnd, cursor := cursor
    modified := true, linesDirty := true, undoStack := h.undoStack, undoTop := h.undoTop }

/-- The records are written without a look at anything else. -/
theorem undoPush_withHistory {b c : Buffer} (hin : c.inUndo = b.inUndo)
    (hstack : c.undoStack = b.undoStack) (htop : c.undoTop = b.undoTop) (type : UndoType)
    (pos : Nat) (text : List UInt8) :
    undoPush c type pos text = (undoPush b type pos text).map c.withHistory := by
  unfold undoPush
  rw [hin, hstack, htop]
  by_cases hb : b.inUndo
  · rw [if_pos hb, if_pos hb]
    show some c = some (c.withHistory b)
    unfold Buffer.withHistory
    rw [← hstack, ← htop]
  · rw [if_neg hb, if_neg hb]
    simp only [bind_eq_bind, map_bind]
    congr 1
    funext stack
    by_cases hmem : xmalloc (u64 (text.length + 1)) <;> simp [hmem, Buffer.withHistory, hin]

theorem undoPush_bind {α : Type} {b c : Buffer} (hin : c.inUndo = b.inUndo)
    (hstack : c.undoStack = b.undoStack) (htop : c.undoTop = b.undoTop) (type : UndoType)
    (pos : Nat) (text : List UInt8) (f : Buffer → Option α) :
    (undoPush c type pos text).bind f =
      (undoPush b type pos text).bind fun h => f (c.withHistory h) := by
  rw [undoPush_withHistory hin hstack htop, bind_map]
  rfl

theorem gapMove_withHistory (b h : Buffer) (pos : Nat) :
    gapMove (b.withHistory h) pos = (gapMove b pos).withHistory h := by
  unfold gapMove Buffer.withHistory
  split_ifs <;> rfl

section

variable {b : Buffer} {s : List UInt8} (h : Holds b s)
include h

/-- **An insertion puts the text where it was asked for**, and is recorded with the place
it really went to. -/
theorem bufferInsert_eq (fresh : Fresh) (pos : Nat) {text : List UInt8} (hne : text ≠ [])
    (hfits : s.length + text.length + gapGrow + 1 < 2 ^ 64) :
    ∃ data gapStart gapEnd,
      bufferInsert fresh b pos text =
        (undoPush b .insert (min pos s.length) text).map (fun hist =>
          (0, b.edited hist data gapStart gapEnd
            (if b.cursor ≥ min pos s.length then u64 (b.cursor + text.length) else b.cursor))) ∧
      ∀ hist cursor, Holds (b.edited hist data gapStart gapEnd cursor) (insertAt s pos text) := by
  have hclamp : (if pos > s.length then s.length else pos) = min pos s.length := by
    split <;> omega
  have hlen : ¬ text.length = 0 := fun hzero => hne (length_eq_zero_iff.mp hzero)
  generalize hp : min pos s.length = p
  rw [hp] at hclamp
  have hple : p ≤ s.length := by omega
  obtain ⟨grown, hi, hensure, hgrown, hroom⟩ := gapEnsure_holds h fresh hfits
  obtain ⟨moved, hi', hmove, hmoved, hsame⟩ := gapMove_holds hgrown hple
  have hgap : p ≤ hi' := hmoved.gap
  have hin : hi' ≤ moved.length := hmoved.inside
  have hsize : moved.length + 1 < 2 ^ 64 := hmoved.size
  have hsame' : hi' - p = hi - b.gapStart := hsame
  have hfill : p + text.length ≤ hi' := by omega
  have hkeep : (overwrite moved p text).length = moved.length := length_overwrite (by omega)
  refine ⟨overwrite moved p text, p + text.length, hi', ?_, ?_⟩
  · unfold bufferInsert
    rw [if_neg hlen]
    rw [h.length, hclamp, hensure]
    show ((undoPush (linesMarkDirty { gapMove _ p with
      data := overwrite (gapMove _ p).data (gapMove _ p).gapStart text
      gapStart := u64 ((gapMove _ p).gapStart + text.length)
      cursor := if (gapMove _ p).cursor ≥ p then _ else _
      modified := true }) .insert p text).bind fun b => some ((0 : Int), b)) = _
    have hstart : u64 (p + text.length) = p + text.length := u64_of_lt (by omega)
    rw [hmove]
    simp only [hstart]
    refine (undoPush_bind (b := b) (by rfl) (by rfl) (by rfl) _ _ _ _).trans ?_
    rw [map_eq_bind]
    rfl
  · intro hist cursor
    refine ⟨?_, ?_, ?_, ?_⟩
    · exact hfill
    · show hi' ≤ (overwrite moved p text).length
      omega
    · show (overwrite moved p text).length + 1 < 2 ^ 64
      omega
    · have htext : around moved p hi' = s := hmoved.text
      show around (overwrite moved p text) (p + text.length) hi' = insertAt s pos text
      rw [around_fill hgap hin hfill, htext, ← insertAt_clamp, hp]
      rfl

/-- **A deletion takes away what was asked for**, as far as there is text, and records it. -/
theorem bufferDelete_eq {pos len : Nat} (hlen : len ≠ 0) (hpos : pos < s.length)
    (hsum : pos + len < 2 ^ 64) :
    ∃ data gapEnd,
      bufferDelete b pos len =
        (undoPush b .delete pos ((s.drop pos).take len)).map (fun hist =>
          (0, b.edited hist data pos gapEnd
            (if b.cursor > pos then
              if b.cursor ≤ min (pos + len) s.length then pos
              else u64Sub b.cursor (min (pos + len) s.length - pos)
            else b.cursor))) ∧
      ∀ hist cursor, Holds (b.edited hist data pos gapEnd cursor) (removeAt s pos len) := by
  have hsize := h.size
  have hslen := h.length_eq
  generalize hn : min (pos + len) s.length - pos = n
  have hstop : min (pos + len) s.length = pos + n := by omega
  have hclamp : (if u64 (pos + len) > s.length then s.length - pos else len) = n := by
    rw [u64_of_lt hsum]
    split <;> omega
  have hmem : xmalloc (u64 (n + 1)) = true := by
    rw [u64_of_lt (by omega)]
    simp [xmalloc]
  have htaken : (range n).map (fun i => bufferCharAt b (u64 (pos + i))) =
      (s.drop pos).take len := by
    refine ext_getElem ?_ ?_
    · rw [length_map, length_range, length_take, length_drop]
      omega
    · intro i hi hi'
      have hin : i < n := by simpa using hi
      rw [getElem_map, getElem_range, u64_of_lt (by omega), h.charAt (by omega),
        getElem_take, getElem_drop]
      unfold Buffer.byteAt
      rw [getElem?_eq_getElem (by omega)]
      rfl
  have hmin : n = min len (s.length - pos) := by omega
  obtain ⟨moved, hi, hmove, hmoved, hsame⟩ := gapMove_holds h (Nat.le_of_lt hpos)
  have hgap : pos ≤ hi := hmoved.gap
  have hin : hi ≤ moved.length := hmoved.inside
  have hmsize : moved.length + 1 < 2 ^ 64 := hmoved.size
  have hmlen : s.length = moved.length - (hi - pos) := hmoved.length_eq
  refine ⟨moved, hi + n, ?_, ?_⟩
  · unfold bufferDelete
    rw [if_neg hlen]
    simp only [h.length, hclamp, if_neg (Nat.not_le.mpr hpos), hmem, if_true, htaken, hstop]
    have hend : u64 (pos + n) = pos + n := u64_of_lt (by omega)
    have hgapEnd : u64 (hi + n) = hi + n := u64_of_lt (by omega)
    refine (undoPush_bind (b := b) (by rfl) (by rfl) (by rfl) _ _ _ _).trans ?_
    rw [map_eq_bind]
    simp only [gapMove_withHistory, hmove]
    simp only [Buffer.withHistory, hend, hgapEnd]
    rfl
  · intro hist cursor
    refine ⟨?_, ?_, hmsize, ?_⟩
    · show pos ≤ hi + n
      omega
    · show hi + n ≤ moved.length
      omega
    · have htext : around moved pos hi = s := hmoved.text
      show around moved pos (hi + n) = removeAt s pos len
      rw [around_widen hgap hin, htext, ← removeAt_clamp (Nat.le_of_lt hpos), ← hmin]
      rfl

/-! ### The line cache -/

theorem rebuildLoop_eq (is offsets : List Nat) (cap : Nat) (hin : ∀ i ∈ is, i < s.length)
    (hcount : offsets.length + (is.filter fun i => byteAt s i = newline).length ≤ 2 ^ 30) :
    ∃ cap', rebuildLoop b is offsets cap =
        some (offsets ++ (is.filter fun i => byteAt s i = newline).map (· + 1), cap') := by
  induction is generalizing offsets cap with
  | nil => exact ⟨cap, by simp [rebuildLoop]⟩
  | cons i is ih =>
    have hrest : ∀ j ∈ is, j < s.length := fun j hj => hin j (mem_cons_of_mem _ hj)
    unfold rebuildLoop
    rw [h.byteAt (hin i (mem_cons_self ..))]
    by_cases hnl : Buffer.byteAt s i = newline
    · rw [filter_cons_of_pos (by simpa using hnl)] at hcount ⊢
      simp only [length_cons] at hcount
      rw [if_pos hnl]
      -- The array is doubled only while it holds fewer than `2 ^ 30` lines.
      have hstep : ∀ cap, ∃ cap', rebuildLoop b is (offsets ++ [i + 1]) cap =
          some (offsets ++ (i :: is.filter fun i => byteAt s i = newline).map (· + 1), cap') := by
        intro cap
        obtain ⟨cap', heq⟩ := ih (offsets ++ [i + 1]) cap hrest (by
          rw [length_append, length_singleton]
          omega)
        exact ⟨cap', by rw [heq]; simp⟩
      by_cases hfull : offsets.length ≥ cap
      · rw [if_pos hfull, if_pos (by omega)]
        exact hstep (cap * 2)
      · rw [if_neg hfull]
        exact hstep cap
    · rw [filter_cons_of_neg (by simpa using hnl)] at hcount ⊢
      rw [if_neg hnl]
      exact ih offsets cap hrest hcount

/-- **The cache is brought up to date**, as long as the number of lines is an `int` that can
be doubled. -/
theorem linesEnsure_eq (hcache : b.linesDirty = false → b.lineOffsets = lineStarts s)
    (hlines : (lineStarts s).length ≤ 2 ^ 30) :
    ∃ cap, linesEnsure b =
      some { b with lineOffsets := lineStarts s, lineCap := cap, linesDirty := false } := by
  unfold linesEnsure
  by_cases hdirty : b.linesDirty = true
  · rw [if_pos hdirty]
    unfold linesRebuild
    rw [h.length]
    obtain ⟨cap, heq⟩ := rebuildLoop_eq h (range s.length) [0]
      (if b.lineCap < lineCacheCap then lineCacheCap else b.lineCap)
      (fun i hi => mem_range.mp hi) (by
        have : (lineStarts s).length =
            ((range s.length).filter fun i => byteAt s i = newline).length + 1 := by
          simp [lineStarts]
        rw [length_singleton]
        omega)
    refine ⟨cap, ?_⟩
    simp only [heq]
    rfl
  · have hclean : b.linesDirty = false := by simpa using hdirty
    rw [if_neg hdirty]
    refine ⟨b.lineCap, ?_⟩
    rw [← hcache hclean, ← hclean]

end

end Nv0ken.TextEditor
