/-
Lists cut into pieces at a separator.

Runs of separators count as one, and separators at the ends do not count, so a list is
its pieces and nothing else: `pieces_join` says that joining pieces and cutting again
gives the pieces back.
-/
import Mathlib.Data.List.DropRight

namespace Nv0ken.Pieces

open List

variable {α : Type*} [DecidableEq α] {sep a : α} {l p : List α} {ps : List (List α)} {n m : Nat}

/-- The first piece and what follows it. -/
def nextPiece (sep : α) (l : List α) : List α × List α :=
  let rest := l.dropWhile (· = sep)
  (rest.takeWhile (· ≠ sep), rest.dropWhile (· ≠ sep))

/-- The first pieces, at most `n` of them. -/
def piecesUpTo (sep : α) : Nat → List α → List (List α)
  | 0, _ => []
  | n + 1, l =>
    if (nextPiece sep l).1 = [] then []
    else (nextPiece sep l).1 :: piecesUpTo sep n (nextPiece sep l).2

/-- The pieces; there are no more of them than elements. -/
def pieces (sep : α) (l : List α) : List (List α) := piecesUpTo sep l.length l

/-- The pieces with a separator in front of each. -/
def join (sep : α) (ps : List (List α)) : List α := ps.flatMap fun p => sep :: p

/-- What a piece looks like. -/
def Clean (sep : α) (p : List α) : Prop := p ≠ [] ∧ sep ∉ p

omit [DecidableEq α] in
@[simp] theorem join_nil : join sep [] = [] := rfl

omit [DecidableEq α] in
@[simp] theorem join_cons : join sep (p :: ps) = sep :: p ++ join sep ps := rfl

omit [DecidableEq α] in
theorem join_append (ps qs : List (List α)) : join sep (ps ++ qs) = join sep ps ++ join sep qs :=
  List.flatMap_append

omit [DecidableEq α] in
theorem length_le_join (sep : α) (ps : List (List α)) : ps.length ≤ (join sep ps).length := by
  induction ps with
  | nil => exact Nat.le_refl _
  | cons p ps ih =>
    rw [join_cons, List.length_append, List.length_cons, List.length_cons]
    omega

theorem takeWhile_clean (hp : sep ∉ p) : (p ++ join sep ps).takeWhile (· ≠ sep) = p := by
  rw [takeWhile_append_of_pos (fun a ha => by
    have : a ≠ sep := fun h => hp (h ▸ ha)
    simpa using this)]
  cases ps <;> simp

theorem dropWhile_clean (hp : sep ∉ p) : (p ++ join sep ps).dropWhile (· ≠ sep) = join sep ps := by
  rw [dropWhile_append_of_pos (fun a ha => by
    have : a ≠ sep := fun h => hp (h ▸ ha)
    simpa using this)]
  cases ps with
  | nil => rfl
  | cons q ps => simp

theorem nextPiece_join (hp : Clean sep p) :
    nextPiece sep (join sep (p :: ps)) = (p, join sep ps) := by
  have hskip : (join sep (p :: ps)).dropWhile (· = sep) = p ++ join sep ps := by
    rw [join_cons, cons_append, dropWhile_cons_of_pos (by simp)]
    rcases p with _ | ⟨a, p⟩
    · exact absurd rfl hp.1
    · have ha : a ≠ sep := fun h => hp.2 (by simp [h])
      rw [cons_append, dropWhile_cons_of_neg (by simpa using ha)]
  unfold nextPiece
  simp only [hskip]
  rw [takeWhile_clean hp.2, dropWhile_clean hp.2]

theorem nextPiece_nil : nextPiece sep [] = ([], []) := rfl

theorem nextPiece_clean (sep : α) (l : List α) (h : (nextPiece sep l).1 ≠ []) :
    Clean sep (nextPiece sep l).1 := by
  refine ⟨h, fun hmem => ?_⟩
  have := mem_takeWhile_imp hmem
  simp at this

/-- Nothing follows where there was no piece. -/
theorem nextPiece_rest (sep : α) (l : List α) (h : (nextPiece sep l).1 = []) :
    (nextPiece sep l).2 = [] := by
  unfold nextPiece at h ⊢
  simp only at h ⊢
  rcases hrest : l.dropWhile (· = sep) with _ | ⟨a, rest⟩
  · rfl
  · have ha : ¬ decide (a = sep) = true := by
      have hne : l.dropWhile (· = sep) ≠ [] := by rw [hrest]; simp
      have := head_dropWhile_not (fun x => decide (x = sep)) hne
      simp only [hrest, head_cons] at this
      simp [this]
    rw [hrest, takeWhile_cons_of_pos (by simpa using ha)] at h
    simp at h

theorem clean_of_mem_piecesUpTo (h : p ∈ piecesUpTo sep n l) : Clean sep p := by
  induction n generalizing l with
  | zero => simp [piecesUpTo] at h
  | succ n ih =>
    rw [piecesUpTo] at h
    by_cases hnil : (nextPiece sep l).1 = []
    · rw [if_pos hnil] at h
      simp at h
    · rw [if_neg hnil] at h
      rcases mem_cons.mp h with rfl | h
      · exact nextPiece_clean sep l hnil
      · exact ih h

/-! ### Cutting in two -/

theorem piecesUpTo_nil (n : Nat) : piecesUpTo sep n [] = [] := by
  cases n with
  | zero => rfl
  | succ n => rw [piecesUpTo, nextPiece_nil, if_pos rfl]

theorem piecesUpTo_sep_cons (n : Nat) (l : List α) :
    piecesUpTo sep n (sep :: l) = piecesUpTo sep n l := by
  cases n with
  | zero => rfl
  | succ n =>
    have hnext : nextPiece sep (sep :: l) = nextPiece sep l := by
      unfold nextPiece
      rw [dropWhile_cons_of_pos (by simp)]
    rw [piecesUpTo, piecesUpTo, hnext]

theorem piecesUpTo_cons (ha : a ≠ sep) (n : Nat) (l : List α) :
    piecesUpTo sep (n + 1) (a :: l)
      = (a :: l.takeWhile (· ≠ sep)) :: piecesUpTo sep n (l.dropWhile (· ≠ sep)) := by
  have hnext : nextPiece sep (a :: l) = (a :: l.takeWhile (· ≠ sep), l.dropWhile (· ≠ sep)) := by
    unfold nextPiece
    rw [dropWhile_cons_of_neg (by simpa using ha)]
    dsimp only
    rw [takeWhile_cons_of_pos (by simpa using ha), dropWhile_cons_of_pos (by simpa using ha)]
  rw [piecesUpTo, hnext, if_neg (cons_ne_nil _ _)]

theorem length_dropWhile_le (sep : α) (l : List α) : (l.dropWhile (· ≠ sep)).length ≤ l.length :=
  (dropWhile_sublist _).length_le

/-- As many rounds as there are elements are enough. -/
theorem piecesUpTo_congr (hn : l.length ≤ n) (hm : l.length ≤ m) :
    piecesUpTo sep n l = piecesUpTo sep m l := by
  induction hlen : l.length using Nat.strong_induction_on generalizing l n m with
  | _ k ih =>
    rcases l with _ | ⟨a, l⟩
    · rw [piecesUpTo_nil, piecesUpTo_nil]
    rw [length_cons] at hn hm hlen
    by_cases ha : a = sep
    · subst ha
      rw [piecesUpTo_sep_cons, piecesUpTo_sep_cons]
      exact ih l.length (by omega) (by omega) (by omega) rfl
    · obtain ⟨n, rfl⟩ : ∃ k, n = k + 1 := ⟨n - 1, by omega⟩
      obtain ⟨m, rfl⟩ : ∃ k, m = k + 1 := ⟨m - 1, by omega⟩
      have hdrop := length_dropWhile_le sep l
      rw [piecesUpTo_cons ha, piecesUpTo_cons ha]
      exact congrArg _ (ih _ (by omega) (by omega) (by omega) rfl)

theorem pieces_sep_cons (l : List α) : pieces sep (sep :: l) = pieces sep l := by
  rw [pieces, piecesUpTo_sep_cons]
  exact piecesUpTo_congr (Nat.le_succ _) (Nat.le_refl _)

theorem pieces_cons (ha : a ≠ sep) (l : List α) :
    pieces sep (a :: l) = (a :: l.takeWhile (· ≠ sep)) :: pieces sep (l.dropWhile (· ≠ sep)) := by
  rw [pieces, length_cons, piecesUpTo_cons ha]
  exact congrArg _ (piecesUpTo_congr (length_dropWhile_le sep l) (Nat.le_refl _))

theorem takeWhile_append_sep (l r : List α) :
    (l ++ sep :: r).takeWhile (· ≠ sep) = l.takeWhile (· ≠ sep) := by
  rw [takeWhile_append]
  by_cases hall : (l.takeWhile (· ≠ sep)).length = l.length
  · rw [if_pos hall, ( takeWhile_prefix _).eq_of_length hall]
    simp
  · rw [if_neg hall]

theorem dropWhile_append_sep (l r : List α) :
    (l ++ sep :: r).dropWhile (· ≠ sep) = l.dropWhile (· ≠ sep) ++ sep :: r := by
  rw [dropWhile_append]
  cases l.dropWhile (· ≠ sep) <;> simp

/-- **Cutting at one separator**: the pieces before it and the pieces behind it. -/
theorem pieces_append (l r : List α) :
    pieces sep (l ++ sep :: r) = pieces sep l ++ pieces sep r := by
  induction hlen : l.length using Nat.strong_induction_on generalizing l with
  | _ k ih =>
    rcases l with _ | ⟨a, l⟩
    · rw [nil_append, pieces_sep_cons]
      rfl
    rw [length_cons] at hlen
    by_cases ha : a = sep
    · subst ha
      rw [cons_append, pieces_sep_cons, pieces_sep_cons, ih l.length (by omega) l rfl]
    · have hdrop := length_dropWhile_le sep l
      rw [cons_append, pieces_cons ha, pieces_cons ha, takeWhile_append_sep, dropWhile_append_sep,
        ih _ (by omega) _ rfl]
      rfl

theorem pieces_of_not_mem (hp : sep ∉ p) : pieces sep p = if p = [] then [] else [p] := by
  rcases p with _ | ⟨a, p⟩
  · rfl
  rw [mem_cons, not_or] at hp
  have htake := @takeWhile_clean _ _ sep p [] hp.2
  have hdrop := @dropWhile_clean _ _ sep p [] hp.2
  rw [join_nil, append_nil] at htake hdrop
  rw [pieces_cons (Ne.symm hp.1), htake, hdrop]
  rfl

/-- **Cutting what was joined.** -/
theorem pieces_join (hps : ∀ p ∈ ps, Clean sep p) : pieces sep (join sep ps) = ps := by
  induction ps using List.reverseRecOn with
  | nil => rfl
  | append_singleton ps p ih =>
    have hp := hps p (by simp)
    rw [join_append, join_cons, join_nil, append_nil, pieces_append,
      ih fun q hq => hps q (by simp [hq]), pieces_of_not_mem hp.2, if_neg hp.1]

/-- The pieces with their separators are not longer than what they were cut from with one in
front. -/
theorem length_join_pieces (sep : α) (l : List α) :
    (join sep (pieces sep l)).length ≤ l.length + 1 := by
  induction hlen : l.length using Nat.strong_induction_on generalizing l with
  | _ k ih =>
    have hfree : ∀ {p : List α}, sep ∉ p → (join sep (pieces sep p)).length ≤ p.length + 1 := by
      intro p hp
      rw [pieces_of_not_mem hp]
      by_cases hnil : p = []
      · rw [if_pos hnil]
        exact Nat.zero_le _
      · rw [if_neg hnil]
        simp
    by_cases hmem : sep ∈ l
    · obtain ⟨p, r, rfl, hp⟩ := eq_append_cons_of_mem hmem
      rw [length_append, length_cons] at hlen
      rw [pieces_append, join_append, length_append]
      have hfirst := hfree hp
      have hrest := ih r.length (by omega) r rfl
      omega
    · rw [← hlen]
      exact hfree hmem

end Nv0ken.Pieces
