/-
What the shell's lexer reads.

Every token takes at least a character of the line, so the tokens of a line are its first token
and the tokens of what follows it (`tokens_cons`).
-/
import Nv0ken.Userland.Shell.Parser

namespace Nv0ken.Shell

open List Option

/-! ### A token takes something -/

/-- A word is no longer than its buffer and the input, and what follows it is the end of the
input. -/
theorem lexWord_bounds (q : Quoting) (room : Nat) (s : List Char) :
    (lexWord q room s).1.length ≤ room ∧ (lexWord q room s).1.length ≤ s.length ∧
      (lexWord q room s).2 <:+ s := by
  have hcons : ∀ {c : Char} {r s : List Char}, r <:+ s → r <:+ c :: s :=
    fun h => h.trans (suffix_cons _ _)
  have hif : ∀ {c d : Char} {s : List Char}, (if c = d then s else c :: s) <:+ c :: s := by
    intro c d s
    split
    · exact suffix_cons _ _
    · exact suffix_rfl
  have hzero : ∀ {n : Nat}, 0 ≤ n := fun {n} => Nat.zero_le n
  fun_induction lexWord q room s with
  | case1 | case2 | case5 => exact ⟨hzero, hzero, suffix_rfl⟩
  | case3 | case4 => exact ⟨hzero, hzero, hif⟩
  | case6 room | case12 room => exact ⟨Nat.succ_le_succ hzero, Nat.le_refl _, nil_suffix⟩
  | case7 room d s _ r ih | case13 room d s _ r ih =>
    exact ⟨Nat.succ_le_succ ih.1, Nat.le_succ_of_le (Nat.succ_le_succ ih.2.1), hcons (hcons ih.2.2)⟩
  | case8 room s _ _ ih | case9 room s _ _ _ ih | case11 room s ih | case15 room s ih =>
    exact ⟨ih.1, Nat.le_succ_of_le ih.2.1, hcons ih.2.2⟩
  | case10 room c s _ _ _ _ r ih | case14 room c s _ _ r ih | case16 room c s _ r ih =>
    exact ⟨Nat.succ_le_succ ih.1, Nat.succ_le_succ ih.2.1, hcons ih.2.2⟩

variable {c : Char} {s r : List Char} {t : Token}

theorem lexWord_endsWord (hc : endsWord c) (room : Nat) (s : List Char) :
    lexWord .plain room (c :: s) = ([], c :: s) := by
  cases room with
  | zero => rw [lexWord]
  | succ room =>
    rw [lexWord.eq_def]
    simp only [hc, if_true]

theorem lexWord_quote (room : Nat) (s : List Char) :
    lexWord .plain (room + 1) ('\'' :: s) = lexWord .single (room + 1) s := by
  rw [lexWord.eq_def]
  rfl

/-- A word that begins takes its first character. -/
theorem lexWord_suffix_cons (hc : endsWord c = false) (room : Nat) (s : List Char) :
    (lexWord .plain (room + 1) (c :: s)).2 <:+ s := by
  rw [lexWord.eq_def]
  simp only [hc, Bool.false_eq_true, if_false]
  split
  · split
    · exact suffix_rfl
    · exact (lexWord_bounds _ _ _).2.2.trans (suffix_cons _ _)
  · split
    · exact (lexWord_bounds _ _ _).2.2
    · split <;> exact (lexWord_bounds _ _ _).2.2

theorem lexErr_suffix (s : List Char) : (lexErr s).2 <:+ s := by
  unfold lexErr
  split
  · exact suffix_cons _ _
  · exact (suffix_cons _ _).trans (suffix_cons _ _)
  · exact suffix_rfl

theorem lexOp_suffix (h : lexOp c s = some (t, r)) : r <:+ s := by
  unfold lexOp at h
  split_ifs at h
  all_goals
    have hr : _ = r := congrArg Prod.snd (some.inj h)
    subst hr
    first
    | exact suffix_rfl
    | exact tail_suffix s
    | exact (lexErr_suffix _).trans (tail_suffix s)

theorem endsWord_eq_false_of_lexOp (h : lexOp c s = none) (hc : isBlank c = false) :
    endsWord c = false := by
  unfold lexOp at h
  split_ifs at h with h₁ h₂ h₃ h₄ h₅ h₆ h₇ h₈ h₉
  simp only [endsWord, hc, h₁, h₂, h₃, h₄, h₅, h₆, decide_false, Bool.or_false]

/-! ### The tokens of a line -/

theorem lexNext_nil (h : s.dropWhile isBlank = []) : lexNext s = none := by
  rw [lexNext, h]

section

variable (h : s.dropWhile isBlank = c :: r)
include h

theorem lexNext_op {tr : Token × List Char} (hop : lexOp c r = some tr) : lexNext s = some tr := by
  simp only [lexNext, h, hop]

theorem lexNext_word (hop : lexOp c r = none) :
    lexNext s = some (.word (lexWord .plain wordMax (c :: r)).1,
      (lexWord .plain wordMax (c :: r)).2) := by
  simp only [lexNext, h, hop]

theorem isBlank_of_dropWhile : isBlank c = false := by
  have := head?_dropWhile_not isBlank s
  rw [h] at this
  simpa using this

end

theorem lexNext_suffix (h : lexNext s = some (t, r)) :
    ∃ c u, s.dropWhile isBlank = c :: u ∧ r <:+ u := by
  rcases hd : s.dropWhile isBlank with - | ⟨c, u⟩
  · rw [lexNext_nil hd] at h
    cases h
  refine ⟨c, u, rfl, ?_⟩
  rcases hop : lexOp c u with - | ⟨t', r'⟩
  · rw [lexNext_word hd hop] at h
    cases h
    exact lexWord_suffix_cons (endsWord_eq_false_of_lexOp hop (isBlank_of_dropWhile hd)) 4094 u
  · rw [lexNext_op hd hop] at h
    cases h
    exact lexOp_suffix hop

theorem lexNext_rest (h : lexNext s = some (t, r)) : r <:+ s ∧ r.length < s.length := by
  obtain ⟨c, u, hd, hr⟩ := lexNext_suffix h
  have hs : c :: u <:+ s := hd ▸ dropWhile_suffix isBlank
  exact ⟨hr.trans ((suffix_cons c u).trans hs),
    Nat.lt_of_le_of_lt hr.length_le (Nat.lt_of_lt_of_le (Nat.lt_succ_self _) hs.length_le)⟩

/-- More fuel than characters makes no difference. -/
theorem lexAll_fuel {fuel k : Nat} (hs : s.length ≤ fuel) (hk : fuel ≤ k) :
    lexAll k s = lexAll fuel s := by
  induction fuel generalizing k s with
  | zero =>
    obtain rfl : s = [] := length_eq_zero_iff.1 (by omega)
    cases k <;> rfl
  | succ fuel ih =>
    obtain ⟨k, rfl⟩ : ∃ j, k = j + 1 := ⟨k - 1, by omega⟩
    rw [lexAll, lexAll]
    rcases hn : lexNext s with - | ⟨t, r⟩
    · rfl
    · have hlen := (lexNext_rest hn).2
      simp only
      rw [ih (by omega) (by omega)]

theorem tokens_nil (h : lexNext s = none) : tokens s = [] := by
  rw [tokens]
  cases s with
  | nil => rfl
  | cons c s => rw [length_cons, lexAll, h]

theorem tokens_cons (h : lexNext s = some (t, r)) : tokens s = t :: tokens r := by
  have hlen := (lexNext_rest h).2
  obtain ⟨k, hk⟩ : ∃ k, s.length = k + 1 := ⟨s.length - 1, by omega⟩
  rw [tokens, hk, lexAll, h]
  simp only
  rw [tokens, lexAll_fuel (Nat.le_refl r.length) (by omega)]

theorem tokens_blank (s : List Char) : tokens (' ' :: s) = tokens s := by
  have hsame : lexNext (' ' :: s) = lexNext s := rfl
  rcases hs : lexNext s with - | ⟨t, r⟩
  · rw [tokens_nil hs, tokens_nil (hsame.trans hs)]
  · rw [tokens_cons hs, tokens_cons (hsame.trans hs)]

/-! ### A word in single quotes -/

/-- What follows a word: the end, or a character that ends it. -/
def AfterWord : List Char → Prop
  | [] => True
  | c :: _ => endsWord c

theorem lexWord_afterWord (hs : AfterWord s) (room : Nat) : lexWord .plain room s = ([], s) := by
  cases s with
  | nil => rw [lexWord]
  | cons c s => exact lexWord_endsWord hs room s

theorem lexWord_single_cons (hc : c ≠ '\'') (room : Nat) (s : List Char) :
    lexWord .single (room + 1) (c :: s) =
      (c :: (lexWord .single room s).1, (lexWord .single room s).2) := by
  rw [lexWord, if_neg hc]

/-- A quoted text without its closing quote. -/
theorem lexWord_single_open (hs : '\'' ∉ s) (room : Nat) :
    lexWord .single room s = (s.take room, s.drop room) := by
  induction s generalizing room with
  | nil =>
    rw [lexWord, take_nil, drop_nil]
  | cons c s ih =>
    have hc : c ≠ '\'' := fun h => hs (h ▸ mem_cons_self)
    cases room with
    | zero =>
      rw [lexWord, if_neg hc]
      rfl
    | succ room =>
      rw [lexWord_single_cons hc, ih (fun h => hs (mem_cons_of_mem _ h))]
      rfl

/-- A quoted text with its closing quote, if the word's buffer holds it. -/
theorem lexWord_single_closed {post : List Char} (hs : '\'' ∉ s) (hpost : AfterWord post)
    {room : Nat}
    (hroom : s.length ≤ room) : lexWord .single room (s ++ '\'' :: post) = (s, post) := by
  induction s generalizing room with
  | nil =>
    cases room with
    | zero => rw [nil_append, lexWord, if_pos rfl]
    | succ room =>
      exact lexWord_afterWord hpost _
  | cons c s ih =>
    have hc : c ≠ '\'' := fun h => hs (h ▸ mem_cons_self)
    obtain ⟨room, rfl⟩ : ∃ k, room = k + 1 := ⟨room - 1, by rw [length_cons] at hroom; omega⟩
    rw [cons_append, lexWord_single_cons hc,
      ih (fun h => hs (mem_cons_of_mem _ h)) (Nat.le_of_succ_le_succ hroom)]

end Nv0ken.Shell
