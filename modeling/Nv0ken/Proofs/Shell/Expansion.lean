/-
What the shell's variable expansion does to a text.

The loop is followed without its fuel: every piece takes a character, so the expansion of a text
is what is written for its first piece and the expansion of the rest (`expandFrom_cons`).  Text
without a backslash and without a `$` that begins a reference is copied as far as the buffer
goes.
-/
import Nv0ken.Userland.Shell.Expand

namespace Nv0ken.Shell

open List

/-! ### The loop without its fuel -/

theorem scanBraces_suffix (s : List Char) : (scanBraces s).2 <:+ s := by
  unfold scanBraces
  simp only
  split
  · exact (tail_suffix _).trans (drop_suffix _ _)
  · exact drop_suffix _ _

theorem scanDollar_suffix (s : List Char) : (scanDollar s).2 <:+ s := by
  cases s with
  | nil => exact suffix_rfl
  | cons c s =>
    rw [scanDollar]
    split_ifs
    all_goals first
      | exact suffix_cons _ _
      | exact (scanBraces_suffix s).trans (suffix_cons _ _)
      | exact drop_suffix _ _
      | exact suffix_rfl

theorem scan_suffix (c : Char) (s : List Char) : (scan c s).2 <:+ s := by
  unfold scan
  split_ifs
  · cases s with
    | nil => exact suffix_rfl
    | cons d s => exact suffix_cons _ _
  · exact scanDollar_suffix s
  · exact suffix_rfl

/-- The expansion of a text behind `op` characters of the buffer. -/
def expandFrom (env : Env) (op : Nat) (s : List Char) : List Char := expandLoop env s.length op s

theorem expandLoop_fuel (env : Env) {fuel k op : Nat} (hs : s.length ≤ fuel) (hk : fuel ≤ k) :
    expandLoop env k op s = expandLoop env fuel op s := by
  induction fuel generalizing k op s with
  | zero =>
    obtain rfl : s = [] := length_eq_zero_iff.1 (by omega)
    cases k <;> rfl
  | succ fuel ih =>
    obtain ⟨k, rfl⟩ : ∃ j, k = j + 1 := ⟨k - 1, by omega⟩
    cases s with
    | nil => rfl
    | cons c s =>
      have hlen := (scan_suffix c s).length_le
      rw [length_cons] at hs
      have hrest : ∀ op, expandLoop env k op (scan c s).2 = expandLoop env fuel op (scan c s).2 :=
        fun op => ih (by omega) (by omega)
      rw [expandLoop, expandLoop]
      simp only [hrest]

theorem expandFrom_nil (env : Env) (op : Nat) : expandFrom env op [] = [] := rfl

theorem expandFrom_cons (env : Env) (op : Nat) (c : Char) (s : List Char) :
    expandFrom env op (c :: s) =
      if op < expandMax then
        if (scan c s).1.fits op ((scan c s).1.text env) then
          (scan c s).1.text env ++
            expandFrom env (op + ((scan c s).1.text env).length) (scan c s).2
        else expandFrom env op (scan c s).2
      else [] := by
  have hlen := (scan_suffix c s).length_le
  have hrest : ∀ op, expandLoop env s.length op (scan c s).2 = expandFrom env op (scan c s).2 :=
    fun op => expandLoop_fuel env (Nat.le_refl _) hlen
  rw [expandFrom, length_cons, expandLoop]
  simp only [hrest]

theorem expandVars_eq (env : Env) (s : List Char) : expandVars env s = expandFrom env 0 s := rfl

theorem expandFrom_full (env : Env) {op : Nat} (h : expandMax ≤ op) (s : List Char) :
    expandFrom env op s = [] := by
  cases s with
  | nil => rfl
  | cons c s => rw [expandFrom_cons, if_neg (Nat.not_lt.2 h)]

variable {c : Char} {s z v u x : List Char} {dirs : Directories}

/-- A piece that is a character is copied. -/
theorem expandFrom_char (env : Env) {op : Nat} {d : Char} {r : List Char}
    (h : scan c s = (.char d, r)) (hop : op < expandMax) :
    expandFrom env op (c :: s) = d :: expandFrom env (op + 1) r := by
  rw [expandFrom_cons, if_pos hop, h]
  rfl

/-! ### Text that is copied -/

/-- What follows a `$` makes a reference of it. -/
def startsRef : List Char → Bool
  | [] => false
  | c :: _ => c = '{' || c = '?' || c = '$' || c = '0' || c = '#' || isNameStart c

/-- No backslash, and no `$` that begins a reference. -/
def inert : List Char → Bool
  | [] => true
  | c :: s => c ≠ '\\' && !(c = '$' && startsRef s) && inert s

theorem scanDollar_char (h : startsRef s = false) : scanDollar s = (.char '$', s) := by
  cases s with
  | nil => rfl
  | cons c s =>
    simp only [startsRef, Bool.or_eq_false_iff, decide_eq_false_iff_not] at h
    obtain ⟨⟨⟨⟨⟨h₁, h₂⟩, h₃⟩, h₄⟩, h₅⟩, h₆⟩ := h
    simp only [scanDollar, h₁, h₂, h₃, h₄, h₅, h₆, if_false, Bool.false_eq_true]

theorem startsRef_append (hs : startsRef s = false) (hz : startsRef z = false) :
    startsRef (s ++ z) = false := by
  cases s with
  | nil => exact hz
  | cons c s => exact hs

theorem inert_cons : inert (c :: s) ↔ c ≠ '\\' ∧ (c = '$' → startsRef s = false) ∧ inert s := by
  simp only [inert, Bool.and_eq_true, decide_eq_true_eq, Bool.not_eq_true', Bool.and_eq_false_imp,
    and_assoc]

theorem scan_char (hb : c ≠ '\\') (hd : c = '$' → startsRef s = false) :
    scan c s = (.char c, s) := by
  unfold scan
  rw [if_neg hb]
  split_ifs with hc
  · rw [scanDollar_char (hd hc), hc]
  · rfl

theorem scan_inert (h : inert (c :: s)) (hz : '$' ∈ c :: s → startsRef z = false) :
    scan c (s ++ z) = (.char c, s ++ z) := by
  obtain ⟨hb, hd, -⟩ := inert_cons.1 h
  refine scan_char hb fun hc => startsRef_append (hd hc) (hz ?_)
  rw [hc]
  exact mem_cons_self

/-- Inert text is copied as far as the buffer goes. -/
theorem expandFrom_inert (env : Env) (hz : '$' ∈ s → startsRef z = false) {op : Nat} (h : inert s)
    (hop : op ≤ expandMax) :
    expandFrom env op (s ++ z) =
      if op + s.length ≤ expandMax then s ++ expandFrom env (op + s.length) z
      else s.take (expandMax - op) := by
  induction s generalizing op with
  | nil =>
    rw [length_nil, Nat.add_zero, if_pos hop]
    rfl
  | cons c s ih =>
    have hs : inert s := (inert_cons.1 h).2.2
    rcases Nat.lt_or_ge op expandMax with hlt | hge
    · rw [cons_append, expandFrom_char env (scan_inert h hz) hlt,
        ih (fun hd => hz (mem_cons_of_mem _ hd)) hs hlt,
        length_cons, show op + 1 + s.length = op + (s.length + 1) by omega]
      split_ifs
      · rfl
      · rw [show expandMax - op = expandMax - (op + 1) + 1 by omega]
        rfl
    · obtain rfl : op = expandMax := Nat.le_antisymm hop hge
      rw [cons_append, expandFrom_full env (Nat.le_refl _), if_neg (by
        rw [length_cons]; omega), Nat.sub_self, take_zero]

theorem expandVars_inert (env : Env) (hs : inert s) : expandVars env s = s.take expandMax := by
  have h := expandFrom_inert env (fun _ => show startsRef [] = false from rfl) hs (Nat.zero_le _)
  rw [Nat.zero_add, expandFrom_nil, append_nil] at h
  rw [expandVars_eq, h]
  split_ifs with hlen
  · exact (take_of_length_le hlen).symm
  · rfl

theorem inert_of_plain (hb : '\\' ∉ s) (hd : '$' ∉ s) : inert s := by
  induction s with
  | nil => rfl
  | cons c s ih =>
    simp only [mem_cons, not_or] at hb hd
    exact inert_cons.2 ⟨Ne.symm hb.1, fun h => absurd h (Ne.symm hd.1), ih hb.2 hd.2⟩

/-! ### Globs -/

section

variable {p : Char} {pat str t : List Char}

/-- What a character of a pattern stands for. -/
def Stands (p : Char) (s : List Char) : Prop :=
  if p = '*' then True else if p = '?' then s.length = 1 else s = [p]

/-- The language of a pattern. -/
def InLanguage : List Char → List Char → Prop
  | [], str => str = []
  | p :: pat, str => ∃ s t, str = s ++ t ∧ Stands p s ∧ InLanguage pat t

theorem mem_tails_dropLast : t ∈ str.tails.dropLast ↔ t <:+ str ∧ t ≠ [] := by
  induction str with
  | nil => simp [tails]
  | cons c str ih =>
    have hne : str.tails ≠ [] := by cases str <;> exact cons_ne_nil _ _
    rw [tails, dropLast_cons_of_ne_nil hne, mem_cons, ih, suffix_cons_iff, or_and_right]
    exact or_congr_left (iff_self_and.2 fun h => h ▸ cons_ne_nil c str)

/-- Of the suffixes behind a `*` the loop leaves out the empty one.  What matches that is stars
only, and it matches the others too. -/
theorem globMatch_star : globMatch ('*' :: pat) str ↔ ∃ t, t <:+ str ∧ globMatch pat t := by
  have hnil : ∀ pat, globMatch pat [] = pat.all (· = '*') := fun pat => by cases pat <;> rfl
  cases str with
  | nil => simp [hnil]
  | cons c str =>
    induction pat with
    | nil => exact iff_of_true rfl ⟨[], nil_suffix, rfl⟩
    | cons q pat ih =>
      rw [globMatch, if_pos rfl, isEmpty_cons, Bool.false_or, any_eq_true]
      simp only [mem_tails_dropLast]
      refine ⟨fun ⟨t, ht, hm⟩ => ⟨t, ht.1, hm⟩, fun ⟨t, ht, hm⟩ => ?_⟩
      by_cases hne : t = []
      · rw [hne, hnil, all_cons, Bool.and_eq_true, decide_eq_true_eq, ← hnil] at hm
        rw [hm.1]
        exact ⟨c :: str, ⟨suffix_rfl, cons_ne_nil c str⟩, ih.2 ⟨[], nil_suffix, hm.2⟩⟩
      · exact ⟨t, ⟨ht, hne⟩, hm⟩

theorem globMatch_cons :
    globMatch (p :: pat) str ↔ ∃ s t, str = s ++ t ∧ Stands p s ∧ globMatch pat t := by
  unfold Stands
  split_ifs with hstar hany
  · rw [hstar, globMatch_star]
    constructor
    · rintro ⟨t, ⟨s, rfl⟩, hm⟩
      exact ⟨s, t, rfl, trivial, hm⟩
    · rintro ⟨s, t, rfl, -, hm⟩
      exact ⟨t, suffix_append s t, hm⟩
  · cases str with
    | nil => simp +contextual [globMatch, hany]
    | cons c str =>
      rw [globMatch, if_neg hstar, if_pos hany]
      simp [length_eq_one_iff]
  · cases str with
    | nil => simp [globMatch, hstar]
    | cons c str =>
      rw [globMatch, if_neg hstar, if_neg hany]
      simp [@eq_comm _ c p]

theorem globMatch_iff_inLanguage (pat str : List Char) :
    globMatch pat str ↔ InLanguage pat str := by
  induction pat generalizing str with
  | nil => exact isEmpty_iff
  | cons p pat ih =>
    rw [globMatch_cons, InLanguage]
    simp only [ih]

def isGlob (c : Char) : Bool := c = '*' || c = '?'

theorem globMatch_literal (h : ∀ c ∈ pat, isGlob c = false) :
    ∀ {name : List Char}, globMatch pat name → name = pat := by
  induction pat with
  | nil =>
    intro name hm
    exact isEmpty_iff.1 hm
  | cons p pat ih =>
    have hp := h p mem_cons_self
    simp only [isGlob, Bool.or_eq_false_iff, decide_eq_false_iff_not] at hp
    intro name hm
    obtain ⟨s, t, rfl, hs, ht⟩ := globMatch_cons.1 hm
    rw [Stands, if_neg hp.1, if_neg hp.2] at hs
    rw [hs, ih (fun d hd => h d (mem_cons_of_mem _ hd)) ht, singleton_append]

end

/-- A name for a pattern: a letter stands for each `*` and `?`. -/
def fillChar (c : Char) : Char := if isGlob c then 'x' else c

theorem globMatch_fill (pat : List Char) : globMatch pat (pat.map fillChar) := by
  induction pat with
  | nil => rfl
  | cons p pat ih =>
    refine globMatch_cons.2 ⟨[fillChar p], _, rfl, ?_, ih⟩
    unfold Stands
    split_ifs with h₁ h₂
    · rfl
    · simp [fillChar, isGlob, h₁, h₂]

theorem isGlob_fillChar (c : Char) : isGlob (fillChar c) = false := by
  rw [fillChar]
  split_ifs with h
  · rfl
  · exact Bool.eq_false_iff.2 h

/-- A name is listed for the pattern it fills. -/
theorem listed_fill (pat : List Char) : listed pat (pat.map fillChar) := by
  rw [listed, globMatch_fill, Bool.and_true]
  cases pat with
  | nil => rfl
  | cons p pat =>
    simp only [map_cons, head?_cons, Option.some.injEq, Bool.not_eq_true',
      Bool.and_eq_false_imp, decide_eq_true_eq]
    intro hfill
    rw [fillChar] at hfill
    split_ifs at hfill with hp
    · exact absurd hfill (by decide)
    · rw [hfill]
      rfl

/-! ### The two parts of a word -/

theorem takeWhile_noSlash (hv : '/' ∉ v) (w : List Char) :
    (v.reverse ++ w).takeWhile (· ≠ '/') = v.reverse ++ w.takeWhile (· ≠ '/') := by
  refine takeWhile_append_of_pos fun c hc => ?_
  rw [decide_eq_true_eq]
  rintro rfl
  exact hv (mem_reverse.1 hc)

theorem patPart_append (hv : '/' ∉ v) : patPart (u ++ '/' :: v) = v := by
  have hrev : (u ++ '/' :: v).reverse = v.reverse ++ '/' :: u.reverse := by simp
  rw [patPart, hrev, takeWhile_noSlash hv]
  simp

theorem dirPart_append (hv : '/' ∉ v) : dirPart (u ++ '/' :: v) = u := by
  rw [dirPart, if_pos (by simp), patPart_append hv, length_append, length_cons,
    show u.length + (v.length + 1) - v.length - 1 = u.length by omega, take_left]

theorem patPart_of_notMem (h : '/' ∉ s) : patPart s = s := by
  have hall := takeWhile_noSlash h []
  rw [takeWhile_nil, append_nil] at hall
  rw [patPart, hall, reverse_reverse]

theorem exists_last_slash (h : '/' ∈ s) : ∃ u v, s = u ++ '/' :: v ∧ '/' ∉ v := by
  obtain ⟨v, u, hs, hv⟩ := eq_append_cons_of_mem (mem_reverse.2 h)
  refine ⟨u.reverse, v.reverse, ?_, fun hmem => hv (mem_reverse.1 hmem)⟩
  rw [← reverse_reverse s, hs]
  simp

theorem slash_notMem_patPart (s : List Char) : '/' ∉ patPart s := by
  by_cases h : '/' ∈ s
  · obtain ⟨u, v, rfl, hv⟩ := exists_last_slash h
    rw [patPart_append hv]
    exact hv
  · rw [patPart_of_notMem h]
    exact h

/-- A word is its directory, a slash and its pattern. -/
theorem dirPart_patPart (h : '/' ∈ s) : dirPart s ++ '/' :: patPart s = s := by
  obtain ⟨u, v, rfl, hv⟩ := exists_last_slash h
  rw [dirPart_append hv, patPart_append hv]

/-! ### Words that stay as they are -/

theorem mem_globExpand {word : List Char} (h : x ∈ globExpand dirs word) :
    ∃ name, listed (patPart word) name ∧ x = fullName (dirPart word) name := by
  unfold globExpand at h
  split at h
  · exact absurd h not_mem_nil
  · obtain ⟨name, hname, rfl⟩ := mem_map.1 h
    exact ⟨name, (mem_filter.1 hname).2, rfl⟩

/-- With globs in the directory's name only, a word matches itself only. -/
theorem globExpand_self (hlen : s.length ≤ expandMax) (hglob : ∀ c ∈ patPart s, isGlob c = false)
    (hg : '*' ∈ s ∨ '?' ∈ s) (hx : x ∈ globExpand dirs s) : x = s := by
  have hnot : ∀ u : List Char, '*' ∈ u ∨ '?' ∈ u → ¬ ∀ c ∈ u, isGlob c = false := by
    rintro u (h | h) hall <;> exact absurd (hall _ h) (by decide)
  have hslash : '/' ∈ s := by
    by_contra hno
    rw [patPart_of_notMem hno] at hglob
    exact hnot s hg hglob
  have hparts := dirPart_patPart hslash
  have hdir : dirPart s ≠ ['.'] := by
    intro hdot
    rw [hdot] at hparts
    refine hnot (patPart s) ?_ hglob
    rw [← hparts] at hg
    simpa using hg
  obtain ⟨name, hname, rfl⟩ := mem_globExpand hx
  obtain rfl := globMatch_literal hglob (Bool.and_eq_true_iff.1 hname).2
  rw [fullName, if_neg hdir, hparts, take_of_length_le hlen]

theorem expandTilde_self (env : Env) (h : s.head? ≠ some '~') : expandTilde env s = s := by
  unfold expandTilde
  split
  · exact absurd rfl h
  · rfl

/-- A word that neither tilde nor variables nor globs touch. -/
theorem expandWord_self (env : Env) (dirs : Directories) (hinert : inert s)
    (hlen : s.length ≤ expandMax) (htilde : s.head? ≠ some '~')
    (hglob : ∀ c ∈ patPart s, isGlob c = false) : expandWord env dirs s = s := by
  have hv : expandVars env s = s := by
    rw [expandVars_inert env hinert, take_of_length_le hlen]
  rw [expandWord, expandTilde_self env htilde]
  simp only [hv]
  split_ifs with hg
  · cases hx : globExpand dirs s with
    | nil => rfl
    | cons x xs => exact globExpand_self hlen hglob hg (hx ▸ mem_cons_self)
  · rfl

end Nv0ken.Shell
