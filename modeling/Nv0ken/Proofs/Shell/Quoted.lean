/-
What a command receives for a word in single quotes.

The line is expanded as a whole before the lexer sees a quote, and each word again after the
lexer has taken the quotes away, so neither expansion knows what was quoted.  A quoted text
arrives as it is exactly when nothing in it is taken for a reference, an escape, a tilde or a
glob, and when it fits the buffers it is copied through.

A word has a place on a line, which command and which argument it is, that comes from how the
text in front of it is read once its variables are replaced (`Front`).  That text may have
quotes, escapes, references, redirections, operators and groups in it.

To see that each condition is needed, every variable is given a value of one letter: then no
expansion makes a text longer, and each reference and escape makes it shorter.
-/
import Nv0ken.Proofs.Shell.Expansion
import Nv0ken.Proofs.Shell.Lexer
import Nv0ken.Proofs.Shell.Places

namespace Nv0ken.Shell

open List Option

/-- Behind the text a quote begins argument `k` of command `j`, whatever follows the quote. -/
def Places (text : List Char) (j k : Nat) : Prop :=
  ∃ before cur, Opens before j ∧ argsIn 0 cur = some k ∧
    ∀ y, tokens (text ++ '\'' :: y) = before ++ (cur ++ tokens ('\'' :: y))

/-- What stands in front of the word on a line: with these variables it is expanded up to the
quote, leaves room for it and leaves the word at its place. -/
structure Front (pre : List Char) (env : Env) (j k : Nat) : Prop where
  place : Places (expandVars env pre) j k
  whole : ∀ z, expandVars env (pre ++ '\'' :: z) =
    expandVars env pre ++ expandFrom env (expandVars env pre).length ('\'' :: z)
  room : (expandVars env pre).length < expandMax

/-- Argument `k` of command `j` of the line is `s`, with any variables and directories that the
command finds when it is run, and in all that is handed to the command while the line is run. -/
def Receives (sys : System) (line : List Char) (p : Proc) (j k : Nat) (s : List Char) : Prop :=
  ∃ ast cmd, parse (expandVars ((sys p.clock).env p.lastStatus) line) = some ast ∧
    ast.cmds[j]? = some cmd ∧ (∀ env dirs, (expandArgv env dirs cmd.argv)[k]? = some s) ∧
      ∀ argv, (cmd, argv) ∈ (execute sys line p).2.handed.drop p.handed.length →
        argv[k]? = some s

/-- The command receives `s`, whatever the system answers, the shell has done before and the rest
of the line is, as long as the variables leave the word at its place. -/
def Received (pre s : List Char) (j k : Nat) : Prop :=
  ∀ answers depth p post, AfterWord post →
    Front pre ((answers p.clock).env p.lastStatus) j k →
      Receives (System.closed answers depth) (pre ++ '\'' :: (s ++ '\'' :: post)) p j k s

/-- Nothing in the text is taken for a reference, an escape, a tilde or a glob, and it fits. -/
structure Untouched (pre s : List Char) (j k : Nat) : Prop where
  inert : inert s
  tilde : s.head? ≠ some '~'
  glob : ∀ c ∈ patPart s, isGlob c = false
  word : s.length ≤ wordMax
  line : ∀ env, Front pre env j k → (expandVars env pre).length + 1 + s.length ≤ expandMax
  args : k < maxArgs - 1

variable {pre s w line post e text : List Char} {cur more : List Token} {op j k r : Nat} {c : Char}
  {env : Env} {p : Proc} {answers : Nat → Answers} {depth : Nat}

/-! ### From the line to the word -/

theorem tokens_quote (y : List Char) :
    tokens ('\'' :: y) = .word (lexWord .single wordMax y).1 ::
      tokens (lexWord .single wordMax y).2 := by
  have hop : lexOp '\'' y = none := rfl
  rw [tokens_cons (lexNext_word (show ('\'' :: y).dropWhile isBlank = '\'' :: y from rfl) hop)]
  rw [show wordMax = 4094 + 1 from rfl, lexWord_quote]

theorem argsIn_starts (h : argsIn r cur = some k) (w : List Char) (more : List Token) :
    ∃ t us, cur ++ .word w :: more = t :: us ∧ startsCmd t := by
  rcases cur with - | ⟨t, cur⟩
  · exact ⟨_, _, rfl, rfl⟩
  · refine ⟨t, _, rfl, ?_⟩
    cases t <;> first | rfl | simp [argsIn] at h

/-- The command the word stands in, as it is read. -/
theorem Places.command (h : Places text j k) (y : List Char) :
    ∃ ast cmd, parse (text ++ '\'' :: y) = some ast ∧ ast.cmds[j]? = some cmd ∧ cmd.Fits ∧
      (k < maxArgs - 1 → cmd.argv[k]? = some (lexWord .single wordMax y).1) := by
  obtain ⟨before, cur, hopens, hargs, htokens⟩ := h
  refine ⟨_, _, if_neg (by simp), ?_, parseSimpleCmd_fits
    (cur ++ tokens ('\'' :: y)) (show SimpleCmd.Fits {} by decide), fun hk => ?_⟩
  · rw [htokens, tokens_quote]
    obtain ⟨t, us, heq, ht⟩ := argsIn_starts hargs (lexWord .single wordMax y).1
      (tokens (lexWord .single wordMax y).2)
    rw [heq]
    exact hopens t us ht
  · rw [tokens_quote, ← Nat.zero_add k]
    exact parseSimpleCmd_argv hargs (by simpa using hk)

theorem closed_answers (answers : Nat → Answers) (depth : Nat) :
    (System.closed answers depth).answers = answers := by
  cases depth <;> rfl

/-- What is handed over is what the words of the command are expanded to. -/
theorem receives_iff {ast : AstNode} {cmd : SimpleCmd}
    (hparse : parse (expandVars ((answers p.clock).env p.lastStatus) line) = some ast)
    (hcmd : ast.cmds[j]? = some cmd) :
    Receives (System.closed answers depth) line p j k s ↔
      ∀ env dirs, (expandArgv env dirs cmd.argv)[k]? = some s := by
  unfold Receives
  rw [closed_answers]
  constructor
  · rintro ⟨ast', cmd', hparse', hcmd', hall, -⟩
    obtain rfl := some.inj (hparse'.symm.trans hparse)
    obtain rfl := some.inj (hcmd'.symm.trans hcmd)
    exact hall
  · refine fun hall => ⟨ast, cmd, hparse, hcmd, hall, fun argv hmem => ?_⟩
    obtain ⟨new, heq, hnew⟩ := execute_hands answers depth line p
    rw [heq, drop_left] at hmem
    obtain ⟨env, dirs, hargv⟩ := hnew _ hmem
    have hargv : argv = expandArgv env dirs cmd.argv := hargv
    rw [hargv]
    exact hall env dirs

/-- The word that is read of a quoted text, expanded behind `op` characters of the line. -/
def readBack (env : Env) (op : Nat) (s post : List Char) : List Char :=
  (lexWord .single wordMax (expandFrom env op (s ++ '\'' :: post))).1

theorem Front.receives_iff (h : Front pre env j k)
    (henv : (answers p.clock).env p.lastStatus = env) :
    Receives (System.closed answers depth) (pre ++ '\'' :: (s ++ '\'' :: post)) p j k s ↔
      k < maxArgs - 1 ∧ ∀ env' dirs,
        expandWord env' dirs (readBack env ((expandVars env pre).length + 1) s post) = s := by
  have hline := h.whole (s ++ '\'' :: post)
  rw [expandFrom_char env rfl h.room] at hline
  obtain ⟨ast, cmd, hparse, hcmd, hfits, hword⟩ := h.place.command
    (expandFrom env ((expandVars env pre).length + 1) (s ++ '\'' :: post))
  rw [← hline, ← henv] at hparse
  rw [Shell.receives_iff hparse hcmd]
  by_cases hk : k < maxArgs - 1
  · simp only [hk, true_and, expandArgv, getElem?_map, hword hk, map_some, some.injEq]
    rfl
  · refine iff_of_false (fun hall => ?_) fun hall => hk hall.1
    have hnone : (expandArgv env (fun _ => none) cmd.argv)[k]? = none := by
      rw [getElem?_eq_none]
      rw [expandArgv, length_map]
      have := hfits.1
      omega
    rw [hall] at hnone
    cases hnone

/-- Answers, and a shell, with the variables, the status and the pid. -/
def answersOf (env : Env) (clock : Nat) : Answers :=
  { calm clock with getenv := env.getenv, pid := env.pid }

theorem received_iff :
    Received pre s j k ↔ ∀ env, Front pre env j k → ∀ post, AfterWord post →
      k < maxArgs - 1 ∧ ∀ env' dirs,
        expandWord env' dirs (readBack env ((expandVars env pre).length + 1) s post) = s := by
  constructor
  · intro hrec env h post hpost
    exact (h.receives_iff rfl).1
      (hrec (answersOf env) 0 { startup with lastStatus := env.lastStatus } post hpost h)
  · exact fun hall answers depth p post hpost h => (h.receives_iff rfl).2 (hall _ h post hpost)

/-- What the expansion leaves behind a word still comes behind a word. -/
theorem AfterWord.expand (h : AfterWord post) (env : Env) (op : Nat) :
    AfterWord (expandFrom env op post) := by
  cases post with
  | nil => trivial
  | cons c post =>
    rcases Nat.lt_or_ge op expandMax with hop | hop
    · have hb : c ≠ '\\' := fun hc => absurd (hc ▸ h : endsWord '\\' = true) (by decide)
      have hd : c ≠ '$' := fun hc => absurd (hc ▸ h : endsWord '$' = true) (by decide)
      rw [expandFrom_char env (scan_char hb fun hc => absurd hc hd) hop]
      exact h
    · rw [expandFrom_full env hop]
      trivial

/-- Text that is copied reaches the word expansion as it is. -/
theorem readBack_of_inert (hq : '\'' ∉ s) (hs : inert s) (hword : s.length ≤ wordMax)
    (hline : op + s.length ≤ expandMax) (env : Env) (hpost : AfterWord post) :
    readBack env op s post = s := by
  have hcopy := expandFrom_inert env (z := '\'' :: post) (fun _ => rfl) hs
    (show op ≤ expandMax by omega)
  rw [if_pos hline] at hcopy
  rw [readBack, hcopy]
  rcases Nat.lt_or_ge (op + s.length) expandMax with hop | hop
  · rw [expandFrom_char env rfl hop, lexWord_single_closed hq (hpost.expand env _) hword]
  · rw [expandFrom_full env hop, append_nil, lexWord_single_open hq, take_of_length_le hword]

/-- Text that is cut off arrives shorter. -/
theorem readBack_cut (hq : '\'' ∉ s) (hs : inert s) (hop : op ≤ expandMax)
    (hline : expandMax < op + s.length) (env : Env) (post : List Char) :
    (readBack env op s post).length < s.length := by
  have hcopy := expandFrom_inert env (z := '\'' :: post) (fun _ => rfl) hs hop
  rw [if_neg (by omega)] at hcopy
  rw [readBack, hcopy, lexWord_single_open fun hmem => hq (mem_of_mem_take hmem)]
  simp only [length_take]
  omega

/-! ### Values of one letter -/

/-- Every variable is set to a letter, and the numbers have one digit. -/
def letterEnv : Env where
  getenv := fun _ => some ['x']
  lastStatus := 0
  pid := 1

/-- What stands for a reference is one character, and no quote. -/
theorem text_letterEnv {p : Piece} (hp : ∀ c, p ≠ .char c) :
    ∃ d, p.text letterEnv = [d] ∧ d ≠ '\'' := by
  cases p with
  | char c => exact absurd rfl (hp c)
  | var name | shellName => exact ⟨'x', rfl, by decide⟩
  | status => exact ⟨'0', by decide +kernel, by decide⟩
  | pid => exact ⟨'1', by decide +kernel, by decide⟩

/-- A reference takes more than its `$`, and leaves one character or nothing. -/
theorem scanDollar_ref {d : Char} {z : List Char} (h : startsRef (d :: z)) :
    (scanDollar (d :: z)).2 <:+ z ∧
      ∃ e, (scanDollar (d :: z)).1.text letterEnv = [e] ∧ e ≠ '\'' := by
  rw [scanDollar]
  split_ifs with h₁ h₂ h₃ h₄ h₅ h₆
  · exact ⟨scanBraces_suffix z, text_letterEnv fun c => Piece.noConfusion⟩
  · exact ⟨suffix_rfl, text_letterEnv fun c => Piece.noConfusion⟩
  · exact ⟨suffix_rfl, text_letterEnv fun c => Piece.noConfusion⟩
  · exact ⟨suffix_rfl, text_letterEnv fun c => Piece.noConfusion⟩
  · exact ⟨suffix_rfl, '0', rfl, by decide⟩
  · refine ⟨?_, text_letterEnv fun c => Piece.noConfusion⟩
    have hd : isNameChar d = true := by simp [isNameChar, h₆]
    simp only [takeWhile_cons, hd, if_true, nameMax, take_succ_cons, length_cons, drop_succ_cons]
    exact drop_suffix _ _
  · simp [startsRef, h₁, h₂, h₃, h₄, h₅, h₆] at h

/-- How many characters of a text are no quotes. -/
def unquoted (s : List Char) : Nat := s.countP (· ≠ '\'')

theorem unquoted_cons (c : Char) (s : List Char) :
    unquoted (c :: s) = unquoted s + if c = '\'' then 0 else 1 := by
  rw [unquoted, countP_cons]
  by_cases hc : c = '\'' <;> simp [hc, unquoted]

theorem unquoted_append (s t : List Char) : unquoted (s ++ t) = unquoted s + unquoted t :=
  countP_append

theorem length_eq_unquoted (s : List Char) : s.length = s.count '\'' + unquoted s := by
  induction s with
  | nil => rfl
  | cons c s ih =>
    rw [length_cons, count_cons, unquoted_cons, ih]
    by_cases hc : c = '\'' <;> simp [hc] <;> omega

theorem unquoted_le_of_suffix {r : List Char} (h : r <:+ s) :
    r.count '\'' ≤ s.count '\'' ∧ unquoted r ≤ unquoted s :=
  ⟨h.sublist.count_le _, h.sublist.countP_le⟩

/-- What stands for a piece has no more quotes and no more other characters than the piece, and
not as many unless it is copied or a last backslash. -/
theorem scan_letterEnv (c : Char) (s : List Char) :
    ((scan c s).1.text letterEnv).count '\'' + (scan c s).2.count '\'' ≤ (c :: s).count '\'' ∧
      unquoted ((scan c s).1.text letterEnv) + unquoted (scan c s).2 ≤ unquoted (c :: s) ∧
      (unquoted (c :: s) ≤ unquoted ((scan c s).1.text letterEnv) + unquoted (scan c s).2 →
        (c = '\\' → s = []) ∧ (c = '$' → startsRef s = false)) := by
  have hone (d : Char) (t : List Char) : unquoted [d] + unquoted t = unquoted (d :: t) := by
    rw [unquoted_cons, unquoted_cons, Nat.add_comm]
    exact (Nat.zero_add _).symm ▸ rfl
  by_cases hb : c = '\\'
  · subst hb
    cases s with
    | nil => decide
    | cons d s =>
      have hscan : scan '\\' (d :: s) = (.char d, s) := rfl
      have hcons := unquoted_cons '\\' (d :: s)
      simp only [hscan, Piece.text, hone, count_cons, count_nil]
      simp at hcons ⊢
      omega
  by_cases hd : c = '$' ∧ startsRef s
  · obtain ⟨rfl, href⟩ := hd
    rcases s with - | ⟨d, z⟩
    · cases href
    have hscan : scan '$' (d :: z) = scanDollar (d :: z) := rfl
    obtain ⟨hsuf, e, htext, he⟩ := scanDollar_ref href
    have hdq : d ≠ '\'' := by
      rintro rfl
      exact absurd href (by simp [startsRef, isNameStart])
    obtain ⟨hcount, hunq⟩ := unquoted_le_of_suffix hsuf
    have h₁ := unquoted_cons '$' (d :: z)
    have h₂ := unquoted_cons d z
    have h₃ : unquoted [e] = 1 := by simp [unquoted, he]
    simp [hdq] at h₁ h₂
    simp only [hscan, htext, h₃]
    simp [he, hdq]
    omega
  · have hd' : c = '$' → startsRef s = false := fun h => Bool.eq_false_iff.2 fun hs => hd ⟨h, hs⟩
    rw [scan_char hb hd']
    simp only [Piece.text, hone]
    refine ⟨?_, Nat.le_refl _, fun _ => ⟨fun h => absurd h hb, hd'⟩⟩
    rw [← count_append, singleton_append]

/-- A text gets no more quotes and no more other characters, and as many of these only if it is
copied. -/
theorem expandFrom_letterEnv (t : List Char) : ∀ op : Nat,
    (expandFrom letterEnv op t).count '\'' ≤ t.count '\'' ∧
      unquoted (expandFrom letterEnv op t) ≤ unquoted t ∧
      (unquoted t ≤ unquoted (expandFrom letterEnv op t) → op ≤ expandMax →
        (∀ u, t ≠ u ++ ['\\']) → inert t) := by
  induction hn : t.length using Nat.strongRecOn generalizing t with
  | ind n ih =>
    intro op
    cases t with
    | nil => exact ⟨Nat.le_refl _, Nat.le_refl _, fun _ _ _ => rfl⟩
    | cons c s =>
      obtain ⟨hcount, hunq, hcopied⟩ := scan_letterEnv c s
      have hlen := (scan_suffix c s).length_le
      rw [length_cons] at hn
      have hrest := ih _ (by omega) (scan c s).2 rfl
      rcases Nat.lt_or_ge op expandMax with hlt | hge
      swap
      · rw [expandFrom_full letterEnv hge]
        refine ⟨Nat.zero_le _, Nat.zero_le _, fun hzero _ _ => ?_⟩
        have hzero : unquoted (c :: s) = 0 := Nat.le_zero.1 hzero
        have hall : ∀ d ∈ c :: s, d = '\'' := by simpa [unquoted, countP_eq_zero] using hzero
        exact inert_of_plain (fun h => absurd (hall _ h) (by decide))
          fun h => absurd (hall _ h) (by decide)
      have hchar (hle : unquoted (c :: s) ≤
          unquoted ((scan c s).1.text letterEnv) + unquoted (scan c s).2)
          (hlast : ∀ u, c :: s ≠ u ++ ['\\']) :
          c ≠ '\\' ∧ (c = '$' → startsRef s = false) ∧ scan c s = (.char c, s) := by
        obtain ⟨hb, hd⟩ := hcopied hle
        have hc : c ≠ '\\' := fun h => hlast [] (by rw [h, hb h]; rfl)
        exact ⟨hc, hd, scan_char hc hd⟩
      rw [expandFrom_cons, if_pos hlt]
      split_ifs with hfits
      · obtain ⟨h₁, h₂, h₃⟩ := hrest (op + ((scan c s).1.text letterEnv).length)
        rw [count_append, unquoted_append]
        refine ⟨by omega, by omega, fun hle _ hlast => ?_⟩
        obtain ⟨hc, hd, hscan⟩ := hchar (by omega) hlast
        rw [hscan] at h₃ hle hunq
        refine inert_cons.2 ⟨hc, hd, h₃ (by omega) hlt fun u hu => hlast (c :: u) ?_⟩
        exact congrArg (c :: ·) hu
      · obtain ⟨h₁, h₂, -⟩ := hrest op
        refine ⟨by omega, by omega, fun hle _ hlast => ?_⟩
        rw [(hchar (by omega) hlast).2.2] at hfits
        exact absurd rfl hfits

theorem length_expandWord_letterEnv (w : List Char) :
    (expandWord letterEnv (fun _ => none) w).length ≤ w.length := by
  have htilde : (expandTilde letterEnv w).length ≤ w.length := by
    unfold expandTilde
    split
    · rw [show letterEnv.getenv _ = some ['x'] from rfl]
      simp only [length_take]
      exact Nat.min_le_right _ _
    · exact Nat.le_refl _
  obtain ⟨hcount, hunq, -⟩ := expandFrom_letterEnv (expandTilde letterEnv w) 0
  rw [length_eq_unquoted (expandTilde letterEnv w)] at htilde
  rw [expandWord]
  simp only [globExpand, head?_nil, getD_none, ite_self]
  rw [expandVars_eq, length_eq_unquoted]
  omega

/-! ### Each condition is needed -/

/-- The word that is read of a text with one quote has no more characters than the text has
besides it. -/
theorem lexWord_unquoted (h : s.count '\'' ≤ 1) (room : Nat) :
    (lexWord .single room s).1.length ≤ unquoted s := by
  induction s generalizing room with
  | nil => exact Nat.zero_le _
  | cons c s ih =>
    rw [count_cons] at h
    cases room with
    | zero =>
      rw [lexWord]
      exact Nat.zero_le _
    | succ room =>
      rw [unquoted_cons]
      by_cases hc : c = '\''
      · have hall := length_eq_unquoted s
        have hword := (lexWord_bounds .plain (room + 1) s).2.1
        simp only [hc, beq_self_eq_true, if_true] at h
        rw [lexWord, if_pos hc, if_pos hc]
        omega
      · simp only [beq_iff_eq, hc, if_false] at h
        rw [lexWord_single_cons hc, if_neg hc]
        exact Nat.succ_le_succ (ih h room)

theorem inert_of_append {t : List Char} (h : inert (s ++ t)) : inert s := by
  induction s with
  | nil => rfl
  | cons c s ih =>
    obtain ⟨hb, hd, hrest⟩ := inert_cons.1 h
    refine inert_cons.2 ⟨hb, fun hc => ?_, ih hrest⟩
    cases s with
    | nil => rfl
    | cons d s => exact hd hc

/-- A text that always arrives is copied through all buffers. -/
theorem Received.copied (h : Front pre letterEnv j k) (hq : '\'' ∉ s) (hrec : Received pre s j k) :
    inert s ∧ (∀ env, Front pre env j k → (expandVars env pre).length + 1 + s.length ≤ expandMax) ∧
      s.length ≤ wordMax ∧ k < maxArgs - 1 := by
  have hget := received_iff.1 hrec
  obtain ⟨hk, hsame⟩ := hget letterEnv h [] trivial
  have hword := length_expandWord_letterEnv
    (readBack letterEnv ((expandVars letterEnv pre).length + 1) s [])
  rw [hsame] at hword
  obtain ⟨hcount, -, hcopied⟩ := expandFrom_letterEnv (s ++ ['\''])
    ((expandVars letterEnv pre).length + 1)
  have hone : (s ++ ['\'']).count '\'' = 1 := by
    rw [count_append, count_eq_zero.2 hq]
    rfl
  have hlen : unquoted (s ++ ['\'']) = s.length := by
    have := length_eq_unquoted (s ++ ['\''])
    rw [length_append, length_singleton] at this
    omega
  have hmax := (lexWord_bounds .single wordMax
    (expandFrom letterEnv ((expandVars letterEnv pre).length + 1) (s ++ ['\'']))).1
  have hread := lexWord_unquoted (hcount.trans hone.le) wordMax
  have hinert := inert_of_append <| hcopied (by rw [hlen]; exact hword.trans hread) h.room
    fun u hu => absurd (append_inj' hu rfl).2 (by decide)
  refine ⟨hinert, fun env henv => ?_, hword.trans hmax, hk⟩
  by_contra hline
  have hcut := readBack_cut hq hinert henv.room (Nat.lt_of_not_le hline) env []
  have hshort := length_expandWord_letterEnv (readBack env ((expandVars env pre).length + 1) s [])
  rw [(hget env henv [] trivial).2] at hshort
  exact Nat.not_lt.2 hshort hcut

theorem expandVars_short (env : Env) (hinert : inert s) (hlen : s.length ≤ wordMax) :
    expandVars env s = s := by
  rw [expandVars_inert env hinert, take_of_length_le (Nat.le_trans hlen (by decide))]

theorem head_of_unchanged (hlen : s.length ≤ wordMax) (h : ∀ env dirs, expandWord env dirs s = s) :
    s.head? ≠ some '~' := by
  intro hhead
  rcases s with - | ⟨c, t⟩
  · cases hhead
  obtain rfl : c = '~' := some.inj hhead
  have hsame := h letterEnv fun _ => none
  rw [expandWord] at hsame
  simp only [globExpand, head?_nil, getD_none, ite_self] at hsame
  exact absurd (cons.inj hsame).1 (by decide)

/-- A directory with one name in it that fills the pattern of the word. -/
def fillDirs (v : List Char) (hne : v ≠ []) (hslash : '/' ∉ v) : Directories := fun _ =>
  some [{
    name := v.map fillChar
    nonempty := fun h => hne (List.map_eq_nil_iff.1 h)
    noSlash := by
      intro h
      obtain ⟨c, hc, heq⟩ := List.mem_map.1 h
      rw [fillChar] at heq
      split_ifs at heq
      · exact absurd heq (by decide)
      · exact hslash (heq ▸ hc) }]

theorem patPart_subset (h : c ∈ patPart s) : c ∈ s :=
  mem_reverse.1 (( takeWhile_prefix _).subset (mem_reverse.1 h))

theorem glob_of_unchanged (hinert : inert s) (hlen : s.length ≤ wordMax)
    (htilde : s.head? ≠ some '~') (h : ∀ env dirs, expandWord env dirs s = s) :
    ∀ c ∈ patPart s, isGlob c = false := by
  intro c hc
  by_contra hglob
  have hne : patPart s ≠ [] := ne_nil_of_mem hc
  have hnot : ∀ u : List Char, c ∉ u.map fillChar := by
    intro u hu
    obtain ⟨d, -, rfl⟩ := mem_map.1 hu
    exact hglob (isGlob_fillChar d)
  have hg : '*' ∈ s ∨ '?' ∈ s := by
    rw [Bool.not_eq_false, isGlob, Bool.or_eq_true, decide_eq_true_eq, decide_eq_true_eq] at hglob
    rcases hglob with rfl | rfl
    · exact Or.inl (patPart_subset hc)
    · exact Or.inr (patPart_subset hc)
  have hfull : fullName (dirPart s) ((patPart s).map fillChar) = s := by
    have hsame := h letterEnv (fillDirs (patPart s) hne (slash_notMem_patPart s))
    rw [expandWord, expandTilde_self _ htilde] at hsame
    simp only [expandVars_short letterEnv hinert hlen, if_pos hg, globExpand, fillDirs, map_cons,
      map_nil, filter_cons_of_pos (listed_fill _), filter_nil,
      head?_cons, getD_some] at hsame
    exact hsame
  rw [fullName] at hfull
  split_ifs at hfull with hdot
  · -- the name alone stands for the word
    exact hnot _ (mem_of_mem_take (hfull ▸ patPart_subset hc))
  · have hslash : '/' ∈ s := by
      by_contra hno
      exact hdot (if_neg hno)
    have hparts := dirPart_patPart hslash
    have hlens := congrArg length hparts
    simp only [length_append, length_cons] at hlens
    rw [take_of_length_le (by
      simp only [length_append, length_cons, length_map]
      have : wordMax ≤ expandMax := by decide
      omega)] at hfull
    have hname := append_cancel_left (hfull.trans hparts.symm)
    refine hnot (patPart s) ?_
    rw [(cons.inj hname).2]
    exact hc

/-- Text that is copied is a front if it fits the line and places the word. -/
theorem front_of_inert (hs : inert pre) (hlen : pre.length < expandMax) (h : Places pre j k)
    (env : Env) : Front pre env j k := by
  have hsame : expandVars env pre = pre := by
    rw [expandVars_inert env hs, take_of_length_le (Nat.le_of_lt hlen)]
  refine ⟨hsame.symm ▸ h, fun z => ?_, hsame.symm ▸ hlen⟩
  have hcopy := expandFrom_inert env (z := '\'' :: z) (fun _ => rfl) hs (Nat.zero_le _)
  rw [Nat.zero_add, if_pos (Nat.le_of_lt hlen)] at hcopy
  rw [hsame, expandVars_eq, hcopy]

/-- `true 'a;b' && echo >f "x" `, in front of argument 2 of command 1. -/
theorem places_example : Places "true 'a;b' && echo >f \"x\" ".toList 1 2 := by
  have hcmd : CmdTokens { argv := ["true".toList, "a;b".toList] }
      [.word "true".toList, .word "a;b".toList] :=
    .arg "a;b".toList (.arg "true".toList .nil)
  have hopens : Opens [.word "true".toList, .word "a;b".toList, .and] 1 :=
    opens_behind (.mk false hcmd .nil) (by decide +kernel) rfl
  refine ⟨_, [.word "echo".toList, .redir .redirOut, .word "f".toList, .word "x".toList],
    hopens, rfl, fun y => ?_⟩
  have hnext (s r : List Char) (t : Token) (h : lexNext (s ++ '\'' :: y) =
      some (t, r ++ '\'' :: y)) :
      tokens (s ++ '\'' :: y) = t :: tokens (r ++ '\'' :: y) := tokens_cons h
  rw [hnext _ " 'a;b' && echo >f \"x\" ".toList (.word "true".toList),
    hnext _ " && echo >f \"x\" ".toList (.word "a;b".toList),
    hnext _ " echo >f \"x\" ".toList .and, hnext _ " >f \"x\" ".toList (.word "echo".toList),
    hnext _ "f \"x\" ".toList (.redir .redirOut), hnext _ " \"x\" ".toList (.word "f".toList),
    hnext _ " ".toList (.word "x".toList)]
  · rw [show " ".toList ++ '\'' :: y = ' ' :: '\'' :: y from rfl, tokens_blank]
    rfl
  all_goals simp [lexNext, lexOp, lexWord, isBlank, endsWord, wordMax]

end Nv0ken.Shell
