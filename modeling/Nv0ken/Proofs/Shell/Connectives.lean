/-
Which pipelines of a list run.

`a && b || c ; d` is read by the shell language from the left: each connective looks at the
status of what has run last, and one that is not satisfied skips its own right side only
(`prescribed`).  The walk over the tree that the language gives the line does the same as long as
every pipeline remembers the status it returns (`execNode_leftTree_eq`), which one in the
foreground does that gets its pipes and is neither stopped nor ends the shell (`leftTree_runs`).

The parser makes each connective's right side all of the rest of the line, so the walk stops at
the first connective that is not satisfied (`parseExpr_list`).  The two run the same pipelines
exactly when that connective is followed by none but its like (`runs_prescribed_iff`).
-/
import Nv0ken.Proofs.Shell.Lines
import Nv0ken.Proofs.Shell.Statuses

namespace Nv0ken.Shell

open List

inductive Connective
  | and
  | or
  | seq
  deriving DecidableEq, Repr

/-- The connective a token writes. -/
def connective : Token → Option Connective
  | .and => some .and
  | .or => some .or
  | .semi => some .seq
  | .newline => some .seq
  | _ => none

def Connective.node : Connective → AstNode → AstNode → AstNode
  | .and => .and
  | .or => .or
  | .seq => .seq

/-- Whether the right side runs after a left side with this status. -/
def Connective.runs : Connective → Int → Bool
  | .and, status => status = 0
  | .or, status => status ≠ 0
  | .seq, _ => true

/-- The pipelines of a line, each behind the connective in front of it. -/
abbrev Rest := List (Connective × Pipeline)

/-- The tokens of a line of pipelines joined by connectives. -/
inductive ListTokens : Pipeline → Rest → List Token → Prop
  | one {pl ts} : PipelineTokens pl ts → ts ≠ [] → ListTokens pl [] ts
  | cons {pl ts t c q rest us} : PipelineTokens pl ts → ts ≠ [] → connective t = some c →
      ListTokens q rest us → ListTokens pl ((c, q) :: rest) (ts ++ t :: us)

/-! ### What should run -/

/-- The status a pipeline exits with, given those that have run before it. -/
abbrev Statuses := List Pipeline → Pipeline → Int

/-- The pipelines that run behind `ran`, the last of which left `status`. -/
def prescribedFrom (f : Statuses) : List Pipeline → Int → Rest → List Pipeline
  | ran, _, [] => ran
  | ran, status, (c, q) :: rest =>
    if c.runs status then prescribedFrom f (ran ++ [q]) (f ran q) rest
    else prescribedFrom f ran status rest

def prescribed (f : Statuses) (pl : Pipeline) (rest : Rest) : List Pipeline :=
  prescribedFrom f [pl] (f [] pl) rest

/-! ### What does run -/

/-- The pipelines that have run and the status of the last of them. -/
structure Ran where
  ran : List Pipeline := []
  last : Int := 0

/-- The pipelines are recorded and exit as `f` says.  A line of pipelines has no subshell. -/
def recorder (f : Statuses) : Runner Ran where
  execPipeline pl s := (f s.ran pl, { ran := s.ran ++ [pl], last := f s.ran pl })
  execSubshell body s := body s
  lastStatus s := s.last

/-- The pipelines that run when a line is executed. -/
def ranBy (f : Statuses) (input : List Char) : List Pipeline :=
  match parse input with
  | none => []
  | some tree => (execNode (recorder f) tree {}).2.ran

/-! ### The tree the language prescribes -/

/-- `&&` and `||` take all that stands to their left, back to the last `;`. -/
def leftTreeFrom : AstNode → Rest → AstNode
  | acc, [] => acc
  | acc, (.seq, q) :: rest => .seq acc (leftTreeFrom (.pipeline q) rest)
  | acc, (c, q) :: rest => leftTreeFrom (c.node acc (.pipeline q)) rest

def leftTree (pl : Pipeline) (rest : Rest) : AstNode := leftTreeFrom (.pipeline pl) rest

/-- What runs from left to right behind a pipeline that has returned a status. -/
def leftToRight {σ : Type} (r : Runner σ) : Int × σ → Rest → Int × σ
  | x, [] => x
  | x, (c, q) :: rest =>
    if c.runs x.1 then leftToRight r (r.execPipeline q x.2) rest else leftToRight r x rest

/-- The status each of them returns is the one remembered behind it. -/
def Remembers {σ : Type} (r : Runner σ) : Int × σ → Rest → Prop
  | x, [] => r.lastStatus x.2 = x.1
  | x, (c, q) :: rest =>
    r.lastStatus x.2 = x.1 ∧ if c.runs x.1 then Remembers r (r.execPipeline q x.2) rest
      else Remembers r x rest

variable {f : Statuses} {rest : Rest} {t : Token} {c : Connective} {pl : Pipeline} {ts : List Token}
  {status : Int} {σ : Type} {r : Runner σ}

/-- A connective runs its right side when the left side's status asks for it. -/
theorem execNode_node {l : AstNode} {s : σ}
    (hl : r.lastStatus (execNode r l s).2 = (execNode r l s).1) (c : Connective) (n : AstNode) :
    execNode r (c.node l n) s =
      if c.runs (execNode r l s).1 then execNode r n (execNode r l s).2 else execNode r l s := by
  cases c with
  | and | or =>
    simp only [Connective.node, execNode, Connective.runs, decide_eq_true_eq, hl]
  | seq => rfl

theorem execNode_leftTreeFrom (acc : AstNode) {s : σ} (h : Remembers r (execNode r acc s) rest) :
    execNode r (leftTreeFrom acc rest) s = leftToRight r (execNode r acc s) rest := by
  induction rest generalizing acc s with
  | nil => rfl
  | cons d rest ih =>
    obtain ⟨c, q⟩ := d
    have hstep (heq : leftTreeFrom acc ((c, q) :: rest) =
        leftTreeFrom (c.node acc (.pipeline q)) rest) :
        execNode r (leftTreeFrom acc ((c, q) :: rest)) s =
          leftToRight r (execNode r acc s) ((c, q) :: rest) := by
      have hnode := execNode_node h.1 c (.pipeline q)
      have hrest : Remembers r (execNode r (c.node acc (.pipeline q)) s) rest := by
        rw [hnode]
        split_ifs with hruns
        · exact (if_pos hruns).mp h.2
        · exact (if_neg hruns).mp h.2
      rw [heq, ih _ hrest, hnode, leftToRight]
      split_ifs <;> rfl
    cases c with
    | and | or => exact hstep rfl
    | seq => exact ih (.pipeline q) h.2

/-- **The tree of the language runs its pipelines from left to right**, as long as each remembers
the status it returns. -/
theorem execNode_leftTree_eq {s : σ} (h : Remembers r (r.execPipeline pl s) rest) :
    execNode r (leftTree pl rest) s = leftToRight r (r.execPipeline pl s) rest :=
  execNode_leftTreeFrom (.pipeline pl) h

theorem leftToRight_recorder (x : Int × Ran) :
    (leftToRight (recorder f) x rest).2.ran = prescribedFrom f x.2.ran x.1 rest := by
  induction rest generalizing x with
  | nil => rfl
  | cons d rest ih =>
    rw [leftToRight, prescribedFrom]
    split_ifs
    · exact ih _
    · exact ih _

theorem remembers_recorder {x : Int × Ran} (h : x.2.last = x.1) :
    Remembers (recorder f) x rest := by
  induction rest generalizing x with
  | nil => exact h
  | cons d rest ih =>
    refine ⟨h, ?_⟩
    split_ifs
    · exact ih rfl
    · exact ih h

/-- What is prescribed is what the tree of the language runs. -/
theorem execNode_leftTree (f : Statuses) (pl : Pipeline) (rest : Rest) :
    (execNode (recorder f) (leftTree pl rest) {}).2.ran = prescribed f pl rest := by
  rw [execNode_leftTree_eq (remembers_recorder rfl), leftToRight_recorder]
  rfl

/-! ### The pipelines of the shell -/

/-- The command leaves a status behind: it is a builtin that succeeds, or a child that ends. -/
def Outcome.settles : Outcome → Bool
  | .empty => true
  | .builtin fails => !fails
  | .child _ ending => ending.status.isSome
  | _ => false

/-- The pipeline is in the foreground and gets its pipes, none of its commands ends the shell or
sources lines, and one that is alone leaves a status behind. -/
def Settles (sys : System) (pl : Pipeline) (s : Proc) : Prop :=
  s.exited = none ∧ pl.background = false ∧ pl.cmds ≠ [] ∧
    ∃ os, pipelineOutcomes sys pl s = some os ∧ .exits ∉ os ∧ .sourced ∉ os ∧
      ∀ o, os = [o] → o.settles

theorem remembers_one {sys : System} {cmd : SimpleCmd} {s : Proc} (hs : s.exited = none)
    (hcmds : pl.cmds = [cmd]) (hfg : pl.background = false)
    (hsettles : (outcome sys cmd 0 1 s).settles) :
    (execPipeline sys pl s).2.lastStatus = (execPipeline sys pl s).1 := by
  have hsourced : outcome sys cmd 0 1 s ≠ .sourced := by
    intro ho
    rw [ho] at hsettles
    cases hsettles
  have hexits : outcome sys cmd 0 1 s ≠ .exits := by
    intro ho
    rw [ho] at hsettles
    cases hsettles
  have hst := execSimple_starts hsourced
  have hzero : (outcome sys cmd 0 1 s).ret = 0 →
      (execPipeline sys pl s).2.lastStatus = (execPipeline sys pl s).1 := by
    intro hret
    rw [execPipeline_foreground hsourced hcmds hfg hs hexits]
    simp only [hst.ret.trans hret, gt_iff_lt, Int.lt_irrefl, if_false]
  cases ho : outcome sys cmd 0 1 s with
  | empty => exact hzero (by rw [ho]; rfl)
  | builtin fails =>
    cases fails with
    | false => exact hzero (by rw [ho]; rfl)
    | true => rw [ho] at hsettles; cases hsettles
  | child pid e =>
    have hright := statusRight_child hsourced hcmds hfg hs ho
    rw [ho] at hsettles hst
    obtain ⟨v, hv⟩ := Option.isSome_iff_exists.1 hsettles
    have halive : (execPipeline sys pl s).2.exited = none := by
      have hex := (hst.exited Outcome.noConfusion).trans hs
      rw [execPipeline_foreground hsourced hcmds hfg hs hexits]
      dsimp only
      split_ifs <;> exact hex
    obtain ⟨h₁, h₂⟩ := hright.status halive v hv
    rw [h₁, h₂]
  | exits => exact absurd ho hexits
  | sourced => exact absurd ho hsourced
  | noFork => rw [ho] at hsettles; cases hsettles

theorem remembers_many {sys : System} {os : List Outcome} {s : Proc} (hs : s.exited = none)
    (hlen : 2 ≤ pl.cmds.length) (hfg : pl.background = false)
    (hos : pipelineOutcomes sys pl s = some os) (hexits : .exits ∉ os) (hsourced : .sourced ∉ os) :
    (execPipeline sys pl s).2.lastStatus = (execPipeline sys pl s).1 := by
  obtain ⟨-, hex, -, -⟩ := @openPipes_frame sys (pl.cmds.length - 1) s
  rw [execPipeline_many sys hlen]
  rcases hp : openPipes sys (pl.cmds.length - 1) s with ⟨- | pipes, s₁⟩
  · simp only [pipelineOutcomes, hp] at hos
    cases hos
  · simp only [pipelineOutcomes, hp, Option.some.injEq] at hos
    subst hos
    rw [hp] at hex
    have hsp := spawn_spec sys (hex.trans hs) hsourced
    rcases hr : spawn sys 0 pl.cmds pipes s₁ with ⟨pids, s₂⟩
    rw [hr] at hsp
    have hnone : s₂.exited = none := hsp.exited hexits
    simp only [hr, hnone, hfg, Option.isSome_none, Bool.false_eq_true, if_false]

theorem Settles.remembers {sys : System} {s : Proc} (h : Settles sys pl s) :
    (runner sys).lastStatus ((runner sys).execPipeline pl s).2 =
      ((runner sys).execPipeline pl s).1 := by
  obtain ⟨hs, hfg, hne, os, hos, hexits, hsourced, hone⟩ := h
  have hrun : (runner sys).execPipeline pl s = execPipeline sys pl s := whileAlive_of_alive _ hs
  rw [hrun]
  rcases hcmds : pl.cmds with - | ⟨cmd, - | ⟨cmd₂, cmds⟩⟩
  · exact absurd hcmds hne
  · rw [pipelineOutcomes_one sys hcmds] at hos
    exact remembers_one hs hcmds hfg (hone _ (Option.some.inj hos).symm)
  · exact remembers_many hs (by rw [hcmds]; simp) hfg hos hexits hsourced

/-- Every pipeline that is run from left to right leaves its status behind. -/
def AllSettle (sys : System) : Int × Proc → Rest → Prop
  | _, [] => True
  | x, (c, q) :: rest =>
    if c.runs x.1 then
      Settles sys q x.2 ∧ AllSettle sys ((runner sys).execPipeline q x.2) rest
    else AllSettle sys x rest

/-- The pipeline of one word. -/
def onePipeline (w : String) : Pipeline := { cmds := [{ argv := [w.toList] }] }

theorem settles_one {sys : System} {w : String} {s : Proc} (hs : s.exited = none)
    (h : (outcome sys { argv := [w.toList] } 0 1 s).settles) : Settles sys (onePipeline w) s := by
  refine ⟨hs, rfl, cons_ne_nil _ _, _, pipelineOutcomes_one sys rfl s, ?_, ?_, ?_⟩
  · intro hmem
    rw [← mem_singleton.1 hmem] at h
    cases h
  · intro hmem
    rw [← mem_singleton.1 hmem] at h
    cases h
  · intro o heq
    exact singleton_injective heq ▸ h

theorem opNode_connective (h : connective t = some c) : opNode t = some c.node := by
  cases t <;> simp only [connective, Option.some.injEq, reduceCtorEq] at h
  all_goals subst h; rfl

/-- A node runs its left side, and then its right side or nothing. -/
theorem execNode_op (f : Statuses) {node : AstNode → AstNode → AstNode} (h : opNode t = some node)
    (l r : AstNode) (s : Ran) :
    (execNode (recorder f) (node l r) s).2 =
        (execNode (recorder f) r (execNode (recorder f) l s).2).2 ∨
      (execNode (recorder f) (node l r) s).2 = (execNode (recorder f) l s).2 := by
  rcases hl : execNode (recorder f) l s with ⟨status, s'⟩
  cases t <;> simp only [opNode, Option.some.injEq, reduceCtorEq] at h
  all_goals subst h; simp only [execNode, hl]
  · by_cases hs : status = 0
    · exact Or.inl (by rw [if_pos hs])
    · exact Or.inr (by rw [if_neg hs])
  · by_cases hs : status = 0
    · exact Or.inr (by rw [if_neg (not_not_intro hs)])
    · exact Or.inl (by rw [if_pos hs])
  · exact Or.inl trivial
  · exact Or.inl trivial

/-- What has run stays. -/
theorem execNode_keeps (f : Statuses) (n : AstNode) : ∀ s : Ran,
    s.ran <+: (execNode (recorder f) n s).2.ran := by
  have hop : ∀ {t : Token} {node : AstNode → AstNode → AstNode} {l r : AstNode},
      opNode t = some node → (∀ s, s.ran <+: (execNode (recorder f) l s).2.ran) →
      (∀ s, s.ran <+: (execNode (recorder f) r s).2.ran) →
      ∀ s, s.ran <+: (execNode (recorder f) (node l r) s).2.ran := by
    intro t node l r ht hl hr s
    rcases execNode_op f ht l r s with h | h <;> rw [h]
    · exact (hl s).trans (hr _)
    · exact hl s
  induction n with
  | pipeline pl => exact fun s => prefix_append _ _
  | subshell n ih => exact ih
  | and l r ihl ihr => exact hop (t := .and) rfl ihl ihr
  | or l r ihl ihr => exact hop (t := .or) rfl ihl ihr
  | seq l r ihl ihr => exact hop (t := .semi) rfl ihl ihr

theorem execNode_keeps_left (f : Statuses) {node : AstNode → AstNode → AstNode}
    (h : opNode t = some node) (l r : AstNode) (s : Ran) :
    (execNode (recorder f) l s).2.ran <+: (execNode (recorder f) (node l r) s).2.ran := by
  rcases execNode_op f h l r s with heq | heq
  · rw [heq]
    exact execNode_keeps f r _
  · exact ⟨[], by rw [heq, append_nil]⟩

/-- Whatever the loop makes of the rest of the line, the unit in front of it runs first. -/
theorem parseOps_keeps_left (f : Statuses) (fuel : Nat) (left : AstNode) (ts : List Token)
    (s : Ran) :
    (execNode (recorder f) left s).2.ran <+:
      (execNode (recorder f) (parseOps fuel left ts).1 s).2.ran := by
  induction fuel generalizing left ts with
  | zero =>
    exact ⟨[], by rw [parseOps, append_nil]⟩
  | succ fuel ih =>
    rcases parseOps_cases fuel left ts with hs | ⟨t, us, rfl, ht, hus⟩ |
      ⟨t, us, node, rfl, ht, hus, heq⟩
    · exact ⟨[], by rw [parseOps_stop hs, append_nil]⟩
    · exact ⟨[], by rw [parseOps_trailing ht hus, append_nil]⟩
    · rw [heq]
      exact (execNode_keeps_left f ht left _ s).trans (ih _ _)

theorem ListTokens.begins (h : ListTokens pl rest ts) : ∃ u us, ts = u :: us ∧ inPipeline u := by
  obtain ⟨vs, ws, rfl, hpl, hne⟩ : ∃ vs ws, ts = vs ++ ws ∧ PipelineTokens pl vs ∧ vs ≠ [] := by
    cases h with
    | one hpl hne => exact ⟨ts, [], (append_nil ts).symm, hpl, hne⟩
    | cons hpl hne _ _ => exact ⟨_, _, rfl, hpl, hne⟩
  obtain ⟨v, vs, rfl⟩ := exists_cons_of_ne_nil hne
  exact ⟨v, vs ++ ws, rfl, hpl.inPipeline v mem_cons_self⟩

theorem ListTokens.not_endsExpr (h : ListTokens pl rest ts) : ¬ EndsExpr ts := by
  obtain ⟨u, us, rfl, hin⟩ := h.begins
  intro hend
  cases u <;> first | exact hend | exact absurd hin Bool.false_ne_true

/-- A first pipeline that its table cannot hold is not the one that runs. -/
theorem not_fits_differs {fuel : Nat} {s : Ran} {ran : List Pipeline} (hpl : ¬ pl.Fits)
    (hts : ∀ us, ts ≠ .lparen :: us) (hran : s.ran ++ [pl] <+: ran) :
    (execNode (recorder f) (parseExpr (fuel + 1) ts).1 s).2.ran ≠ ran := by
  intro heq
  rw [parseExpr_pipeline hts] at heq
  rcases hread : parsePipeline ts with ⟨first, us⟩
  rw [hread] at heq
  have hfirst : s.ran ++ [first] <+: ran := heq ▸ parseOps_keeps_left f fuel (.pipeline first) us s
  have hsame : s.ran ++ [first] = s.ran ++ [pl] := by
    refine (prefix_of_prefix_length_le hfirst hran ?_).eq_of_length ?_
    · simp only [length_append, length_singleton, Nat.le_refl]
    · simp only [length_append, length_singleton]
  obtain rfl := singleton_injective (append_cancel_left hsame)
  exact hpl (parsePipeline_spec hread).1

theorem ListTokens.ne_lparen (h : ListTokens pl rest ts) (us : List Token) :
    ts ≠ .lparen :: us := by
  rintro rfl
  obtain ⟨u, us, heq, hin⟩ := h.begins
  obtain ⟨rfl, -⟩ := cons.inj heq
  exact absurd hin (by decide)

/-! ### When the two agree -/

/-- Each pipeline that the connectives reach one after the other fits its table, and the first
connective that is not satisfied is followed by none but its like. -/
def StopsForGood (f : Statuses) : List Pipeline → Int → Rest → Prop
  | _, _, [] => True
  | ran, status, (c, q) :: rest =>
    if c.runs status then q.Fits ∧ StopsForGood f (ran ++ [q]) (f ran q) rest
    else ∀ d ∈ rest, d.1 = c

instance StopsForGood.decidable (f : Statuses) : ∀ (ran : List Pipeline) (status : Int)
    (rest : Rest), Decidable (StopsForGood f ran status rest)
  | _, _, [] => inferInstanceAs (Decidable True)
  | ran, status, (c, q) :: rest =>
    have := StopsForGood.decidable f (ran ++ [q]) (f ran q) rest
    inferInstanceAs (Decidable (if c.runs status then
      q.Fits ∧ StopsForGood f (ran ++ [q]) (f ran q) rest else ∀ d ∈ rest, d.1 = c))

theorem prescribedFrom_keeps (f : Statuses) (rest : Rest) :
    ∀ (ran : List Pipeline) (status : Int), ran <+: prescribedFrom f ran status rest := by
  induction rest with
  | nil => exact fun ran status => prefix_rfl
  | cons d rest ih =>
    intro ran status
    rw [prescribedFrom]
    split
    · exact (prefix_append _ _).trans (ih _ _)
    · exact ih _ _

theorem runs_eq_false_iff {d : Connective} (h : c.runs status = false) :
    d.runs status = false ↔ d = c := by
  cases c <;> cases d <;> simp_all [Connective.runs]

/-- Nothing more runs exactly when no connective is satisfied. -/
theorem prescribedFrom_eq_iff (ran : List Pipeline) :
    prescribedFrom f ran status rest = ran ↔ ∀ d ∈ rest, d.1.runs status = false := by
  induction rest with
  | nil => exact ⟨fun _ d hd => absurd hd not_mem_nil, fun _ => rfl⟩
  | cons d rest ih =>
    rw [prescribedFrom, forall_mem_cons]
    split
    · rename_i hruns
      refine ⟨fun heq => ?_, fun h => absurd (hruns.symm.trans h.1) (by decide)⟩
      have hlen := (prescribedFrom_keeps f rest (ran ++ [d.2]) (f ran d.2)).length_le
      rw [heq, length_append] at hlen
      exact absurd hlen (by simp)
    · rename_i hruns
      rw [ih]
      exact ⟨fun h => ⟨Bool.eq_false_iff.2 hruns, h⟩, fun h => h.2⟩

/-- How a line whose first pipeline fits is walked. -/
theorem parseExpr_list {us : List Token} {q : Pipeline} {fuel : Nat} (hpl : PipelineTokens pl ts)
    (hfit : pl.Fits) (ht : connective t = some c) (hus : ListTokens q rest us)
    (hfuel : 2 * us.length + 1 ≤ fuel) :
    (parseExpr (fuel + 2) (ts ++ t :: us)).1 = c.node (.pipeline pl) (parseExpr fuel us).1 := by
  have hop := opNode_connective ht
  rw [parseExpr_written hpl hfit (stopsPipeline_operator (isOperator_of_opNode hop) us),
    parseOps_operator hop hus.not_endsExpr,
    parseOps_stop ((parse_reads fuel).1 hfuel rfl).stop]

theorem ran_eq_prescribed_iff (f : Statuses) {pl : Pipeline} {rest : Rest} {ts : List Token}
    {fuel : Nat} (h : ListTokens pl rest ts) (s : Ran) (hfuel : 2 * ts.length + 1 ≤ fuel) :
    (execNode (recorder f) (parseExpr fuel ts).1 s).2.ran =
        prescribedFrom f (s.ran ++ [pl]) (f s.ran pl) rest ↔
      pl.Fits ∧ StopsForGood f (s.ran ++ [pl]) (f s.ran pl) rest := by
  by_cases hfit : pl.Fits
  swap
  · obtain ⟨fuel, rfl⟩ : ∃ k, fuel = k + 1 := ⟨fuel - 1, by omega⟩
    refine ⟨fun heq => ?_, fun hc => absurd hc.1 hfit⟩
    exact absurd heq (not_fits_differs hfit h.ne_lparen (prescribedFrom_keeps f rest _ _))
  cases h with
  | one hpl hne =>
    obtain ⟨fuel, rfl⟩ : ∃ k, fuel = k + 1 := ⟨fuel - 1, by omega⟩
    have hread := parseExpr_written hpl hfit (show StopsPipeline [] from trivial) fuel
    rw [append_nil, parseOps_stop (show StopsExpr [] from trivial)] at hread
    rw [hread]
    exact ⟨fun _ => ⟨hfit, trivial⟩, fun _ => rfl⟩
  | @cons _ ts t c q rest us hpl hne ht hus =>
    simp only [length_append, length_cons] at hfuel
    obtain ⟨fuel, rfl⟩ : ∃ k, fuel = k + 2 := ⟨fuel - 2, by omega⟩
    rw [parseExpr_list hpl hfit ht hus (by omega), execNode_node (r := recorder f) rfl,
      prescribedFrom, StopsForGood]
    rcases hruns : c.runs (f s.ran pl) with - | -
    · -- the walk ends here: the rest must have nothing to run
      have hlast : c.runs (execNode (recorder f) (.pipeline pl) s).1 = false := hruns
      rw [hlast, if_neg Bool.false_ne_true, if_neg Bool.false_ne_true, if_neg Bool.false_ne_true,
        eq_comm]
      refine Iff.trans (prescribedFrom_eq_iff (s.ran ++ [pl])) ?_
      refine ⟨fun h => ⟨hfit, fun d hd => (runs_eq_false_iff hruns).1 (h d hd)⟩, ?_⟩
      exact fun h d hd => (runs_eq_false_iff hruns).2 (h.2 d hd)
    · have hlast : c.runs (execNode (recorder f) (.pipeline pl) s).1 = true := hruns
      rw [hlast, if_pos rfl, if_pos rfl, if_pos rfl]
      have hnext := ran_eq_prescribed_iff f hus (execNode (recorder f) (.pipeline pl) s).2
        (show _ ≤ fuel by omega)
      exact Iff.trans hnext ⟨fun h => ⟨hfit, h⟩, fun h => h.2⟩

/-- **A line of pipelines runs those the language prescribes exactly when the first connective
that is not satisfied is followed by none but its like, and those it reaches fit.** -/
theorem runs_prescribed_iff (f : Statuses) (pl : Pipeline) (rest : Rest) (input : List Char)
    (h : ListTokens pl rest (tokens input)) :
    ranBy f input = prescribed f pl rest ↔
      pl.Fits ∧ StopsForGood f [pl] (f [] pl) rest := by
  have hne : input ≠ [] := by
    rintro rfl
    exact h.not_endsExpr trivial
  have hiff := ran_eq_prescribed_iff f h {} (Nat.le_succ (2 * (tokens input).length + 1))
  rw [ranBy, parse, if_neg hne]
  exact hiff

theorem pipelineTokens_one (w : String) : PipelineTokens (onePipeline w) [.word w.toList] :=
  .mk false (.arg w.toList .nil) .nil

/-- Only `false` fails. -/
def falseFails : Statuses := fun _ pl => if pl = onePipeline "false" then 1 else 0

/-- `true || a || b`: both connectives are the one that is not satisfied. -/
theorem runs_prescribed_true : ranBy falseFails "true || a || b".toList = [onePipeline "true"] := by
  have htok : tokens "true || a || b".toList = [.word "true".toList, .or, .word "a".toList, .or,
      .word "b".toList] := by decide +kernel
  have hlist : ListTokens (onePipeline "true") [(.or, onePipeline "a"), (.or, onePipeline "b")]
      (tokens "true || a || b".toList) := by
    rw [htok]
    refine .cons (pipelineTokens_one _) (cons_ne_nil _ _) rfl ?_
    refine .cons (pipelineTokens_one _) (cons_ne_nil _ _) rfl ?_
    exact .one (pipelineTokens_one _) (cons_ne_nil _ _)
  rw [(runs_prescribed_iff falseFails _ _ _ hlist).2 ⟨by decide +kernel, by decide +kernel⟩]
  decide +kernel

/-- `false && a; b`: the language runs `b`, the walk stops at `false`. -/
theorem behind_skipped_lost :
    ListTokens (onePipeline "false") [(.and, onePipeline "a"), (.seq, onePipeline "b")]
        (tokens "false && a; b".toList) ∧
      ranBy falseFails "false && a; b".toList ≠
        prescribed falseFails (onePipeline "false")
          [(.and, onePipeline "a"), (.seq, onePipeline "b")] := by
  have htok : tokens "false && a; b".toList = [.word "false".toList, .and, .word "a".toList, .semi,
      .word "b".toList] := by decide +kernel
  refine ⟨?_, by decide +kernel⟩
  rw [htok]
  refine .cons (pipelineTokens_one _) (cons_ne_nil _ _) rfl ?_
  refine .cons (pipelineTokens_one _) (cons_ne_nil _ _) rfl ?_
  exact .one (pipelineTokens_one _) (cons_ne_nil _ _)

end Nv0ken.Shell
