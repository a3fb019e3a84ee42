/-
The language the shell's parser reads, as relations between trees and the tokens they are
written with.

`CmdTokens`, `PipelineTokens` and `NodeTokens` say which tokens write a command, a pipeline and
a tree: a tree a line stands for has every token of the line in it, once and in its place.  They
know nothing of the parser.  The first half of this module follows the parser over what is so
written: a command, then the stages of a pipeline, are read back as they are when they fit the
fixed tables and something that is no part of them comes next.
-/
import Nv0ken.Userland.Shell.Parser

namespace Nv0ken.Shell

open List

/-! ### What writes a tree -/

/-- The words and redirections of a command, in any order. -/
inductive CmdTokens : SimpleCmd → List Token → Prop
  | nil : CmdTokens {} []
  | arg {cmd ts} (w : List Char) : CmdTokens cmd ts → CmdTokens (cmd.addArg w) (ts ++ [.word w])
  | file {cmd ts} {rt : RedirType} (f : List Char) : rt ≠ .redirErrOut → CmdTokens cmd ts →
      CmdTokens (cmd.addRedir rt (some f)) (ts ++ [.redir rt, .word f])
  | errOut {cmd ts} : CmdTokens cmd ts →
      CmdTokens (cmd.addRedir .redirErrOut none) (ts ++ [.redir .redirErrOut])

/-- Further commands, each behind its `|`. -/
inductive StageTokens : List SimpleCmd → List Token → Prop
  | nil : StageTokens [] []
  | cons {cmd cmds ts us} : CmdTokens cmd ts → StageTokens cmds us →
      StageTokens (cmd :: cmds) (.pipe :: (ts ++ us))

def ampTokens (background : Bool) : List Token := if background then [.amp] else []

inductive PipelineTokens : Pipeline → List Token → Prop
  | mk {cmd cmds ts us} (background : Bool) : CmdTokens cmd ts → StageTokens cmds us →
      PipelineTokens { cmds := cmd :: cmds, background } (ts ++ (us ++ ampTokens background))

inductive NodeTokens : AstNode → List Token → Prop
  | pipeline {pl ts} : PipelineTokens pl ts → NodeTokens (.pipeline pl) ts
  | subshell {n ts} : NodeTokens n ts → NodeTokens (.subshell n) (.lparen :: (ts ++ [.rparen]))
  | and {l r ts us} : NodeTokens l ts → NodeTokens r us → NodeTokens (.and l r) (ts ++ .and :: us)
  | or {l r ts us} : NodeTokens l ts → NodeTokens r us → NodeTokens (.or l r) (ts ++ .or :: us)
  | seq {l r ts us t} : t = .semi ∨ t = .newline → NodeTokens l ts → NodeTokens r us →
      NodeTokens (.seq l r) (ts ++ t :: us)

variable {t : Token} {ts us : List Token} {cmd : SimpleCmd} {cmds : List SimpleCmd} {pl : Pipeline}
  {rt : RedirType} {node : AstNode → AstNode → AstNode} {w : List Char} {fuel : Nat}

theorem NodeTokens.op {l r : AstNode} (ht : opNode t = some node) (hl : NodeTokens l ts)
    (hr : NodeTokens r us) : NodeTokens (node l r) (ts ++ t :: us) := by
  cases t <;> simp only [opNode, Option.some.injEq, reduceCtorEq] at ht
  all_goals subst ht
  · exact .and hl hr
  · exact .or hl hr
  · exact .seq (Or.inl rfl) hl hr
  · exact .seq (Or.inr rfl) hl hr

/-! ### The fixed tables -/

def SimpleCmd.Fits (cmd : SimpleCmd) : Prop :=
  cmd.argv.length < maxArgs ∧ cmd.redirs.length ≤ maxRedirs

instance (cmd : SimpleCmd) : Decidable cmd.Fits :=
  inferInstanceAs (Decidable (_ ∧ _))

def Pipeline.Fits (pl : Pipeline) : Prop :=
  pl.cmds.length ≤ maxCmds ∧ ∀ cmd ∈ pl.cmds, cmd.Fits

instance (pl : Pipeline) : Decidable pl.Fits :=
  inferInstanceAs (Decidable (_ ∧ _))

/-! ### Reading a command -/

/-- Nothing that would still belong to a command. -/
def StopsCmd : List Token → Prop
  | .word _ :: _ => False
  | .redir _ :: _ => False
  | _ => True

theorem parseSimpleCmd_stop (h : StopsCmd ts) (cmd : SimpleCmd) :
    parseSimpleCmd cmd ts = (cmd, ts) := by
  unfold parseSimpleCmd
  split <;> first | rfl | exact absurd h id

theorem SimpleCmd.Fits.of_addArg (h : (cmd.addArg w).Fits) :
    cmd.Fits ∧ cmd.argv.length < maxArgs - 1 := by
  obtain ⟨ha, hr⟩ := h
  simp only [SimpleCmd.addArg, length_append, length_singleton] at ha hr
  exact ⟨⟨by omega, hr⟩, by omega⟩

theorem SimpleCmd.Fits.of_addRedir {f : Option (List Char)} (h : (cmd.addRedir rt f).Fits) :
    cmd.Fits ∧ cmd.redirs.length < maxRedirs := by
  obtain ⟨ha, hr⟩ := h
  simp only [SimpleCmd.addRedir, length_append, length_singleton] at ha hr
  exact ⟨⟨ha, by omega⟩, by omega⟩

theorem parseSimpleCmd_word (h : cmd.argv.length < maxArgs - 1) :
    parseSimpleCmd cmd (.word w :: ts) = parseSimpleCmd (cmd.addArg w) ts := by
  rw [parseSimpleCmd, if_pos h]

theorem parseSimpleCmd_errOut (h : cmd.redirs.length < maxRedirs) :
    parseSimpleCmd cmd (.redir .redirErrOut :: ts) =
      parseSimpleCmd (cmd.addRedir .redirErrOut none) ts := by
  rw [parseSimpleCmd, if_pos h]

theorem parseSimpleCmd_file {f : Token} (hrt : rt ≠ .redirErrOut)
    (h : cmd.redirs.length < maxRedirs) :
    parseSimpleCmd cmd (.redir rt :: f :: ts) =
      parseSimpleCmd (cmd.addRedir rt (some f.str)) ts := by
  rw [parseSimpleCmd, if_pos h]
  exact hrt

theorem parseSimpleCmd_redir_full (h : ¬ cmd.redirs.length < maxRedirs) :
    parseSimpleCmd cmd (.redir rt :: ts) = parseSimpleCmd cmd ts := by
  by_cases hrt : rt = .redirErrOut
  · rw [hrt, parseSimpleCmd, if_neg h]
  rcases ts with - | ⟨f, ts⟩
  all_goals
    rw [parseSimpleCmd, if_neg h]
    exact hrt

/-- A written command that fits is read into the command it writes. -/
theorem parseSimpleCmd_tokens (h : CmdTokens cmd ts) (hfit : cmd.Fits) (us : List Token) :
    parseSimpleCmd {} (ts ++ us) = parseSimpleCmd cmd us := by
  induction h generalizing us with
  | nil => rfl
  | arg w _ ih =>
    obtain ⟨hf, hlt⟩ := hfit.of_addArg
    rw [append_assoc, ih hf]
    exact parseSimpleCmd_word hlt
  | file f hrt _ ih =>
    obtain ⟨hf, hlt⟩ := hfit.of_addRedir
    rw [append_assoc, ih hf]
    exact parseSimpleCmd_file hrt hlt
  | errOut _ ih =>
    obtain ⟨hf, hlt⟩ := hfit.of_addRedir
    rw [append_assoc, ih hf]
    exact parseSimpleCmd_errOut hlt

theorem parseSimpleCmd_written (h : CmdTokens cmd ts) (hfit : cmd.Fits) (hus : StopsCmd us) :
    parseSimpleCmd {} (ts ++ us) = (cmd, us) := by
  rw [parseSimpleCmd_tokens h hfit, parseSimpleCmd_stop hus]

/-! ### Reading a pipeline -/

/-- Nothing that would still belong to a pipeline. -/
def StopsPipeline : List Token → Prop
  | .pipe :: _ => False
  | .amp :: _ => False
  | .lparen :: _ => False
  | ts => StopsCmd ts

theorem StopsPipeline.stopsCmd (h : StopsPipeline ts) : StopsCmd ts := by
  rcases ts with - | ⟨t, ts⟩
  · trivial
  · cases t <;> trivial

theorem StageTokens.stopsCmd (h : StageTokens cmds ts) (hus : StopsCmd us) :
    StopsCmd (ts ++ us) := by
  cases h with
  | nil => exact hus
  | cons _ _ => trivial

theorem StageTokens.length_le (h : StageTokens cmds ts) : cmds.length ≤ ts.length := by
  induction h with
  | nil => exact Nat.le_refl _
  | cons _ _ ih =>
    simp only [length_cons, length_append]
    omega

theorem parseStages_stop (h : ∀ us, ts ≠ .pipe :: us) (fuel : Nat) (cmds : List SimpleCmd) :
    parseStages fuel cmds ts = (cmds, ts) := by
  unfold parseStages
  split
  · exact absurd rfl (h _)
  · rfl

theorem parseStages_written {acc : List SimpleCmd} (h : StageTokens cmds ts)
    (hfit : ∀ cmd ∈ cmds, cmd.Fits) (hlen : acc.length + cmds.length ≤ maxCmds)
    (hfuel : cmds.length ≤ fuel) (hus : StopsCmd us) (hpipe : ∀ vs, us ≠ .pipe :: vs) :
    parseStages fuel acc (ts ++ us) = (acc ++ cmds, us) := by
  induction h generalizing acc fuel with
  | nil =>
    rw [append_nil]
    exact parseStages_stop hpipe _ _
  | @cons cmd cmds ts₁ ts₂ hcmd hrest ih =>
    rw [length_cons] at hlen hfuel
    obtain ⟨fuel, rfl⟩ : ∃ n, fuel = n + 1 := ⟨fuel - 1, by omega⟩
    have hread : parseSimpleCmd {} (ts₁ ++ ts₂ ++ us) = (cmd, ts₂ ++ us) := by
      rw [append_assoc]
      exact parseSimpleCmd_written hcmd (hfit cmd mem_cons_self) (hrest.stopsCmd hus)
    rw [cons_append, parseStages, if_pos (by omega), hread]
    simp only
    rw [ih (fun c hc => hfit c (mem_cons_of_mem _ hc))
      (by rw [length_append, length_singleton]; omega) (by omega)]
    rw [append_assoc, singleton_append]

theorem ampTokens_stop (hus : StopsPipeline us) (b : Bool) :
    StopsCmd (ampTokens b ++ us) ∧ ∀ vs, ampTokens b ++ us ≠ .pipe :: vs := by
  cases b with
  | true => exact ⟨trivial, fun vs h => by cases h⟩
  | false =>
    refine ⟨hus.stopsCmd, fun vs h => ?_⟩
    subst h
    exact hus

/-- A written pipeline that fits is read into the pipeline it writes. -/
theorem parsePipeline_written (h : PipelineTokens pl ts) (hfit : pl.Fits) (hus : StopsPipeline us) :
    parsePipeline (ts ++ us) = (pl, us) := by
  obtain @⟨cmd, cmds, ts₁, ts₂, b, hcmd, hstages⟩ := h
  obtain ⟨hlen, hfit⟩ := hfit
  obtain ⟨hstop, hpipe⟩ := ampTokens_stop hus b
  have hassoc : ts₁ ++ (ts₂ ++ ampTokens b) ++ us = ts₁ ++ (ts₂ ++ (ampTokens b ++ us)) := by
    simp only [append_assoc]
  have hread := parseSimpleCmd_written hcmd (hfit cmd mem_cons_self) (hstages.stopsCmd hstop)
  have hmore : parseStages (ts₂ ++ (ampTokens b ++ us)).length [cmd]
      (ts₂ ++ (ampTokens b ++ us)) = ([cmd] ++ cmds, ampTokens b ++ us) := by
    refine parseStages_written hstages (fun c hc => hfit c (mem_cons_of_mem _ hc)) ?_ ?_ hstop hpipe
    · simp only [length_cons, length_nil] at hlen ⊢
      omega
    · have := hstages.length_le
      rw [length_append]
      omega
  rw [hassoc, parsePipeline, hread]
  simp only [hmore]
  cases b with
  | true => rfl
  | false =>
    rw [show ampTokens false ++ us = us from rfl]
    split
    · exact absurd hus id
    · rfl

/-! ### Reading an expression -/

def isOperator (t : Token) : Bool := (opNode t).isSome

/-- The tokens a pipeline is written with. -/
def inPipeline : Token → Bool
  | .word _ => true
  | .redir _ => true
  | .pipe => true
  | .amp => true
  | _ => false

theorem CmdTokens.inPipeline (h : CmdTokens cmd ts) : ∀ t ∈ ts, inPipeline t := by
  induction h with
  | nil => exact fun t ht => absurd ht not_mem_nil
  | arg w _ ih | file f _ _ ih | errOut _ ih =>
    exact forall_mem_append.2 ⟨ih, by simp [Shell.inPipeline]⟩

theorem StageTokens.inPipeline (h : StageTokens cmds ts) : ∀ t ∈ ts, inPipeline t := by
  induction h with
  | nil => exact fun t ht => absurd ht not_mem_nil
  | cons hcmd _ ih =>
    exact forall_mem_cons.2 ⟨rfl, forall_mem_append.2 ⟨hcmd.inPipeline, ih⟩⟩

theorem PipelineTokens.inPipeline (h : PipelineTokens pl ts) : ∀ t ∈ ts, inPipeline t := by
  obtain @⟨cmd, cmds, ts₁, ts₂, b, hcmd, hstages⟩ := h
  refine forall_mem_append.2 ⟨hcmd.inPipeline, ?_⟩
  refine forall_mem_append.2 ⟨hstages.inPipeline, ?_⟩
  cases b <;> simp [ampTokens, Shell.inPipeline]

/-- The end of the line, or of a group. -/
def EndsExpr : List Token → Prop
  | [] => True
  | .rparen :: _ => True
  | _ => False

theorem EndsExpr.stopsPipeline (h : EndsExpr ts) : StopsPipeline ts := by
  rcases ts with - | ⟨t, ts⟩
  · trivial
  · cases t <;> trivial

theorem stopsPipeline_operator (h : isOperator t) (us : List Token) : StopsPipeline (t :: us) := by
  cases t <;> trivial

/-- No operator comes next. -/
def StopsExpr : List Token → Prop
  | [] => True
  | t :: _ => opNode t = none

theorem EndsExpr.stopsExpr (h : EndsExpr ts) : StopsExpr ts := by
  rcases ts with - | ⟨t, ts⟩
  · trivial
  · cases t <;> first | rfl | exact absurd h id

theorem parseOps_stop (h : StopsExpr ts) (fuel : Nat) (left : AstNode) :
    parseOps fuel left ts = (left, ts) := by
  rcases fuel with - | fuel
  · rw [parseOps]
  rcases ts with - | ⟨t, ts⟩
  · rw [parseOps]
  · rw [parseOps]
    simp only [show opNode t = none from h]

theorem parseOps_operator (ht : opNode t = some node) (hus : ¬ EndsExpr us) (fuel : Nat)
    (left : AstNode) :
    parseOps (fuel + 1) left (t :: us) =
      parseOps fuel (node left (parseExpr fuel us).1) (parseExpr fuel us).2 := by
  rw [parseOps]
  simp only [ht]
  rcases us with - | ⟨u, us⟩
  · exact absurd trivial hus
  · cases u <;> first | rfl | exact absurd trivial hus

theorem parseExpr_pipeline (h : ∀ us, ts ≠ .lparen :: us) (fuel : Nat) : parseExpr (fuel + 1) ts =
      parseOps fuel (.pipeline (parsePipeline ts).1) (parsePipeline ts).2 := by
  rw [parseExpr]
  exact h

theorem parseExpr_group {inner : AstNode} (h : parseExpr fuel ts = (inner, .rparen :: us)) :
    parseExpr (fuel + 1) (.lparen :: ts) = parseOps fuel (.subshell inner) us := by
  rw [parseExpr]
  simp only [h]

theorem parseExpr_written (h : PipelineTokens pl ts) (hfit : pl.Fits) (hus : StopsPipeline us)
    (fuel : Nat) : parseExpr (fuel + 1) (ts ++ us) = parseOps fuel (.pipeline pl) us := by
  rw [parseExpr_pipeline, parsePipeline_written h hfit hus]
  intro vs hvs
  rcases ts with - | ⟨t, ts⟩
  · rw [nil_append] at hvs
    subst hvs
    exact hus
  · obtain ⟨rfl, -⟩ := cons.inj hvs
    exact absurd (h.inPipeline _ mem_cons_self) (by decide)

end Nv0ken.Shell
