/-
Which lines are in their tree.

The parser has no way to refuse a line: it stops where it can read no further and returns the
tree it has.  `Line` is the language it reads whole.  A unit is a pipeline or a group in
parentheses; a line is a unit, or a unit, an operator and a line that is not empty.

A line of that language is read into a tree that has its tokens (`parseExpr_line`).  For the
other direction the tree the parser returns has the shape of a line, except where an operator
stands in front of an empty rest; there an operator of the line is missing in the tree, so
counting the operators tells the two apart (`parse_reads`).
-/
import Nv0ken.Proofs.Shell.Grammar

namespace Nv0ken.Shell

open List Option

/-- The tokens of a pipeline that the parser's tables can hold. -/
def PipelineText (ts : List Token) : Prop := ∃ pl, PipelineTokens pl ts ∧ pl.Fits

inductive Line : List Token → Prop
  | pipeline {ts} : PipelineText ts → Line ts
  | group {ts} : Line ts → Line (.lparen :: (ts ++ [.rparen]))
  | pipelineOp {ts t us} : PipelineText ts → isOperator t → us ≠ [] → Line us →
      Line (ts ++ t :: us)
  | groupOp {ts t us} : Line ts → isOperator t → us ≠ [] → Line us →
      Line (.lparen :: (ts ++ .rparen :: t :: us))

/-! ### A line is read whole -/

variable {ts us rest : List Token} {t : Token} {fuel : Nat} {r n left l : AstNode}
  {node : AstNode → AstNode → AstNode} {pl : Pipeline} {cmd : SimpleCmd}

theorem Line.head_ne_rparen (h : Line ts) (us : List Token) : ts ≠ .rparen :: us := by
  intro hts
  have hpipe : ∀ vs ws, PipelineText vs → vs ++ ws = .rparen :: us → vs = [] := by
    rintro (- | ⟨v, vs⟩) ws ⟨pl, hpl, -⟩ hvs
    · rfl
    · obtain ⟨rfl, -⟩ := cons.inj hvs
      exact absurd (hpl.inPipeline _ mem_cons_self) (by decide)
  cases h with
  | pipeline h =>
    rw [← append_nil ts] at hts
    rw [hpipe _ _ h hts] at hts
    cases hts
  | group _ | groupOp _ _ _ _ => cases hts
  | pipelineOp h ht _ _ =>
    rw [hpipe _ _ h hts] at hts
    cases hts
    exact absurd ht (by decide)

theorem Line.not_endsExpr (h : Line ts) (hne : ts ≠ []) (us : List Token) :
    ¬ EndsExpr (ts ++ us) := by
  rcases ts with - | ⟨t, ts⟩
  · exact absurd rfl hne
  · intro hend
    cases t <;> first | exact hend | exact h.head_ne_rparen ts rfl

theorem exists_opNode (h : isOperator t) : ∃ node, opNode t = some node :=
  isSome_iff_exists.1 h

/-- Behind a unit, an operator and a line are read with the line as the right side. -/
theorem parseOps_line (ht : isOperator t) (hne : us ≠ []) (hline : Line us) (hrest : EndsExpr rest)
    (hr : parseExpr fuel (us ++ rest) = (r, rest)) (hl : NodeTokens l ts) (hrt : NodeTokens r us) :
    ∃ n, parseOps (fuel + 1) l (t :: (us ++ rest)) = (n, rest) ∧
      NodeTokens n (ts ++ t :: us) := by
  obtain ⟨node, hnode⟩ := exists_opNode ht
  refine ⟨node l r, ?_, .op hnode hl hrt⟩
  rw [parseOps_operator hnode (hline.not_endsExpr hne rest), hr]
  exact parseOps_stop hrest.stopsExpr _ _

theorem parseExpr_line (h : Line ts) (hrest : EndsExpr rest) (hfuel : 2 * ts.length + 1 ≤ fuel) :
    ∃ n, parseExpr fuel (ts ++ rest) = (n, rest) ∧ NodeTokens n ts := by
  induction h generalizing rest fuel with
  | pipeline h =>
    obtain ⟨pl, hpl, hfit⟩ := h
    obtain ⟨fuel, rfl⟩ : ∃ k, fuel = k + 1 := ⟨fuel - 1, by omega⟩
    refine ⟨.pipeline pl, ?_, .pipeline hpl⟩
    rw [parseExpr_written hpl hfit hrest.stopsPipeline, parseOps_stop hrest.stopsExpr]
  | @group ts _ ih =>
    simp only [length_cons, length_append, length_nil] at hfuel
    obtain ⟨fuel, rfl⟩ : ∃ k, fuel = k + 1 := ⟨fuel - 1, by omega⟩
    obtain ⟨n, hn, htok⟩ := @ih (.rparen :: rest) fuel trivial (by omega)
    refine ⟨.subshell n, ?_, .subshell htok⟩
    rw [cons_append, append_assoc, singleton_append, parseExpr_group hn]
    exact parseOps_stop hrest.stopsExpr _ _
  | @pipelineOp ts t us h ht hne hline ih =>
    obtain ⟨pl, hpl, hfit⟩ := h
    simp only [length_cons, length_append] at hfuel
    obtain ⟨fuel, rfl⟩ : ∃ k, fuel = k + 2 := ⟨fuel - 2, by omega⟩
    obtain ⟨r, hr, hrt⟩ := @ih rest fuel hrest (by omega)
    rw [append_assoc, cons_append, parseExpr_written hpl hfit (stopsPipeline_operator ht _)]
    exact parseOps_line ht hne hline hrest hr (.pipeline hpl) hrt
  | @groupOp ts t us h ht hne hline ihin ih =>
    simp only [length_cons, length_append] at hfuel
    obtain ⟨fuel, rfl⟩ : ∃ k, fuel = k + 2 := ⟨fuel - 2, by omega⟩
    obtain ⟨n, hn, htok⟩ := @ihin (.rparen :: t :: (us ++ rest)) (fuel + 1) trivial (by omega)
    obtain ⟨r, hr, hrt⟩ := @ih rest fuel hrest (by omega)
    have hassoc : Token.lparen :: (ts ++ .rparen :: t :: us) ++ rest =
        .lparen :: (ts ++ .rparen :: t :: (us ++ rest)) := by
      simp only [cons_append, append_assoc]
    rw [hassoc, parseExpr_group hn]
    obtain ⟨m, hm, hmt⟩ := parseOps_line ht hne hline hrest hr (.subshell htok) hrt
    refine ⟨m, hm, ?_⟩
    simpa only [cons_append, append_assoc, nil_append] using hmt

/-! ### The operators of a tree -/

def opCount (ts : List Token) : Nat := ts.countP isOperator

def AstNode.ops : AstNode → Nat
  | .pipeline _ => 0
  | .subshell n => n.ops
  | .and l r => l.ops + r.ops + 1
  | .or l r => l.ops + r.ops + 1
  | .seq l r => l.ops + r.ops + 1

theorem opCount_cons (t : Token) (ts : List Token) :
    opCount (t :: ts) = opCount ts + if isOperator t then 1 else 0 :=
  countP_cons

theorem opCount_append (ts us : List Token) : opCount (ts ++ us) = opCount ts + opCount us :=
  countP_append

theorem isOperator_of_opNode (h : opNode t = some node) : isOperator t = true := by
  rw [isOperator, h]
  rfl

theorem ops_opNode (h : opNode t = some node) (l r : AstNode) :
    (node l r).ops = l.ops + r.ops + 1 := by
  cases t <;> simp only [opNode, some.injEq, reduceCtorEq] at h
  all_goals subst h; rfl

theorem PipelineTokens.opCount_eq (h : PipelineTokens pl ts) : opCount ts = 0 := by
  refine countP_eq_zero.2 fun t ht hop => ?_
  have hin := h.inPipeline t ht
  cases t <;> first | exact absurd hin Bool.false_ne_true | exact absurd hop Bool.false_ne_true

/-- The operators of a tree are those of the tokens that write it. -/
theorem NodeTokens.opCount_eq (h : NodeTokens n ts) : opCount ts = n.ops := by
  induction h with
  | pipeline h => exact h.opCount_eq
  | subshell _ ih =>
    rw [opCount_cons, opCount_append, ih]
    rfl
  | and _ _ ihl ihr | or _ _ ihl ihr =>
    rw [opCount_append, opCount_cons, ihl, ihr]
    rfl
  | seq ht _ _ ihl ihr =>
    rcases ht with rfl | rfl <;> rw [opCount_append, opCount_cons, ihl, ihr] <;> rfl

/-! ### Trees of the shape of a line -/

def AstNode.isUnit : AstNode → Bool
  | .pipeline _ => true
  | .subshell _ => true
  | _ => false

/-- What an empty rest of the line is read as. -/
def emptyNode : AstNode := .pipeline { cmds := [{}] }

def AstNode.Shaped : AstNode → Prop
  | .pipeline pl => pl.Fits
  | .subshell n => n.Shaped
  | .and l r => (l.isUnit ∧ l.Shaped) ∧ r.Shaped ∧ r ≠ emptyNode
  | .or l r => (l.isUnit ∧ l.Shaped) ∧ r.Shaped ∧ r ≠ emptyNode
  | .seq l r => (l.isUnit ∧ l.Shaped) ∧ r.Shaped ∧ r ≠ emptyNode

theorem shaped_opNode (h : opNode t = some node) (hl : l.isUnit) (hls : l.Shaped) (hr : r.Shaped)
    (hne : r ≠ emptyNode) : (node l r).Shaped := by
  cases t <;> simp only [opNode, some.injEq, reduceCtorEq] at h
  all_goals subst h; exact ⟨⟨hl, hls⟩, hr, hne⟩

theorem CmdTokens.eq_empty (h : CmdTokens cmd []) : cmd = {} := by
  generalize hts : ([] : List Token) = ts at h
  cases h with
  | nil => rfl
  | arg | file | errOut => exact absurd hts.symm (append_ne_nil_of_right_ne_nil _ (cons_ne_nil _ _))

/-- Only the empty pipeline is written with no token. -/
theorem NodeTokens.ne_nil (h : NodeTokens n ts) (hn : n ≠ emptyNode) : ts ≠ [] := by
  intro hts
  cases h with
  | pipeline h =>
    obtain @⟨cmd, cmds, ts₁, ts₂, b, hcmd, hstages⟩ := h
    obtain ⟨rfl, hmore⟩ := append_eq_nil_iff.1 hts
    obtain ⟨rfl, hb⟩ := append_eq_nil_iff.1 hmore
    obtain rfl : cmds = [] := by
      cases hstages
      rfl
    obtain rfl : b = false := by
      cases b
      · rfl
      · cases hb
    exact hn (by rw [hcmd.eq_empty]; rfl)
  | subshell _ => cases hts
  | and _ _ | or _ _ | seq _ _ _ => exact append_ne_nil_of_right_ne_nil _ (cons_ne_nil _ _) hts

/-- What the tokens of a unit may be followed by. -/
def Leads (ts : List Token) : Prop :=
  ∀ t us, isOperator t → us ≠ [] → Line us → Line (ts ++ t :: us)

/-- A tree of the shape of a line is written with the tokens of a line. -/
theorem line_of_shaped (n : AstNode) (hs : n.Shaped) (h : NodeTokens n ts) :
    Line ts ∧ (n.isUnit → Leads ts) := by
  induction n generalizing ts with
  | pipeline pl =>
    cases h with
    | pipeline h =>
      exact ⟨.pipeline ⟨pl, h, hs⟩, fun _ t us ht hne hus => .pipelineOp ⟨pl, h, hs⟩ ht hne hus⟩
  | subshell n ih =>
    cases h with
    | subshell h =>
      have hin := (ih hs h).1
      refine ⟨.group hin, fun _ t us ht hne hus => ?_⟩
      rw [cons_append, append_assoc, singleton_append]
      exact .groupOp hin ht hne hus
  | and l r ihl ihr =>
    cases h with
    | and hl hr =>
      refine ⟨(ihl hs.1.2 hl).2 hs.1.1 _ _ rfl (hr.ne_nil hs.2.2) (ihr hs.2.1 hr).1, ?_⟩
      exact fun hu => absurd hu Bool.false_ne_true
  | or l r ihl ihr =>
    cases h with
    | or hl hr =>
      refine ⟨(ihl hs.1.2 hl).2 hs.1.1 _ _ rfl (hr.ne_nil hs.2.2) (ihr hs.2.1 hr).1, ?_⟩
      exact fun hu => absurd hu Bool.false_ne_true
  | seq l r ihl ihr =>
    cases h with
    | seq ht hl hr =>
      refine ⟨(ihl hs.1.2 hl).2 hs.1.1 _ _ ?_ (hr.ne_nil hs.2.2) (ihr hs.2.1 hr).1, ?_⟩
      · rcases ht with rfl | rfl <;> rfl
      · exact fun hu => absurd hu Bool.false_ne_true

/-! ### What the parser returns -/

theorem length_addArg (cmd : SimpleCmd) (w : List Char) :
    (cmd.addArg w).argv.length = cmd.argv.length + 1 := List.length_append

theorem length_addRedir (cmd : SimpleCmd) (rt : RedirType) (f : Option (List Char)) :
    (cmd.addRedir rt f).redirs.length = cmd.redirs.length + 1 := List.length_append

theorem SimpleCmd.Fits.addArg (h : cmd.Fits) (hlt : cmd.argv.length < maxArgs - 1) (w : List Char) :
    (cmd.addArg w).Fits := by
  refine ⟨?_, h.2⟩
  rw [length_addArg]
  omega

theorem SimpleCmd.Fits.addRedir (h : cmd.Fits) (hlt : cmd.redirs.length < maxRedirs)
    (rt : RedirType) (f : Option (List Char)) : (cmd.addRedir rt f).Fits := by
  refine ⟨h.1, ?_⟩
  rw [length_addRedir]
  omega

/-- **What holds along the loop**: a round adds a word or a redirection for which there is room, or
it passes a token. -/
theorem parseSimpleCmd_rule {P : SimpleCmd → List Token → Prop}
    (arg : ∀ cmd w t ts, cmd.argv.length < maxArgs - 1 → P cmd (t :: ts) → P (cmd.addArg w) ts)
    (redir : ∀ cmd rt f t ts, cmd.redirs.length < maxRedirs → P cmd (t :: ts) →
      P (cmd.addRedir rt f) ts) (pass : ∀ cmd t ts, P cmd (t :: ts) → P cmd ts) (h : P cmd ts) :
    P (parseSimpleCmd cmd ts).1 (parseSimpleCmd cmd ts).2 := by
  fun_induction parseSimpleCmd cmd ts with
  | case1 cmd str ts hlt ih => exact ih (arg _ _ _ _ hlt h)
  | case2 => exact h
  | case3 cmd ts hlt ih => exact ih (redir _ _ _ _ _ hlt h)
  | case4 cmd ts hlt ih => exact ih (pass _ _ _ h)
  | case5 cmd rt hrt hlt => exact redir _ _ _ _ _ hlt h
  | case6 cmd rt hrt hlt f ts ih => exact ih (pass _ _ _ (redir _ _ _ _ _ hlt h))
  | case7 cmd rt ts hrt hlt ih => exact ih (pass _ _ _ h)
  | case8 => exact h

theorem parseSimpleCmd_fits (ts : List Token) (h : cmd.Fits) : (parseSimpleCmd cmd ts).1.Fits := by
  refine parseSimpleCmd_rule (P := fun cmd _ => cmd.Fits) ?_ ?_ (fun _ _ _ h => h) h
  · exact fun _ w _ _ hlt h => h.addArg hlt w
  · exact fun _ rt f _ _ hlt h => h.addRedir hlt rt f

theorem parseSimpleCmd_suffix (cmd : SimpleCmd) (ts : List Token) :
    (parseSimpleCmd cmd ts).2 <:+ ts := by
  have hpass (t : Token) (us : List Token) (h : t :: us <:+ ts) : us <:+ ts :=
    (suffix_cons t us).trans h
  refine parseSimpleCmd_rule (P := fun _ us => us <:+ ts) ?_ ?_ (fun _ => hpass) suffix_rfl
  · exact fun _ _ t us _ => hpass t us
  · exact fun _ _ _ t us _ => hpass t us

/-- A command that has something keeps it. -/
theorem parseSimpleCmd_nonempty (ts : List Token) (h : 0 < cmd.argv.length + cmd.redirs.length) :
    0 < (parseSimpleCmd cmd ts).1.argv.length + (parseSimpleCmd cmd ts).1.redirs.length := by
  refine parseSimpleCmd_rule (P := fun cmd _ => 0 < cmd.argv.length + cmd.redirs.length) ?_ ?_
    (fun _ _ _ h => h) h
  · intro cmd w t ts _ _
    rw [length_addArg]
    omega
  · intro cmd rt f t ts _ _
    rw [length_addRedir]
    omega

/-- An empty command is what is read where none begins. -/
theorem stopsCmd_of_parse_empty (h : (parseSimpleCmd {} ts).1 = {}) : StopsCmd ts := by
  have hne : ∀ (cmd : SimpleCmd) (us : List Token), (parseSimpleCmd cmd us).1 = {} →
      ¬ 0 < cmd.argv.length + cmd.redirs.length := by
    intro cmd us heq hpos
    have := parseSimpleCmd_nonempty us hpos
    rw [heq] at this
    exact absurd this (by decide)
  rcases ts with - | ⟨t, ts⟩
  · trivial
  cases t with
  | word w =>
    rw [parseSimpleCmd_word (by decide)] at h
    exact hne _ ts h Nat.zero_lt_one
  | redir rt =>
    by_cases hrt : rt = .redirErrOut
    · subst hrt
      rw [parseSimpleCmd_errOut (by decide)] at h
      exact hne _ ts h Nat.zero_lt_one
    · rcases ts with - | ⟨f, ts⟩
      · cases rt <;> first | exact hrt rfl | cases h
      · rw [parseSimpleCmd_file hrt (by decide)] at h
        exact hne _ ts h Nat.zero_lt_one
  | _ => trivial

theorem parseStages_spec (fuel : Nat) {cmds : List SimpleCmd} (ts : List Token)
    (hlen : cmds.length ≤ maxCmds) (hfit : ∀ cmd ∈ cmds, cmd.Fits) :
    ((parseStages fuel cmds ts).1.length ≤ maxCmds ∧
      ∀ cmd ∈ (parseStages fuel cmds ts).1, cmd.Fits) ∧ (parseStages fuel cmds ts).2 <:+ ts := by
  fun_induction parseStages fuel cmds ts with
  | case1 fuel cmds ts hlt cmd us hus ih =>
    have hfits : cmd.Fits := by
      have := parseSimpleCmd_fits ts (show SimpleCmd.Fits {} by decide)
      rwa [hus] at this
    have hsuf : us <:+ ts := by
      have := parseSimpleCmd_suffix {} ts
      rwa [hus] at this
    have := ih (by rw [length_append, length_singleton]; omega)
      (forall_mem_append.2 ⟨hfit, by simpa using hfits⟩)
    exact ⟨this.1, this.2.trans (hsuf.trans (suffix_cons _ _))⟩
  | case2 fuel cmds ts hlt ih =>
    exact ⟨(ih hlen hfit).1, (ih hlen hfit).2.trans (suffix_cons _ _)⟩
  | case3 => exact ⟨⟨hlen, hfit⟩, suffix_rfl⟩

theorem parseStages_keeps (fuel : Nat) (cmds : List SimpleCmd) (ts : List Token) :
    cmds <+: (parseStages fuel cmds ts).1 := by
  fun_induction parseStages fuel cmds ts with
  | case1 fuel cmds ts hlt cmd us hus ih => exact (prefix_append _ _).trans ih
  | case2 fuel cmds ts hlt ih => exact ih
  | case3 => exact prefix_rfl

theorem singleton_lt_maxCmds (cmd : SimpleCmd) : [cmd].length < maxCmds := by
  rw [length_singleton]
  decide

theorem parsePipeline_cases (h : parsePipeline ts = (pl, rest)) :
    ∃ cmd us, parseSimpleCmd {} ts = (cmd, us) ∧
      parseStages us.length [cmd] us = (pl.cmds, ampTokens pl.background ++ rest) := by
  rcases hcmd : parseSimpleCmd {} ts with ⟨cmd, us⟩
  rcases hst : parseStages us.length [cmd] us with ⟨cmds, vs⟩
  refine ⟨cmd, us, rfl, ?_⟩
  rw [parsePipeline, hcmd] at h
  simp only [hst] at h
  split at h <;> cases h <;> exact hst

theorem parsePipeline_spec (h : parsePipeline ts = (pl, rest)) : pl.Fits ∧ rest <:+ ts := by
  obtain ⟨cmd, us, hcmd, hst⟩ := parsePipeline_cases h
  have hfits := parseSimpleCmd_fits ts (show SimpleCmd.Fits {} by decide)
  have hsuf := parseSimpleCmd_suffix {} ts
  rw [hcmd] at hfits hsuf
  have hstages := parseStages_spec us.length us (Nat.le_of_lt (singleton_lt_maxCmds cmd))
    (forall_mem_singleton.2 hfits)
  rw [hst] at hstages
  exact ⟨hstages.1, (suffix_append _ _).trans (hstages.2.trans hsuf)⟩

/-- The empty pipeline is read only where no pipeline begins. -/
theorem stops_of_parsePipeline_empty (h : parsePipeline ts = ({ cmds := [{}] }, rest)) :
    rest = ts ∧ StopsCmd ts ∧ (∀ us, ts ≠ .pipe :: us) ∧ (∀ us, ts ≠ .amp :: us) := by
  obtain ⟨cmd, us, hcmd, hst⟩ := parsePipeline_cases h
  have hpipe : ∀ vs, us ≠ .pipe :: vs := by
    intro vs hvs
    have hlen := (parseStages_keeps vs.length ([cmd] ++ [(parseSimpleCmd {} vs).1])
      (parseSimpleCmd {} vs).2).length_le
    rw [hvs, length_cons, parseStages, if_pos (singleton_lt_maxCmds cmd)] at hst
    simp only at hst
    rw [hst] at hlen
    exact Nat.not_succ_le_self 1 hlen
  rw [parseStages_stop hpipe] at hst
  obtain ⟨hc, hr⟩ := Prod.mk.inj hst
  obtain rfl := singleton_injective hc
  have hts := stopsCmd_of_parse_empty (congrArg Prod.fst hcmd)
  rw [parseSimpleCmd_stop hts] at hcmd
  obtain rfl := (Prod.mk.inj hcmd).2
  refine ⟨hr.symm, hts, hpipe, fun vs hvs => ?_⟩
  subst hvs
  cases h

/-- How a part of the line is read into a tree: no operator comes next, the tree has no more
operators than were read, and it has the shape of a line if it has all of them. -/
structure Reads (ts : List Token) (n : AstNode) (rest : List Token) : Prop where
  length_le : rest.length ≤ ts.length
  stop : StopsExpr rest
  ops_le : n.ops + opCount rest ≤ opCount ts
  shaped : n.ops + opCount rest = opCount ts → n.Shaped

theorem parseOps_trailing (ht : isOperator t) (hus : EndsExpr us) (fuel : Nat) (left : AstNode) :
    parseOps (fuel + 1) left (t :: us) = (left, us) := by
  obtain ⟨node, hnode⟩ := exists_opNode ht
  rw [parseOps]
  simp only [hnode]
  rcases us with - | ⟨u, us⟩
  · rfl
  · cases u <;> first | rfl | exact absurd hus id

/-- The loop stops, leaves out an operator that ends the line or the group, or goes on with
what the operator makes of both sides. -/
theorem parseOps_cases (fuel : Nat) (left : AstNode) (ts : List Token) :
    StopsExpr ts ∨ (∃ t us, ts = t :: us ∧ isOperator t ∧ EndsExpr us) ∨
      ∃ t us node, ts = t :: us ∧ opNode t = some node ∧ ¬ EndsExpr us ∧
        parseOps (fuel + 1) left ts =
          parseOps fuel (node left (parseExpr fuel us).1) (parseExpr fuel us).2 := by
  rcases ts with - | ⟨t, us⟩
  · exact Or.inl trivial
  rcases hnode : opNode t with - | node
  · exact Or.inl hnode
  by_cases hus : EndsExpr us
  · exact Or.inr (Or.inl ⟨t, us, rfl, isOperator_of_opNode hnode, hus⟩)
  · exact Or.inr (Or.inr ⟨t, us, node, rfl, hnode, hus, parseOps_operator hnode hus fuel left⟩)

def AstNode.IsPipeline (n : AstNode) : Prop := ∃ pl, n = .pipeline pl

theorem not_isPipeline_opNode (h : opNode t = some node) (l r : AstNode) :
    ¬ (node l r).IsPipeline := by
  rintro ⟨pl, hpl⟩
  have := ops_opNode h l r
  rw [hpl] at this
  exact Nat.succ_ne_zero _ this.symm

theorem parseOps_not_isPipeline (h : ¬ left.IsPipeline) :
    ¬ (parseOps fuel left ts).1.IsPipeline := by
  induction fuel generalizing left ts with
  | zero =>
    rwa [parseOps]
  | succ fuel ih =>
    rcases parseOps_cases fuel left ts with hs | ⟨t, us, rfl, ht, hus⟩ |
      ⟨t, us, node, rfl, ht, hus, heq⟩
    · rwa [parseOps_stop hs]
    · rwa [parseOps_trailing ht hus]
    · rw [heq]
      exact ih (not_isPipeline_opNode ht _ _)

/-- What follows a group, whose closing parenthesis may be missing. -/
def closeGroup : List Token → List Token
  | .rparen :: ts => ts
  | ts => ts

theorem parseExpr_lparen (fuel : Nat) (ts : List Token) :
    parseExpr (fuel + 1) (.lparen :: ts) =
      parseOps fuel (.subshell (parseExpr fuel ts).1) (closeGroup (parseExpr fuel ts).2) := by
  rw [parseExpr]
  rcases parseExpr fuel ts with ⟨inner, us⟩
  rcases us with - | ⟨u, us⟩
  · rfl
  · cases u <;> rfl

theorem closeGroup_suffix (ts : List Token) : closeGroup ts <:+ ts := by
  unfold closeGroup
  split
  · exact suffix_cons _ _
  · exact suffix_rfl

theorem opCount_le_of_suffix (h : ts <:+ us) : opCount ts ≤ opCount us :=
  h.sublist.countP_le

/-- An empty right side has lost the operator it begins with. -/
theorem opCount_lt_of_empty (hus : ¬ EndsExpr us)
    (h : parseExpr (fuel + 2) us = (emptyNode, rest)) : opCount rest < opCount us := by
  by_cases hpar : ∃ ts, us = .lparen :: ts
  · obtain ⟨ts, rfl⟩ := hpar
    rw [parseExpr_lparen] at h
    refine absurd ⟨_, congrArg Prod.fst h⟩ (parseOps_not_isPipeline ?_)
    rintro ⟨pl, hpl⟩
    cases hpl
  rw [parseExpr_pipeline (fun ts hts => hpar ⟨ts, hts⟩)] at h
  rcases hpl : parsePipeline us with ⟨pl, vs⟩
  rw [hpl] at h
  simp only at h
  rcases parseOps_cases fuel (.pipeline pl) vs with hs | ⟨t, ws, rfl, ht, hws⟩ |
    ⟨t, ws, node, rfl, ht, hws, heq⟩
  · -- then nothing was read, and what stands there is neither an operator nor an end
    rw [parseOps_stop hs] at h
    cases h
    obtain ⟨rfl, hcmd, hpipe, hamp⟩ := stops_of_parsePipeline_empty hpl
    rcases rest with - | ⟨t, ts⟩
    · exact absurd trivial hus
    · exfalso
      cases t with
      | word w | redir rt => exact hcmd
      | pipe => exact hpipe ts rfl
      | amp => exact hamp ts rfl
      | lparen => exact hpar ⟨ts, rfl⟩
      | rparen => exact hus trivial
      | _ => cases hs
  · rw [parseOps_trailing ht hws] at h
    cases h
    have := opCount_le_of_suffix (parsePipeline_spec hpl).2
    rw [opCount_cons, if_pos ht] at this
    omega
  · rw [heq] at h
    exact absurd ⟨_, congrArg Prod.fst h⟩ (parseOps_not_isPipeline (not_isPipeline_opNode ht _ _))

/-- How the loop reads on from a unit. -/
structure ReadsOn (left : AstNode) (ts : List Token) (n : AstNode) (rest : List Token) :
    Prop where
  length_le : rest.length ≤ ts.length
  stop : StopsExpr rest
  ops_le : n.ops + opCount rest ≤ left.ops + opCount ts
  shaped : n.ops + opCount rest = left.ops + opCount ts → left.Shaped → n.Shaped

/-- A unit behind which no operator, or only a last one, is left. -/
theorem ReadsOn.refl (h : StopsExpr ts) : ReadsOn left ts left ts :=
  ⟨Nat.le_refl _, h, Nat.le_refl _, fun _ hl => hl⟩

theorem ReadsOn.trailing (ht : isOperator t) (hus : EndsExpr us) :
    ReadsOn left (t :: us) left us := by
  have hcount : opCount (t :: us) = opCount us + 1 := by rw [opCount_cons, if_pos ht]
  exact ⟨Nat.le_succ _, hus.stopsExpr, by omega, fun heq => by omega⟩

theorem ReadsOn.operator (hunit : left.isUnit) (ht : opNode t = some node) (hus : ¬ EndsExpr us)
    (hr : parseExpr (fuel + 2) us = (r, rest)) (h : Reads us r rest) :
    ReadsOn left (t :: us) (node left r) rest := by
  have hops := ops_opNode ht left r
  have hcount : opCount (t :: us) = opCount us + 1 := by
    rw [opCount_cons, if_pos (isOperator_of_opNode ht)]
  have hle := h.ops_le
  refine ⟨Nat.le_succ_of_le h.length_le, h.stop, by omega, fun heq hleft => ?_⟩
  refine shaped_opNode ht hunit hleft (h.shaped (by omega)) ?_
  rintro rfl
  have hlost := opCount_lt_of_empty hus hr
  rw [show emptyNode.ops = 0 from rfl] at hops
  omega

/-- The unit itself may have been read from further tokens. -/
theorem ReadsOn.reads (h : ReadsOn left us n rest) (hlen : us.length ≤ ts.length)
    (hle : left.ops + opCount us ≤ opCount ts)
    (hshaped : left.ops + opCount us = opCount ts → left.Shaped) : Reads ts n rest := by
  have hops := h.ops_le
  exact ⟨Nat.le_trans h.length_le hlen, h.stop, by omega,
    fun heq => h.shaped (by omega) (hshaped (by omega))⟩

/-- What the parser and its loop read of a part of the line. -/
theorem parse_reads (fuel : Nat) :
    (∀ {ts rest n}, 2 * ts.length + 1 ≤ fuel → parseExpr fuel ts = (n, rest) →
      Reads ts n rest) ∧
    ∀ {left ts rest n}, left.isUnit → 2 * ts.length ≤ fuel →
      parseOps fuel left ts = (n, rest) → ReadsOn left ts n rest := by
  induction fuel with
  | zero =>
    refine ⟨fun hfuel => absurd hfuel (Nat.not_succ_le_zero _), ?_⟩
    intro left ts rest n hunit hfuel h
    obtain rfl : ts = [] := length_eq_zero_iff.1 (by omega)
    cases h
    exact .refl trivial
  | succ fuel ih =>
    obtain ⟨ihexpr, ihops⟩ := ih
    constructor
    · intro ts rest n hfuel h
      by_cases hpar : ∃ us, ts = .lparen :: us
      · obtain ⟨us, rfl⟩ := hpar
        rw [length_cons] at hfuel
        rcases hin : parseExpr fuel us with ⟨inner, vs⟩
        have hreads := ihexpr (by omega) hin
        rw [parseExpr_lparen, hin] at h
        simp only at h
        have hclose := closeGroup_suffix vs
        have hlen := Nat.le_trans hclose.length_le hreads.length_le
        have hcount := opCount_le_of_suffix hclose
        have hle : inner.ops + opCount vs ≤ opCount (.lparen :: us) := hreads.ops_le
        have hinner : (AstNode.subshell inner).ops = inner.ops := rfl
        refine (ihops rfl (by omega) h).reads (Nat.le_succ_of_le hlen) (by omega) fun heq => ?_
        have hall : opCount (.lparen :: us) = opCount us := rfl
        exact hreads.shaped (by omega)
      · rw [parseExpr_pipeline (fun us hus => hpar ⟨us, hus⟩)] at h
        rcases hpl : parsePipeline ts with ⟨pl, us⟩
        obtain ⟨hfit, hsuf⟩ := parsePipeline_spec hpl
        rw [hpl] at h
        simp only at h
        have hlen := hsuf.length_le
        refine (ihops rfl (by omega) h).reads hlen ?_ fun _ => hfit
        exact Nat.le_trans (Nat.le_of_eq (Nat.zero_add _)) (opCount_le_of_suffix hsuf)
    · intro left ts rest n hunit hfuel h
      rcases parseOps_cases fuel left ts with hs | ⟨t, us, rfl, ht, hus⟩ |
        ⟨t, us, node, rfl, ht, hus, heq⟩
      · rw [parseOps_stop hs] at h
        cases h
        exact .refl hs
      · rw [parseOps_trailing ht hus] at h
        cases h
        exact .trailing ht hus
      · rw [length_cons] at hfuel
        rcases hr : parseExpr fuel us with ⟨r, vs⟩
        have hreads := ihexpr (by omega) hr
        rw [heq, hr, parseOps_stop hreads.stop] at h
        cases h
        obtain ⟨k, rfl⟩ : ∃ k, fuel = k + 2 := by
          rcases us with - | ⟨u, us⟩
          · exact absurd trivial hus
          · exact ⟨fuel - 2, by rw [length_cons] at hfuel; omega⟩
        exact .operator hunit ht hus hr hreads

/-- **A line is in its tree, token by token, exactly when it is one the parser's language and
tables have room for.** -/
theorem parse_keeps_tokens_iff (input : List Char) :
    (∀ tree, parse input = some tree → NodeTokens tree (tokens input)) ↔
      Line (tokens input) := by
  by_cases hin : input = []
  · subst hin
    refine ⟨fun _ => .pipeline ⟨{ cmds := [{}] }, .mk false .nil .nil, by decide⟩, ?_⟩
    intro _ tree h
    cases h
  rw [parse, if_neg hin]
  rcases hp : parseTokens (tokens input) with ⟨n, rest⟩
  constructor
  · intro h
    have htok := h n rfl
    have hreads := (parse_reads _).1 (by omega) hp
    have hle := hreads.ops_le
    rw [htok.opCount_eq] at hle
    exact (line_of_shaped n (hreads.shaped (by rw [htok.opCount_eq]; omega)) htok).1
  · intro h tree htree
    obtain ⟨m, hm, htok⟩ := parseExpr_line h (show EndsExpr [] from trivial)
      (Nat.le_succ (2 * (tokens input).length + 1))
    rw [append_nil] at hm
    cases htree
    rw [parseTokens, hm] at hp
    cases hp
    exact htok

/-- `sleep 5 & echo a; echo b`: what stands behind `&` is in no tree. -/
theorem behind_amp_dropped :
    ∃ tree, parse "sleep 5 & echo a; echo b".toList = some tree ∧
      ¬ NodeTokens tree (tokens "sleep 5 & echo a; echo b".toList) := by
  refine ⟨.pipeline { cmds := [{ argv := ["sleep".toList, "5".toList] }], background := true },
    by decide +kernel, fun h => ?_⟩
  have hops : opCount (tokens "sleep 5 & echo a; echo b".toList) = 1 := by decide +kernel
  rw [h.opCount_eq] at hops
  cases hops

end Nv0ken.Shell
