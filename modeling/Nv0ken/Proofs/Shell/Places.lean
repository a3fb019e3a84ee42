/-
Where a word stands on a line, and what the commands of a line are handed.

The commands of a tree are numbered from left to right, and so are the arguments of a command.
Tokens open a command if the parser reads whatever comes behind them into it.  Every command the
shell runs is handed its words as `expand_argv` leaves them (`execute_hands`), also the commands of
a file that `source` reads.
-/
import Nv0ken.Proofs.Shell.Commands
import Nv0ken.Proofs.Shell.Lines

namespace Nv0ken.Shell

open List Option

/-- The commands of a tree, from left to right. -/
def AstNode.cmds : AstNode → List SimpleCmd
  | .pipeline pl => pl.cmds
  | .and l r => l.cmds ++ r.cmds
  | .or l r => l.cmds ++ r.cmds
  | .seq l r => l.cmds ++ r.cmds
  | .subshell n => n.cmds

def startsCmd : Token → Bool
  | .word _ => true
  | .redir _ => true
  | _ => false

/-- A word or a redirection behind the tokens begins command `j` of the line. -/
def Opens (ts : List Token) (j : Nat) : Prop :=
  ∀ t us, startsCmd t →
    (parseTokens (ts ++ t :: us)).1.cmds[j]? = some (parseSimpleCmd {} (t :: us)).1

/-- How many arguments the tokens are for a command with `r` redirections, if they are part of
the command and no redirection waits for its file. -/
def argsIn : Nat → List Token → Option Nat
  | _, [] => some 0
  | r, .word _ :: ts => (argsIn r ts).map (· + 1)
  | r, .redir .redirErrOut :: ts => argsIn (if r < maxRedirs then r + 1 else r) ts
  | r, .redir _ :: ts =>
    if r < maxRedirs then
      match ts with
      | [] => none
      | _ :: ts => argsIn (r + 1) ts
    else argsIn r ts
  | _, _ => none

variable {ts us cur more : List Token} {t : Token} {fuel j k r : Nat} {cmd : SimpleCmd}
  {cmds : List SimpleCmd} {left : AstNode} {w : List Char}

/-! ### A word of a command -/

theorem parseSimpleCmd_keeps (cmd : SimpleCmd) (ts : List Token) :
    cmd.argv <+: (parseSimpleCmd cmd ts).1.argv := by
  refine parseSimpleCmd_rule (P := fun c _ => cmd.argv <+: c.argv) ?_ ?_ (fun _ _ _ h => h)
    prefix_rfl
  · exact fun _ _ _ _ _ h => h.trans (prefix_append _ _)
  · exact fun _ _ _ _ _ _ h => h

theorem getElem?_of_isPrefix {α : Type} {l m : List α} {a : α} (h : l <+: m) (hl : l[j]? = some a) :
    m[j]? = some a := by
  obtain ⟨v, rfl⟩ := h
  rw [getElem?_append_left (List.getElem?_eq_some_iff.1 hl).1]
  exact hl

/-- A word behind `k` arguments becomes argument `k`. -/
theorem parseSimpleCmd_argv (hcur : argsIn cmd.redirs.length cur = some k)
    (hlen : cmd.argv.length + k < maxArgs - 1) :
    (parseSimpleCmd cmd (cur ++ .word w :: more)).1.argv[cmd.argv.length + k]? = some w := by
  generalize hr : cmd.redirs.length = r at hcur
  fun_induction argsIn r cur generalizing cmd k with
  | case1 r =>
    cases hcur
    rw [nil_append, parseSimpleCmd_word hlen]
    refine getElem?_of_isPrefix (parseSimpleCmd_keeps (cmd.addArg w) more) ?_
    simp [SimpleCmd.addArg]
  | case2 r v ts ih =>
    obtain ⟨m, hm, rfl⟩ := map_eq_some_iff.1 hcur
    rw [cons_append, parseSimpleCmd_word (by omega)]
    have hlen' := length_addArg cmd v
    have hnext := @ih m (cmd.addArg v) (by omega) hr hm
    rwa [hlen', Nat.add_right_comm] at hnext
  | case3 r ts ih =>
    rw [cons_append]
    split_ifs at ih hcur with hlt
    · rw [parseSimpleCmd_errOut (hr ▸ hlt)]
      exact ih hlen (by rw [length_addRedir, hr]) hcur
    · rw [parseSimpleCmd_redir_full (hr ▸ hlt)]
      exact ih hlen hr hcur
  | case4 r rt hrt hlt => cases hcur
  | case5 r rt hrt hlt f ts ih =>
    rw [cons_append, cons_append, parseSimpleCmd_file hrt (hr ▸ hlt)]
    exact ih hlen (by rw [length_addRedir, hr]) hcur
  | case6 r rt ts hrt hlt ih =>
    rw [cons_append, parseSimpleCmd_redir_full (hr ▸ hlt)]
    exact ih hlen hr hcur
  | case7 => cases hcur

/-! ### Tokens that open a command -/

theorem cmds_opNode {node : AstNode → AstNode → AstNode} (h : opNode t = some node)
    (l r : AstNode) : (node l r).cmds = l.cmds ++ r.cmds := by
  cases t <;> cases h <;> rfl

/-- The loop of an expression puts further commands behind those it has. -/
theorem parseOps_keeps (fuel : Nat) (left : AstNode) (ts : List Token) :
    left.cmds <+: (parseOps fuel left ts).1.cmds := by
  induction fuel generalizing left ts with
  | zero =>
    simp only [parseOps, prefix_rfl]
  | succ fuel ih =>
    rcases parseOps_cases fuel left ts with hs | ⟨t, us, rfl, ht, hus⟩ |
      ⟨t, us, node, rfl, ht, -, heq⟩
    · simp only [parseOps_stop hs, prefix_rfl]
    · simp only [parseOps_trailing ht hus, prefix_rfl]
    · rw [heq]
      refine IsPrefix.trans ?_ (ih _ _)
      rw [cmds_opNode ht]
      exact prefix_append _ _

theorem parsePipeline_cmds (ts : List Token) :
    (parsePipeline ts).1.cmds = (parseStages (parseSimpleCmd {} ts).2.length
      [(parseSimpleCmd {} ts).1] (parseSimpleCmd {} ts).2).1 := by
  obtain ⟨cmd, us, hcmd, hst⟩ := parsePipeline_cases (Prod.eta (parsePipeline ts)).symm
  rw [hcmd, hst]

theorem parseExpr_first (ht : startsCmd t) (us : List Token) (fuel : Nat) :
    (parseExpr (fuel + 1) (t :: us)).1.cmds[0]? = some (parseSimpleCmd {} (t :: us)).1 := by
  have hpar : ∀ vs, t :: us ≠ .lparen :: vs := by
    rintro vs heq
    cases heq
    cases ht
  rw [parseExpr_pipeline hpar]
  refine getElem?_of_isPrefix (parseOps_keeps _ _ _) ?_
  rw [AstNode.cmds, parsePipeline_cmds]
  exact getElem?_of_isPrefix (parseStages_keeps _ _ _) rfl

theorem opens_first : Opens [] 0 := fun _ us ht => parseExpr_first ht us _

/-- Behind a pipeline and an operator the next command begins. -/
theorem opens_behind {pl : Pipeline} {op : Token} (hpl : PipelineTokens pl ts) (hfit : pl.Fits)
    (hop : isOperator op) : Opens (ts ++ [op]) pl.cmds.length := by
  intro t us ht
  obtain ⟨node, hnode⟩ := exists_opNode hop
  have hgoes : ¬ EndsExpr (t :: us) := by
    intro hend
    cases t <;> first | exact hend | cases ht
  rw [parseTokens, append_assoc, singleton_append,
    parseExpr_written hpl hfit (stopsPipeline_operator hop _), parseOps_operator hnode hgoes]
  refine getElem?_of_isPrefix (parseOps_keeps _ _ _) ?_
  rw [cmds_opNode hnode, AstNode.cmds, getElem?_append_right (Nat.le_refl _), Nat.sub_self,
    length_append, length_cons]
  exact parseExpr_first ht us _

/-! ### What a command is handed -/

/-- Commands were run in between, and each was handed its words as `expand_argv` leaves them. -/
def Hands (s s' : Proc) : Prop :=
  ∃ new, s'.handed = s.handed ++ new ∧ ∀ e ∈ new, ∃ env dirs, e.2 = expandArgv env dirs e.1.argv

section

variable {s s' s₁ s₂ : Proc}

theorem Hands.of_eq (h : s'.handed = s.handed) : Hands s s' :=
  ⟨[], by rw [h, append_nil], fun _ he => absurd he not_mem_nil⟩

theorem Hands.trans (h₁ : Hands s s₁) (h₂ : Hands s₁ s₂) : Hands s s₂ := by
  obtain ⟨new₁, heq₁, hall₁⟩ := h₁
  obtain ⟨new₂, heq₂, hall₂⟩ := h₂
  refine ⟨new₁ ++ new₂, by rw [heq₂, heq₁, append_assoc], fun e he => ?_⟩
  exact (mem_append.1 he).elim (hall₁ e) (hall₂ e)

theorem whileAlive_hands {f : Proc → Int × Proc} (hf : ∀ s, Hands s (f s).2) (s : Proc) :
    Hands s (whileAlive f s).2 := by
  unfold whileAlive
  split_ifs
  · exact .of_eq rfl
  · exact hf s

theorem execSubshell_hands (sys : System) {body : Proc → Int × Proc}
    (hbody : ∀ s, Hands s (body s).2) (s : Proc) : Hands s (execSubshell sys body s).2 := by
  unfold execSubshell
  dsimp only
  split
  · exact .of_eq rfl
  · exact (show Hands s s.forked from .of_eq rfl).trans ((hbody s.forked).trans (.of_eq rfl))

end

section

variable {sys : System} (hrun : ∀ line s, Hands s (sys.run line s))
include hrun

theorem runLines_hands (lines : List (List Char)) (s : Proc) :
    Hands s (runLines sys.run lines s) := by
  induction lines generalizing s with
  | nil => exact .of_eq rfl
  | cons line lines ih =>
    rw [runLines, foldl_cons]
    split_ifs
    · exact ih s
    · exact (hrun line s).trans (ih _)

theorem execBuiltin_hands {a : Answers} {b : Builtin} {args : List (List Char)}
    {redirs : List Redirect} {inFd outFd : Nat} (s : Proc) :
    Hands s (execBuiltin sys a b args redirs inFd outFd s).2 := by
  have hlines (t : Fds) : Hands s (runLines sys.run (b.lines a args) { s with fds := t }) :=
    Hands.trans (.of_eq rfl) (runLines_hands hrun _ _)
  unfold execBuiltin
  dsimp only
  generalize (setupRedirects a.opens redirs _).2 = t
  split
  · exact .of_eq rfl
  · exact .of_eq rfl
  · split_ifs
    · exact hlines t
    · exact (hlines t).trans (.of_eq rfl)

theorem execSimple_hands (cmd : SimpleCmd) (inFd outFd : Nat) (s : Proc) :
    Hands s (execSimple sys cmd inFd outFd s).2 := by
  unfold execSimple
  dsimp only
  split
  · exact .of_eq rfl
  rename_i name args hargv
  have hnew : Hands s { s with
      clock := s.clock + 1
      handed := s.handed ++ [(cmd, name :: args)] } :=
    ⟨_, rfl, forall_mem_singleton.2 ⟨_, _, hargv.symm⟩⟩
  refine hnew.trans ?_
  split
  · exact execBuiltin_hands hrun _
  · split
    · exact .of_eq rfl
    · refine .of_eq ?_
      unfold execChild
      split <;> rfl

theorem spawn_hands (cmds : List SimpleCmd) (inFd : Nat) (pipes : List (Nat × Nat)) (s : Proc) :
    Hands s (spawn sys inFd cmds pipes s).2 := by
  induction cmds generalizing inFd pipes s with
  | nil => exact .of_eq rfl
  | cons cmd cmds ih =>
    have hfirst := execSimple_hands hrun cmd inFd ((pipes.head?.map Prod.snd).getD 1) s
    rw [spawn]
    dsimp only
    split_ifs
    · exact hfirst
    · exact hfirst.trans (ih _ _ _)

theorem execPipeline_hands (pl : Pipeline) (s : Proc) : Hands s (execPipeline sys pl s).2 := by
  rcases hcmds : pl.cmds with - | ⟨cmd, - | ⟨cmd', cmds⟩⟩
  · simp only [execPipeline, hcmds]
    exact .of_eq rfl
  · simp only [execPipeline, hcmds]
    refine (execSimple_hands hrun cmd 0 1 s).trans (.of_eq ?_)
    split_ifs <;> rfl
  · rw [execPipeline_many sys (by rw [hcmds]; simp)]
    have hpipes := (@openPipes_frame sys (pl.cmds.length - 1) s).2.2.2.2
    split
    · rename_i s₁ heq
      rw [heq] at hpipes
      exact .of_eq hpipes
    · rename_i pipes s₁ heq
      rw [heq] at hpipes
      refine (Hands.of_eq hpipes).trans ((spawn_hands hrun pl.cmds 0 pipes s₁).trans (.of_eq ?_))
      dsimp only
      split_ifs
      · rfl
      · rfl
      · rw [waitAll_snd]

theorem execNode_hands (n : AstNode) (s : Proc) : Hands s (execNode (runner sys) n s).2 := by
  induction n generalizing s with
  | pipeline pl => exact whileAlive_hands (execPipeline_hands hrun pl) s
  | and l r ihl ihr | or l r ihl ihr =>
    rw [execNode]
    dsimp only
    split_ifs
    · exact (ihl s).trans (ihr _)
    · exact ihl s
  | seq l r ihl ihr => exact (ihl s).trans (ihr _)
  | subshell n ih => exact whileAlive_hands (execSubshell_hands sys ih) s

theorem execute_hands_of (line : List Char) (s : Proc) : Hands s (execute sys line s).2 := by
  unfold execute
  dsimp only
  split
  · exact .of_eq rfl
  · exact Hands.trans (.of_eq rfl) (execNode_hands hrun _ _)

end

/-- **Every command is handed its expanded words**, however deep files source files. -/
theorem execute_hands (answers : Nat → Answers) (depth : Nat) (line : List Char) (s : Proc) :
    Hands s (execute (System.closed answers depth) line s).2 := by
  induction depth generalizing line s with
  | zero => exact execute_hands_of (fun _ _ => .of_eq rfl) line s
  | succ depth ih => exact execute_hands_of (fun line s => ih line s) line s

end Nv0ken.Shell
