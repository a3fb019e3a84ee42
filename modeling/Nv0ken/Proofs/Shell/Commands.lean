/-
What becomes of the commands of a pipeline.

`exec_simple` returns one number for several things: nothing was run, a builtin has returned, a
child was created, or could not be.  `outcome` tells them apart, and `Starts` says once what
starting a command does to the shell; `spawn_spec` has the same for all commands of a pipeline.
-/
import Nv0ken.Userland.Shell.Main

namespace Nv0ken.Shell

open List

inductive Outcome
  | empty
  | exits
  | sourced
  | builtin (fails : Bool)
  | noFork
  | child (pid : Pid) (ending : Ending)
  deriving DecidableEq, Repr

/-- What becomes of a command. -/
def outcome (sys : System) (cmd : SimpleCmd) (inFd outFd : Nat) (s : Proc) : Outcome :=
  let a := sys s.clock
  match expandArgv (a.env s.lastStatus) a.dirs cmd.argv with
  | [] => .empty
  | name :: args =>
    match builtins.lookup name with
    | some b =>
      if b.lines a args = [] then (b.ret a args).elim .exits fun ret => .builtin (ret ≠ 0)
      else .sourced
    | none =>
      match a.fork with
      | none => .noFork
      | some pid =>
        .child pid (if (setupRedirects a.opens cmd.redirs (childFds inFd outFd s.fds)).1
          then a.ending else .exited 1)

namespace Outcome

/-- What `exec_simple` returns for it. -/
def ret : Outcome → Int
  | .empty => 0
  | .exits => 0
  | .sourced => 0
  | .builtin fails => if fails then 1 else 0
  | .noFork => 1
  | .child pid _ => pid.val

def children : Outcome → List (Pid × Ending)
  | .child pid ending => [(pid, ending)]
  | _ => []

def isExternal : Outcome → Bool
  | .noFork => true
  | .child _ _ => true
  | _ => false

end Outcome

/-- Every builtin returns 0 or 1. -/
theorem ret_eq {a : Answers} {b : Builtin} {args : List (List Char)} {ret : Int}
    (h : b.ret a args = some ret) : ret = (Outcome.builtin (ret ≠ 0)).ret := by
  cases b with
  | succeeds | fails => cases h; rfl
  | mayFail | sources =>
    cases h
    split_ifs <;> rfl
  | exits => cases h

/-- The table of the child a command may create, when it executes its program. -/
def childTable (sys : System) (cmd : SimpleCmd) (inFd outFd : Nat) (s : Proc) : Fds :=
  (setupRedirects (sys s.clock).opens cmd.redirs (childFds inFd outFd s.fds)).2

/-- Everything starting a command does that sources no lines. -/
structure Starts (o : Outcome) (table : Fds) (s : Proc) (r : Int × Proc) : Prop where
  ret : r.1 = o.ret
  waited : r.2.waited = s.waited
  children : r.2.children = o.children ++ s.children
  exits : o = .exits → r.2.exited.isSome
  exited : o ≠ .exits → r.2.exited = s.exited
  fds : o.isExternal → r.2.fds = s.fds
  executed : r.2.executed = s.executed ∨ r.2.executed = s.executed ++ [table]

theorem execSimple_starts {sys : System} {cmd : SimpleCmd} {inFd outFd : Nat} {s : Proc}
    (hsourced : outcome sys cmd inFd outFd s ≠ .sourced) :
    Starts (outcome sys cmd inFd outFd s) (childTable sys cmd inFd outFd s) s
      (execSimple sys cmd inFd outFd s) := by
  rcases hargv : expandArgv ((sys s.clock).env s.lastStatus) (sys s.clock).dirs cmd.argv with
    - | ⟨name, args⟩
  · simp only [outcome, execSimple, hargv]
    exact ⟨rfl, rfl, rfl, Outcome.noConfusion, fun _ => rfl, fun _ => rfl, Or.inl rfl⟩
  rcases hb : builtins.lookup name with - | b
  · rcases hfork : (sys s.clock).fork with - | pid
    · simp only [outcome, execSimple, hargv, hb, hfork]
      exact ⟨rfl, rfl, rfl, Outcome.noConfusion, fun _ => rfl, fun _ => rfl, Or.inl rfl⟩
    · rcases hset : setupRedirects (sys s.clock).opens cmd.redirs
        (childFds inFd outFd s.fds) with ⟨ok, t⟩
      simp only [outcome, execSimple, execChild, childTable, hargv, hb, hfork, hset]
      cases ok with
      | false => exact ⟨rfl, rfl, rfl, Outcome.noConfusion, fun _ => rfl, fun _ => rfl, Or.inl rfl⟩
      | true => exact ⟨rfl, rfl, rfl, Outcome.noConfusion, fun _ => rfl, fun _ => rfl, Or.inr rfl⟩
  · have hlines : b.lines (sys s.clock) args = [] := by
      by_contra hlines
      simp only [outcome, hargv, hb, if_neg hlines] at hsourced
      exact hsourced rfl
    rcases hret : b.ret (sys s.clock) args with - | ret
    · simp only [outcome, execSimple, execBuiltin, hargv, hb, hlines, if_true, hret]
      exact ⟨rfl, rfl, rfl, fun _ => rfl, fun h => absurd rfl h, Bool.noConfusion, Or.inl rfl⟩
    · simp only [outcome, execSimple, execBuiltin, hargv, hb, hlines, if_true, hret]
      exact ⟨ret_eq hret, rfl, rfl, Outcome.noConfusion, fun _ => rfl, Bool.noConfusion, Or.inl rfl⟩

/-! ### All commands of a pipeline -/

/-- What becomes of the commands, up to one that ends the shell. -/
def outcomes (sys : System) (inFd : Nat) : List SimpleCmd → List (Nat × Nat) → Proc → List Outcome
  | [], _, _ => []
  | cmd :: cmds, pipes, s =>
    let outFd := (pipes.head?.map Prod.snd).getD 1
    let o := outcome sys cmd inFd outFd s
    if o = .exits then [o]
    else o :: outcomes sys ((pipes.head?.map Prod.fst).getD 0) cmds pipes.tail
      (execSimple sys cmd inFd outFd s).2

/-- What becomes of the commands of a pipeline, or `none` if its pipes cannot be made. -/
def pipelineOutcomes (sys : System) (pl : Pipeline) (s : Proc) : Option (List Outcome) :=
  match openPipes sys (pl.cmds.length - 1) s with
  | (none, _) => none
  | (some pipes, s) => some (outcomes sys 0 pl.cmds pipes s)

theorem spawn_cons {sys : System} {inFd outFd nextIn : Nat} {cmd : SimpleCmd}
    {pipes : List (Nat × Nat)} {s : Proc} (hout : (pipes.head?.map Prod.snd).getD 1 = outFd)
    (hin : (pipes.head?.map Prod.fst).getD 0 = nextIn) (hs : s.exited = none)
    (ho : outcome sys cmd inFd outFd s ≠ .exits)
    (hsourced : outcome sys cmd inFd outFd s ≠ .sourced) (cmds : List SimpleCmd) :
    spawn sys inFd (cmd :: cmds) pipes s =
      ((execSimple sys cmd inFd outFd s).1 ::
          (spawn sys nextIn cmds pipes.tail (execSimple sys cmd inFd outFd s).2).1,
        (spawn sys nextIn cmds pipes.tail (execSimple sys cmd inFd outFd s).2).2) := by
  have hex := (execSimple_starts hsourced).exited ho
  rw [hs] at hex
  subst hout hin
  rw [spawn]
  simp only [hex, Option.isSome_none, if_false, Bool.false_eq_true]

theorem spawn_exits {sys : System} {inFd : Nat} {cmd : SimpleCmd} {pipes : List (Nat × Nat)}
    {s : Proc} (ho : outcome sys cmd inFd ((pipes.head?.map Prod.snd).getD 1) s = .exits)
    (cmds : List SimpleCmd) :
    spawn sys inFd (cmd :: cmds) pipes s =
      ([], (execSimple sys cmd inFd ((pipes.head?.map Prod.snd).getD 1) s).2) := by
  have hsourced : outcome sys cmd inFd ((pipes.head?.map Prod.snd).getD 1) s ≠ .sourced := by
    rw [ho]
    exact Outcome.noConfusion
  rw [spawn]
  simp only [(execSimple_starts hsourced).exits ho, if_true]

structure Spawned (os : List Outcome) (s : Proc) (r : List Int × Proc) : Prop where
  waited : r.2.waited = s.waited
  exits : .exits ∈ os → r.2.exited.isSome
  exited : .exits ∉ os → r.2.exited = none
  pids : .exits ∉ os → r.1 = os.map Outcome.ret
  children : .exits ∉ os → r.2.children = (os.flatMap Outcome.children).reverse ++ s.children

theorem children_reverse (o : Outcome) : o.children.reverse = o.children := by
  cases o <;> rfl

theorem spawn_spec (sys : System) {cmds : List SimpleCmd} {inFd : Nat} {pipes : List (Nat × Nat)}
    {s : Proc} (hs : s.exited = none) (hsourced : .sourced ∉ outcomes sys inFd cmds pipes s) :
    Spawned (outcomes sys inFd cmds pipes s) s (spawn sys inFd cmds pipes s) := by
  induction cmds generalizing inFd pipes s with
  | nil =>
    exact ⟨rfl, fun h => absurd h not_mem_nil, fun _ => hs, fun _ => rfl, fun _ => rfl⟩
  | cons cmd cmds ih =>
    have hne : outcome sys cmd inFd ((pipes.head?.map Prod.snd).getD 1) s ≠ .sourced := by
      intro heq
      refine hsourced ?_
      rw [outcomes, heq, if_neg Outcome.noConfusion]
      exact mem_cons_self
    have hst := execSimple_starts hne
    rw [outcomes] at hsourced ⊢
    by_cases ho : outcome sys cmd inFd ((pipes.head?.map Prod.snd).getD 1) s = .exits
    · rw [if_pos ho, spawn_exits ho, ho]
      have hmem : Outcome.exits ∈ [Outcome.exits] := mem_singleton_self _
      exact ⟨hst.waited, fun _ => hst.exits ho, fun h => absurd hmem h, fun h => absurd hmem h,
        fun h => absurd hmem h⟩
    · rw [if_neg ho] at hsourced
      rw [if_neg ho, spawn_cons rfl rfl hs ho hne]
      have hrest := @ih ((pipes.head?.map Prod.fst).getD 0) pipes.tail _ ((hst.exited ho).trans hs)
        fun hmem => hsourced (mem_cons_of_mem _ hmem)
      refine ⟨hrest.waited.trans hst.waited, fun h => ?_, fun h => ?_, fun h => ?_, fun h => ?_⟩
      · rcases mem_cons.1 h with heq | hin
        · exact absurd heq.symm ho
        · exact hrest.exits hin
      · exact hrest.exited fun hin => h (mem_cons_of_mem _ hin)
      · rw [map_cons, hst.ret, hrest.pids fun hin => h (mem_cons_of_mem _ hin)]
      · rw [hrest.children fun hin => h (mem_cons_of_mem _ hin), hst.children,
          flatMap_cons, reverse_append, children_reverse, append_assoc]

/-- No file that `source` opens has a line in it. -/
def Unsourced (sys : System) : Prop := ∀ n name, ((sys n).lines name).getD [] = []

section Unsourced

variable {sys : System} (hsys : Unsourced sys)
include hsys

theorem Unsourced.outcome_ne (cmd : SimpleCmd) (inFd outFd : Nat) (s : Proc) :
    outcome sys cmd inFd outFd s ≠ .sourced := by
  have hlines : ∀ (b : Builtin) (args : List (List Char)), b.lines (sys s.clock) args = [] := by
    intro b args
    cases b with
    | sources =>
      cases args with
      | nil => rfl
      | cons name args => exact hsys s.clock name
    | _ => rfl
  intro heq
  rw [outcome] at heq
  split at heq
  · cases heq
  · split at heq
    · rename_i b _
      rw [if_pos (hlines b _)] at heq
      cases hret : b.ret (sys s.clock) _ with
      | none => rw [hret] at heq; cases heq
      | some ret => rw [hret] at heq; cases heq
    · split at heq <;> cases heq

theorem Unsourced.not_mem (cmds : List SimpleCmd) (inFd : Nat) (pipes : List (Nat × Nat))
    (s : Proc) : .sourced ∉ outcomes sys inFd cmds pipes s := by
  induction cmds generalizing inFd pipes s with
  | nil => exact not_mem_nil
  | cons cmd cmds ih =>
    have hne := (hsys.outcome_ne cmd inFd ((pipes.head?.map Prod.snd).getD 1) s).symm
    rw [outcomes]
    split_ifs
    · exact fun hmem => hne (mem_singleton.1 hmem)
    · exact fun hmem => (mem_cons.1 hmem).elim hne (ih _ _ _)

end Unsourced

/-- Making the pipes changes the descriptors only. -/
theorem openPipes_frame (sys : System) {k : Nat} {s : Proc} :
    (openPipes sys k s).2.waited = s.waited ∧ (openPipes sys k s).2.exited = s.exited ∧
      (openPipes sys k s).2.lastStatus = s.lastStatus ∧
      (openPipes sys k s).2.executed = s.executed ∧ (openPipes sys k s).2.handed = s.handed := by
  induction k generalizing s with
  | zero => exact ⟨rfl, rfl, rfl, rfl, rfl⟩
  | succ k ih =>
    rw [openPipes]
    split_ifs
    · rcases pipe s.fds s.pipes with ⟨p, t⟩
      cases p with
      | none => exact ⟨rfl, rfl, rfl, rfl, rfl⟩
      | some p => exact ih
    · exact ⟨rfl, rfl, rfl, rfl, rfl⟩

theorem execPipeline_many (sys : System) {pl : Pipeline} {s : Proc} (hlen : 2 ≤ pl.cmds.length) :
    execPipeline sys pl s =
    match openPipes sys (pl.cmds.length - 1) s with
    | (none, s) => (1, s)
    | (some pipes, s) =>
      let (pids, s) := spawn sys 0 pl.cmds pipes s
      if s.exited.isSome then (0, s)
      else
        let s := { s with fds := closePipes s.fds pipes }
        if pl.background then (0, s)
        else
          let (status, s) := waitAll pids 0 s
          (decode status, { s with lastStatus := decode status }) := by
  rcases hc : pl.cmds with - | ⟨c₁, - | ⟨c₂, cmds⟩⟩
  · rw [hc] at hlen
    cases hlen
  · rw [hc] at hlen
    exact absurd hlen (by simp)
  · obtain ⟨list, background⟩ := pl
    obtain rfl : list = c₁ :: c₂ :: cmds := hc
    rfl

/-- Waiting leaves everything else alone. -/
theorem waitAll_snd {pids : List Int} {status : Int} {s : Proc} :
    (waitAll pids status s).2 = { s with waited := s.waited ++ pids.filter (0 < ·) } := by
  induction pids generalizing status s with
  | nil =>
    rw [waitAll, filter_nil, append_nil]
  | cons pid pids ih =>
    rw [waitAll]
    split_ifs with hpid
    · rw [filter_cons_of_pos (by simpa using hpid)]
      simp only [ih, Proc.waitpid, append_assoc, singleton_append]
    · rw [filter_cons_of_neg (by simpa using hpid)]
      exact ih

/-- A system where every call succeeds and every program exits with 0. -/
def calm : System where
  answers clock :=
    { getenv := fun _ => none
      pid := 2
      dirs := fun _ => none
      fails := false
      lines := fun _ => none
      pipe := true
      fork := some ⟨clock + 3, by omega⟩
      opens := fun _ => true
      ending := .exited 0
      status := 0 }
  run _ s := s

/-- The shell as it is started, with the terminal open three times. -/
def startup : Proc where
  fds := (((Slots.empty File Fs.fdTableMax).set 0 (some (.inherited 0))).set 1
    (some (.inherited 0))).set 2 (some (.inherited 0))

end Nv0ken.Shell
