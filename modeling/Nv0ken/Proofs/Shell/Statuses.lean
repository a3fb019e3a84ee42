/-
The status of a pipeline and of a subshell.

What `exec_simple` returns for a builtin that fails, and for a child that could not be created,
is 1, and `exec_pipeline` takes what is positive for the pid of a child.  In a pipeline the status
is that of the child it has waited for last, which is the last command only if that is a child.
A subshell leaves `g_last_status` as it was.

`right_iff_kept` has exactly when all this does not matter to any pipeline or subshell of a tree,
wherever in it the walk comes to, and `statuses_iff` has it for lines.  Files that `source` reads
are taken to have no lines: those would be run in the middle of a pipeline.
-/
import Mathlib.Data.List.Induction
import Nv0ken.Proofs.Shell.Commands

namespace Nv0ken.Shell

open List Option

/-! ### Status words -/

/-- The status of a command that has ended; for one that is killed the shell's is 1. -/
def Ending.status : Ending → Option Int
  | .exited code => some code.val
  | .signaled _ => some 1
  | .stopped _ => none

theorem decode_exited (code : Fin 256) : decode (Ending.exited code).word = code.val := by
  have hmod : (code.val : Int) * 256 % 128 = 0 := by omega
  simp only [decode, Ending.word, wifexited, hmod, decide_true, if_true, wexitstatus]
  omega

theorem decode_signaled (sig : Fin 126) : decode (Ending.signaled sig).word = 1 := by
  have hmod : ¬ ((sig.val : Int) + 1) % 128 = 0 := by omega
  simp [decode, Ending.word, wifexited, hmod]

theorem decode_stopped (sig : Fin 256) : decode (Ending.stopped sig).word = 1 := by
  have hmod : ¬ ((sig.val : Int) * 256 + 127) % 128 = 0 := by omega
  simp [decode, Ending.word, wifexited, hmod]

variable {e : Ending} {pid : Pid} {cs : List (Pid × Ending)} {os : List Outcome} {r : Int × Proc}
  {s s₁ : Proc} {pl : Pipeline}

theorem decode_word {v : Int} (h : e.status = some v) : decode e.word = v := by
  cases e with
  | exited code => exact (decode_exited code).trans (some.inj h)
  | signaled sig => exact (decode_signaled sig).trans (some.inj h)
  | stopped sig => cases h

theorem decode_word_eq_zero : decode e.word = 0 ↔ e = .exited 0 := by
  cases e with
  | exited code =>
    rw [decode_exited, Ending.exited.injEq, Fin.ext_iff]
    exact Int.natCast_eq_zero
  | signaled sig => simp [decode_signaled]
  | stopped sig => simp [decode_stopped]

theorem wifstopped_word (e : Ending) : wifstopped e.word = e.status.isNone := by
  cases e with
  | exited code =>
    simp [wifstopped, Ending.word, Ending.status]
  | signaled sig =>
    have hmod : ¬ ((sig.val : Int) + 1) % 256 = 127 := by omega
    simp [wifstopped, Ending.word, Ending.status, hmod]
  | stopped sig =>
    have hmod : ((sig.val : Int) * 256 + 127) % 256 = 127 := by omega
    simp [wifstopped, Ending.word, Ending.status, hmod]

/-! ### What the status should be -/

def Outcome.status : Outcome → Option Int
  | .empty => some 0
  | .exits => none
  | .sourced => some 0
  | .builtin fails => some (if fails then 1 else 0)
  | .noFork => some 1
  | .child _ ending => ending.status

/-- The status of the last command, if it has one; a pipeline that cannot be started fails. -/
def pipelineStatus (sys : System) (pl : Pipeline) (s : Proc) : Option Int :=
  match pipelineOutcomes sys pl s with
  | none => some 1
  | some os => os.getLast?.bind Outcome.status

/-- The status returned and the one remembered are `status`, and only children of the shell were
waited for. -/
structure StatusRight (status : Option Int) (s : Proc) (r : Int × Proc) : Prop where
  status : r.2.exited = none → ∀ v, status = some v → r.1 = v ∧ r.2.lastStatus = v
  waits : ∀ pid ∈ r.2.waited.drop s.waited.length, ∃ c ∈ r.2.children, (c.1.val : Int) = pid

/-- How the last child of a pipeline ends. -/
def lastEnding (os : List Outcome) : Option Ending :=
  (os.flatMap Outcome.children).reverse.head?.map Prod.snd

/-- No builtin fails and every child is created; and the last command is a child, or the last
child there is exits with 0.  (`exit` ends the shell before anything is waited for.) -/
def Apart (os : List Outcome) : Prop :=
  .exits ∈ os ∨ ((∀ o ∈ os, o.ret ≠ 1) ∧
    ((∃ pid e, os.getLast? = some (.child pid e)) ∨ ∀ e, lastEnding os = some e → e = .exited 0))

/-! ### Waiting -/

theorem waitAll_append_fst {pids : List Int} {pid status : Int} :
    (waitAll (pids ++ [pid]) status s).1 =
      if 0 < pid then (s.waitpid pid (waitAll pids status s).1).1
      else (waitAll pids status s).1 := by
  induction pids generalizing status s with
  | nil =>
    rw [nil_append, waitAll, waitAll]
    split_ifs <;> rfl
  | cons p pids ih =>
    rw [cons_append, waitAll, waitAll]
    split_ifs with hp hpid
    · rw [ih, if_pos hpid]
      rfl
    · rw [ih, if_neg hpid]
    · rw [ih, if_pos ‹_›]
    · rw [ih, if_neg ‹_›]

/-- The latest child is found first. -/
theorem waitpid_latest (h : s.children = (pid, e) :: cs) (status : Int) :
    (s.waitpid pid.val status).1 = e.word := by
  rw [Proc.waitpid, h, find?_cons_of_pos (by simp)]
  rfl

theorem ret_le_zero {o : Outcome} (hone : o.ret ≠ 1) (hc : o.children = []) : ¬ 0 < o.ret := by
  cases o with
  | builtin fails =>
    cases fails with
    | true => exact absurd rfl hone
    | false => exact Int.lt_irrefl 0
  | noFork => exact absurd rfl hone
  | child pid e => cases hc
  | _ => exact Int.lt_irrefl 0

theorem ret_child (pid : Pid) (e : Ending) : (Outcome.child pid e).ret ≠ 1 := by
  simp only [Outcome.ret]
  omega

/-- When nothing else is taken for a child, the status is that of the last child. -/
theorem waitAll_status (hone : ∀ o ∈ os, o.ret ≠ 1)
    (hcs : s.children = (os.flatMap Outcome.children).reverse ++ cs) :
    (waitAll (os.map Outcome.ret) 0 s).1 = ((lastEnding os).map Ending.word).getD 0 := by
  induction os using reverseRecOn with
  | nil => rfl
  | append_singleton os o ih =>
    have hlast : (o.children = [] ∨ ∃ pid e, o = .child pid e) := by
      cases o with
      | child pid e => exact Or.inr ⟨pid, e, rfl⟩
      | _ => exact Or.inl rfl
    rw [map_append, map_singleton, waitAll_append_fst]
    rw [flatMap_append, flatMap_singleton, reverse_append] at hcs
    rcases hlast with hnil | ⟨pid, e, rfl⟩
    · rw [if_neg (ret_le_zero (hone o (by simp)) hnil)]
      rw [hnil] at hcs
      rw [ih (fun o ho => hone o (by simp [ho])) hcs]
      simp [lastEnding, hnil]
    · have hpos : 0 < (Outcome.child pid e).ret := by
        simp only [Outcome.ret]
        omega
      rw [if_pos hpos]
      refine (waitpid_latest hcs _).trans ?_
      simp [lastEnding, Outcome.children]

/-! ### Pipelines -/

/-- 1 is the pid of no child. -/
theorem not_child_one (s : Proc) : ¬ ∃ c ∈ s.children, (c.1.val : Int) = 1 := by
  rintro ⟨c, -, hc⟩
  have := c.1.property
  omega

/-- A run that waits for nothing. -/
theorem StatusRight.of_waited {status : Option Int} (hw : r.2.waited = s.waited)
    (h : r.2.exited = none → ∀ v, status = some v → r.1 = v ∧ r.2.lastStatus = v) :
    StatusRight status s r := by
  refine ⟨h, fun pid hpid => ?_⟩
  rw [hw, drop_length] at hpid
  exact absurd hpid not_mem_nil

/-- A run that waits for one child. -/
theorem StatusRight.of_child {status : Option Int} {n : Int} (hw : r.2.waited = s.waited ++ [n])
    (hn : n = pid.val) (hmem : (pid, e) ∈ r.2.children)
    (h : ∀ v, status = some v → r.1 = v ∧ r.2.lastStatus = v) : StatusRight status s r := by
  refine ⟨fun _ => h, fun p hp => ?_⟩
  rw [hw, drop_left] at hp
  exact ⟨_, hmem, hn.symm.trans (mem_singleton.1 hp).symm⟩

/-- A run that waits for the process 1. -/
theorem not_statusRight_one {status : Option Int} (h : 1 ∈ r.2.waited.drop s.waited.length) :
    ¬ StatusRight status s r :=
  fun hr => not_child_one r.2 (hr.waits 1 h)

section One

variable {sys : System} {pl : Pipeline} {cmd : SimpleCmd} {s : Proc}
  (hsourced : outcome sys cmd 0 1 s ≠ .sourced) (hcmds : pl.cmds = [cmd])
  (hfg : pl.background = false) (hs : s.exited = none)

include hsourced hcmds

theorem execPipeline_exits (ho : outcome sys cmd 0 1 s = .exits) :
    execPipeline sys pl s = (0, (execSimple sys cmd 0 1 s).2) := by
  have hst := (execSimple_starts hsourced).exits ho
  simp only [execPipeline, hcmds, hst, if_true]

include hfg hs

section

variable (ho : outcome sys cmd 0 1 s ≠ .exits)
include ho

theorem execPipeline_foreground :
    execPipeline sys pl s =
      let (pid, s₁) := execSimple sys cmd 0 1 s
      if pid > 0 then
        let (status, s₂) := s₁.waitpid pid (sys s.clock).status
        if wifstopped status then (0, s₂)
        else (decode status, { s₂ with lastStatus := decode status })
      else (pid, { s₁ with lastStatus := pid }) := by
  have hex := ((execSimple_starts hsourced).exited ho).trans hs
  simp only [execPipeline, hcmds, hfg, hex, isSome_none, Bool.false_eq_true, if_false]

/-- A command that returns 0 without a child. -/
theorem statusRight_zero (hret : (outcome sys cmd 0 1 s).ret = 0)
    (hstatus : (outcome sys cmd 0 1 s).status = some 0) :
    StatusRight (outcome sys cmd 0 1 s).status s (execPipeline sys pl s) := by
  have hst := execSimple_starts hsourced
  have hpid := hst.ret.trans hret
  rw [execPipeline_foreground hsourced hcmds hfg hs ho]
  simp only [hpid, gt_iff_lt, Int.lt_irrefl, if_false]
  refine .of_waited hst.waited fun _ v hv => ?_
  obtain rfl := some.inj (hstatus.symm.trans hv)
  exact ⟨rfl, rfl⟩

/-- A command for which the shell waits for the process 1. -/
theorem not_statusRight_ret (hret : (outcome sys cmd 0 1 s).ret = 1) :
    ¬ StatusRight (outcome sys cmd 0 1 s).status s (execPipeline sys pl s) := by
  have hst := execSimple_starts hsourced
  have hpid := hst.ret.trans hret
  have hw : (execPipeline sys pl s).2.waited = s.waited ++ [1] := by
    rw [execPipeline_foreground hsourced hcmds hfg hs ho]
    simp only [hpid, gt_iff_lt, Int.zero_lt_one, if_true, Proc.waitpid, hst.waited]
    split_ifs <;> rfl
  apply not_statusRight_one
  rw [hw, drop_left]
  exact mem_singleton_self _

end

theorem statusRight_child (ho : outcome sys cmd 0 1 s = .child pid e) :
    StatusRight e.status s (execPipeline sys pl s) := by
  have hst := execSimple_starts hsourced
  rw [ho] at hst
  have hpos : (execSimple sys cmd 0 1 s).1 > 0 := by
    rw [hst.ret]
    simp only [Outcome.ret]
    omega
  have hword := waitpid_latest hst.children (sys s.clock).status
  rw [show (pid.val : Int) = (execSimple sys cmd 0 1 s).1 from hst.ret.symm] at hword
  rw [execPipeline_foreground hsourced hcmds hfg hs (by rw [ho]; exact Outcome.noConfusion)]
  simp only [hpos, if_true, hword, wifstopped_word]
  have hmem : (pid, e) ∈ (execSimple sys cmd 0 1 s).2.children := by
    rw [hst.children]
    exact mem_cons_self
  cases hstatus : e.status with
  | none => exact .of_child (congrArg (· ++ _) hst.waited) hst.ret hmem fun _ hv => by cases hv
  | some v =>
    refine .of_child (congrArg (· ++ _) hst.waited) hst.ret hmem fun w hw => ?_
    obtain rfl := some.inj hw
    exact ⟨decode_word hstatus, decode_word hstatus⟩

omit hsourced hcmds hfg hs in
theorem apart_singleton (o : Outcome) : Apart [o] ↔ o = .exits ∨ o.ret ≠ 1 := by
  constructor
  · rintro (hex | ⟨hone, -⟩)
    · exact Or.inl (List.mem_singleton.1 hex).symm
    · exact Or.inr (hone o (List.mem_singleton_self o))
  · rintro (rfl | hone)
    · exact Or.inl (List.mem_singleton_self _)
    · refine Or.inr ⟨fun p hp => by rwa [List.mem_singleton.1 hp], ?_⟩
      cases o with
      | child pid e => exact Or.inl ⟨pid, e, rfl⟩
      | _ => exact Or.inr fun e he => by cases he

theorem execPipeline_one :
    StatusRight (outcome sys cmd 0 1 s).status s (execPipeline sys pl s) ↔
      Apart [outcome sys cmd 0 1 s] := by
  have hst := execSimple_starts hsourced
  rw [apart_singleton]
  have hzero := statusRight_zero hsourced hcmds hfg hs
  have hone := not_statusRight_ret hsourced hcmds hfg hs
  cases ho : outcome sys cmd 0 1 s with
  | empty =>
    rw [ho] at hzero
    exact iff_of_true (hzero Outcome.noConfusion rfl rfl) (Or.inr Int.zero_ne_one)
  | exits =>
    rw [ho] at hst
    have hex := hst.exits rfl
    rw [execPipeline_exits hsourced hcmds ho]
    refine iff_of_true (.of_waited hst.waited fun hnone => ?_) (Or.inl rfl)
    rw [hnone] at hex
    cases hex
  | builtin fails =>
    rw [ho] at hzero hone
    cases fails with
    | true =>
      refine iff_of_false (hone Outcome.noConfusion rfl) ?_
      rintro (h | h)
      · cases h
      · exact h rfl
    | false => exact iff_of_true (hzero Outcome.noConfusion rfl rfl) (Or.inr Int.zero_ne_one)
  | sourced => exact absurd ho hsourced
  | noFork =>
    rw [ho] at hone
    refine iff_of_false (hone Outcome.noConfusion rfl) ?_
    rintro (h | h)
    · cases h
    · exact h rfl
  | child pid e =>
    exact iff_of_true (statusRight_child hsourced hcmds hfg hs ho) (Or.inr (ret_child pid e))

end One

theorem lastEnding_child (h : os.getLast? = some (.child pid e)) : lastEnding os = some e := by
  obtain ⟨os, rfl⟩ := getLast?_eq_some_iff.1 h
  simp [lastEnding, Outcome.children]

/-- The status of the last command, when only children are waited for. -/
theorem decode_last_iff (hex : .exits ∉ os) (hone : ∀ o ∈ os, o.ret ≠ 1) :
    (∀ v, os.getLast?.bind Outcome.status = some v →
        decode (((lastEnding os).map Ending.word).getD 0) = v) ↔
      (∃ pid e, os.getLast? = some (.child pid e)) ∨
        ∀ e, lastEnding os = some e → e = .exited 0 := by
  have hzero : decode (((lastEnding os).map Ending.word).getD 0) = 0 ↔
      ∀ e, lastEnding os = some e → e = .exited 0 := by
    cases hlast : lastEnding os with
    | none => exact iff_of_true rfl fun e he => by cases he
    | some e =>
      rw [map_some, getD_some, decode_word_eq_zero]
      exact ⟨fun h e' he => some.inj he ▸ h, fun h => h e rfl⟩
  rcases hos : os.getLast? with - | o
  · obtain rfl := getLast?_eq_none_iff.1 hos
    exact iff_of_true (fun v hv => by cases hv) (Or.inr fun e he => by cases he)
  · have hmem := mem_of_getLast? hos
    have hnot : (∀ pid e, o ≠ .child pid e) → ¬ ∃ pid e, some o = some (.child pid e) := by
      rintro hne ⟨pid, e, h⟩
      exact hne pid e (some.inj h)
    have hstatus : o.status = some 0 → (∀ pid e, o ≠ .child pid e) →
        ((∀ v, (some o).bind Outcome.status = some v →
          decode (((lastEnding os).map Ending.word).getD 0) = v) ↔
          (∃ pid e, some o = some (.child pid e)) ∨
            ∀ e, lastEnding os = some e → e = .exited 0) := by
      intro h0 hne
      rw [or_iff_right (hnot hne), ← hzero, bind_some, h0]
      exact ⟨fun h => h 0 rfl, fun h v hv => h.trans (some.inj hv)⟩
    cases o with
    | empty | sourced => exact hstatus rfl fun _ _ => Outcome.noConfusion
    | exits => exact absurd hmem hex
    | builtin fails =>
      cases fails with
      | true => exact absurd rfl (hone _ hmem)
      | false => exact hstatus rfl fun _ _ => Outcome.noConfusion
    | noFork => exact absurd rfl (hone _ hmem)
    | child pid e =>
      refine iff_of_true (fun v hv => ?_) (Or.inl ⟨pid, e, rfl⟩)
      rw [lastEnding_child hos]
      exact decode_word hv

/-- A pipeline whose commands have been started. -/
theorem statusRight_waitAll {s₂ : Proc} (hex : .exits ∉ os) (hnone : s₂.exited = none)
    (hwaited : s₂.waited = s.waited)
    (hcs : s₂.children = (os.flatMap Outcome.children).reverse ++ cs) :
    StatusRight (os.getLast?.bind Outcome.status) s
        (decode (waitAll (os.map Outcome.ret) 0 s₂).1,
          { (waitAll (os.map Outcome.ret) 0 s₂).2 with
            lastStatus := decode (waitAll (os.map Outcome.ret) 0 s₂).1 }) ↔ Apart os := by
  have hnew : (waitAll (os.map Outcome.ret) 0 s₂).2.waited.drop s.waited.length =
      (os.map Outcome.ret).filter (0 < ·) := by
    rw [waitAll_snd, hwaited, drop_left]
  by_cases hone : ∀ o ∈ os, o.ret ≠ 1
  · have hwaits : ∀ pid ∈ (os.map Outcome.ret).filter (0 < ·),
        ∃ c ∈ s₂.children, (c.1.val : Int) = pid := by
      intro pid hpid
      obtain ⟨hmem, hpos⟩ := mem_filter.1 hpid
      obtain ⟨o, ho, rfl⟩ := mem_map.1 hmem
      cases o with
      | child pid e =>
        refine ⟨(pid, e), ?_, rfl⟩
        rw [hcs, mem_append, mem_reverse, mem_flatMap]
        exact Or.inl ⟨_, ho, mem_singleton_self _⟩
      | _ => exact absurd (of_decide_eq_true hpos) (ret_le_zero (hone _ ho) rfl)
    have hlast := decode_last_iff hex hone
    rw [← waitAll_status hone hcs] at hlast
    rw [Apart, or_iff_right hex, and_iff_right hone, ← hlast]
    constructor
    · intro hr v hv
      refine (hr.status ?_ v hv).1
      rw [waitAll_snd]
      exact hnone
    · intro h
      refine ⟨fun _ v hv => ⟨h v hv, h v hv⟩, fun pid hpid => ?_⟩
      simp only [hnew] at hpid
      obtain ⟨c, hc, hcpid⟩ := hwaits pid hpid
      refine ⟨c, ?_, hcpid⟩
      rw [waitAll_snd]
      exact hc
  · refine iff_of_false (not_statusRight_one ?_) ?_
    · simp only [hnew]
      obtain ⟨o, ho, hret⟩ : ∃ o ∈ os, o.ret = 1 := by simpa using hone
      exact mem_filter.2 ⟨hret ▸ mem_map_of_mem ho, rfl⟩
    · rintro (h | ⟨h, -⟩)
      · exact hex h
      · exact hone h

section Many

variable {sys : System} (hsys : Unsourced sys) {pl : Pipeline} {s : Proc}
  (hlen : 2 ≤ pl.cmds.length) (hfg : pl.background = false) (hs : s.exited = none)

include hsys hlen hfg hs

theorem execPipeline_started {pipes : List (Nat × Nat)}
    (hp : openPipes sys (pl.cmds.length - 1) s = (some pipes, s₁)) :
    StatusRight ((outcomes sys 0 pl.cmds pipes s₁).getLast?.bind Outcome.status) s
      (execPipeline sys pl s) ↔ Apart (outcomes sys 0 pl.cmds pipes s₁) := by
  obtain ⟨hw₁, hex₁, -, -⟩ := @openPipes_frame sys (pl.cmds.length - 1) s
  rw [hp] at hw₁ hex₁
  have hsp := @spawn_spec sys pl.cmds 0 pipes s₁ (hex₁.trans hs) (hsys.not_mem _ _ _ _)
  generalize outcomes sys 0 pl.cmds pipes s₁ = os at hsp ⊢
  rw [execPipeline_many sys hlen, hp]
  rcases hr : spawn sys 0 pl.cmds pipes s₁ with ⟨pids, s₂⟩
  rw [hr] at hsp
  have hwaited : s₂.waited = s.waited := hsp.waited.trans hw₁
  by_cases hex : .exits ∈ os
  · have hsome : s₂.exited.isSome := hsp.exits hex
    simp only [hr, hsome, if_true]
    refine iff_of_true (.of_waited hwaited fun hnone => ?_) (Or.inl hex)
    rw [hnone] at hsome
    cases hsome
  have hnone : s₂.exited = none := hsp.exited hex
  obtain rfl : pids = os.map Outcome.ret := hsp.pids hex
  simp only [hr, hnone, hfg, isSome_none, Bool.false_eq_true, if_false]
  exact statusRight_waitAll hex rfl hwaited (hsp.children hex)

end Many

/-- All pipes could be made and the commands are kept apart, or they could not and 1 was
remembered already. -/
def PipelineKept (sys : System) (pl : Pipeline) (s : Proc) : Prop :=
  match pipelineOutcomes sys pl s with
  | none => s.lastStatus = 1
  | some os => Apart os

theorem pipelineOutcomes_one (sys : System) {cmd : SimpleCmd} (hcmds : pl.cmds = [cmd]) (s : Proc) :
    pipelineOutcomes sys pl s = some [outcome sys cmd 0 1 s] := by
  have hos : outcomes sys 0 [cmd] [] s = [outcome sys cmd 0 1 s] := by
    exact ite_self _
  simp only [pipelineOutcomes, hcmds, length_singleton, Nat.sub_self, openPipes, hos]

/-- A pipeline whose pipes cannot be made returns 1 and remembers nothing. -/
theorem execPipeline_noPipes (sys : System) (hlen : 2 ≤ pl.cmds.length) (hs : s.exited = none)
    (hp : openPipes sys (pl.cmds.length - 1) s = (none, s₁)) :
    StatusRight (some 1) s (execPipeline sys pl s) ↔ s.lastStatus = 1 := by
  obtain ⟨hw, hex, hl, -⟩ := @openPipes_frame sys (pl.cmds.length - 1) s
  rw [hp] at hw hex hl
  rw [execPipeline_many sys hlen, hp, ← hl]
  constructor
  · intro hr
    exact (hr.status (hex.trans hs) 1 rfl).2
  · intro h
    refine .of_waited hw fun _ v hv => ?_
    obtain rfl := some.inj hv
    exact ⟨rfl, h⟩

theorem execPipeline_iff {sys : System} (hsys : Unsourced sys) (hfg : pl.background = false)
    (hs : s.exited = none) :
    StatusRight (pipelineStatus sys pl s) s (execPipeline sys pl s) ↔ PipelineKept sys pl s := by
  rw [PipelineKept, pipelineStatus]
  rcases Nat.lt_or_ge pl.cmds.length 2 with hlt | hlen
  · rcases hc : pl.cmds with - | ⟨cmd, - | ⟨c₂, cmds⟩⟩
    · have hos : pipelineOutcomes sys pl s = some [] := by
        simp only [pipelineOutcomes, hc, length_nil, Nat.zero_sub, openPipes, outcomes]
      simp only [hos, execPipeline, hc]
      refine iff_of_true (.of_waited rfl fun _ v hv => by cases hv) ?_
      exact Or.inr ⟨fun o ho => absurd ho not_mem_nil, Or.inr fun e he => by cases he⟩
    · rw [pipelineOutcomes_one sys hc]
      exact execPipeline_one (hsys.outcome_ne cmd 0 1 s) hc hfg hs
    · rw [hc] at hlt
      simp only [length_cons] at hlt
      omega
  · rcases hp : openPipes sys (pl.cmds.length - 1) s with ⟨- | pipes, s₁⟩
    · simp only [pipelineOutcomes, hp]
      exact execPipeline_noPipes sys hlen hs hp
    · simp only [pipelineOutcomes, hp]
      exact execPipeline_started hsys hlen hfg hs hp

/-! ### The last command -/

def Ending.killed : Ending → Bool
  | .signaled _ => true
  | _ => false

/-- The status of the last command that is run, if it has one: one in the background has none, a
subshell that is killed has 1, and one that `exit` ends has the status it is given. -/
def commandStatus (sys : System) : AstNode → Proc → Option Int
  | .pipeline pl, s => if pl.background then none else pipelineStatus sys pl s
  | .and l r, s =>
    let (status, s₁) := execNode (runner sys) l s
    if status = 0 then commandStatus sys r s₁ else commandStatus sys l s
  | .or l r, s =>
    let (status, s₁) := execNode (runner sys) l s
    if status ≠ 0 then commandStatus sys r s₁ else commandStatus sys l s
  | .seq l r, s => commandStatus sys r (execNode (runner sys) l s).2
  | .subshell n, s =>
    if (sys s.clock).ending.killed then some 1
    else
      match (execNode (runner sys) n s.forked).2.exited with
      | some code => some (code % 256)
      | none => commandStatus sys n s.forked

/-- Every foreground pipeline and every subshell that is run has the status of its last command
returned and remembered, with only children of the shell waited for; in a subshell as well. -/
def Right (sys : System) : AstNode → Proc → Prop
  | .pipeline pl, s =>
    s.exited = none → pl.background = false →
      StatusRight (pipelineStatus sys pl s) s (execPipeline sys pl s)
  | .and l r, s =>
    let (status, s₁) := execNode (runner sys) l s
    Right sys l s ∧ (status = 0 → Right sys r s₁)
  | .or l r, s =>
    let (status, s₁) := execNode (runner sys) l s
    Right sys l s ∧ (status ≠ 0 → Right sys r s₁)
  | .seq l r, s => Right sys l s ∧ Right sys r (execNode (runner sys) l s).2
  | .subshell n, s =>
    s.exited = none →
      StatusRight (commandStatus sys (.subshell n) s) s
          (execSubshell sys (execNode (runner sys) n) s) ∧
        ((sys s.clock).fork.isSome → Right sys n s.forked)

/-- Every foreground pipeline that is run is kept apart; every subshell that is run can be
created, and the status of its last command was remembered already. -/
def Kept (sys : System) : AstNode → Proc → Prop
  | .pipeline pl, s => s.exited = none → pl.background = false → PipelineKept sys pl s
  | .and l r, s =>
    let (status, s₁) := execNode (runner sys) l s
    Kept sys l s ∧ (status = 0 → Kept sys r s₁)
  | .or l r, s =>
    let (status, s₁) := execNode (runner sys) l s
    Kept sys l s ∧ (status ≠ 0 → Kept sys r s₁)
  | .seq l r, s => Kept sys l s ∧ Kept sys r (execNode (runner sys) l s).2
  | .subshell n, s =>
    s.exited = none →
      (sys s.clock).fork.isSome ∧
        (∀ v, commandStatus sys (.subshell n) s = some v → s.lastStatus = v) ∧
        Kept sys n s.forked

/-! ### What is remembered -/

theorem decode_ofInt (n : Int) :
    decode (Ending.exited (Fin.ofNat 256 (n % 256).toNat)).word = n % 256 := by
  rw [decode_exited, Fin.val_ofNat]
  omega

theorem decode_subshellEnding (a : Answers) (s : Proc) :
    decode (subshellEnding a s).word =
      if a.ending.killed then 1 else s.exited.getD s.lastStatus % 256 := by
  unfold subshellEnding
  cases a.ending with
  | exited code | stopped sig => exact decode_ofInt _
  | signaled sig => exact decode_signaled sig

theorem Ending.status_range {v : Int} (h : e.status = some v) : 0 ≤ v ∧ v < 256 := by
  cases e with
  | exited code =>
    obtain rfl := some.inj h
    have := code.isLt
    omega
  | signaled sig =>
    obtain rfl := some.inj h
    decide
  | stopped sig => cases h

theorem Outcome.status_range {o : Outcome} {v : Int} (h : o.status = some v) : 0 ≤ v ∧ v < 256 := by
  cases o with
  | child pid e => exact Ending.status_range h
  | exits => cases h
  | builtin fails => cases fails <;> obtain rfl := some.inj h <;> decide
  | _ => obtain rfl := some.inj h; decide

theorem pipelineStatus_range {sys : System} {v : Int} (h : pipelineStatus sys pl s = some v) :
    0 ≤ v ∧ v < 256 := by
  rw [pipelineStatus] at h
  split at h
  · obtain rfl := some.inj h
    decide
  · obtain ⟨o, -, ho⟩ := bind_eq_some_iff.1 h
    exact Outcome.status_range ho

theorem commandStatus_range {sys : System} {n : AstNode} {s : Proc} {v : Int}
    (h : commandStatus sys n s = some v) : 0 ≤ v ∧ v < 256 := by
  induction n generalizing s with
  | pipeline pl =>
    rw [commandStatus] at h
    split_ifs at h
    exact pipelineStatus_range h
  | and l r ihl ihr | or l r ihl ihr =>
    simp only [commandStatus] at h
    split_ifs at h
    · exact ihr h
    · exact ihl h
  | seq l r ihl ihr => exact ihr h
  | subshell n ih =>
    rw [commandStatus] at h
    split_ifs at h
    · obtain rfl := some.inj h
      decide
    · split at h
      · obtain rfl := some.inj h
        omega
      · exact ih h

/-- A shell that has exited walks over a tree without doing anything. -/
theorem execNode_exited (sys : System) (n : AstNode) (hs : s.exited.isSome) :
    (execNode (runner sys) n s).2 = s := by
  have hdone : ∀ f : Proc → Int × Proc, (whileAlive f s).2 = s := by
    intro f
    rw [whileAlive, if_pos hs]
  induction n with
  | pipeline pl => exact hdone _
  | subshell n ih => exact hdone _
  | seq l r ihl ihr =>
    rw [execNode]
    dsimp only
    rw [ihl, ihr]
  | and l r ihl ihr | or l r ihl ihr =>
    rw [execNode]
    dsimp only
    rw [ihl]
    split_ifs
    · exact ihr
    · rfl

theorem alive_before {sys : System} {n : AstNode}
    (h : (execNode (runner sys) n s).2.exited = none) : s.exited = none := by
  by_contra hs
  rw [execNode_exited sys n (isSome_iff_ne_none.2 hs)] at h
  exact hs h

theorem whileAlive_of_alive (f : Proc → Int × Proc) (hs : s.exited = none) :
    whileAlive f s = f s := by
  rw [whileAlive, hs]
  rfl

/-- When all that has run was right, the status of the last command is the one remembered. -/
theorem Right.remembered {sys : System} {n : AstNode} {s : Proc} {v : Int} (hright : Right sys n s)
    (hend : (execNode (runner sys) n s).2.exited = none) (hv : commandStatus sys n s = some v) :
    (execNode (runner sys) n s).2.lastStatus = v := by
  induction n generalizing s with
  | pipeline pl =>
    have hs := alive_before hend
    rw [commandStatus] at hv
    split_ifs at hv with hfg
    have hrun : execNode (runner sys) (.pipeline pl) s = execPipeline sys pl s :=
      whileAlive_of_alive _ hs
    rw [hrun] at hend ⊢
    exact ((hright hs (Bool.not_eq_true _ ▸ hfg)).status hend v hv).2
  | subshell n ih =>
    have hs := alive_before hend
    have hrun : execNode (runner sys) (.subshell n) s =
        execSubshell sys (execNode (runner sys) n) s := whileAlive_of_alive _ hs
    rw [hrun] at hend ⊢
    exact ((hright hs).1.status hend v hv).2
  | seq l r ihl ihr => exact ihr hright.2 hend hv
  | and l r ihl ihr | or l r ihl ihr =>
    simp only [commandStatus] at hv
    rw [execNode] at hend ⊢
    dsimp only at hend ⊢
    split_ifs at hv hend ⊢ with hstatus
    · exact ihr (hright.2 hstatus) hend hv
    · exact ihl hright.1 hend hv

/-! ### Subshells -/

/-- What a subshell that could be created does to the shell. -/
theorem execSubshell_forked (sys : System) (body : Proc → Int × Proc)
    (hfork : (sys s.clock).fork = some pid) :
    execSubshell sys body s =
      (decode (subshellEnding (sys s.clock) (body s.forked).2).word,
        { s with
          clock := (body s.forked).2.clock
          handed := (body s.forked).2.handed
          children := (pid, subshellEnding (sys s.clock) (body s.forked).2) :: s.children
          waited := s.waited ++ [(pid.val : Int)] }) := by
  simp only [execSubshell, hfork]
  rw [waitpid_latest rfl]
  rfl

/-- A subshell in which all is right exits with the status of its last command. -/
theorem subshell_returns {sys : System} {n : AstNode} {v : Int} (hright : Right sys n s.forked)
    (hv : commandStatus sys (.subshell n) s = some v) :
    decode (subshellEnding (sys s.clock) (execNode (runner sys) n s.forked).2).word = v := by
  rw [decode_subshellEnding]
  rw [commandStatus] at hv
  split_ifs at hv ⊢ with hkilled
  · exact some.inj hv
  · split at hv
    · rename_i code hexit
      rw [hexit, getD_some]
      exact some.inj hv
    · rename_i halive
      rw [halive, getD_none, hright.remembered halive hv]
      have := commandStatus_range hv
      omega

theorem execSubshell_iff {sys : System} {n : AstNode} (hs : s.exited = none)
    (hright : (sys s.clock).fork.isSome → Right sys n s.forked) :
    StatusRight (commandStatus sys (.subshell n) s) s
        (execSubshell sys (execNode (runner sys) n) s) ↔
      (sys s.clock).fork.isSome ∧
        ∀ v, commandStatus sys (.subshell n) s = some v → s.lastStatus = v := by
  rcases hfork : (sys s.clock).fork with - | pid
  · refine iff_of_false (fun hr => ?_) fun h => Bool.noConfusion h.1
    have hmem : -1 ∈ (execSubshell sys (execNode (runner sys) n) s).2.waited.drop
        s.waited.length := by
      simp [execSubshell, hfork, Proc.waitpid]
    obtain ⟨c, -, hc⟩ := hr.waits _ hmem
    omega
  · rw [execSubshell_forked sys _ hfork]
    have hreturns := fun v => @subshell_returns s sys n v (hright (hfork ▸ rfl))
    constructor
    · intro hr
      exact ⟨rfl, fun v hv => (hr.status hs v hv).2⟩
    · rintro ⟨-, hlast⟩
      exact .of_child rfl rfl mem_cons_self fun v hv => ⟨hreturns v hv, hlast v hv⟩

theorem right_iff_kept {sys : System} (hsys : Unsourced sys) (n : AstNode) (s : Proc) :
    Right sys n s ↔ Kept sys n s := by
  induction n generalizing s with
  | pipeline pl =>
    exact forall_congr' fun hs => forall_congr' fun hfg => execPipeline_iff hsys hfg hs
  | subshell n ih =>
    refine forall_congr' fun hs => ?_
    constructor
    · rintro ⟨hstatus, hbody⟩
      obtain ⟨hfork, hlast⟩ := (execSubshell_iff hs hbody).1 hstatus
      exact ⟨hfork, hlast, (ih _).1 (hbody hfork)⟩
    · rintro ⟨hfork, hlast, hbody⟩
      have hright := (ih _).2 hbody
      exact ⟨(execSubshell_iff hs fun _ => hright).2 ⟨hfork, hlast⟩, fun _ => hright⟩
  | seq l r ihl ihr => exact and_congr (ihl s) (ihr _)
  | and l r ihl ihr | or l r ihl ihr =>
    exact and_congr (ihl s) (forall_congr' fun _ => ihr _)

/-! ### Lines -/

/-- The tree of a line, read in the shell as it is. -/
def lineTree (sys : System) (line : List Char) (s : Proc) : Option AstNode :=
  parse (expandVars ((sys s.clock).env s.lastStatus) line)

/-- Each of the lines, executed one after the other, is right. -/
def RightLines (sys : System) : List (List Char) → Proc → Prop
  | [], _ => True
  | line :: lines, s =>
    (∀ tree, lineTree sys line s = some tree → Right sys tree { s with clock := s.clock + 1 }) ∧
      RightLines sys lines (execute sys line s).2

def KeptLines (sys : System) : List (List Char) → Proc → Prop
  | [], _ => True
  | line :: lines, s =>
    (∀ tree, lineTree sys line s = some tree → Kept sys tree { s with clock := s.clock + 1 }) ∧
      KeptLines sys lines (execute sys line s).2

theorem pipelineKept_one {sys : System} {cmd : SimpleCmd} (hcmds : pl.cmds = [cmd])
    (h : (outcome sys cmd 0 1 s).ret ≠ 1) : PipelineKept sys pl s := by
  rw [PipelineKept, pipelineOutcomes_one sys hcmds]
  exact (apart_singleton _).2 (Or.inr h)

end Nv0ken.Shell
