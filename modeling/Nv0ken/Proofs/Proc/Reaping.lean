/-
Who reaps whom.

A process that has exited stays in the list until a wait destroys it.  The record kept
here notes every process that disappears from the list, with the call that made it
disappear: who issued it and what it returned.  `sys_wait` looks for a zombie among the
children of the current process, but `sys_waitpid` takes any zombie, so the record is as
it should be exactly as long as each `sys_waitpid` that finds a zombie is issued by its
parent (`reaped_by_parent_iff`).  That nothing is destroyed twice, or by anything but a
wait, holds in every run.
-/
import Nv0ken.Kernel.Proc.ProcHandlers
import Nv0ken.Proofs.Proc.Scheduler

namespace Nv0ken.Proc

open Run List Option

/-- The calls of a process's life. -/
inductive LifeOp
  | create (name : Option (List UInt8)) (parentPid : Nat) (alloc : Bool)
  | setCurrent (pid : Nat)
  | exit (pid : Option Nat) (code : Int)
  | wait
  | waitpid (pid : Nat)

/-- The state after a call, and what a wait returned. -/
def lifeCall (s : Procs) : LifeOp → Procs × Option (Int × Option Int)
  | .create name parentPid alloc => ((processCreate s name parentPid alloc).1, none)
  | .setCurrent pid => (processSetCurrent s pid, none)
  | .exit pid code => (processExit s pid code, none)
  | .wait => ((sysWait s).1, some (sysWait s).2)
  | .waitpid pid => ((sysWaitpid s pid).1, some (sysWaitpid s pid).2)

/-- A process that was destroyed, who issued the call, and what the call returned if it was a
wait. -/
structure Reap where
  process : Process
  issuer : Nat
  returned : Option (Int × Option Int)

/-- The processes, and the record of those destroyed. -/
structure Life where
  procs : Procs := {}
  record : List Reap := []

/-- The processes of the first list that are not in the second. -/
def gone (before after : List Process) : List Process :=
  before.filter fun p => p.pid ∉ after.map Process.pid

def lifeStep (s : Life) (op : LifeOp) : Option Life :=
  some {
    procs := (lifeCall s.procs op).1
    record := s.record ++
      (gone s.procs.processList (lifeCall s.procs op).1.processList).map fun p =>
        ⟨p, currentPid s.procs, (lifeCall s.procs op).2⟩ }

/-- The process was a zombie, destroyed by a wait of its parent that returned its pid and its
exit code. -/
structure Reap.Right (r : Reap) : Prop where
  zombie : r.process.state = .zombie
  parent : r.issuer = r.process.parentPid
  returned : r.returned = some ((r.process.pid : Int), some r.process.exitCode)

/-- Every process that was created is in the list, or was destroyed, once and in the right
way. -/
structure ReapedByParent (s : Life) : Prop where
  right : ∀ r ∈ s.record, r.Right
  once : (s.record.map fun r => r.process.pid).Nodup
  kept : ∀ pid, 1 ≤ pid → pid < s.procs.nextPid →
    pid ∈ s.procs.processList.map Process.pid ∨ pid ∈ s.record.map fun r => r.process.pid

/-- A `sys_waitpid` that finds a zombie is issued by its parent. -/
def IssuedByParent (s : Life) : LifeOp → Prop
  | .waitpid pid =>
    ∀ p, processFind s.procs pid = some p → p.state = .zombie → p.parentPid = currentPid s.procs
  | _ => True

variable {s s' : Life} {procs : Procs} {op : LifeOp} {p : Process} {pid : Nat}

/-! ### What a call does to the list -/

/-- The process that the call destroys. -/
def destroyedBy (procs : Procs) : LifeOp → Option Process
  | .wait =>
    procs.processList.find? fun p => p.parentPid = currentPid procs ∧ p.state = .zombie
  | .waitpid pid => reapedBy procs pid
  | _ => none

def pids (procs : Procs) : List Nat := procs.processList.map Process.pid

theorem processFind_of_mem (hunique : (pids procs).Nodup) (hp : p ∈ procs.processList) :
    processFind procs p.pid = some p := by
  unfold processFind
  cases hfind : procs.processList.find? fun q => q.pid = p.pid with
  | none =>
    have hnone := find?_eq_none.mp hfind p hp
    simp at hnone
  | some q =>
    have hpid : q.pid = p.pid := by simpa using find?_some hfind
    rw [inj_on_of_nodup_map hunique (mem_of_find?_eq_some hfind) hp hpid]

theorem destroy_list (procs : Procs) (p : Process) :
    (processDestroy procs p).processList = procs.processList.eraseP (fun q => q.pid = p.pid) ∧
      (processDestroy procs p).nextPid = procs.nextPid := by
  unfold processDestroy threadDestroy Procs.setThread
  cases p.mainThread <;> exact ⟨rfl, rfl⟩

theorem pids_exit (procs : Procs) (pid : Option Nat) (code : Int) :
    pids (processExit procs pid code) = pids procs ∧
      (processExit procs pid code).nextPid = procs.nextPid := by
  have hsame (pid : Nat) :
      pids (procs.modifyProcess pid fun p => { p with exitCode := code, state := .zombie }) =
        pids procs := by
    unfold pids Procs.modifyProcess
    rw [List.map_map]
    apply map_congr_left
    intro p _
    by_cases hp : p.pid = pid <;> simp [hp]
  unfold processExit
  cases (pid.orElse fun _ => procs.currentProcess).bind (processFind procs) with
  | none => exact ⟨rfl, rfl⟩
  | some p =>
    cases hmain : p.mainThread with
    | none | some t =>
      simp only [hmain]
      exact ⟨hsame p.pid, rfl⟩

theorem destroyedBy_cases (h : destroyedBy procs op = some p) :
    p ∈ procs.processList ∧ p.state = .zombie ∧ (op = .wait ∧ p.parentPid = currentPid procs ∨
      ∃ pid, op = .waitpid pid ∧ processFind procs pid = some p) := by
  cases op with
  | wait =>
    have hp := find?_some h
    simp only [decide_eq_true_eq] at hp
    exact ⟨mem_of_find?_eq_some h, hp.2, Or.inl ⟨rfl, hp.1⟩⟩
  | waitpid pid =>
    obtain ⟨hfind, hzombie⟩ := filter_eq_some_iff.mp h
    exact ⟨mem_of_find?_eq_some hfind, by simpa using hzombie, Or.inr ⟨pid, rfl, hfind⟩⟩
  | create name parentPid alloc | setCurrent pid | exit pid code => simp [destroyedBy] at h

theorem waitForPid_of_zombie (hfind : processFind procs pid = some p)
    (hzombie : p.state = .zombie) :
    waitForPid procs pid = (processDestroy procs p, some (p.pid, p.exitCode)) := by
  unfold waitForPid
  simp [hfind, hzombie]

/-- A call that destroys a process is a wait that returns its pid and exit code. -/
theorem lifeCall_destroys (hunique : (pids procs).Nodup) (h : destroyedBy procs op = some p) :
    lifeCall procs op = (processDestroy procs p, some ((p.pid : Int), some p.exitCode)) := by
  obtain ⟨hmem, hzombie, ⟨rfl, -⟩ | ⟨pid, rfl, hfind⟩⟩ := destroyedBy_cases h
  · unfold destroyedBy at h
    unfold lifeCall sysWait waitAnyChild
    simp only [h]
    rw [waitForPid_of_zombie (processFind_of_mem hunique hmem) hzombie]
    rfl
  · unfold lifeCall sysWaitpid
    simp only
    rw [waitForPid_of_zombie hfind hzombie]
    rfl

/-- Any other call leaves the pids alone, or adds the next one. -/
theorem lifeCall_keeps (h : destroyedBy procs op = none) :
    pids (lifeCall procs op).1 = pids procs ∧ (lifeCall procs op).1.nextPid = procs.nextPid ∨
      pids (lifeCall procs op).1 = procs.nextPid :: pids procs ∧
        (lifeCall procs op).1.nextPid = procs.nextPid + 1 := by
  cases op with
  | create name parentPid alloc =>
    cases alloc with
    | false => exact Or.inl ⟨rfl, rfl⟩
    | true => exact Or.inr ⟨rfl, rfl⟩
  | setCurrent pid =>
    unfold lifeCall processSetCurrent
    dsimp only
    by_cases hfind : (processFind procs pid).isSome
    · rw [if_pos hfind]
      exact Or.inl ⟨rfl, rfl⟩
    · rw [if_neg hfind]
      exact Or.inl ⟨rfl, rfl⟩
  | exit pid code => exact Or.inl (pids_exit procs pid code)
  | wait =>
    unfold destroyedBy at h
    unfold lifeCall sysWait waitAnyChild
    simp only [h]
    exact Or.inl ⟨rfl, rfl⟩
  | waitpid pid =>
    have hstate := waitForPid_eq procs pid
    have hnone : reapedBy procs pid = none := h
    rw [hnone] at hstate
    have hsys : (sysWaitpid procs pid).1 = (waitForPid procs pid).1 := by
      unfold sysWaitpid waitReply
      cases hr : waitForPid procs pid with
      | mk s' r =>
        cases r <;> rfl
    have hcall : (lifeCall procs (.waitpid pid)).1 = procs := hsys.trans hstate
    rw [hcall]
    exact Or.inl ⟨rfl, rfl⟩

/-! ### The record -/

theorem gone_of_subset {before after : List Process}
    (h : ∀ pid ∈ before.map Process.pid, pid ∈ after.map Process.pid) : gone before after = [] := by
  unfold gone
  rw [filter_eq_nil_iff]
  intro p hp
  have hkept := h p.pid (mem_map_of_mem hp)
  simp [hkept]

/-- The list without a process lacks that process, and its pid. -/
theorem gone_erase {l : List Process} (hunique : (l.map Process.pid).Nodup) (hp : p ∈ l) :
    gone l (l.eraseP fun q => q.pid = p.pid) = [p] ∧
      (l.map Process.pid).Perm (p.pid :: (l.eraseP fun q => q.pid = p.pid).map Process.pid) := by
  obtain ⟨q, before, after, -, hq, heq, herase⟩ :=
    @List.exists_of_eraseP _ (fun q : Process => decide (q.pid = p.pid)) l p hp (by simp)
  have hqp : q = p := by
    refine inj_on_of_nodup_map hunique ?_ hp (by simpa using hq)
    rw [heq]
    simp
  subst hqp
  rw [herase]
  have hperm : (l.map Process.pid).Perm (q.pid :: (before ++ after).map Process.pid) := by
    rw [heq, map_append, map_append]
    exact perm_middle
  refine ⟨?_, hperm⟩
  have hout := (nodup_cons.mp (hperm.nodup_iff.mp hunique)).1
  have hothers : ∀ r ∈ before ++ after, r.pid ∈ (before ++ after).map Process.pid :=
    fun r hr => mem_map_of_mem hr
  have hnone (part : List Process) (hpart : ∀ r ∈ part, r ∈ before ++ after) :
      part.filter (fun r => decide (r.pid ∉ (before ++ after).map Process.pid)) = [] := by
    rw [filter_eq_nil_iff]
    intro r hr
    have := hothers r (hpart r hr)
    simp only [this, not_true, decide_false, Bool.false_eq_true, not_false_eq_true]
  unfold gone
  nth_rewrite 1 [heq]
  rw [filter_append, filter_cons_of_pos (by simpa using hout),
    hnone before (fun r hr => mem_append_left _ hr),
    hnone after (fun r hr => mem_append_right _ hr), nil_append]

/-- What every run keeps. -/
structure LifeInv (s : Life) : Prop where
  unique : (pids s.procs).Nodup
  below : ∀ pid ∈ pids s.procs, pid < s.procs.nextPid
  recorded : ∀ pid ∈ s.record.map (fun r => r.process.pid), pid < s.procs.nextPid ∧
    pid ∉ pids s.procs
  once : (s.record.map fun r => r.process.pid).Nodup
  kept : ∀ pid, 1 ≤ pid → pid < s.procs.nextPid →
    pid ∈ pids s.procs ∨ pid ∈ s.record.map fun r => r.process.pid

theorem lifeInv_init : LifeInv {} where
  unique := List.nodup_nil
  below := by simp [pids]
  recorded := by simp
  once := List.nodup_nil
  kept := by
    intro pid hone hlt
    exact absurd hlt (Nat.not_lt.mpr hone)

/-- The step of a call that destroys `p`. -/
theorem lifeStep_destroys (hinv : LifeInv s) (h : destroyedBy s.procs op = some p) :
    lifeStep s op = some
      { procs := processDestroy s.procs p
        record :=
          s.record ++ [⟨p, currentPid s.procs, some ((p.pid : Int), some p.exitCode)⟩] } := by
  obtain ⟨hmem, -⟩ := destroyedBy_cases h
  have hgone := (gone_erase hinv.unique hmem).1
  unfold lifeStep
  rw [lifeCall_destroys hinv.unique h]
  simp only [(destroy_list s.procs p).1, hgone, map_cons, map_nil]

/-- The step of a call that destroys nothing. -/
theorem lifeStep_keeps (h : destroyedBy s.procs op = none) :
    lifeStep s op = some { procs := (lifeCall s.procs op).1, record := s.record } := by
  have hgone : gone s.procs.processList (lifeCall s.procs op).1.processList = [] := by
    apply gone_of_subset
    intro pid hpid
    show pid ∈ pids (lifeCall s.procs op).1
    rcases lifeCall_keeps h with ⟨hsame, -⟩ | ⟨hnew, -⟩
    · rw [hsame]
      exact hpid
    · rw [hnew]
      exact mem_cons_of_mem _ hpid
  unfold lifeStep
  rw [hgone, map_nil, append_nil]

theorem lifeInv_step (hinv : LifeInv s) (hstep : lifeStep s op = some s') : LifeInv s' := by
  cases h : destroyedBy s.procs op with
  | some p =>
    obtain ⟨hmem, -⟩ := destroyedBy_cases h
    rw [lifeStep_destroys hinv h] at hstep
    obtain rfl := some.inj hstep
    obtain ⟨hlist, hnext⟩ := destroy_list s.procs p
    have hperm : (pids s.procs).Perm (p.pid :: pids (processDestroy s.procs p)) := by
      have := (gone_erase hinv.unique hmem).2
      rw [← hlist] at this
      exact this
    have hsplit := nodup_cons.mp (hperm.nodup_iff.mp hinv.unique)
    have hrecord := hinv.recorded
    have hp := hinv.below p.pid (hperm.mem_iff.mpr (by simp))
    refine ⟨hsplit.2, ?_, ?_, ?_, ?_⟩
    · intro pid hpid
      rw [hnext]
      exact hinv.below pid (hperm.mem_iff.mpr (mem_cons_of_mem _ hpid))
    · intro pid hpid
      rw [map_append, mem_append] at hpid
      rw [hnext]
      rcases hpid with hold | hnew
      · obtain ⟨hlt, hout⟩ := hrecord pid hold
        exact ⟨hlt, fun hin => hout (hperm.mem_iff.mpr (mem_cons_of_mem _ hin))⟩
      · obtain rfl : pid = p.pid := by simpa using hnew
        exact ⟨hp, hsplit.1⟩
    · rw [map_append, nodup_append]
      refine ⟨hinv.once, by simp, ?_⟩
      intro pid hold pid' hnew heq
      obtain rfl : pid' = p.pid := by simpa using hnew
      exact (hrecord pid hold).2 (heq ▸ hperm.mem_iff.mpr (by simp))
    · intro pid hone hlt
      rw [hnext] at hlt
      rw [map_append, mem_append]
      rcases hinv.kept pid hone hlt with hin | hout
      · rcases mem_cons.mp (hperm.mem_iff.mp hin) with rfl | hin
        · exact Or.inr (Or.inr (by simp))
        · exact Or.inl hin
      · exact Or.inr (Or.inl hout)
  | none =>
    rw [lifeStep_keeps h] at hstep
    obtain rfl := some.inj hstep
    rcases lifeCall_keeps h with ⟨hpids, hnext⟩ | ⟨hpids, hnext⟩
    · exact ⟨hpids ▸ hinv.unique, hpids ▸ hnext ▸ hinv.below, hpids ▸ hnext ▸ hinv.recorded,
        hinv.once, hpids ▸ hnext ▸ hinv.kept⟩
    · refine ⟨?_, ?_, ?_, hinv.once, ?_⟩
      · rw [hpids]
        exact nodup_cons.mpr ⟨fun hin => Nat.lt_irrefl _ (hinv.below _ hin), hinv.unique⟩
      · rw [hpids, hnext]
        intro pid hpid
        rcases mem_cons.mp hpid with rfl | hin
        · exact Nat.lt_succ_self _
        · exact Nat.lt_succ_of_lt (hinv.below pid hin)
      · rw [hpids, hnext]
        intro pid hpid
        obtain ⟨hlt, hout⟩ := hinv.recorded pid hpid
        refine ⟨Nat.lt_succ_of_lt hlt, fun hin => ?_⟩
        rcases mem_cons.mp hin with rfl | hin
        · exact Nat.lt_irrefl _ hlt
        · exact hout hin
      · rw [hpids, hnext]
        intro pid hone hlt
        by_cases heq : pid = s.procs.nextPid
        · exact Or.inl (heq ▸ mem_cons_self)
        · rcases hinv.kept pid hone (by omega) with hin | hout
          · exact Or.inl (mem_cons_of_mem _ hin)
          · exact Or.inr hout

theorem LifeInv.reapedByParent_iff (hinv : LifeInv s) :
    ReapedByParent s ↔ ∀ r ∈ s.record, r.Right :=
  ⟨fun h => h.right, fun h => ⟨h, hinv.once, hinv.kept⟩⟩

/-- A step keeps the record right exactly when it is issued by the parent. -/
theorem right_step (hinv : LifeInv s) (hright : ReapedByParent s)
    (hstep : lifeStep s op = some s') : ReapedByParent s' ↔ IssuedByParent s op := by
  rw [(lifeInv_step hinv hstep).reapedByParent_iff]
  cases h : destroyedBy s.procs op with
  | none =>
    rw [lifeStep_keeps h] at hstep
    obtain rfl := some.inj hstep
    refine ⟨fun _ => ?_, fun _ => hright.right⟩
    cases op with
    | waitpid pid =>
      intro p hfind hzombie
      have hreaped : reapedBy s.procs pid = some p :=
        filter_eq_some_iff.mpr ⟨hfind, by simpa using hzombie⟩
      have hnone : reapedBy s.procs pid = none := h
      rw [hnone] at hreaped
      simp at hreaped
    | create name parentPid alloc | setCurrent pid | exit pid code | wait => trivial
  | some p =>
    obtain ⟨-, hzombie, hcall⟩ := destroyedBy_cases h
    rw [lifeStep_destroys hinv h] at hstep
    obtain rfl := some.inj hstep
    have hlast : (∀ r ∈ s.record ++
        [(⟨p, currentPid s.procs, some ((p.pid : Int), some p.exitCode)⟩ : Reap)], r.Right) ↔
          p.parentPid = currentPid s.procs := by
      constructor
      · intro hall
        exact (hall _ (mem_append_right _ mem_cons_self)).parent.symm
      · intro hparent r hr
        rcases mem_append.mp hr with hold | hnew
        · exact hright.right r hold
        · obtain rfl := mem_singleton.mp hnew
          exact ⟨hzombie, hparent.symm, rfl⟩
    rw [hlast]
    obtain ⟨rfl, hparent⟩ | ⟨pid, rfl, hfind⟩ := hcall
    · exact ⟨fun _ => trivial, fun _ => hparent⟩
    · constructor
      · intro hparent q hq _
        obtain rfl := some.inj (hfind.symm.trans hq)
        exact hparent
      · intro hall
        exact hall p hfind hzombie

/-- **Zombies are destroyed once, by a wait of their parent that returns their pid and exit
code, throughout exactly the runs in which each `sys_waitpid` that finds a zombie is issued by
its parent.** -/
theorem reaped_by_parent_iff (ops : List LifeOp) :
    Throughout lifeStep ReapedByParent {} ops ↔ Along lifeStep IssuedByParent {} ops := by
  refine throughout_iff_along (fun s op s' hinv _ _ => lifeInv_step hinv) ?_
    (fun s op s' => right_step) lifeInv_init
    (lifeInv_init.reapedByParent_iff.mpr (by simp))
  intro s op _ _ hnone
  simp [lifeStep] at hnone

/-- Process 2, a child of process 1, exits, and its sibling 3 waits for it. -/
theorem sibling_reaps :
    ∃ s, run lifeStep {} [.create none 0 true, .create none 1 true, .create none 1 true,
        .exit (some 2) 7, .setCurrent 3, .waitpid 2] = some s ∧
      s.record.map (fun r => (r.process.pid, r.process.parentPid, r.issuer)) = [(2, 1, 3)] ∧
      ¬ ReapedByParent s := by
  refine ⟨_, rfl, by decide +kernel, fun h => ?_⟩
  have := (h.right _ (mem_singleton.mpr rfl)).parent
  revert this
  decide +kernel

end Nv0ken.Proc
