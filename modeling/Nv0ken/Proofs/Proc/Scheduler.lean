/-
The run queue over the life of processes.

Two structures know about threads: the list of processes, through `main_thread`, and the
run queue.  `exec_image` puts a thread into both, and nothing takes it out of the queue
again; `process_destroy` frees the thread of a process that is reaped.  So the queue is
safe exactly as long as no process with a thread is reaped, which is what
`queue_safe_iff` says of every run, and in such runs the scheduler never reads a thread
that was freed.

What the calls leave alone is said with `mains`, which process has which thread, and
`owner`, which process a thread that is still there belongs to.
-/
import Nv0ken.Kernel.Proc.Scheduler
import Nv0ken.Lib.Run
import Mathlib.Data.List.Nodup

namespace Nv0ken.Proc

open Run List Option

variable {s s' : Procs} {t k : ThreadId} {pid : Nat} {p : Process} {name : Option (List UInt8)}
  {alloc : Bool}

/-- The calls of a process's life.  `pid` of `exit` is left out for the current process. -/
inductive ProcOp
  | create (name : Option (List UInt8)) (parentPid : Nat) (alloc : Bool)
  | exec (pid : Nat) (name : Option (List UInt8)) (loaded : Option Nat) (alloc : Bool)
  | yield
  | exit (pid : Option Nat) (code : Int)
  | wait (pid : Nat)
  | waitAny (parentPid : Nat)

/-- There is no next state when a call reads a thread that was freed. -/
def procStep (s : Procs) : ProcOp → Option Procs
  | .create name parentPid alloc => some (processCreate s name parentPid alloc).1
  | .exec pid name loaded alloc => (execImage s pid name loaded alloc).map Prod.fst
  | .yield => (schedulerYield s).map Prod.fst
  | .exit pid code => some (processExit s pid code)
  | .wait pid => some (waitForPid s pid).1
  | .waitAny parentPid => some (waitAnyChild s parentPid).1

/-- Every thread in the run queue is there, and belongs to a process that is there. -/
def QueueSafe (s : Procs) : Prop :=
  ∀ t ∈ s.runQueue, ∃ thread, s.thread t = some thread ∧
    ∃ p ∈ s.processList, p.pid = thread.processId

/-- The process a wait on this pid destroys. -/
def reapedBy (s : Procs) (pid : Nat) : Option Process :=
  (processFind s pid).filter fun p => p.state = .zombie

/-- The process that the call destroys. -/
def reaped (s : Procs) : ProcOp → Option Process
  | .wait pid => reapedBy s pid
  | .waitAny parentPid =>
    (s.processList.find? fun p => p.parentPid = parentPid ∧ p.state = .zombie).bind fun p =>
      reapedBy s p.pid
  | _ => none

/-- The call destroys no process that has a thread. -/
def ReapsThreadless (s : Procs) (op : ProcOp) : Prop :=
  ∀ p, reaped s op = some p → p.mainThread = none

/-! ### What the calls leave alone -/

/-- The pids and the threads of the processes. -/
def mains (s : Procs) : List (Nat × Option ThreadId) :=
  s.processList.map fun p => (p.pid, p.mainThread)

/-- The process that a thread belongs to, while the thread is there. -/
def owner (s : Procs) (t : ThreadId) : Option Nat := (s.thread t).map Thread.processId

/-- Processes and queue are as they were. -/
structure SameBooks (s s' : Procs) : Prop where
  mains : mains s' = mains s
  owner : ∀ t, owner s' t = owner s t
  runQueue : s'.runQueue = s.runQueue
  nextPid : s'.nextPid = s.nextPid

theorem SameBooks.refl (s : Procs) : SameBooks s s := ⟨rfl, fun _ => rfl, rfl, rfl⟩

theorem SameBooks.trans {s'' : Procs} (h : SameBooks s s') (h' : SameBooks s' s'') :
    SameBooks s s'' :=
  ⟨h'.mains.trans h.mains, fun t => (h'.owner t).trans (h.owner t), h'.runQueue.trans h.runQueue,
    h'.nextPid.trans h.nextPid⟩

theorem thread_setThread (s : Procs) (t k : ThreadId) (e : Option Thread) :
    (s.setThread t e).thread k = if k = t ∧ t < s.threads.length then e else s.thread k := by
  unfold Procs.setThread Procs.thread
  by_cases hk : t = k
  · subst hk
    by_cases hlt : t < s.threads.length <;> simp [hlt]
  · simp [hk, Ne.symm hk]

theorem lt_of_thread {thread : Thread} (h : s.thread t = some thread) : t < s.threads.length := by
  by_contra hge
  unfold Procs.thread at h
  rw [getElem?_eq_none (Nat.le_of_not_lt hge)] at h
  cases h

/-- A thread that stays with its process changes nothing in the books. -/
theorem sameBooks_setThread {e : Option Thread} (he : e.map Thread.processId = owner s t) :
    SameBooks s (s.setThread t e) := by
  refine ⟨rfl, fun k => ?_, rfl, rfl⟩
  rw [owner, thread_setThread]
  by_cases hk : k = t ∧ t < s.threads.length
  · rw [if_pos hk, hk.1]
    exact he
  · rw [if_neg hk]
    rfl

theorem sameBooks_modifyProcess {f : Process → Process}
    (hf : ∀ p, (f p).pid = p.pid ∧ (f p).mainThread = p.mainThread) :
    SameBooks s (s.modifyProcess pid f) := by
  refine ⟨?_, fun _ => rfl, rfl, rfl⟩
  unfold mains Procs.modifyProcess
  simp only [List.map_map]
  apply map_congr_left
  intro p _
  by_cases hp : p.pid = pid
  · simp [hp, hf]
  · simp [hp]

/-! ### The invariant -/

/-- The threads in the queue are exactly the threads of the processes. -/
structure ProcInv (s : Procs) : Prop where
  pids : ((mains s).map Prod.fst).Nodup
  fresh : ∀ m ∈ mains s, m.1 < s.nextPid
  main : ∀ pid t, (pid, some t) ∈ mains s → owner s t = some pid ∧ t ∈ s.runQueue
  queue : ∀ t ∈ s.runQueue, ∃ pid, owner s t = some pid ∧ (pid, some t) ∈ mains s
  current : ∀ t, s.currentThread = some t → t ∈ s.runQueue

theorem procInv_init : ProcInv {} where
  pids := List.nodup_nil
  fresh := by
    intro m hm
    simp [mains] at hm
  main := by
    intro pid t h
    simp [mains] at h
  queue := by
    intro t ht
    simp at ht
  current := by
    intro t ht
    simp at ht

section

variable (hinv : ProcInv s)
include hinv

theorem ProcInv.of_sameBooks (h : SameBooks s s')
    (hcurrent : ∀ t, s'.currentThread = some t → t ∈ s.runQueue) : ProcInv s' where
  pids := by
    rw [h.mains]
    exact hinv.pids
  fresh := by
    rw [h.mains, h.nextPid]
    exact hinv.fresh
  main := by
    intro pid t hmain
    rw [h.mains] at hmain
    rw [h.owner, h.runQueue]
    exact hinv.main pid t hmain
  queue := by
    intro t ht
    rw [h.runQueue] at ht
    rw [h.owner, h.mains]
    exact hinv.queue t ht
  current := by
    intro t ht
    rw [h.runQueue]
    exact hcurrent t ht

theorem ProcInv.alive (ht : t ∈ s.runQueue) : (s.thread t).isSome := by
  obtain ⟨pid, howner, -⟩ := hinv.queue t ht
  obtain ⟨thread, hthread, -⟩ := map_eq_some_iff.mp howner
  rw [hthread]
  rfl

theorem ProcInv.queueSafe : QueueSafe s := by
  intro t ht
  obtain ⟨pid, howner, hmain⟩ := hinv.queue t ht
  obtain ⟨thread, hthread, rfl⟩ := map_eq_some_iff.mp howner
  obtain ⟨p, hp, hpid⟩ := mem_map.mp hmain
  exact ⟨thread, hthread, p, hp, congrArg Prod.fst hpid⟩

/-- A pid stands for one process. -/
theorem ProcInv.unique {a b : Option ThreadId} (ha : (pid, a) ∈ mains s)
    (hb : (pid, b) ∈ mains s) : a = b :=
  congrArg Prod.snd (inj_on_of_nodup_map hinv.pids ha hb rfl)

end

theorem mem_mains (h : processFind s pid = some p) : (pid, p.mainThread) ∈ mains s := by
  have hpid : p.pid = pid := by simpa using find?_some h
  rw [← hpid]
  exact mem_map.mpr ⟨p, mem_of_find?_eq_some h, rfl⟩

/-! ### Creating, exiting and yielding -/

theorem procInv_create (hinv : ProcInv s) (name : Option (List UInt8)) (parentPid : Nat)
    (alloc : Bool) : ProcInv (processCreate s name parentPid alloc).1 := by
  cases alloc with
  | false => exact hinv
  | true =>
    refine ⟨?_, ?_, ?_, ?_, hinv.current⟩
    · refine nodup_cons.mpr ⟨fun hmem => ?_, hinv.pids⟩
      obtain ⟨m, hm, heq⟩ := mem_map.mp hmem
      exact Nat.ne_of_lt (hinv.fresh m hm) heq
    · intro m hm
      rcases mem_cons.mp hm with rfl | hm
      · exact Nat.lt_succ_self _
      · exact Nat.lt_succ_of_lt (hinv.fresh m hm)
    · intro pid t hmain
      rcases mem_cons.mp hmain with heq | hmain
      · simp at heq
      · exact hinv.main pid t hmain
    · intro t ht
      obtain ⟨pid, howner, hmain⟩ := hinv.queue t ht
      exact ⟨pid, howner, mem_cons_of_mem _ hmain⟩

theorem sameBooks_exit (s : Procs) (pid : Option Nat) (code : Int) :
    SameBooks s (processExit s pid code) ∧ (processExit s pid code).currentThread =
      s.currentThread := by
  unfold processExit
  cases (pid.orElse fun _ => s.currentProcess).bind (processFind s) with
  | none => exact ⟨SameBooks.refl s, rfl⟩
  | some process =>
    have hzombie : SameBooks s (s.modifyProcess process.pid fun p =>
        { p with exitCode := code, state := .zombie }) :=
      sameBooks_modifyProcess fun p => ⟨rfl, rfl⟩
    simp only
    cases process.mainThread with
    | none => exact ⟨hzombie, rfl⟩
    | some t => exact ⟨hzombie.trans (sameBooks_setThread (Option.map_map ..)), rfl⟩

/-- The loop selects one of the candidates, or none, and changes nothing in the books. -/
theorem pickLoop_spec (l : List ThreadId) (halive : ∀ t ∈ l, (s.thread t).isSome) :
    ∃ r, pickLoop s l = some r ∧ SameBooks s r.1 ∧
      (r.1.currentThread = s.currentThread ∨ ∃ t ∈ l, r.1.currentThread = some t) := by
  induction l with
  | nil => exact ⟨(s, none), rfl, SameBooks.refl s, Or.inl rfl⟩
  | cons t rest ih =>
    obtain ⟨thread, hthread⟩ := isSome_iff_exists.mp (halive t (by simp))
    rw [pickLoop, hthread]
    simp only
    by_cases hrun : threadIsRunnable thread = true
    · rw [if_pos hrun]
      have hbooks : SameBooks s (s.setThread t (some { thread with state := .running })) :=
        sameBooks_setThread (by rw [owner, hthread]; rfl)
      exact ⟨_, rfl, ⟨hbooks.mains, hbooks.owner, hbooks.runQueue, hbooks.nextPid⟩,
        Or.inr ⟨t, by simp, rfl⟩⟩
    · rw [if_neg hrun]
      obtain ⟨r, hr, hbooks, hcurrent⟩ := ih fun k hk => halive k (by simp [hk])
      refine ⟨r, hr, hbooks, hcurrent.imp_right ?_⟩
      intro ⟨k, hk, heq⟩
      exact ⟨k, by simp [hk], heq⟩

theorem mem_candidates (h : t ∈ candidates s) : t ∈ s.runQueue := by
  unfold candidates at h
  cases hcurrent : s.currentThread with
  | none =>
    rw [hcurrent] at h
    exact h
  | some k =>
    rw [hcurrent] at h
    rcases mem_append.mp h with h | h
    · exact mem_of_mem_drop h
    · exact mem_of_mem_take h

theorem pickNext_spec (hinv : ProcInv s) : ∃ r, schedulerPickNext s = some r ∧ ProcInv r.1 := by
  unfold schedulerPickNext
  by_cases hempty : s.runQueue = []
  · rw [if_pos hempty]
    exact ⟨_, rfl, hinv.of_sameBooks ⟨rfl, fun _ => rfl, rfl, rfl⟩ fun t ht => by simp at ht⟩
  rw [if_neg hempty]
  have hcurrent : ¬ (s.currentThread.any fun t => (s.thread t).isNone) = true := by
    cases hc : s.currentThread with
    | none => simp
    | some t =>
      obtain ⟨thread, hthread⟩ := isSome_iff_exists.mp (hinv.alive (hinv.current t hc))
      simp [hthread]
  rw [if_neg hcurrent]
  obtain ⟨r, hr, hbooks, hselected⟩ :=
    pickLoop_spec (candidates s) fun t ht => hinv.alive (mem_candidates ht)
  refine ⟨r, hr, hinv.of_sameBooks hbooks fun t ht => ?_⟩
  rcases hselected with hsame | ⟨k, hk, hselected⟩
  · exact hinv.current t (hsame ▸ ht)
  · obtain rfl := some.inj (hselected.symm.trans ht)
    exact mem_candidates hk

/-- **Yielding reads no thread that was freed**, and keeps the invariant. -/
theorem yield_spec (hinv : ProcInv s) : ∃ r, schedulerYield s = some r ∧ ProcInv r.1 := by
  unfold schedulerYield
  cases hc : s.currentThread with
  | none => exact pickNext_spec hinv
  | some t =>
    obtain ⟨thread, hthread⟩ := isSome_iff_exists.mp (hinv.alive (hinv.current t hc))
    simp only
    rw [hthread]
    simp only
    by_cases hrunning : thread.state = .running
    · rw [if_pos hrunning]
      have hbooks : SameBooks s (s.setThread t (some { thread with state := .ready })) :=
        sameBooks_setThread (by rw [owner, hthread]; rfl)
      exact pickNext_spec (hinv.of_sameBooks hbooks hinv.current)
    · rw [if_neg hrunning]
      exact pickNext_spec hinv

/-! ### A process gets its thread -/

theorem procInv_newThread (hinv : ProcInv s) (hmain : (pid, none) ∈ mains s)
    (hnew : owner s t = none)
    (hmains : mains s' = (mains s).map fun m => if m.1 = pid then (pid, some t) else m)
    (howner : ∀ k, owner s' k = if k = t then some pid else owner s k)
    (hqueue : s'.runQueue = s.runQueue ++ [t]) (hnext : s'.nextPid = s.nextPid)
    (hcurrent : s'.currentThread = s.currentThread) : ProcInv s' := by
  have hkeys : (mains s').map Prod.fst = (mains s).map Prod.fst := by
    rw [hmains, List.map_map]
    apply map_congr_left
    intro m _
    by_cases hm : m.1 = pid <;> simp [hm]
  -- a thread of before is there, so it is not the new one
  have hold (k : ThreadId) (q : Nat) (hk : owner s k = some q) : owner s' k = some q := by
    rw [howner, if_neg ?_, hk]
    rintro rfl
    rw [hnew] at hk
    simp at hk
  refine ⟨by rw [hkeys]; exact hinv.pids, ?_, ?_, ?_, ?_⟩
  · intro m hm
    have hkey : m.1 ∈ (mains s).map Prod.fst := by
      rw [← hkeys]
      exact mem_map_of_mem hm
    obtain ⟨m', hm', heq⟩ := mem_map.mp hkey
    rw [hnext, ← heq]
    exact hinv.fresh m' hm'
  · intro q k hq
    rw [hmains] at hq
    obtain ⟨m, hm, heq⟩ := mem_map.mp hq
    by_cases hmp : m.1 = pid
    · rw [if_pos hmp] at heq
      obtain ⟨rfl, hk⟩ := Prod.mk.inj heq
      obtain rfl := some.inj hk
      rw [howner, if_pos rfl, hqueue]
      exact ⟨rfl, by simp⟩
    · rw [if_neg hmp] at heq
      subst heq
      obtain ⟨hk, hmem⟩ := hinv.main q k hm
      rw [hqueue]
      exact ⟨hold k q hk, by simp [hmem]⟩
  · intro k hk
    rw [hqueue] at hk
    rw [hmains]
    rcases mem_append.mp hk with hk | hk
    · obtain ⟨q, hq, hmem⟩ := hinv.queue k hk
      have hqp : q ≠ pid := by
        rintro rfl
        simpa using hinv.unique hmain hmem
      exact ⟨q, hold k q hq, mem_map.mpr ⟨(q, some k), hmem, by simp [hqp]⟩⟩
    · obtain rfl := mem_singleton.mp hk
      exact ⟨pid, by rw [howner, if_pos rfl], mem_map.mpr ⟨(pid, none), hmain, by simp⟩⟩
  · intro k hk
    rw [hcurrent] at hk
    rw [hqueue]
    exact mem_append_left _ (hinv.current k hk)

theorem owner_threads_append (s : Procs) (thread : Thread) (n : Nat) (k : ThreadId) :
    owner { s with threads := s.threads ++ [some thread], nextTid := n } k =
      if k = s.threads.length then some thread.processId else owner s k := by
  unfold owner Procs.thread
  rcases Nat.lt_trichotomy k s.threads.length with hlt | rfl | hgt
  · rw [if_neg (Nat.ne_of_lt hlt), getElem?_append_left hlt]
  · simp
  · rw [if_neg (Nat.ne_of_gt hgt), getElem?_eq_none (by simpa), getElem?_eq_none (Nat.le_of_lt hgt)]

theorem owner_length (s : Procs) : owner s s.threads.length = none := by
  unfold owner Procs.thread
  rw [getElem?_eq_none (Nat.le_refl _)]
  rfl

/-- The queue is gone through with a new thread around: all its threads are still there. -/
theorem queue_alive_append (hinv : ProcInv s) {s₁ : Procs} (hqueue : s₁.runQueue = s.runQueue)
    (howner : ∀ k, owner s₁ k = if k = s.threads.length then some pid else owner s k) :
    (s₁.runQueue.all fun k => (s₁.thread k).isSome) = true := by
  rw [List.all_eq_true, hqueue]
  intro k hk
  obtain ⟨q, hq, -⟩ := hinv.queue k hk
  have hne : k ≠ s.threads.length := by
    rintro rfl
    rw [owner_length] at hq
    cases hq
  have hk' := howner k
  rw [if_neg hne, hq] at hk'
  obtain ⟨thread, hthread, -⟩ := map_eq_some_iff.mp hk'
  rw [hthread]
  rfl

/-- **What `exec_image` does once the image is loaded.** -/
theorem execStart_spec (hinv : ProcInv s) (hmain : (p.pid, p.mainThread) ∈ mains s) (entry : Nat)
    (alloc : Bool) : ∃ r, execStart s p entry alloc = some r ∧ ProcInv r.1 := by
  unfold execStart
  cases hthread : p.mainThread with
  | some t =>
    have hentry : SameBooks s (s.setThread t ((s.thread t).map fun thread =>
        { thread with instructionPointer := entry })) := sameBooks_setThread (Option.map_map ..)
    exact ⟨_, rfl, hinv.of_sameBooks (hentry.trans (sameBooks_modifyProcess fun p => ⟨rfl, rfl⟩))
      hinv.current⟩
  | none =>
    rw [hthread] at hmain
    unfold threadCreate
    cases alloc with
    | false => exact ⟨_, rfl, hinv⟩
    | true =>
      simp only [Bool.not_true, Bool.false_eq_true, if_false]
      generalize hnew : ({ s with
        threads := s.threads ++ [some
          { tid := s.nextTid, processId := p.pid, stackTop := 0, instructionPointer := entry }]
        nextTid := s.nextTid + 1 } : Procs) = s₁
      have howner (k : ThreadId) : owner s₁ k =
          if k = s.threads.length then some p.pid else owner s k := by
        rw [← hnew]
        exact owner_threads_append s _ _ k
      have hqueue : s₁.runQueue = s.runQueue := by rw [← hnew]
      unfold schedulerAdd
      rw [if_pos (queue_alive_append hinv hqueue howner)]
      refine ⟨_, rfl, procInv_newThread hinv hmain (owner_length s) ?_ ?_ ?_ ?_ ?_⟩
      · rw [← hnew]
        unfold mains Procs.modifyProcess Procs.setThread
        simp only [List.map_map]
        apply map_congr_left
        intro q _
        by_cases hq : q.pid = p.pid <;> simp [hq]
      · intro k
        have hready : SameBooks s₁ (s₁.setThread s.threads.length
            ((s₁.thread s.threads.length).map fun thread => { thread with state := .ready })) :=
          sameBooks_setThread (Option.map_map ..)
        rw [← howner k, ← hready.owner k]
        rfl
      · rw [← hqueue]
        rfl
      all_goals
        rw [← hnew]
        rfl

theorem exec_spec (hinv : ProcInv s) (pid : Nat) (name : Option (List UInt8)) (loaded : Option Nat)
    (alloc : Bool) : ∃ r, execImage s pid name loaded alloc = some r ∧ ProcInv r.1 := by
  unfold execImage
  cases hfind : processFind s pid with
  | none => exact ⟨_, rfl, hinv⟩
  | some p =>
    cases loaded with
    | none => exact ⟨_, rfl, hinv⟩
    | some entry =>
      have hpid : p.pid = pid := by simpa using find?_some hfind
      have hrename : SameBooks s (execRename s pid name) ∧
          (execRename s pid name).currentThread = s.currentThread := by
        cases name with
        | none => exact ⟨SameBooks.refl s, rfl⟩
        | some name => exact ⟨sameBooks_modifyProcess fun p => ⟨rfl, rfl⟩, rfl⟩
      refine execStart_spec (hinv.of_sameBooks hrename.1 fun t ht => ?_) ?_ entry alloc
      · exact hinv.current t (hrename.2 ▸ ht)
      · rw [hrename.1.mains, hpid]
        exact mem_mains hfind

/-! ### Reaping -/

theorem waitForPid_eq (s : Procs) (pid : Nat) :
    (waitForPid s pid).1 = ((reapedBy s pid).map (processDestroy s)).getD s := by
  unfold waitForPid reapedBy
  cases processFind s pid with
  | none => rfl
  | some p =>
    by_cases hzombie : p.state = .zombie <;> simp [hzombie, Option.filter]

theorem waitAnyChild_eq (s : Procs) (parentPid : Nat) :
    (waitAnyChild s parentPid).1 =
      ((reaped s (.waitAny parentPid)).map (processDestroy s)).getD s := by
  rw [waitAnyChild, reaped]
  cases s.processList.find? fun p => p.parentPid = parentPid ∧ p.state = .zombie with
  | none => rfl
  | some p => exact waitForPid_eq s p.pid

theorem find_of_reapedBy (h : reapedBy s pid = some p) : processFind s pid = some p :=
  (filter_eq_some_iff.mp h).1

/-- What is reaped is a process of the list. -/
theorem find_of_reaped {op : ProcOp} (h : reaped s op = some p) :
    ∃ pid, processFind s pid = some p := by
  cases op with
  | wait pid => exact ⟨pid, find_of_reapedBy h⟩
  | waitAny parentPid =>
    obtain ⟨q, -, hq⟩ := bind_eq_some_iff.mp h
    exact ⟨q.pid, find_of_reapedBy hq⟩
  | create name parentPid alloc | exec pid name loaded alloc | yield | exit pid code =>
    simp [reaped] at h

/-- A process without a thread leaves nothing behind. -/
theorem procInv_destroy (hinv : ProcInv s) (hfind : processFind s pid = some p)
    (hthread : p.mainThread = none) : ProcInv (processDestroy s p) := by
  have hpid : p.pid = pid := by simpa using find?_some hfind
  have hmain : (pid, none) ∈ mains s := hthread ▸ mem_mains hfind
  have hdestroy : (processDestroy s p).runQueue = s.runQueue ∧
      (processDestroy s p).threads = s.threads ∧ (processDestroy s p).nextPid = s.nextPid ∧
      (processDestroy s p).currentThread = s.currentThread := by
    unfold processDestroy
    rw [hthread]
    exact ⟨rfl, rfl, rfl, rfl⟩
  obtain ⟨hqueue, hthreads, hnext, hcurrent⟩ := hdestroy
  have howner (k : ThreadId) : owner (processDestroy s p) k = owner s k := by
    unfold owner Procs.thread
    rw [hthreads]
  have hmains : mains (processDestroy s p) = (mains s).eraseP fun m => m.1 = pid := by
    unfold processDestroy mains
    rw [hthread, hpid, eraseP_map]
    rfl
  have hsub : (mains (processDestroy s p)).Sublist (mains s) := by
    rw [hmains]
    exact eraseP_sublist
  refine ⟨hinv.pids.sublist (hsub.map Prod.fst), ?_, ?_, ?_, ?_⟩
  · intro m hm
    rw [hnext]
    exact hinv.fresh m (hsub.subset hm)
  · intro q k hq
    rw [howner, hqueue]
    exact hinv.main q k (hsub.subset hq)
  · intro k hk
    rw [hqueue] at hk
    obtain ⟨q, hq, hmem⟩ := hinv.queue k hk
    have hqp : q ≠ pid := by
      rintro rfl
      simpa using hinv.unique hmain hmem
    rw [howner, hmains]
    exact ⟨q, hq, (mem_eraseP_of_neg (by simpa using hqp)).mpr hmem⟩
  · intro k hk
    rw [hcurrent] at hk
    rw [hqueue]
    exact hinv.current k hk

/-- A process with a thread leaves its freed thread in the queue. -/
theorem not_queueSafe_destroy (hinv : ProcInv s) (hfind : processFind s pid = some p)
    (hthread : p.mainThread = some t) : ¬ QueueSafe (processDestroy s p) := by
  have hmain : (pid, some t) ∈ mains s := hthread ▸ mem_mains hfind
  obtain ⟨-, hqueue⟩ := hinv.main pid t hmain
  obtain ⟨thread, halive⟩ := isSome_iff_exists.mp (hinv.alive hqueue)
  intro hsafe
  have hkept : t ∈ (processDestroy s p).runQueue := by
    unfold processDestroy
    rw [hthread]
    exact hqueue
  obtain ⟨thread, hthere, -⟩ := hsafe t hkept
  unfold processDestroy at hthere
  rw [hthread, threadDestroy, thread_setThread, if_pos ⟨rfl, lt_of_thread halive⟩] at hthere
  simp at hthere

/-! ### Runs -/

/-- A step that reaps nothing keeps the invariant, and reads no freed thread. -/
theorem step_spec (hinv : ProcInv s) (op : ProcOp) :
    ∃ s', procStep s op = some s' ∧
      (reaped s op = none ∧ ProcInv s' ∨ ∃ p, reaped s op = some p ∧ s' = processDestroy s p) := by
  cases op with
  | create name parentPid alloc =>
    exact ⟨_, rfl, Or.inl ⟨rfl, procInv_create hinv name parentPid alloc⟩⟩
  | exec pid name loaded alloc =>
    obtain ⟨r, hr, hr'⟩ := exec_spec hinv pid name loaded alloc
    exact ⟨r.1, by rw [procStep, hr, map_some], Or.inl ⟨rfl, hr'⟩⟩
  | yield =>
    obtain ⟨r, hr, hr'⟩ := yield_spec hinv
    exact ⟨r.1, by rw [procStep, hr, map_some], Or.inl ⟨rfl, hr'⟩⟩
  | exit pid code =>
    obtain ⟨hbooks, hcurrent⟩ := sameBooks_exit s pid code
    exact ⟨_, rfl,
      Or.inl ⟨rfl, hinv.of_sameBooks hbooks fun t ht => hinv.current t (hcurrent ▸ ht)⟩⟩
  | wait pid =>
    refine ⟨_, rfl, ?_⟩
    rw [waitForPid_eq]
    cases hreaped : reapedBy s pid with
    | none => exact Or.inl ⟨hreaped, hinv⟩
    | some p => exact Or.inr ⟨p, hreaped, rfl⟩
  | waitAny parentPid =>
    refine ⟨_, rfl, ?_⟩
    rw [waitAnyChild_eq]
    cases hreaped : reaped s (.waitAny parentPid) with
    | none => exact Or.inl ⟨rfl, hinv⟩
    | some p => exact Or.inr ⟨p, rfl, rfl⟩

theorem procInv_step (s : Procs) (op : ProcOp) (s' : Procs) (hinv : ProcInv s)
    (hreaps : ReapsThreadless s op) (hstep : procStep s op = some s') : ProcInv s' := by
  obtain ⟨t, ht, ⟨-, hinv'⟩ | ⟨p, hp, rfl⟩⟩ := step_spec hinv op
  · exact some.inj (ht.symm.trans hstep) ▸ hinv'
  · obtain ⟨pid, hfind⟩ := find_of_reaped hp
    exact some.inj (ht.symm.trans hstep) ▸ procInv_destroy hinv hfind (hreaps p hp)

theorem queueSafe_step (s : Procs) (op : ProcOp) (s' : Procs) (hinv : ProcInv s)
    (hstep : procStep s op = some s') : QueueSafe s' ↔ ReapsThreadless s op := by
  constructor
  · intro hsafe p hp
    obtain ⟨t, ht, ⟨hnone, -⟩ | ⟨p', hp', rfl⟩⟩ := step_spec hinv op
    · rw [hnone] at hp
      simp at hp
    · obtain rfl := some.inj (hp'.symm.trans hp)
      obtain rfl := some.inj (ht.symm.trans hstep)
      obtain ⟨pid, hfind⟩ := find_of_reaped hp
      cases hthread : p'.mainThread with
      | none => rfl
      | some t => exact absurd hsafe (not_queueSafe_destroy hinv hfind hthread)
  · intro hreaps
    exact (procInv_step s op s' hinv hreaps hstep).queueSafe

/-- **When the run queue is safe.**  From the start, whatever processes are created,
started, scheduled, ended and waited for: every thread in the run queue is there and
belongs to a process that is there, in every state passed through, exactly if no process
with a thread is ever reaped; and then no call reads a thread that was freed. -/
theorem queue_safe_iff (ops : List ProcOp) :
    (Throughout procStep QueueSafe {} ops ↔ Along procStep ReapsThreadless {} ops) ∧
      (Throughout procStep QueueSafe {} ops → (run procStep {} ops).isSome) := by
  have hiff : Throughout procStep QueueSafe {} ops ↔ Along procStep ReapsThreadless {} ops := by
    refine throughout_iff_along (fun s op s' hinv _ hp hstep => procInv_step s op s' hinv hp hstep)
      ?_ (fun s op s' hinv _ hstep => queueSafe_step s op s' hinv hstep) procInv_init
      procInv_init.queueSafe
    intro s op hinv _ hnone
    obtain ⟨t, ht, -⟩ := step_spec hinv op
    rw [hnone] at ht
    simp at ht
  refine ⟨hiff, fun hsafe => ?_⟩
  refine run_isSome procInv_step (fun s op hinv _ => ?_) procInv_init (hiff.mp hsafe)
  obtain ⟨t, ht, -⟩ := step_spec hinv op
  rw [ht]
  rfl

/-- A process that is created, started and scheduled. -/
theorem queue_safe_started :
    Throughout procStep QueueSafe {} [.create none 0 true, .exec 1 none (some 4096) true, .yield] ∧
      (run procStep {} [.create none 0 true, .exec 1 none (some 4096) true, .yield]).isSome := by
  have hcalls : Along procStep ReapsThreadless {}
      [.create none 0 true, .exec 1 none (some 4096) true, .yield] :=
    ⟨fun p hp => by simp [reaped] at hp, fun _ _ => ⟨fun p hp => by simp [reaped] at hp,
      fun _ _ => ⟨fun p hp => by simp [reaped] at hp, fun _ _ => trivial⟩⟩⟩
  obtain ⟨hiff, hrun⟩ := queue_safe_iff [.create none 0 true, .exec 1 none (some 4096) true, .yield]
  exact ⟨hiff.mpr hcalls, hrun (hiff.mpr hcalls)⟩

/-- A process is created, started, ends and is waited for: its thread is freed and stays in
the queue, and the next yield reads it. -/
theorem reaped_thread_stays :
    (∃ s, run procStep {}
        [.create none 0 true, .exec 1 none (some 4096) true, .exit (some 1) 0, .wait 1] = some s ∧
      s.runQueue = [0] ∧ s.thread 0 = none ∧ s.processList = []) ∧
      run procStep {}
        [.create none 0 true, .exec 1 none (some 4096) true, .exit (some 1) 0, .wait 1, .yield] =
        none := by
  exact ⟨⟨_, rfl, by decide⟩, by decide⟩

end Nv0ken.Proc
