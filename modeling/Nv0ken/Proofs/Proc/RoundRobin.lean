/-
Yielding goes round.

The scheduler looks for the next runnable thread behind the current one, in a circle, so
between two choices of a thread every other runnable thread has its turn:
`round_robin` says that as many yields as there are runnable threads select each of them
once.  The order is that of `candidates`; a yield takes the first runnable thread of it to
its end (`yield_candidates`), and the rest is counting.

That only the thread selected is RUNNING rests on an invariant, `QueueOk`: nothing but the
scheduler makes a thread RUNNING, and it keeps the last one it made so as the current one.
-/
import Nv0ken.Proofs.Proc.Scheduler
import Nv0ken.Lib.Rotation

namespace Nv0ken.Proc

open Run Rotation List Option

variable {s s' s₀ : Procs} {t k : ThreadId} {n : Nat} {thread : Thread}

/-! ### States of threads -/

def stateOf (s : Procs) (t : ThreadId) : Option ThreadState := (s.thread t).map Thread.state

def Runnable (s : Procs) (t : ThreadId) : Prop :=
  stateOf s t = some .ready ∨ stateOf s t = some .running

instance : Decidable (Runnable s t) := by
  unfold Runnable
  infer_instance

/-- The threads of the queue that are RUNNING. -/
def running (s : Procs) : List ThreadId := s.runQueue.filter fun t => stateOf s t = some .running

theorem runnable_iff (s : Procs) (t : ThreadId) :
    Runnable s t ↔ (s.thread t).any threadIsRunnable = true := by
  unfold Runnable stateOf threadIsRunnable
  cases s.thread t <;> simp

theorem stateOf_setThread (ht : s.thread t = some thread) (state : ThreadState) :
    stateOf (s.setThread t (some { thread with state := state })) k =
      if k = t then some state else stateOf s k := by
  unfold stateOf
  rw [thread_setThread]
  by_cases hk : k = t
  · simp [hk, lt_of_thread ht]
  · simp [hk]

/-! ### The queue -/

/-- Distinct threads that are all there, of which only the current one may be RUNNING. -/
structure QueueOk (s : Procs) : Prop where
  nodup : s.runQueue.Nodup
  alive : ∀ t ∈ s.runQueue, (s.thread t).isSome
  current : ∀ t, s.currentThread = some t → t ∈ s.runQueue
  running : ∀ t ∈ s.runQueue, stateOf s t = some .running → s.currentThread = some t

/-- What happens to a run queue. -/
inductive QueueOp
  | add (t : ThreadId)
  | remove (t : ThreadId)
  | yield
  | setState (t : ThreadId) (state : ThreadState)

def queueStep (s : Procs) : QueueOp → Option Procs
  | .add t => schedulerAdd s t
  | .remove t => schedulerRemove s t
  | .yield => (schedulerYield s).map Prod.fst
  | .setState t state => some (threadSetState s t state)

/-- A thread is added when it is there and not yet in the queue; RUNNING is for the
scheduler alone to give. -/
def QueueOp.Fair (s : Procs) : QueueOp → Prop
  | .add t => (s.thread t).isSome ∧ t ∉ s.runQueue
  | .setState _ state => state ≠ .running
  | _ => True

theorem candidates_eq (s : Procs) :
    candidates s = s.currentThread.elim s.runQueue (turnedPast s.runQueue) := by
  unfold candidates turnedPast
  cases s.currentThread <;> rfl

theorem candidates_perm (s : Procs) : (candidates s).Perm s.runQueue := by
  rw [candidates_eq]
  cases s.currentThread with
  | none => exact Perm.refl _
  | some t => exact turnedPast_perm

/-- Behind a thread at which the round stops comes the rest of the round. -/
theorem candidates_split {x y : List ThreadId} (hnodup : s.runQueue.Nodup)
    (h : candidates s = x ++ t :: y) : turnedPast s.runQueue t = y ++ (x ++ [t]) := by
  rw [candidates_eq] at h
  cases hc : s.currentThread with
  | none =>
    rw [hc] at h
    have hq : s.runQueue = [] ++ s.runQueue := rfl
    rw [hq] at hnodup ⊢
    exact turnedPast_split hnodup ((append_nil _).trans h)
  | some c =>
    rw [hc] at h
    have hq := (take_append_drop (s.runQueue.idxOf c + 1) s.runQueue).symm
    have hsplit := turnedPast_split (hq ▸ hnodup) h
    rwa [← hq] at hsplit

/-! ### One yield -/

/-- The loop passes threads that cannot run. -/
theorem pickLoop_append {x : List ThreadId} (halive : ∀ k ∈ x, (s.thread k).isSome)
    (hx : ∀ k ∈ x, ¬ Runnable s k) (y : List ThreadId) : pickLoop s (x ++ y) = pickLoop s y := by
  induction x with
  | nil => rfl
  | cons k x ih =>
    obtain ⟨thread, hthread⟩ := isSome_iff_exists.mp (halive k (by simp))
    have hk : ¬ threadIsRunnable thread = true := by
      have hk := hx k (by simp)
      rwa [runnable_iff, hthread, any_some] at hk
    rw [cons_append, pickLoop, hthread]
    simp only
    rw [if_neg hk]
    exact ih (fun k hk => halive k (by simp [hk])) fun k hk => hx k (by simp [hk])

theorem pickLoop_cons (ht : s.thread t = some thread) (hrun : Runnable s t) (y : List ThreadId) :
    pickLoop s (t :: y) =
      some ({ s.setThread t (some { thread with state := .running }) with
        currentThread := some t }, some t) := by
  rw [runnable_iff, ht, any_some] at hrun
  rw [pickLoop, ht]
  simp only
  rw [if_pos hrun]

/-- The current thread, no longer RUNNING. -/
def putDown (s : Procs) : Procs :=
  match s.currentThread with
  | none => s
  | some t => if stateOf s t = some .running then threadSetState s t .ready else s

theorem putDown_spec (hok : QueueOk s) :
    (putDown s).runQueue = s.runQueue ∧ (putDown s).currentThread = s.currentThread ∧
      ∀ k ∈ s.runQueue, stateOf (putDown s) k =
        if stateOf s k = some .running then some .ready else stateOf s k := by
  unfold putDown
  cases hc : s.currentThread with
  | none =>
    refine ⟨rfl, hc, fun k hk => ?_⟩
    rw [if_neg]
    intro hrunning
    rw [hok.running k hk hrunning] at hc
    cases hc
  | some t =>
    obtain ⟨thread, hthread⟩ := isSome_iff_exists.mp (hok.alive t (hok.current t hc))
    simp only
    by_cases hrunning : stateOf s t = some .running
    · rw [if_pos hrunning]
      refine ⟨rfl, hc, fun k hk => ?_⟩
      unfold threadSetState
      rw [hthread, map_some, stateOf_setThread hthread]
      by_cases hkt : k = t
      · rw [if_pos hkt, hkt, if_pos hrunning]
      · rw [if_neg hkt, if_neg]
        intro hk'
        exact hkt (some.inj ((hok.running k hk hk').symm.trans hc))
    · rw [if_neg hrunning]
      refine ⟨rfl, hc, fun k hk => ?_⟩
      rw [if_neg]
      intro hk'
      obtain rfl := some.inj ((hok.running k hk hk').symm.trans hc)
      exact hrunning hk'

theorem isSome_stateOf (s : Procs) (t : ThreadId) : (stateOf s t).isSome = (s.thread t).isSome := by
  unfold stateOf
  rw [isSome_map]

section

variable (hok : QueueOk s)
include hok

theorem alive_putDown (ht : t ∈ s.runQueue) : ((putDown s).thread t).isSome := by
  rw [← isSome_stateOf, (putDown_spec hok).2.2 t ht]
  by_cases h : stateOf s t = some .running
  · rw [if_pos h]
    rfl
  · rw [if_neg h, isSome_stateOf]
    exact hok.alive t ht

theorem runnable_putDown (ht : t ∈ s.runQueue) : Runnable (putDown s) t ↔ Runnable s t := by
  unfold Runnable
  rw [(putDown_spec hok).2.2 t ht]
  by_cases h : stateOf s t = some .running
  · simp [h]
  · rw [if_neg h]

/-- A yield is the loop over the candidates after the current thread is put down. -/
theorem schedulerYield_eq (hne : s.runQueue ≠ []) :
    schedulerYield s = pickLoop (putDown s) (candidates s) := by
  obtain ⟨hqueue, hcurrent, -⟩ := putDown_spec hok
  have hpick : schedulerPickNext (putDown s) = pickLoop (putDown s) (candidates s) := by
    unfold schedulerPickNext
    rw [hqueue, if_neg hne, hcurrent, if_neg, candidates_eq, candidates_eq, hqueue, hcurrent]
    cases hc : s.currentThread with
    | none => simp
    | some t => simpa using isSome_iff_ne_none.mp (alive_putDown hok (hok.current t hc))
  rw [← hpick]
  unfold schedulerYield putDown
  cases hc : s.currentThread with
  | none => rfl
  | some t =>
    obtain ⟨thread, hthread⟩ := isSome_iff_exists.mp (hok.alive t (hok.current t hc))
    simp only [stateOf, threadSetState, hthread, map_some, some.injEq]

/-- **A yield selects the first candidate that can run**, and makes it the one thread of
the queue that is RUNNING. -/
theorem yield_first {x y : List ThreadId} (hsplit : candidates s = x ++ t :: y)
    (hx : ∀ k ∈ x, ¬ Runnable s k) (ht : Runnable s t) :
    ∃ s', schedulerYield s = some (s', some t) ∧ s'.runQueue = s.runQueue ∧
      s'.currentThread = some t ∧ ∀ k ∈ s.runQueue, stateOf s' k =
        if k = t then some .running
        else if stateOf s k = some .running then some .ready else stateOf s k := by
  have hmem (k : ThreadId) (hk : k ∈ x ++ t :: y) : k ∈ s.runQueue :=
    (candidates_perm s).mem_iff.mp (hsplit ▸ hk)
  have htq : t ∈ s.runQueue := hmem t (by simp)
  obtain ⟨hqueue, -, hstate⟩ := putDown_spec hok
  obtain ⟨thread, hthread⟩ := isSome_iff_exists.mp (alive_putDown hok htq)
  have hloop := pickLoop_append (fun k hk => alive_putDown hok (hmem k (by simp [hk])))
    (fun k hk => (runnable_putDown hok (hmem k (by simp [hk]))).not.mpr (hx k hk)) (t :: y)
  rw [pickLoop_cons hthread ((runnable_putDown hok htq).mpr ht), ← hsplit,
    ← schedulerYield_eq hok (ne_nil_of_mem htq)] at hloop
  refine ⟨_, hloop, hqueue, rfl, fun k hk => ?_⟩
  rw [← hstate k hk]
  exact stateOf_setThread hthread .running

/-- With no thread that can run a yield changes nothing. -/
theorem yield_none (hnone : ∀ k ∈ s.runQueue, ¬ Runnable s k) :
    schedulerYield s = some (s, none) := by
  have hdown : putDown s = s := by
    unfold putDown
    cases hc : s.currentThread with
    | none => rfl
    | some t =>
      simp only
      rw [if_neg]
      intro hrunning
      exact hnone t (hok.current t hc) (Or.inr hrunning)
  by_cases hne : s.runQueue = []
  · have hc : s.currentThread = none := by
      cases hc : s.currentThread with
      | none => rfl
      | some t => simpa [hne] using hok.current t hc
    have hsame : { s with currentThread := none } = s := by rw [← hc]
    unfold schedulerYield
    rw [hc]
    unfold schedulerPickNext
    rw [if_pos hne, hsame]
  · have hmem (k : ThreadId) (hk : k ∈ candidates s) : k ∈ s.runQueue :=
      (candidates_perm s).mem_iff.mp hk
    rw [schedulerYield_eq hok hne, hdown, ← append_nil (candidates s), pickLoop_append]
    · rfl
    · exact fun k hk => hok.alive k (hmem k hk)
    · exact fun k hk => hnone k (hmem k hk)

end

/-- What a yield that selects `t` leaves behind. -/
structure Selected (s s' : Procs) (t : ThreadId) : Prop where
  ok : QueueOk s'
  queue : s'.runQueue = s.runQueue
  current : s'.currentThread = some t
  runnable : ∀ k ∈ s.runQueue, Runnable s' k ↔ Runnable s k
  running : running s' = [t]

theorem yield_selects (hok : QueueOk s) {x y : List ThreadId} (hsplit : candidates s = x ++ t :: y)
    (hx : ∀ k ∈ x, ¬ Runnable s k) (ht : Runnable s t) :
    ∃ s', schedulerYield s = some (s', some t) ∧ Selected s s' t := by
  have htq : t ∈ s.runQueue := (candidates_perm s).mem_iff.mp (by simp [hsplit])
  obtain ⟨s', hyield, hqueue, hcurrent, hstate⟩ := yield_first hok hsplit hx ht
  have hrunning (k : ThreadId) (hk : k ∈ s.runQueue) : stateOf s' k = some .running ↔ k = t := by
    rw [hstate k hk]
    by_cases hkt : k = t
    · simp [hkt]
    · by_cases hk' : stateOf s k = some .running <;> simp [hkt, hk']
  refine ⟨s', hyield, ⟨hqueue ▸ hok.nodup, ?_, ?_, ?_⟩, hqueue, hcurrent, ?_, ?_⟩
  · intro k hk
    rw [hqueue] at hk
    rw [← isSome_stateOf, hstate k hk]
    by_cases hkt : k = t
    · simp [hkt]
    · by_cases hk' : stateOf s k = some .running
      · simp [hkt, hk']
      · simp [hkt, hk', isSome_stateOf, hok.alive k hk]
  · intro k hk
    obtain rfl := some.inj (hcurrent.symm.trans hk)
    exact hqueue ▸ htq
  · intro k hk hk'
    rw [hqueue] at hk
    rw [(hrunning k hk).mp hk', hcurrent]
  · intro k hk
    unfold Runnable at ht ⊢
    rw [hstate k hk]
    by_cases hkt : k = t
    · simp [hkt, ht]
    · by_cases hk' : stateOf s k = some .running <;> simp [hkt, hk']
  · unfold running
    rw [hqueue]
    have hfilter : (s.runQueue.filter fun k => stateOf s' k = some .running) =
        s.runQueue.filter fun k => k = t := by
      apply filter_congr
      intro k hk
      exact decide_eq_decide.mpr (hrunning k hk)
    rw [hfilter, filter_eq, hok.nodup.count, if_pos htq, replicate_one]

/-- The candidates that can run. -/
def waiting (s : Procs) : List ThreadId := (candidates s).filter fun t => Runnable s t

section

variable (hok : QueueOk s)
include hok

/-- The thread selected goes to the end of the line. -/
theorem waiting_cons {r : List ThreadId} (h : waiting s = t :: r) :
    ∃ s', schedulerYield s = some (s', some t) ∧ Selected s s' t ∧ waiting s' = r ++ [t] := by
  obtain ⟨x, y, hsplit, hx, ht, rfl⟩ := filter_eq_cons_iff.mp h
  simp only [decide_eq_true_eq] at hx ht
  obtain ⟨s', hyield, hsel⟩ := yield_selects hok hsplit hx ht
  refine ⟨s', hyield, hsel, ?_⟩
  have hnext : candidates s' = y ++ (x ++ [t]) := by
    rw [candidates_eq, hsel.current, hsel.queue]
    exact candidates_split hok.nodup hsplit
  have hsame : waiting s' = (candidates s').filter fun k => Runnable s k := by
    apply filter_congr
    intro k hk
    rw [(candidates_perm s').mem_iff, hsel.queue] at hk
    exact decide_eq_decide.mpr (hsel.runnable k hk)
  have hpassed : x.filter (fun k => Runnable s k) = [] := by
    rw [filter_eq_nil_iff]
    intro k hk
    simpa using hx k hk
  rw [hsame, hnext, filter_append, filter_append, hpassed]
  simp [ht]

/-! ### The queue over a run -/

theorem queueOk_yield : ∃ r, schedulerYield s = some r ∧ QueueOk r.1 := by
  cases hw : waiting s with
  | nil =>
    refine ⟨_, yield_none hok fun k hk => ?_, hok⟩
    simpa using filter_eq_nil_iff.mp hw k ((candidates_perm s).mem_iff.mpr hk)
  | cons t r =>
    obtain ⟨s', hyield, hsel, -⟩ := waiting_cons hok hw
    exact ⟨_, hyield, hsel.ok⟩

theorem queueOk_setState {state : ThreadState} (hstate : state ≠ .running) :
    QueueOk (threadSetState s t state) := by
  have hstep (k : ThreadId) : stateOf (threadSetState s t state) k =
      if k = t ∧ (s.thread t).isSome then some state else stateOf s k := by
    unfold threadSetState
    cases ht : s.thread t with
    | none =>
      unfold stateOf
      rw [thread_setThread]
      by_cases hk : k = t ∧ t < s.threads.length
      · rw [if_pos hk, hk.1, ht]
        simp
      · simp [hk]
    | some thread =>
      rw [map_some, stateOf_setThread ht]
      simp
  refine ⟨hok.nodup, fun k hk => ?_, hok.current, fun k hk hrunning => ?_⟩
  · rw [← isSome_stateOf, hstep]
    by_cases h : k = t ∧ (s.thread t).isSome
    · rw [if_pos h]
      rfl
    · rw [if_neg h, isSome_stateOf]
      exact hok.alive k hk
  · rw [hstep] at hrunning
    by_cases h : k = t ∧ (s.thread t).isSome
    · rw [if_pos h] at hrunning
      exact absurd (some.inj hrunning) hstate
    · rw [if_neg h] at hrunning
      exact hok.running k hk hrunning

theorem queueOk_add (halive : (s.thread t).isSome) (hnew : t ∉ s.runQueue)
    (h : schedulerAdd s t = some s') : QueueOk s' := by
  unfold schedulerAdd at h
  rw [if_pos (all_eq_true.mpr hok.alive)] at h
  obtain rfl := some.inj h
  have hready : QueueOk (threadSetState s t .ready) := queueOk_setState hok (by decide)
  obtain ⟨thread, hthread⟩ := isSome_iff_exists.mp halive
  have hstate (k : ThreadId) : stateOf (threadSetState s t .ready) k =
      if k = t then some .ready else stateOf s k := by
    unfold threadSetState
    rw [hthread, map_some, stateOf_setThread hthread]
  refine ⟨?_, ?_, ?_, ?_⟩
  · exact hok.nodup.append (nodup_singleton t) (by simpa using hnew)
  · intro k hk
    rcases mem_append.mp hk with hk | hk
    · exact hready.alive k hk
    · obtain rfl := mem_singleton.mp hk
      have hsome : ((threadSetState s k .ready).thread k).isSome := by
        rw [← isSome_stateOf, hstate, if_pos rfl]
        rfl
      exact hsome
  · intro k hk
    exact mem_append_left _ (hok.current k hk)
  · intro k hk hrunning
    rcases mem_append.mp hk with hk | hk
    · exact hready.running k hk hrunning
    · obtain rfl := mem_singleton.mp hk
      have hrunning : stateOf (threadSetState s k .ready) k = some .running := hrunning
      rw [hstate, if_pos rfl] at hrunning
      cases hrunning

theorem queueOk_remove (h : schedulerRemove s t = some s') : QueueOk s' := by
  unfold schedulerRemove at h
  rw [if_pos (all_eq_true.mpr fun k hk => hok.alive k (mem_of_mem_take hk))] at h
  obtain rfl := some.inj h
  refine ⟨hok.nodup.erase t, fun k hk => hok.alive k (mem_of_mem_erase hk), ?_, ?_⟩
  · intro k hk
    by_cases hgone : t ∈ s.runQueue ∧ s.currentThread = some t
    · simp [hgone] at hk
    · simp only [if_neg hgone] at hk
      have hkq := hok.current k hk
      refine (mem_erase_of_ne ?_).mpr hkq
      rintro rfl
      exact hgone ⟨hkq, hk⟩
  · intro k hk hrunning
    have hcurrent := hok.running k (mem_of_mem_erase hk) hrunning
    have hkt : k ≠ t := ((Nodup.mem_erase_iff hok.nodup).mp hk).1
    have hstays : ¬ (t ∈ s.runQueue ∧ s.currentThread = some t) := by
      intro ⟨_, h⟩
      exact hkt (some.inj (hcurrent.symm.trans h))
    simp only [if_neg hstays]
    exact hcurrent

end

theorem queueOk_step (s : Procs) (op : QueueOp) (s' : Procs) (hok : QueueOk s) (hfair : op.Fair s)
    (h : queueStep s op = some s') : QueueOk s' := by
  cases op with
  | add t => exact queueOk_add hok hfair.1 hfair.2 h
  | remove t => exact queueOk_remove hok h
  | yield =>
    obtain ⟨r, hr, hok'⟩ := queueOk_yield hok
    unfold queueStep at h
    rw [hr] at h
    exact some.inj h ▸ hok'
  | setState t state =>
    obtain rfl := some.inj h
    exact queueOk_setState hok hfair

/-! ### A round -/

/-- The threads selected by `n` yields, each with the state after it. -/
def yields : Nat → Procs → Option (List (ThreadId × Procs))
  | 0, _ => some []
  | n + 1, s =>
    match schedulerYield s with
    | some (s', some t) => (yields n s').map fun rest => (t, s') :: rest
    | _ => none

theorem yields_spec (hok : QueueOk s) (hn : n ≤ (waiting s).length) :
    ∃ turns, yields n s = some turns ∧ turns.map Prod.fst = (waiting s).take n ∧
      ∀ p ∈ turns, running p.2 = [p.1] := by
  -- the line of those waiting turns by one thread with each yield
  induction n generalizing s with
  | zero => exact ⟨[], rfl, by simp, by simp⟩
  | succ n ih =>
    cases hw : waiting s with
    | nil => simp [hw] at hn
    | cons t r =>
      obtain ⟨s', hyield, hsel, hnext⟩ := waiting_cons hok hw
      have hr : n ≤ r.length := by simpa [hw] using hn
      obtain ⟨turns, hturns, hmap, hrunning⟩ := ih hsel.ok (by rw [hnext]; simp; omega)
      refine ⟨(t, s') :: turns, ?_, ?_, ?_⟩
      · rw [yields, hyield]
        simp only
        rw [hturns, map_some]
      · rw [map_cons, hmap, hnext, take_append_of_le_length hr, take_succ_cons]
      · intro p hp
        rcases mem_cons.mp hp with rfl | hp
        · exact hsel.running
        · exact hrunning p hp

theorem runnableCount_eq (hok : QueueOk s) :
    schedulerRunnableCount s = some (waiting s).length := by
  unfold schedulerRunnableCount waiting
  rw [if_pos (all_eq_true.mpr hok.alive), ← (candidates_perm s).countP_eq, countP_eq_length_filter]
  have hsame : (candidates s).filter (fun k => (s.thread k).any threadIsRunnable) =
      (candidates s).filter fun k => Runnable s k := by
    apply filter_congr
    intro k _
    rw [Bool.eq_iff_iff, ← runnable_iff, decide_eq_true_eq]
  rw [hsame]

/-- **As many yields as there are runnable threads select each of them once**, in every
queue that adding and removing threads, yielding and changing states of threads can lead
to; and the thread selected is each time the one thread of the queue that is RUNNING. -/
theorem round_robin (hqueue : s₀.runQueue = []) (hcurrent : s₀.currentThread = none)
    {ops : List QueueOp} (hfair : Along queueStep (fun s op => op.Fair s) s₀ ops)
    (hrun : run queueStep s₀ ops = some s) (hn : schedulerRunnableCount s = some n) :
    ∃ turns, yields n s = some turns ∧
      (turns.map Prod.fst).Perm (s.runQueue.filter fun t => Runnable s t) ∧
      s.runQueue.Nodup ∧ ∀ p ∈ turns, running p.2 = [p.1] := by
  have hstart : QueueOk s₀ :=
    ⟨by simp [hqueue], by simp [hqueue], by simp [hcurrent], by simp [hqueue]⟩
  have hok : QueueOk s := (along_throughout queueOk_step hstart hfair).last hrun
  obtain rfl : (waiting s).length = n := some.inj ((runnableCount_eq hok).symm.trans hn)
  obtain ⟨turns, hturns, hmap, hrunning⟩ := yields_spec hok (Nat.le_refl _)
  refine ⟨turns, hturns, ?_, hok.nodup, hrunning⟩
  rw [hmap, take_length]
  exact (candidates_perm s).filter _

/-- Three threads, the second of them waiting for something. -/
def threeThreads : List (Option Thread) :=
  [some { tid := 1, processId := 1, stackTop := 0, instructionPointer := 0 },
    some { tid := 2, processId := 1, stackTop := 0, instructionPointer := 0 },
    some { tid := 3, processId := 2, stackTop := 0, instructionPointer := 0 }]

theorem round_robin_three :
    ∃ s turns, run queueStep { threads := threeThreads }
        [.add 0, .add 1, .add 2, .setState 1 .blocked, .yield] = some s ∧
      yields 2 s = some turns ∧ (turns.map Prod.fst).Perm [0, 2] := by
  have hfair : Along queueStep (fun s op => op.Fair s) { threads := threeThreads }
      [.add 0, .add 1, .add 2, .setState 1 .blocked, .yield] := by
    refine ⟨⟨rfl, by decide⟩, fun s hs => ?_⟩
    obtain rfl := some.inj hs
    refine ⟨⟨rfl, by decide⟩, fun s hs => ?_⟩
    obtain rfl := some.inj hs
    refine ⟨⟨rfl, by decide⟩, fun s hs => ?_⟩
    exact ⟨nofun, fun _ _ => ⟨trivial, fun _ _ => trivial⟩⟩
  obtain ⟨turns, hturns, hperm, -⟩ := round_robin rfl rfl hfair rfl rfl
  exact ⟨_, turns, rfl, hturns, hperm⟩

end Nv0ken.Proc
