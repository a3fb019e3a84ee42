/-
Runs of a partial step function.

A component is a state and a function that performs one operation on it; a run
is a list of operations performed one after another, and it has no result as soon
as one of its steps has none.  What is proved about a component is proved of every
state a run passes through, so the induction over the operations is done here,
once, and every module below supplies only what a single step does.

  * `along_throughout` turns a step lemma into a statement about whole runs: as
    long as every step meets its condition, the property holds in every state
    passed through.
  * `throughout_iff_along` is the same rule in both directions, for a condition
    that is not merely enough but exactly what each step needs.
  * `run_isSome` says such a run does come to an end.
-/
import Mathlib.Data.Option.Basic

namespace Nv0ken.Run

open List Option

variable {σ α : Type*} {step : σ → α → Option σ} {P : σ → α → Prop} {Q I : σ → Prop}

/-- The state after performing the operations in order. -/
def run (step : σ → α → Option σ) : σ → List α → Option σ
  | s, [] => some s
  | s, op :: ops => (step s op).bind fun s' => run step s' ops

/-- Every step of the run meets `P` in the state it is performed in. -/
def Along (step : σ → α → Option σ) (P : σ → α → Prop) : σ → List α → Prop
  | _, [] => True
  | s, op :: ops => P s op ∧ ∀ s', step s op = some s' → Along step P s' ops

/-- Every state the run passes through satisfies `Q`, the first one included. -/
def Throughout (step : σ → α → Option σ) (Q : σ → Prop) : σ → List α → Prop
  | s, [] => Q s
  | s, op :: ops => Q s ∧ ∀ s', step s op = some s' → Throughout step Q s' ops

instance decidableAlong (step : σ → α → Option σ) (P : σ → α → Prop) [∀ s a, Decidable (P s a)] :
    (s : σ) → (ops : List α) → Decidable (Along step P s ops)
  | _, [] => inferInstanceAs (Decidable True)
  | s, op :: ops =>
    match h : step s op with
    | none => decidable_of_iff (P s op) (by simp [Along, h])
    | some t =>
      have := decidableAlong step P t ops
      decidable_of_iff (P s op ∧ Along step P t ops) (by simp [Along, h])

@[simp] theorem run_nil (s : σ) : run step s [] = some s := rfl

theorem run_cons (s : σ) (op : α) (ops : List α) :
    run step s (op :: ops) = (step s op).bind fun s' => run step s' ops := rfl

theorem run_append (s : σ) (ops more : List α) :
    run step s (ops ++ more) = (run step s ops).bind fun s' => run step s' more := by
  induction ops generalizing s with
  | nil => rfl
  | cons op ops ih =>
    rw [cons_append, run_cons, run_cons, bind_assoc]
    congr 1
    funext t
    exact ih t

variable {s s' : σ} {ops : List α} {P' : σ → α → Prop}

theorem along_cons {op : α} {t : σ} (h : step s op = some t) :
    Along step P s (op :: ops) ↔ P s op ∧ Along step P t ops := by simp [Along, h]

theorem throughout_cons {op : α} {t : σ} (h : step s op = some t) :
    Throughout step Q s (op :: ops) ↔ Q s ∧ Throughout step Q t ops := by simp [Throughout, h]

/-- A run that has a result has one after each of its first operations. -/
theorem run_take (h : run step s ops = some s') (k : Nat) :
    ∃ u, run step s (ops.take k) = some u := by
  rw [← take_append_drop k ops, run_append] at h
  obtain ⟨u, hu, -⟩ := bind_eq_some_iff.mp h
  exact ⟨u, hu⟩

theorem Throughout.head (h : Throughout step Q s ops) : Q s := by
  cases ops with
  | nil => exact h
  | cons op ops => exact h.1

/-- What holds throughout a run holds in the state it ends in. -/
theorem Throughout.last {s' : σ} (h : Throughout step Q s ops) (hrun : run step s ops = some s') :
    Q s' := by
  induction ops generalizing s with
  | nil =>
    simp only [run_nil, some.injEq] at hrun
    exact hrun ▸ h
  | cons op ops ih =>
    obtain ⟨t, ht, hrest⟩ := bind_eq_some_iff.mp hrun
    exact ih (h.2 t ht) hrest

theorem Throughout.mono {Q' : σ → Prop} (hQ : ∀ s, Q s → Q' s) (h : Throughout step Q s ops) :
    Throughout step Q' s ops := by
  induction ops generalizing s with
  | nil => exact hQ s h
  | cons op ops ih => exact ⟨hQ s h.1, fun s' hs' => ih (h.2 s' hs')⟩

theorem Along.and (h : Along step P s ops) (h' : Along step P' s ops) :
    Along step (fun s op => P s op ∧ P' s op) s ops := by
  induction ops generalizing s with
  | nil => trivial
  | cons op ops ih => exact ⟨⟨h.1, h'.1⟩, fun s' hs' => ih (h.2 s' hs') (h'.2 s' hs')⟩

theorem Along.mono (hP : ∀ s op, P s op → P' s op) (h : Along step P s ops) :
    Along step P' s ops := by
  induction ops generalizing s with
  | nil => trivial
  | cons op ops ih => exact ⟨hP s op h.1, fun s' hs' => ih (h.2 s' hs')⟩

/-- What every operation meets in any state is met along the run. -/
theorem along_of_forall (h : ∀ op ∈ ops, ∀ s, P s op) (s : σ) : Along step P s ops := by
  induction ops generalizing s with
  | nil => trivial
  | cons op ops ih =>
    rw [forall_mem_cons] at h
    exact ⟨h.1 s, fun s' _ => ih h.2 s'⟩

theorem along_true (s : σ) (ops : List α) : Along step (fun _ _ => True) s ops :=
  along_of_forall (fun _ _ _ => trivial) s

/-- **The invariant rule.**  A step that meets its condition keeps the invariant, so
a run whose steps all meet it has the invariant in every state. -/
theorem along_throughout (hstep : ∀ s op s', I s → P s op → step s op = some s' → I s') (hs : I s)
    (halong : Along step P s ops) : Throughout step I s ops := by
  induction ops generalizing s with
  | nil => exact hs
  | cons op ops ih =>
    exact ⟨hs, fun s' hs' => ih (hstep s op s' hs halong.1 hs') (halong.2 s' hs')⟩

/-- What every step from a state with the invariant meets is met along the run. -/
theorem Throughout.along (hP : ∀ s op, I s → P s op) (h : Throughout step I s ops) :
    Along step P s ops := by
  induction ops generalizing s with
  | nil => trivial
  | cons op ops ih => exact ⟨hP s op h.1, fun s' hs' => ih (h.2 s' hs')⟩

/-- In a run that has a result every step has one. -/
theorem along_iff_of_run (h : (run step s ops).isSome) :
    Along step (fun s op => (step s op).isSome → P s op) s ops ↔ Along step P s ops := by
  induction ops generalizing s with
  | nil => rfl
  | cons op ops ih =>
    rw [run_cons] at h
    cases ht : step s op with
    | none =>
      rw [ht] at h
      cases h
    | some t =>
      rw [ht] at h
      rw [along_cons ht, along_cons ht, ih h, ht]
      simp

/-- Two conditions that say the same of a step from a state with the invariant say the same
of a run. -/
theorem along_congr (hstep : ∀ s op s', I s → P s op → step s op = some s' → I s')
    (hP : ∀ s op, I s → (P s op ↔ P' s op)) (hs : I s) :
    Along step P s ops ↔ Along step P' s ops := by
  induction ops generalizing s with
  | nil => exact Iff.rfl
  | cons op ops ih =>
    constructor
    · intro ⟨hp, hrest⟩
      exact ⟨(hP s op hs).mp hp, fun s' hs' => (ih (hstep s op s' hs hp hs')).mp (hrest s' hs')⟩
    · intro ⟨hp', hrest⟩
      have hp := (hP s op hs).mpr hp'
      exact ⟨hp, fun s' hs' => (ih (hstep s op s' hs hp hs')).mpr (hrest s' hs')⟩

/-- A run whose steps all have a result that keeps the invariant ends in a state with it. -/
theorem run_keeps (hstep : ∀ s op, I s → P s op → ∃ s', step s op = some s' ∧ I s') (hs : I s)
    (halong : Along step P s ops) : ∃ s', run step s ops = some s' ∧ I s' := by
  induction ops generalizing s with
  | nil => exact ⟨s, rfl, hs⟩
  | cons op ops ih =>
    obtain ⟨t, ht, hkept⟩ := hstep s op hs halong.1
    obtain ⟨s', hrun, hs'⟩ := ih hkept (halong.2 t ht)
    refine ⟨s', ?_, hs'⟩
    rw [run_cons, ht]
    exact hrun

/-- A run whose steps all have a result has one. -/
theorem run_isSome (hstep : ∀ s op s', I s → P s op → step s op = some s' → I s')
    (hdef : ∀ s op, I s → P s op → (step s op).isSome) (hs : I s) (halong : Along step P s ops) :
    (run step s ops).isSome := by
  refine isSome_iff_exists.mpr ((run_keeps ?_ hs halong).imp fun _ h => h.1)
  intro s op hs hp
  obtain ⟨t, ht⟩ := isSome_iff_exists.mp (hdef s op hs hp)
  exact ⟨t, ht, hstep s op t hs hp ht⟩

/-- A step that meets its condition has a result that keeps the invariant, one that does not has
none; then the steps of a run with a result all meet it, and the result keeps the invariant. -/
theorem along_of_run (hsome : ∀ s op, I s → P s op → ∃ s', step s op = some s' ∧ I s')
    (hnone : ∀ s op, I s → ¬ P s op → step s op = none) (hs : I s)
    (hrun : run step s ops = some s') : Along step P s ops ∧ I s' := by
  induction ops generalizing s with
  | nil =>
    obtain rfl := some.inj hrun
    exact ⟨trivial, hs⟩
  | cons op ops ih =>
    obtain ⟨t, ht, hrest⟩ := bind_eq_some_iff.mp hrun
    have hp : P s op := by
      by_contra hp
      rw [hnone s op hs hp] at ht
      cases ht
    obtain ⟨t', ht', hkept⟩ := hsome s op hs hp
    obtain rfl := some.inj (ht.symm.trans ht')
    obtain ⟨halong, hs'⟩ := ih hkept hrest
    exact ⟨(along_cons ht).mpr ⟨hp, halong⟩, hs'⟩

/-- In a run that has a result every operation is performed, in a state with what all steps keep. -/
theorem performed_of_run (hI : ∀ s op s', I s → step s op = some s' → I s') (op : α) (hs : I s)
    (hrun : run step s ops = some s') (hop : op ∈ ops) : ∃ u u', I u ∧ step u op = some u' := by
  induction ops generalizing s with
  | nil => exact absurd hop not_mem_nil
  | cons first rest ih =>
    obtain ⟨t, ht, hrest⟩ := bind_eq_some_iff.mp hrun
    rcases mem_cons.mp hop with rfl | hlater
    · exact ⟨s, t, hs, ht⟩
    · exact ih (hI s first t hs ht) hrest hlater

/-- **The exactness rule.**  Under the invariant `I` a step from a good state leads to a
good state exactly when it meets `P`, and then it keeps `I`; a step that has no result
meets `P`.  Then the good runs are exactly those whose steps all meet `P`.  Here this is
said of runs that meet a further condition `H` in any case. -/
theorem throughout_iff_along_under {H : σ → α → Prop}
    (hI : ∀ s op s', H s op → I s → Q s → P s op → step s op = some s' → I s')
    (hend : ∀ s op, I s → Q s → step s op = none → P s op)
    (hQ : ∀ s op s', H s op → I s → Q s → step s op = some s' → (Q s' ↔ P s op))
    (hh : Along step H s ops) (hi : I s) (hq : Q s) :
    Throughout step Q s ops ↔ Along step P s ops := by
  induction ops generalizing s with
  | nil => exact ⟨fun _ => trivial, fun _ => hq⟩
  | cons op ops ih =>
    cases ht : step s op with
    | none =>
      have hstuck : ∀ s', step s op ≠ some s' := by simp [ht]
      exact ⟨fun _ => ⟨hend s op hi hq ht, fun s' hs' => absurd hs' (hstuck s')⟩,
        fun _ => ⟨hq, fun s' hs' => absurd hs' (hstuck s')⟩⟩
    | some t =>
      rw [throughout_cons ht, along_cons ht]
      constructor
      · intro ⟨_, hrest⟩
        have hqt : Q t := hrest.head
        have hp : P s op := (hQ s op t hh.1 hi hq ht).mp hqt
        exact ⟨hp, (ih (hh.2 t ht) (hI s op t hh.1 hi hq hp ht) hqt).mp hrest⟩
      · intro ⟨hp, hrest⟩
        have hqt : Q t := (hQ s op t hh.1 hi hq ht).mpr hp
        exact ⟨hq, (ih (hh.2 t ht) (hI s op t hh.1 hi hq hp ht) hqt).mpr hrest⟩

theorem throughout_iff_along (hI : ∀ s op s', I s → Q s → P s op → step s op = some s' → I s')
    (hend : ∀ s op, I s → Q s → step s op = none → P s op)
    (hQ : ∀ s op s', I s → Q s → step s op = some s' → (Q s' ↔ P s op)) (hi : I s) (hq : Q s) :
    Throughout step Q s ops ↔ Along step P s ops :=
  throughout_iff_along_under (fun s op s' _ => hI s op s') hend (fun s op s' _ => hQ s op s')
    (along_true s ops) hi hq

end Nv0ken.Run
