/-
The last write wins.

A list of operations each of which may or may not write a cell: what the cell holds
afterwards is what the last operation that writes it wrote, or what it held before if
none does.
-/
import Mathlib.Data.List.Basic

namespace Nv0ken.LastWrite

variable {α β : Type*} {w : α → Option β} {ops : List α}

/-- The cell after the operations; `w a` is what `a` writes, `none` if it does not. -/
def lastWrite (w : α → Option β) (init : β) (ops : List α) : β :=
  ops.foldl (fun held a => (w a).getD held) init

theorem lastWrite_cons (w : α → Option β) (init : β) (a : α) (ops : List α) :
    lastWrite w init (a :: ops) = lastWrite w ((w a).getD init) ops := rfl

/-- Some operation writes `v`, and none behind it writes at all. -/
def LastIs (w : α → Option β) (v : β) (ops : List α) : Prop :=
  ∃ pre a post, ops = pre ++ a :: post ∧ w a = some v ∧ ∀ q ∈ post, w q = none

theorem lastIs_cons {v : β} {a : α} :
    LastIs w v (a :: ops) ↔ (w a = some v ∧ ∀ q ∈ ops, w q = none) ∨ LastIs w v ops := by
  constructor
  · rintro ⟨pre, b, post, heq, hb, hpost⟩
    rcases pre with _ | ⟨c, pre⟩
    · obtain ⟨rfl, rfl⟩ := List.cons.inj heq
      exact Or.inl ⟨hb, hpost⟩
    · obtain ⟨rfl, rfl⟩ := List.cons.inj heq
      exact Or.inr ⟨pre, b, post, rfl, hb, hpost⟩
  · rintro (⟨ha, hops⟩ | ⟨pre, b, post, rfl, hb, hpost⟩)
    · exact ⟨[], a, ops, rfl, ha, hops⟩
    · exact ⟨a :: pre, b, post, rfl, hb, hpost⟩

theorem lastIs_append {v : β} {l m : List α} :
    LastIs w v (l ++ m) ↔ LastIs w v m ∨ (LastIs w v l ∧ ∀ q ∈ m, w q = none) := by
  induction l with
  | nil => simp [LastIs]
  | cons a l ih =>
    rw [List.cons_append, lastIs_cons, lastIs_cons, ih, List.forall_mem_append]
    tauto

theorem lastIs_map {γ : Type*} {f : γ → α} {v : β} {l : List γ} :
    LastIs w v (l.map f) ↔ LastIs (fun c => w (f c)) v l := by
  induction l with
  | nil => simp [LastIs]
  | cons c l ih => rw [List.map_cons, lastIs_cons, lastIs_cons, ih, List.forall_mem_map]

/-- Writes of the same value behind it do not matter. -/
theorem lastIs_iff_same {v : β} :
    LastIs w v ops ↔ ∃ pre a post, ops = pre ++ a :: post ∧ w a = some v ∧
      ∀ q ∈ post, ∀ u, w q = some u → u = v := by
  constructor
  · rintro ⟨pre, a, post, heq, ha, hpost⟩
    exact ⟨pre, a, post, heq, ha, fun q hq u hu => by rw [hpost q hq] at hu; cases hu⟩
  · rintro ⟨pre, a, post, rfl, ha, hpost⟩
    have hlast : (∀ q ∈ post, w q = none) ∨ LastIs w v post := by
      induction post with
      | nil => exact Or.inl fun q hq => absurd hq List.not_mem_nil
      | cons q post ih =>
        obtain ⟨hq, hpost⟩ := List.forall_mem_cons.mp hpost
        rw [lastIs_cons, List.forall_mem_cons]
        cases hw : w q with
        | none => exact (ih hpost).imp (fun h => ⟨rfl, h⟩) Or.inr
        | some u =>
          obtain rfl := hq u hw
          exact Or.inr ((ih hpost).imp (fun h => ⟨rfl, h⟩) id)
    rw [lastIs_append, lastIs_cons]
    exact Or.inl (hlast.imp_left fun h => ⟨ha, h⟩)

/-- **Which write is seen.** -/
theorem lastWrite_eq_iff {v : β} :
    ∀ {init : β}, lastWrite w init ops = v ↔
      (init = v ∧ ∀ q ∈ ops, w q = none) ∨ LastIs w v ops := by
  induction ops with
  | nil =>
    simp [lastWrite, LastIs]
  | cons a ops ih =>
    intro init
    rw [lastWrite_cons, ih, lastIs_cons, List.forall_mem_cons]
    cases hw : w a <;> simp

end Nv0ken.LastWrite
