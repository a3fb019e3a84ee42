/-
What a pipe does to the bytes that go through it.

The bytes a pipe holds are those of its ring from the read index on.  A write appends the
bytes it accepts and a read takes from the front, so after any calls the bytes that were
read, followed by those still held, are the bytes that were accepted (`pipe_keeps_order`).
-/
import Nv0ken.Kernel.Ipc.Pipe
import Nv0ken.Lib.Ring

namespace Nv0ken.Ipc

open Nv0ken.Ring List

variable {p : Pipe} {capacity : Nat} {t : Traffic}

/-- The bytes in the pipe, oldest first. -/
def Pipe.held (p : Pipe) : List UInt8 := (window p.buffer p.readIndex p.size).filterMap id

/-- The write index follows the bytes held. -/
structure PipeInv (p : Pipe) : Prop where
  positive : 0 < p.capacity
  read : p.readIndex < p.capacity
  size : p.size ≤ p.capacity
  write : p.writeIndex = (p.readIndex + p.size) % p.capacity

theorem length_held_le (p : Pipe) : p.held.length ≤ p.size :=
  Nat.le_trans (length_filterMap_le _ _) (Nat.le_of_eq length_window)

/-! ### The loops -/

/-- The loop of `pipe_write` appends what it takes, and stops early only in a full pipe. -/
theorem pipeWriteLoop_spec (h : PipeInv p) (bytes : List UInt8) :
    PipeInv (pipeWriteLoop p bytes).1 ∧ (pipeWriteLoop p bytes).1.capacity = p.capacity ∧
      (pipeWriteLoop p bytes).1.held = p.held ++ bytes.take (pipeWriteLoop p bytes).2 ∧
      ((pipeWriteLoop p bytes).2 < bytes.length → (pipeWriteLoop p bytes).1.size = p.capacity) := by
  induction bytes generalizing p with
  | nil => simp [pipeWriteLoop, h]
  | cons b rest ih =>
    rw [pipeWriteLoop]
    by_cases hroom : p.size < p.capacity
    · simp only [if_pos hroom]
      generalize hp' : ({ p with
        buffer := p.buffer.set p.writeIndex b
        writeIndex := (p.writeIndex + 1) % p.capacity
        size := p.size + 1 } : Pipe) = p'
      have hcap : p'.capacity = p.capacity := by
        rw [← hp']
        exact length_set
      have hinv : PipeInv p' := by
        refine ⟨hcap ▸ h.positive, hcap ▸ hp' ▸ h.read, ?_, ?_⟩
        · rw [hcap, ← hp']
          exact hroom
        · rw [hcap, ← hp']
          rw [h.write, Nat.mod_add_mod, Nat.add_assoc]
      have hheld : p'.held = p.held ++ [b] := by
        rw [← hp']
        unfold Pipe.held
        simp only [h.write]
        rw [show p.capacity = p.buffer.length from rfl, window_push hroom, filterMap_append]
        rfl
      obtain ⟨hinv', hcap', happend, hfull⟩ := ih hinv
      refine ⟨hinv', hcap'.trans hcap, ?_, fun hless => ?_⟩
      · rw [happend, hheld, append_assoc, take_succ_cons]
        rfl
      · rw [hfull (by simpa using hless), hcap]
    · simp only [if_neg hroom]
      exact ⟨h, trivial, by simp, fun _ => Nat.le_antisymm h.size (Nat.not_lt.mp hroom)⟩

/-- The loop of `pipe_read` takes bytes from the front. -/
theorem pipeReadLoop_spec (h : PipeInv p) (count : Nat) :
    PipeInv (pipeReadLoop p count).1 ∧ (pipeReadLoop p count).1.capacity = p.capacity ∧
      p.held = (pipeReadLoop p count).2 ++ (pipeReadLoop p count).1.held := by
  induction count generalizing p with
  | zero => exact ⟨h, rfl, rfl⟩
  | succ count ih =>
    rw [pipeReadLoop]
    by_cases hsome : p.size > 0
    · simp only [if_pos hsome]
      generalize hp' : ({ p with
        readIndex := (p.readIndex + 1) % p.capacity, size := p.size - 1 } : Pipe) = p'
      have hcap : p'.capacity = p.capacity := by
        rw [← hp']
        rfl
      have hread := h.read
      have hsize := h.size
      have hinv : PipeInv p' := by
        refine ⟨hcap ▸ h.positive, ?_, ?_, ?_⟩
        · rw [hcap, ← hp']
          exact Nat.mod_lt _ h.positive
        · rw [hcap, ← hp']
          exact Nat.le_trans (Nat.sub_le _ _) hsize
        · rw [hcap, ← hp']
          show p.writeIndex = ((p.readIndex + 1) % p.capacity + (p.size - 1)) % p.capacity
          rw [h.write, Nat.mod_add_mod]
          congr 1
          omega
      have hheld : p.held = p.buffer[p.readIndex]?.getD 0 :: p'.held := by
        have hslot : p.buffer[p.readIndex]? = some (p.buffer.get ⟨p.readIndex, hread⟩) :=
          getElem?_eq_getElem hread
        rw [← hp']
        unfold Pipe.held
        rw [window_cons hsome, show p.buffer.length = p.capacity from rfl, Nat.mod_eq_of_lt hread,
          hslot]
        rfl
      obtain ⟨hinv', hcap', htaken⟩ := ih hinv
      exact ⟨hinv', hcap'.trans hcap, by rw [hheld, htaken, cons_append]⟩
    · simp only [if_neg hsome]
      exact ⟨h, trivial, rfl⟩

/-! ### Any calls -/

inductive PipeOp
  | write (bytes : List UInt8)
  | read (count : Nat)
  | closeReader
  | closeWriter

/-- A pipe, the bytes its writes accepted and those its reads returned. -/
structure Traffic where
  pipe : Pipe
  accepted : List UInt8 := []
  returned : List UInt8 := []

def pipeStep (t : Traffic) : PipeOp → Traffic
  | .write bytes =>
    let r := pipeWrite t.pipe (some bytes)
    { t with pipe := r.1, accepted := t.accepted ++ bytes.take r.2 }
  | .read count =>
    let r := pipeRead t.pipe true count
    { t with pipe := r.1, returned := t.returned ++ r.2 }
  | .closeReader => { t with pipe := pipeCloseReader t.pipe }
  | .closeWriter => { t with pipe := pipeCloseWriter t.pipe }

/-- What was accepted was returned or is still there. -/
def InOrder (capacity : Nat) (t : Traffic) : Prop :=
  PipeInv t.pipe ∧ t.pipe.capacity = capacity ∧ t.accepted = t.returned ++ t.pipe.held

theorem inOrder_step (h : InOrder capacity t) (op : PipeOp) : InOrder capacity (pipeStep t op) := by
  obtain ⟨hinv, hcap, horder⟩ := h
  have hsame : PipeInv { t.pipe with readerClosed := true } ∧
      PipeInv { t.pipe with writerClosed := true } :=
    ⟨⟨hinv.positive, hinv.read, hinv.size, hinv.write⟩,
      ⟨hinv.positive, hinv.read, hinv.size, hinv.write⟩⟩
  cases op with
  | write bytes =>
    unfold pipeStep pipeWrite
    by_cases hnone : (decide (bytes = []) || t.pipe.readerClosed) = true
    · simp only [if_pos hnone]
      exact ⟨hinv, hcap, by simpa using horder⟩
    · simp only [if_neg hnone]
      obtain ⟨hinv', hcap', hheld, -⟩ := pipeWriteLoop_spec hinv bytes
      exact ⟨hinv', hcap'.trans hcap, by rw [hheld, horder, append_assoc]⟩
  | read count =>
    unfold pipeStep pipeRead
    by_cases hnone : (!true || decide (count = 0)) = true
    · simp only [if_pos hnone]
      exact ⟨hinv, hcap, by simpa using horder⟩
    · simp only [if_neg hnone]
      obtain ⟨hinv', hcap', hheld⟩ := pipeReadLoop_spec hinv count
      exact ⟨hinv', hcap'.trans hcap, by rw [horder, hheld, append_assoc]⟩
  | closeReader => exact ⟨hsame.1, hcap, horder⟩
  | closeWriter => exact ⟨hsame.2, hcap, horder⟩

theorem inOrder_run (h : InOrder capacity t) (ops : List PipeOp) :
    InOrder capacity (ops.foldl pipeStep t) := by
  induction ops generalizing t with
  | nil => exact h
  | cons op ops ih => exact ih (inOrder_step h op)

theorem inOrder_init {fresh : Option (Nat → UInt8)} (hp : pipeInit capacity fresh = some p) :
    InOrder (if capacity = 0 then pipeDefaultCapacity else capacity) { pipe := p } := by
  obtain ⟨junk, -, rfl⟩ := Option.map_eq_some_iff.mp hp
  have hpos : 0 < if capacity = 0 then pipeDefaultCapacity else capacity := by
    unfold pipeDefaultCapacity
    split <;> omega
  refine ⟨⟨?_, ?_, Nat.zero_le _, ?_⟩, ?_, rfl⟩
  all_goals simp [Pipe.capacity, hpos]

/-- **A pipe keeps the bytes in order**: whatever the calls, the bytes returned are the first
of those accepted and the others are held, no more than the capacity; and a write accepts
fewer bytes than it was given only if it leaves the pipe full or the reader is closed. -/
theorem pipe_keeps_order (capacity : Nat) (fresh : Option (Nat → UInt8)) (p : Pipe)
    (hp : pipeInit capacity fresh = some p) (ops : List PipeOp) :
    let t := ops.foldl pipeStep { pipe := p }
    t.returned <+: t.accepted ∧ t.accepted = t.returned ++ t.pipe.held ∧
      t.pipe.held.length ≤ t.pipe.capacity ∧
      t.pipe.capacity = (if capacity = 0 then pipeDefaultCapacity else capacity) ∧
      ∀ bytes, (pipeWrite t.pipe (some bytes)).2 < bytes.length →
        (pipeWrite t.pipe (some bytes)).1.size = t.pipe.capacity ∨ t.pipe.readerClosed = true := by
  intro t
  obtain ⟨hinv, hcap, horder⟩ := inOrder_run (inOrder_init hp) ops
  refine ⟨⟨_, horder.symm⟩, horder, Nat.le_trans (length_held_le _) hinv.size, hcap,
    fun bytes hless => ?_⟩
  by_cases hclosed : t.pipe.readerClosed = true
  · exact Or.inr hclosed
  · have hsome : bytes ≠ [] := by
      rintro rfl
      exact absurd hless (Nat.not_lt_zero _)
    have hloop : pipeWrite t.pipe (some bytes) = pipeWriteLoop t.pipe bytes :=
      if_neg (by simp [hsome, hclosed])
    rw [hloop] at hless ⊢
    exact Or.inl ((pipeWriteLoop_spec hinv bytes).2.2.2 hless)

/-- A pipe of three bytes that wraps round. -/
theorem pipe_keeps_order_wrapped : ∃ p, pipeInit 3 (some fun _ => 7) = some p ∧
    ([PipeOp.write [1, 2], .read 1, .write [3, 4, 5],
      .read 2].foldl pipeStep { pipe := p }).returned <+:
      ([PipeOp.write [1, 2], .read 1, .write [3, 4, 5],
        .read 2].foldl pipeStep { pipe := p }).accepted :=
  ⟨_, rfl, (pipe_keeps_order 3 (some fun _ => 7) _ rfl
    [PipeOp.write [1, 2], .read 1, .write [3, 4, 5], .read 2]).1⟩

end Nv0ken.Ipc
