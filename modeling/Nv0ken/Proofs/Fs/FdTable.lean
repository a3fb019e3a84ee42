/-
What the calls do to the descriptor table.

Reading, writing and seeking move the offset of one slot and touch nothing else of the
table; that is all `Moves` says, and it is all that is needed to follow descriptors
through runs of such calls.
-/
import Nv0ken.Kernel.Fs.FdTable

namespace Nv0ken.Fs

open Buffer Word

variable {fds fds' : FdTable} {fd k : Int} {entry : FdEntry} {e : Option FdEntry} {s : Files}

theorem range_of_fdGet (h : fdGet fds fd = some entry) : 0 ≤ fd ∧ fd < fdTableMax := by
  unfold fdGet at h
  by_cases hout : fd < 0 ∨ fd ≥ fdTableMax
  · rw [if_pos hout] at h
    simp at h
  · omega

theorem fdGet_of_range (hlow : 0 ≤ fd) (hhigh : fd < fdTableMax) :
    fdGet fds fd = fds.get fd.toNat := by
  unfold fdGet
  rw [if_neg (by omega)]

theorem toInt32_fd {fd : Nat} (hhigh : fd < fdTableMax) : toInt32 fd = fd :=
  toInt32_of_lt (Nat.lt_trans hhigh (by decide))

theorem fdGet_ofNat {fd : Nat} (hhigh : fd < fdTableMax) : fdGet fds fd = fds.get fd := by
  rw [fdGet_of_range (by omega) (by omega)]
  rfl

theorem fdGet_set_self (hlow : 0 ≤ fd) (hhigh : fd < fdTableMax) :
    fdGet (fds.set fd.toNat e) fd = e := by
  rw [fdGet_of_range hlow hhigh, Slots.get_set_self (by omega)]

theorem fdGet_set_ne (hlow : 0 ≤ fd) (hne : k ≠ fd) :
    fdGet (fds.set fd.toNat e) k = fdGet fds k := by
  unfold fdGet
  by_cases hout : k < 0 ∨ k ≥ fdTableMax
  · rw [if_pos hout, if_pos hout]
  · rw [if_neg hout, if_neg hout, Slots.get_set_ne (by omega)]

/-! ### One slot moves -/

/-- The table is as before, up to the offset of the slot `fd`. -/
def Moves (fd : Int) (fds fds' : FdTable) : Prop :=
  fds' = fds ∨ ∃ entry offset, fdGet fds fd = some entry ∧
    fds' = fds.set fd.toNat (some { entry with offset := offset })

/-- Another slot keeps its entry. -/
theorem Moves.other (h : Moves fd fds fds') (hne : k ≠ fd) : fdGet fds' k = fdGet fds k := by
  rcases h with rfl | ⟨entry, offset, hget, rfl⟩
  · rfl
  · exact fdGet_set_ne (range_of_fdGet hget).1 hne

/-- Every slot keeps its node. -/
theorem Moves.node (h : Moves fd fds fds') (k : Int) :
    (fdGet fds' k).map FdEntry.node = (fdGet fds k).map FdEntry.node := by
  by_cases hk : k = fd
  · subst hk
    rcases h with rfl | ⟨entry, offset, hget, rfl⟩
    · rfl
    · rw [fdGet_set_self (range_of_fdGet hget).1 (range_of_fdGet hget).2, hget]
      rfl
  · rw [h.other hk]

theorem moves_advance (hget : fdGet fds fd = some entry) (n : Int) :
    Moves fd fds (advance fds fd entry n) := by
  unfold advance
  by_cases hpos : n > 0
  · rw [if_pos hpos]
    exact Or.inr ⟨entry, _, hget, rfl⟩
  · rw [if_neg hpos]
    exact Or.inl rfl

theorem moves_fdSeek (s : Files) (fd offset whence : Int) :
    Moves fd s.fds (fdSeek s fd offset whence).1 := by
  unfold fdSeek
  cases hget : fdGet s.fds fd with
  | none => exact Or.inl rfl
  | some entry =>
    simp only
    by_cases hwhence : whence ≠ 0 ∧ whence ≠ 1 ∧ whence ≠ 2
    · rw [if_pos hwhence]
      exact Or.inl rfl
    rw [if_neg hwhence]
    by_cases hneg : seekNext s entry offset whence < 0
    · rw [if_pos hneg]
      exact Or.inl rfl
    · rw [if_neg hneg]
      exact Or.inr ⟨entry, _, hget, rfl⟩

theorem moves_fdRead {buffer : Bool} {count : Nat} {r : Files × Int × List UInt8}
    (h : fdRead s fd buffer count = .ok r) : Moves fd s.fds r.1.fds := by
  unfold fdRead at h
  split at h
  · obtain rfl := Except.ok.inj h
    exact Or.inl rfl
  · rename_i entry hget
    split at h
    · obtain rfl := Except.ok.inj h
      exact Or.inl rfl
    · obtain ⟨v, -, rfl⟩ := ok_of_map h
      exact moves_advance hget _

theorem moves_fdWrite {reply : Reply} {buffer : Option (List UInt8)} {r : Files × Int}
    (h : fdWrite s reply fd buffer = .ok r) : Moves fd s.fds r.1.fds := by
  unfold fdWrite at h
  split at h
  · obtain rfl := Except.ok.inj h
    exact Or.inl rfl
  · rename_i entry hget
    split at h
    · obtain rfl := Except.ok.inj h
      exact Or.inl rfl
    · obtain ⟨v, -, rfl⟩ := ok_of_map h
      exact moves_advance hget _

/-! ### Duplicating -/

/-- **What a successful `fd_dup2` leaves behind**: the table itself when both numbers are
the same, and otherwise two entries with the same node and the same offset. -/
theorem fdDup2_spec {oldfd newfd : Int} (h : 0 ≤ (fdDup2 fds oldfd newfd).2) :
    ∃ entry, fdGet fds oldfd = some entry ∧
      (oldfd = newfd ∧ (fdDup2 fds oldfd newfd).1 = fds ∨
        oldfd ≠ newfd ∧
          fdGet (fdDup2 fds oldfd newfd).1 oldfd = some { entry with refs := entry.refs + 1 } ∧
          fdGet (fdDup2 fds oldfd newfd).1 newfd = some entry) := by
  unfold fdDup2 at h ⊢
  cases hget : fdGet fds oldfd with
  | none =>
    rw [hget] at h
    simp at h
  | some entry =>
    rw [hget] at h
    simp only at h ⊢
    refine ⟨entry, rfl, ?_⟩
    by_cases hout : newfd < 0 ∨ newfd ≥ fdTableMax
    · rw [if_pos hout] at h
      simp at h
    rw [if_neg hout]
    by_cases heq : oldfd = newfd
    · rw [if_pos heq]
      exact Or.inl ⟨heq, rfl⟩
    · rw [if_neg heq]
      obtain ⟨hlow, hhigh⟩ := range_of_fdGet hget
      refine Or.inr ⟨heq, ?_, ?_⟩
      · exact fdGet_set_self hlow hhigh
      · unfold copyEntry
        rw [fdGet_set_ne hlow (Ne.symm heq), fdGet_set_self (by omega) (by omega)]

end Nv0ken.Fs
