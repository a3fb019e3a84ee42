/-
Where a seek ends.

The sum of a base and a distance is taken as a signed 64-bit number, and a sum that does
not fit comes out with its high bits gone; most of these are negative and refused.  The
position itself is then returned as an `int`.  So a seek is exact below `2 ^ 31` only
(`seek_exact_iff`): beyond, the offset is set and the caller is told something else
(`seek_moves_and_fails`).
-/
import Nv0ken.Kernel.Proc.SyscallHandlers
import Nv0ken.Proofs.Fs.FdTable

namespace Nv0ken.Proc

open Word Fs Option

variable {s : System} {entry : FdEntry} {fd offset whence : Nat} {base : Int}

/-- What the distance is counted from; `none` for a `whence` that is not known. -/
def seekBase (s : System) (entry : FdEntry) (whence : Int) : Option Int :=
  if whence = 0 then some 0
  else if whence = 1 then some entry.offset
  else if whence = 2 then some (((s.vfs.get entry.node).map Node.size).getD 0 : Nat)
  else none

/-- The offset a seek should reach: the exact sum, if it is not negative and has a signed
64-bit number. -/
def seekTarget (s : System) (entry : FdEntry) (distance whence : Int) : Option Nat :=
  (seekBase s entry whence).bind fun base =>
    if 0 ≤ base + distance ∧ base + distance < 2 ^ 63 then some (base + distance).toNat else none

/-- The call returns the target and leaves the descriptor there, or there is none, and it
fails and leaves the descriptor alone. -/
def SeekExact (s : System) (entry : FdEntry) (fd offset whence : Nat) : Prop :=
  let r := sysSeek s fd offset whence
  match seekTarget s entry (toInt64 offset) (toInt32 whence) with
  | some n => r.2 = n ∧ fdGet r.1.fds (toInt32 fd) = some { entry with offset := n }
  | none => r.2 < 0 ∧ fdGet r.1.fds (toInt32 fd) = some entry

/-- The exact sum has an `int`, or it is refused because its 64 bits read as a negative
number, or it wraps to the offset that is there and to no `int`. -/
def SeekFits (s : System) (entry : FdEntry) (offset whence : Nat) : Prop :=
  ∀ base, seekBase s entry (toInt32 whence) = some base →
    base + toInt64 offset < 2 ^ 31 ∨
      (2 ^ 63 ≤ base + toInt64 offset ∧ base + toInt64 offset < 2 ^ 64) ∨
      (base + toInt64 offset = entry.offset + 2 ^ 64 ∧ toInt32 entry.offset < 0)

/-- Whatever the base, the code adds it modulo `2 ^ 64`. -/
theorem seekNext_eq {whence : Int} (hbase : seekBase s entry whence = some base) (distance : Int) :
    seekNext s.files entry distance whence = toInt64 (ofInt (base + distance)) := by
  have hwrap (n : Nat) : toInt64 (ofInt (toInt64 n + distance)) =
      toInt64 (ofInt (n + distance)) := by
    unfold toInt64 ofInt
    omega
  unfold seekBase at hbase
  unfold seekNext
  by_cases h0 : whence = 0
  · subst h0
    obtain rfl := some.inj hbase
    rfl
  by_cases h1 : whence = 1
  · subst h1
    obtain rfl := some.inj hbase
    exact hwrap entry.offset
  · rw [if_neg h0, if_neg h1] at hbase
    obtain ⟨h2, hbase⟩ := ite_none_right_eq_some.mp hbase
    obtain rfl := some.inj hbase
    simp only [if_neg h1, if_pos h2]
    exact hwrap _

/-- A known `whence` is one of three. -/
theorem seekBase_eq_none {whence : Int} :
    seekBase s entry whence = none ↔ whence ≠ 0 ∧ whence ≠ 1 ∧ whence ≠ 2 := by
  unfold seekBase
  by_cases h0 : whence = 0
  · simp [h0]
  by_cases h1 : whence = 1
  · simp [h1]
  · by_cases h2 : whence = 2 <;> simp [h0, h1, h2]

/-- What the call does to an open descriptor. -/
theorem sysSeek_eq (hopen : fdGet s.fds (toInt32 fd) = some entry)
    (hbase : seekBase s entry (toInt32 whence) = some base) :
    let next := toInt64 (ofInt (base + toInt64 offset))
    (sysSeek s fd offset whence).2 =
      (if next < 0 then -22 else orErrno eInval (toInt32 next.toNat)) ∧
      fdGet (sysSeek s fd offset whence).1.fds (toInt32 fd) =
        some (if next < 0 then entry else { entry with offset := next.toNat }) := by
  have hknown : ¬ (toInt32 whence ≠ 0 ∧ toInt32 whence ≠ 1 ∧ toInt32 whence ≠ 2) := by
    rw [← @seekBase_eq_none s entry, hbase]
    simp
  obtain ⟨hlow, hhigh⟩ := range_of_fdGet hopen
  unfold sysSeek fdSeek
  simp only [hopen, if_neg hknown, seekNext_eq hbase]
  by_cases hneg : toInt64 (ofInt (base + toInt64 offset)) < 0
  · simp only [if_pos hneg]
    exact ⟨by decide, hopen⟩
  · simp only [if_neg hneg]
    exact ⟨trivial, fdGet_set_self hlow hhigh⟩

theorem seekBase_range {whence : Int} (hoffset : entry.offset < 2 ^ 64)
    (hsize : ∀ node, s.vfs.get entry.node = some node → node.size < 2 ^ 64)
    (hbase : seekBase s entry whence = some base) : 0 ≤ base ∧ base < 2 ^ 64 := by
  have hlt : ((s.vfs.get entry.node).map Node.size).getD 0 < 2 ^ 64 := by
    cases hnode : s.vfs.get entry.node with
    | none => decide
    | some node => exact hsize node hnode
  unfold seekBase at hbase
  split at hbase
  · obtain rfl := some.inj hbase
    decide
  split at hbase
  · obtain rfl := some.inj hbase
    omega
  · obtain ⟨-, hbase⟩ := ite_none_right_eq_some.mp hbase
    obtain rfl := some.inj hbase
    omega

/-- **A seek is exact where the sum fits into an `int`, or is refused.** -/
theorem seek_exact_iff (hopen : fdGet s.fds (toInt32 fd) = some entry)
    (hoffset : entry.offset < 2 ^ 64)
    (hsize : ∀ node, s.vfs.get entry.node = some node → node.size < 2 ^ 64) (offset whence : Nat) :
    SeekExact s entry fd offset whence ↔ SeekFits s entry offset whence := by
  unfold SeekExact SeekFits seekTarget
  cases hbase : seekBase s entry (toInt32 whence) with
  | none =>
    refine iff_of_true ?_ (by simp)
    unfold sysSeek fdSeek
    simp only [hopen, if_pos (seekBase_eq_none.mp hbase)]
    exact ⟨by decide, trivial⟩
  | some base =>
    obtain ⟨hlow, hhigh⟩ := seekBase_range hoffset hsize hbase
    obtain ⟨hret, hslot⟩ := @sysSeek_eq s entry fd offset whence base hopen hbase
    have hsum : -2 ^ 63 ≤ base + toInt64 offset ∧ base + toInt64 offset < 2 ^ 64 + 2 ^ 63 := by
      unfold toInt64
      omega
    simp only [hret, hslot, bind_some, some.injEq, forall_eq']
    generalize base + toInt64 offset = sum at *
    generalize hnext : toInt64 (ofInt sum) = next
    unfold toInt64 ofInt at hnext
    by_cases hreach : 0 ≤ sum ∧ sum < 2 ^ 63
    · -- the sum is the new offset, and what is returned is its low half
      obtain rfl : sum = next := by omega
      simp only [if_pos hreach, if_neg (Int.not_lt.mpr hreach.1), and_true]
      have hexact : orErrno eInval (toInt32 sum.toNat) = sum.toNat ↔ sum < 2 ^ 31 := by
        unfold orErrno toInt32 eInval
        omega
      omega
    simp only [if_neg hreach]
    by_cases hneg : next < 0
    · simp only [if_pos hneg]
      exact iff_of_true ⟨by decide, trivial⟩ (by omega)
    · -- the sum lost its highest bit
      obtain rfl : sum = next + 2 ^ 64 := by omega
      have hsame : { entry with offset := next.toNat } = entry ↔ next.toNat = entry.offset := by
        cases entry
        simp
      have hfails : orErrno eInval (toInt32 next.toNat) < 0 ↔ toInt32 next.toNat < 0 := by
        unfold orErrno eInval
        omega
      simp only [if_neg hneg, hsame, hfails]
      constructor
      · rintro ⟨hlt, heq⟩
        exact Or.inr (Or.inr ⟨by omega, heq ▸ hlt⟩)
      · intro h
        obtain ⟨heq, hlt⟩ := (h.resolve_left (by omega)).resolve_left (by omega)
        obtain rfl : next = entry.offset := by omega
        exact ⟨hlt, rfl⟩

/-- One descriptor, open on the root directory. -/
def oneOpen : System :=
  { files :=
      { vfs := mountRoot
        fds := fdTableInit.set 3 (some { node := 0, offset := 0, flags := 0, refs := 1 }) } }

/-- To position 5. -/
theorem seek_exact_five :
    fdGet oneOpen.fds (toInt32 3) = some { node := 0, offset := 0, flags := 0, refs := 1 } ∧
      SeekExact oneOpen { node := 0, offset := 0, flags := 0, refs := 1 } 3 5 0 := by
  have hopen : fdGet oneOpen.fds (toInt32 3) =
      some { node := 0, offset := 0, flags := 0, refs := 1 } := by rfl
  refine ⟨hopen, (seek_exact_iff hopen (by decide) (fun node hnode => ?_) 5 0).mpr
    fun base hbase => ?_⟩
  · obtain rfl := some.inj hnode
    decide
  · obtain rfl := some.inj hbase
    exact Or.inl (by decide)

/-- To position `2 ^ 31`: the call reports an error, and the offset is there. -/
theorem seek_moves_and_fails :
    (sysSeek oneOpen 3 (2 ^ 31) 0).2 = -eInval ∧
      fdGet (sysSeek oneOpen 3 (2 ^ 31) 0).1.fds 3 =
        some { node := 0, offset := 2 ^ 31, flags := 0, refs := 1 } ∧
      ¬ SeekExact oneOpen { node := 0, offset := 0, flags := 0, refs := 1 } 3 (2 ^ 31) 0 := by
  refine ⟨by decide +kernel, by decide +kernel, fun h => ?_⟩
  have hret : (sysSeek oneOpen 3 (2 ^ 31) 0).2 = (2 ^ 31 : Nat) := h.1
  exact absurd hret (by decide +kernel)

end Nv0ken.Proc
