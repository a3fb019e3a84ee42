/-
What `sys_dup2` makes of two descriptors.

After a successful call the two are supposed to be one: a read or a write through either
acts on the same node at the same offset.  The table holds two entries with two offsets,
so they stay together only until a call moves one of them, and the handlers look at the
numbers 0, 1 and 2 before they look at the table at all.  `dup2_run_iff` says exactly which
runs of reads, writes and seeks keep the two together, and `dup2_same_target_iff` for which
numbers every run does: those that name one slot anyway.

`sysRead_congr` and `sysWrite_congr` tie the notion of a target to the calls: what a call
returns and does to the files is determined by its target.
-/
import Nv0ken.Kernel.Proc.SyscallHandlers
import Nv0ken.Lib.Run
import Nv0ken.Proofs.Fs.FdTable

namespace Nv0ken.Proc

open Buffer Word Fs Run Option

variable {s s' : System} {fd old new a b : Nat} {α : Type}

/-- What a read or a write acts on. -/
inductive Target
  | console
  | file (node : NodeId) (offset : Nat)
  | nothing
  deriving DecidableEq

/-- What the entry of the slot points at. -/
def slotTarget (s : System) (fd : Nat) : Target :=
  match fdGet s.fds (toInt32 fd) with
  | none => .nothing
  | some entry => .file entry.node entry.offset

def readTarget (s : System) (fd : Nat) : Target := if fd = 0 then .console else slotTarget s fd

def writeTarget (s : System) (fd : Nat) : Target :=
  if fd = 1 ∨ fd = 2 then .console else slotTarget s fd

/-- Reads and writes through the one act on what they act on through the other. -/
def SameTarget (old new : Nat) (s : System) : Prop :=
  readTarget s new = readTarget s old ∧ writeTarget s new = writeTarget s old

/-- The calls that may follow, on any descriptor. -/
inductive IoOp
  | read (fd : Nat) (buffer : Bool) (length : Nat) (input : ConsoleInput)
  | write (fd : Nat) (buffer : Option (List UInt8)) (reply : Reply)
  | seek (fd offset whence : Nat)

def IoOp.descriptor : IoOp → Nat
  | .read fd _ _ _ => fd
  | .write fd _ _ => fd
  | .seek fd _ _ => fd

def ioStep (s : System) : IoOp → Option System
  | .read fd buffer length input => (sysRead s input fd buffer length).toOption.map Prod.fst
  | .write fd buffer reply => (sysWrite s reply fd buffer).toOption.map Prod.fst
  | .seek fd offset whence => some (sysSeek s fd offset whence).1

/-- The handlers' tests for the numbers 0, 1 and 2 come out alike. -/
def SameTests (old new : Nat) : Prop :=
  (new = 0 ↔ old = 0) ∧ (new = 1 ∨ new = 2 ↔ old = 1 ∨ old = 2)

/-- The call moves the offset of neither slot. -/
def Still (old new : Nat) (s : System) (op : IoOp) : Prop :=
  ∀ s', ioStep s op = some s' → slotTarget s' old = slotTarget s old ∧
    slotTarget s' new = slotTarget s new

/-! ### Targets and calls -/

/-- The outcome of a call, the table apart. -/
def effect {α : Type} (r : System × α) : Vfs × Klog × α := (r.1.vfs, r.1.klog, r.2)

theorem effect_setFds (fds : FdTable) (v : α) :
    effect ({ s with files := { s.files with fds := fds } }, v) = (s.vfs, s.klog, v) := rfl

/-- Slots with one target are both empty, or hold entries a call cannot tell apart. -/
theorem slotTarget_eq (h : slotTarget s a = slotTarget s b) :
    fdGet s.fds (toInt32 a) = none ∧ fdGet s.fds (toInt32 b) = none ∨
      ∃ e e', fdGet s.fds (toInt32 a) = some e ∧ fdGet s.fds (toInt32 b) = some e' ∧
        e.node = e'.node ∧ e.offset = e'.offset := by
  unfold slotTarget at h
  cases ha : fdGet s.fds (toInt32 a) with
  | none =>
    cases hb : fdGet s.fds (toInt32 b) with
    | none => exact Or.inl ⟨rfl, rfl⟩
    | some e' =>
      rw [ha, hb] at h
      cases h
  | some e =>
    cases hb : fdGet s.fds (toInt32 b) with
    | none =>
      rw [ha, hb] at h
      cases h
    | some e' =>
      rw [ha, hb] at h
      injection h with hnode hoffset
      exact Or.inr ⟨e, e', rfl, rfl, hnode, hoffset⟩

theorem fdRead_congr (h : slotTarget s a = slotTarget s b) (buffer : Bool) (length : Nat) :
    (fdRead s.files (toInt32 a) buffer length).map (fun r => (r.1.vfs, r.2)) =
      (fdRead s.files (toInt32 b) buffer length).map (fun r => (r.1.vfs, r.2)) := by
  unfold fdRead
  rcases slotTarget_eq h with ⟨hnone, hnone'⟩ | ⟨e, e', he, he', hnode, hoffset⟩
  · rw [hnone, hnone']
  rw [he, he']
  simp only [hnode, hoffset]
  cases s.vfs.get e'.node with
  | none => rfl
  | some node =>
    simp only
    cases vfsRead node e'.offset buffer length <;> simp only [Except.map]

theorem fdWrite_congr (h : slotTarget s a = slotTarget s b) (reply : Reply)
    (buffer : Option (List UInt8)) :
    (fdWrite s.files reply (toInt32 a) buffer).map (fun r => (r.1.vfs, r.2)) =
      (fdWrite s.files reply (toInt32 b) buffer).map (fun r => (r.1.vfs, r.2)) := by
  unfold fdWrite
  rcases slotTarget_eq h with ⟨hnone, hnone'⟩ | ⟨e, e', he, he', hnode, hoffset⟩
  · rw [hnone, hnone']
  rw [he, he']
  simp only [hnode, hoffset]
  cases s.vfs.get e'.node with
  | none => rfl
  | some node =>
    simp only
    cases vfsWrite node reply e'.offset buffer <;> simp only [Except.map]

theorem slotTarget_ne_console (s : System) (fd : Nat) : slotTarget s fd ≠ .console := by
  unfold slotTarget
  cases fdGet s.fds (toInt32 fd) <;> simp

/-- Equal targets behind two tests: both tests lead to the console, or both to the slots. -/
theorem target_cases {p q : Prop} [Decidable p] [Decidable q]
    (h : (if p then .console else slotTarget s a) = if q then .console else slotTarget s b) :
    p ∧ q ∨ ¬ p ∧ ¬ q ∧ slotTarget s a = slotTarget s b := by
  by_cases hp : p
  · by_cases hq : q
    · exact Or.inl ⟨hp, hq⟩
    · rw [if_pos hp, if_neg hq] at h
      exact absurd h.symm (slotTarget_ne_console s b)
  by_cases hq : q
  · rw [if_neg hp, if_pos hq] at h
    exact absurd h (slotTarget_ne_console s a)
  · rw [if_neg hp, if_neg hq] at h
    exact Or.inr ⟨hp, hq, h⟩

/-- What a handler adds to the outcome of a call on the table keeps equal outcomes equal. -/
theorem effect_congr {β : Type} {x y : Except Fault (Files × α)} (f : α → β)
    (h : x.map (fun r => (r.1.vfs, r.2)) = y.map (fun r => (r.1.vfs, r.2))) :
    (x.map fun r => ({ s with files := r.1 }, f r.2)).map effect =
      (y.map fun r => ({ s with files := r.1 }, f r.2)).map effect := by
  have hfactor (z : Except Fault (Files × α)) :
      (z.map fun r => ({ s with files := r.1 }, f r.2)).map effect =
        (z.map fun r => (r.1.vfs, r.2)).map fun r => (r.1, s.klog, f r.2) := by
    cases z <;> rfl
  rw [hfactor, hfactor, h]

/-- **A read does what its target says**: through two descriptors with one target it
returns the same and leaves the same files behind. -/
theorem sysRead_congr (h : readTarget s a = readTarget s b) (input : ConsoleInput) (buffer : Bool)
    (length : Nat) :
    (sysRead s input a buffer length).map effect =
      (sysRead s input b buffer length).map effect := by
  unfold sysRead
  by_cases hnull : (!buffer && length ≠ 0) = true
  · rw [if_pos hnull, if_pos hnull]
  rw [if_neg hnull, if_neg hnull]
  obtain ⟨ha, hb⟩ | ⟨ha, hb, h⟩ := target_cases h
  · rw [if_pos ha, if_pos hb]
  rw [if_neg ha, if_neg hb]
  rcases slotTarget_eq h with ⟨hnone, hnone'⟩ | ⟨e, e', he, he', hnode, hoffset⟩
  · rw [hnone, hnone']
  have hreads : readsKlog s e = readsKlog s e' := by
    unfold readsKlog
    rw [hnode]
  rw [he, he']
  simp only [hreads, hnode, hoffset]
  by_cases hklog : readsKlog s e' = true
  · rw [if_pos hklog, if_pos hklog]
    exact congrArg Except.ok ((effect_setFds _ _).trans (effect_setFds _ _).symm)
  · rw [if_neg hklog, if_neg hklog]
    exact effect_congr (fun r => (orErrno eBadF r.1, r.2)) (fdRead_congr h buffer length)

theorem sysWrite_congr (h : writeTarget s a = writeTarget s b) (reply : Reply)
    (buffer : Option (List UInt8)) :
    (sysWrite s reply a buffer).map effect = (sysWrite s reply b buffer).map effect := by
  unfold sysWrite
  cases buffer with
  | none => rfl
  | some bytes =>
    simp only
    obtain ⟨ha, hb⟩ | ⟨ha, hb, h⟩ := target_cases h
    · rw [if_pos ha, if_pos hb]
    rw [if_neg ha, if_neg hb]
    exact effect_congr (fun r => orErrno eBadF r) (fdWrite_congr h reply (some bytes))

/-! ### Calls and slots -/

/-- A call that leaves the files alone moves nothing. -/
theorem moves_of_same {k : Int} {l : Klog} {v w : α}
    (h : (.ok (⟨s.files, l⟩, v) : Except Fault (System × α)) = .ok (s', w)) :
    Moves k s.fds s'.fds := by
  obtain ⟨rfl, -⟩ := Prod.mk.inj (Except.ok.inj h)
  exact Or.inl rfl

theorem moves_sysRead {input : ConsoleInput} {buffer : Bool} {length : Nat}
    {v : Int × List UInt8} (h : sysRead s input fd buffer length = .ok (s', v)) :
    Moves (toInt32 fd) s.fds s'.fds := by
  unfold sysRead at h
  by_cases hnull : (!buffer && length ≠ 0) = true
  · rw [if_pos hnull] at h
    exact moves_of_same h
  rw [if_neg hnull] at h
  by_cases hconsole : fd = 0
  · rw [if_pos hconsole] at h
    by_cases hnone : (!buffer || length = 0) = true
    · rw [if_pos hnone] at h
      exact moves_of_same h
    · rw [if_neg hnone] at h
      exact moves_of_same h
  rw [if_neg hconsole] at h
  cases hget : fdGet s.fds (toInt32 fd) with
  | none =>
    rw [hget] at h
    exact moves_of_same h
  | some entry =>
    rw [hget] at h
    simp only at h
    by_cases hklog : readsKlog s entry = true
    · rw [if_pos hklog] at h
      obtain ⟨rfl, -⟩ := Prod.mk.inj (Except.ok.inj h)
      exact Or.inr ⟨entry, _, hget, rfl⟩
    · rw [if_neg hklog] at h
      obtain ⟨r, hread, hr⟩ := ok_of_map h
      obtain ⟨rfl, -⟩ := Prod.mk.inj hr
      exact moves_fdRead hread

theorem moves_sysWrite {reply : Reply} {buffer : Option (List UInt8)} {v : Int}
    (h : sysWrite s reply fd buffer = .ok (s', v)) : Moves (toInt32 fd) s.fds s'.fds := by
  unfold sysWrite at h
  cases buffer with
  | none =>
    exact moves_of_same h
  | some bytes =>
    simp only at h
    by_cases hconsole : fd = 1 ∨ fd = 2
    · rw [if_pos hconsole] at h
      exact moves_of_same h
    rw [if_neg hconsole] at h
    obtain ⟨r, hwrite, hr⟩ := ok_of_map h
    obtain ⟨rfl, -⟩ := Prod.mk.inj hr
    exact moves_fdWrite hwrite

/-- A call moves the slot it goes through, and no other. -/
theorem ioStep_moves {op : IoOp} (h : ioStep s op = some s') :
    Moves (toInt32 op.descriptor) s.fds s'.fds := by
  cases op with
  | read fd buffer length input =>
    obtain ⟨⟨t, v⟩, hread, rfl⟩ := map_eq_some_iff.mp h
    exact moves_sysRead (ok_of_toOption hread)
  | write fd buffer reply =>
    obtain ⟨⟨t, v⟩, hwrite, rfl⟩ := map_eq_some_iff.mp h
    exact moves_sysWrite (ok_of_toOption hwrite)
  | seek fd offset whence =>
    obtain rfl := some.inj h
    exact moves_fdSeek s.files (toInt32 fd) (toInt64 offset) (toInt32 whence)

theorem slotTarget_congr (h : fdGet s'.fds (toInt32 fd) = fdGet s.fds (toInt32 fd)) :
    slotTarget s' fd = slotTarget s fd := by
  unfold slotTarget
  rw [h]

theorem slotTarget_of_slot (h : toInt32 old = toInt32 new) :
    slotTarget s new = slotTarget s old := by
  unfold slotTarget
  rw [h]

/-! ### Runs after `sys_dup2` -/

/-- Both slots are open, on one node. -/
def Paired (old new : Nat) (s : System) : Prop :=
  ∃ e e', fdGet s.fds (toInt32 old) = some e ∧ fdGet s.fds (toInt32 new) = some e' ∧
    e.node = e'.node

theorem paired_step (old new : Nat) (s : System) (op : IoOp) (s' : System) (hs : Paired old new s)
    (hstep : ioStep s op = some s') : Paired old new s' := by
  obtain ⟨e, e', he, he', hnode⟩ := hs
  have hmoves := ioStep_moves hstep
  have hold := hmoves.node (toInt32 old)
  have hnew := hmoves.node (toInt32 new)
  rw [he, map_some, map_eq_some_iff] at hold
  rw [he', map_some, map_eq_some_iff] at hnew
  obtain ⟨f, hf, hfe⟩ := hold
  obtain ⟨f', hf', hfe'⟩ := hnew
  exact ⟨f, f', hf, hf', by rw [hfe, hfe', hnode]⟩

/-- Two open descriptors act on the same exactly if the tests come out alike and the slots
point at the same place. -/
theorem sameTarget_iff (hs : Paired old new s) :
    SameTarget old new s ↔
      SameTests old new ∧ slotTarget s new = slotTarget s old := by
  have hnew := slotTarget_ne_console s new
  have hold := slotTarget_ne_console s old
  unfold SameTarget SameTests readTarget writeTarget
  by_cases hn0 : new = 0
  · by_cases ho0 : old = 0
    · subst hn0 ho0
      simp
    · simp [hn0, ho0, Ne.symm hold]
  by_cases ho0 : old = 0
  · simp [hn0, ho0, hnew]
  by_cases hn : new = 1 ∨ new = 2
  · by_cases ho : old = 1 ∨ old = 2
    · simp [hn0, ho0, hn, ho]
    · simp [hn0, ho0, hn, ho, Ne.symm hold]
  · by_cases ho : old = 1 ∨ old = 2
    · simp [hn0, ho0, hn, ho, hnew]
    · simp [hn0, ho0, hn, ho]

/-- With two slots, a call that keeps the two together moves neither. -/
theorem together_iff_still (hslots : toInt32 old ≠ toInt32 new) {op : IoOp}
    (htogether : slotTarget s new = slotTarget s old) (hstep : ioStep s op = some s') :
    slotTarget s' new = slotTarget s' old ↔ Still old new s op := by
  have hmoves := ioStep_moves hstep
  constructor
  · intro h t ht
    obtain rfl := some.inj (hstep.symm.trans ht)
    by_cases hop : toInt32 old = toInt32 op.descriptor
    · have hkeep : slotTarget s' new = slotTarget s new :=
        slotTarget_congr (hmoves.other fun h => hslots (hop.trans h.symm))
      exact ⟨by rw [← h, hkeep, htogether], hkeep⟩
    · have hkeep : slotTarget s' old = slotTarget s old := slotTarget_congr (hmoves.other hop)
      exact ⟨hkeep, by rw [h, hkeep, htogether]⟩
  · intro hstill
    obtain ⟨hold, hnew⟩ := hstill s' hstep
    rw [hold, hnew, htogether]

/-- A call through a third slot. -/
theorem still_of_other {op : IoOp} (hold : toInt32 old ≠ toInt32 op.descriptor)
    (hnew : toInt32 new ≠ toInt32 op.descriptor) : Still old new s op := fun _ hstep =>
  ⟨slotTarget_congr ((ioStep_moves hstep).other hold),
    slotTarget_congr ((ioStep_moves hstep).other hnew)⟩

theorem sysDup2_fds (h : 0 ≤ (sysDup2 s old new).2) :
    0 ≤ (fdDup2 s.fds (toInt32 old) (toInt32 new)).2 := by
  unfold sysDup2 orErrno at h
  by_contra hneg
  simp only [if_pos (Int.not_le.mp hneg)] at h
  exact absurd h (by decide)

theorem paired_sysDup2 (h : 0 ≤ (sysDup2 s old new).2) :
    Paired old new (sysDup2 s old new).1 ∧
      slotTarget (sysDup2 s old new).1 new = slotTarget (sysDup2 s old new).1 old := by
  obtain ⟨entry, hget, ⟨heq, hsame⟩ | ⟨hne, hold, hnew⟩⟩ := fdDup2_spec (sysDup2_fds h)
  · have hopen : fdGet (sysDup2 s old new).1.fds (toInt32 old) = some entry := by
      unfold sysDup2
      simp only
      rw [hsame]
      exact hget
    refine ⟨⟨entry, entry, hopen, by rw [← heq, hopen], rfl⟩, ?_⟩
    unfold slotTarget
    rw [← heq]
  · have hold' : fdGet (sysDup2 s old new).1.fds (toInt32 old) =
        some { entry with refs := entry.refs + 1 } := hold
    have hnew' : fdGet (sysDup2 s old new).1.fds (toInt32 new) = some entry := hnew
    refine ⟨⟨_, entry, hold', hnew', rfl⟩, ?_⟩
    unfold slotTarget
    rw [hold', hnew']

/-- **Which runs keep a duplicated descriptor together with its original.**  After a
successful `sys_dup2`, reads and writes through the new descriptor act on the same node
and at the same offset as through the old one in every state of a run of reads, writes
and seeks, exactly if the handlers' tests for 0, 1 and 2 do not tell the numbers apart
and either both name the same slot or no call of the run moves the offset of either. -/
theorem dup2_run_iff (s : System) (old new : Nat) (h : 0 ≤ (sysDup2 s old new).2)
    (ops : List IoOp) :
    Throughout ioStep (SameTarget old new) (sysDup2 s old new).1 ops ↔
      SameTests old new ∧
        (toInt32 old = toInt32 new ∨ Along ioStep (Still old new) (sysDup2 s old new).1 ops) := by
  obtain ⟨hpaired, htogether⟩ := paired_sysDup2 h
  generalize (sysDup2 s old new).1 = t at hpaired htogether ⊢
  by_cases htests : SameTests old new
  · by_cases hslots : toInt32 old = toInt32 new
    · -- one slot: there is nothing to come apart
      refine ⟨fun _ => ⟨htests, Or.inl hslots⟩, fun _ => ?_⟩
      refine (along_throughout (fun s op s' hs _ hstep => paired_step old new s op s' hs hstep)
        hpaired (along_true t ops)).mono fun s hs => (sameTarget_iff hs).mpr ⟨htests, ?_⟩
      exact slotTarget_of_slot hslots
    · have hiff : Throughout ioStep (SameTarget old new) t ops ↔
          Along ioStep (Still old new) t ops := by
        refine throughout_iff_along
          (fun s op s' hs _ _ hstep => paired_step old new s op s' hs hstep) ?_ ?_ hpaired
          ((sameTarget_iff hpaired).mpr ⟨htests, htogether⟩)
        · intro s op _ _ hnone s' hstep
          rw [hnone] at hstep
          simp at hstep
        · intro s op s' hs hq hstep
          rw [sameTarget_iff (paired_step old new s op s' hs hstep),
            together_iff_still hslots ((sameTarget_iff hs).mp hq).2 hstep]
          exact ⟨fun h => h.2, fun h => ⟨htests, h⟩⟩
      rw [hiff]
      exact ⟨fun h => ⟨htests, Or.inr h⟩, fun h => h.2.resolve_left hslots⟩
  · refine ⟨fun hall => absurd ((sameTarget_iff hpaired).mp hall.head).1 htests,
      fun h => absurd h.1 htests⟩

/-- Seeking to one of the first two bytes of a file gets there. -/
theorem slotTarget_sysSeek {entry : FdEntry} (hopen : fdGet s.fds (toInt32 fd) = some entry)
    {k : Nat} (hk : k = 0 ∨ k = 1) : slotTarget (sysSeek s fd k 0).1 fd = .file entry.node k := by
  have hnext : seekNext s.files entry (toInt64 k) (toInt32 0) = k := by
    unfold seekNext
    rw [if_neg (by decide), if_neg (by decide)]
    rcases hk with rfl | rfl <;> decide
  obtain ⟨hlow, hhigh⟩ := range_of_fdGet hopen
  have hslot : fdGet (sysSeek s fd k 0).1.fds (toInt32 fd) = some { entry with offset := k } := by
    unfold sysSeek fdSeek
    rw [hopen]
    simp only [hnext]
    exact fdGet_set_self hlow hhigh
  unfold slotTarget
  rw [hslot]

/-- Some seek moves the offset of an open descriptor. -/
theorem exists_not_still (hpaired : Paired old new s) : ∃ k, ¬ Still old new s (.seek old k 0) := by
  obtain ⟨entry, -, hopen, -⟩ := hpaired
  have hmoved (k : Nat) (hk : k = 0 ∨ k = 1) (hne : k ≠ entry.offset) :
      ¬ Still old new s (.seek old k 0) := by
    intro hstill
    have hsame := (hstill _ rfl).1
    rw [slotTarget_sysSeek hopen hk, slotTarget, hopen] at hsame
    injection hsame with _ hoffset
    exact hne hoffset
  by_cases hzero : 0 = entry.offset
  · exact ⟨1, hmoved 1 (Or.inr rfl) (by omega)⟩
  · exact ⟨0, hmoved 0 (Or.inl rfl) hzero⟩

/-- **When a duplicated descriptor is the same as its original.**  After a successful
`sys_dup2`, reads and writes through the new descriptor act on the same node and at the
same offset as through the old one, whatever reads, writes and seeks happen in between,
exactly if the two numbers name one slot of the table and the handlers' tests for 0, 1 and
2 do not tell them apart. -/
theorem dup2_same_target_iff (s : System) (old new : Nat) (h : 0 ≤ (sysDup2 s old new).2) :
    (∀ ops, Throughout ioStep (SameTarget old new) (sysDup2 s old new).1 ops) ↔
      SameTests old new ∧ toInt32 old = toInt32 new := by
  constructor
  · intro hall
    obtain ⟨k, hmoves⟩ := exists_not_still (paired_sysDup2 h).1
    obtain ⟨htests, hslots | hstill⟩ := (dup2_run_iff s old new h [.seek old k 0]).mp (hall _)
    · exact ⟨htests, hslots⟩
    · exact absurd hstill.1 hmoves
  · intro ⟨htests, hslots⟩ ops
    exact (dup2_run_iff s old new h ops).mpr ⟨htests, Or.inl hslots⟩

/-- Reads and writes through the two return the same and leave the same files and log. -/
def Alike (old new : Nat) (s : System) : Prop :=
  (∀ input buffer n, (sysRead s input new buffer n).map effect =
    (sysRead s input old buffer n).map effect) ∧
    ∀ reply buffer, (sysWrite s reply new buffer).map effect =
      (sysWrite s reply old buffer).map effect

/-- **As long as no call moves either offset, no call tells the two apart.** -/
theorem dup2_alike (h : 0 ≤ (sysDup2 s old new).2) (htests : SameTests old new) {ops : List IoOp}
    (hstill : Along ioStep (Still old new) (sysDup2 s old new).1 ops) :
    Throughout ioStep (Alike old new) (sysDup2 s old new).1 ops := by
  have hsame := (dup2_run_iff s old new h ops).mpr ⟨htests, Or.inr hstill⟩
  exact hsame.mono fun t ht => ⟨sysRead_congr ht.1, sysWrite_congr ht.2⟩

/-- The file `/f`, created and open as descriptor 3. -/
def openedFile : System :=
  (sysOpen .initial .served (some [slash, 102]) oCreat).1

/-- The same file once more, as descriptor 4. -/
def openedTwice : System := (sysOpen openedFile .served (some [slash, 102]) 0).1

/-- Two bytes are written through 4 and read back. -/
def throughFour : List IoOp :=
  [.write 4 (some [120, 121]) ⟨true, some fun _ => 0⟩, .seek 4 0 0, .read 4 true 2 ⟨[], []⟩]

theorem dup2_alike_third :
    Throughout ioStep (Alike 3 5) (sysDup2 openedTwice 3 5).1 throughFour ∧
      (run ioStep (sysDup2 openedTwice 3 5).1 throughFour).map
        (fun s => (s.vfs.get 1).map Node.contents) = some (some [120, 121]) := by
  have hthird (s : System) (op : IoOp) (hop : op.descriptor = 4) : Still 3 5 s op :=
    still_of_other (by rw [hop]; decide) (by rw [hop]; decide)
  refine ⟨dup2_alike (by decide +kernel) ⟨by decide, by decide⟩ ⟨hthird _ _ rfl, fun s _ => ?_⟩,
    by decide +kernel⟩
  exact ⟨hthird s _ rfl, fun s _ => ⟨hthird s _ rfl, fun _ _ => trivial⟩⟩

theorem dup2_same_target_seek :
    0 ≤ (sysDup2 openedFile 3 4).2 ∧
      ¬ ∀ ops, Throughout ioStep (SameTarget 3 4) (sysDup2 openedFile 3 4).1 ops := by
  have hdup : 0 ≤ (sysDup2 openedFile 3 4).2 := by decide +kernel
  refine ⟨hdup, fun hall => ?_⟩
  exact absurd ((dup2_same_target_iff openedFile 3 4 hdup).mp hall).2 (by decide)

/-- After `sys_dup2(3, 4)` a seek through 3 leaves 4 where it was; after `sys_dup2(3, 1)` a
write through 1 goes to the console, and the file stays empty. -/
theorem dup2_apart :
    (sysDup2 openedFile 3 4).2 = 4 ∧
      readTarget (sysSeek (sysDup2 openedFile 3 4).1 3 5 0).1 3 = .file 1 5 ∧
      readTarget (sysSeek (sysDup2 openedFile 3 4).1 3 5 0).1 4 = .file 1 0 ∧
      (sysDup2 openedFile 3 1).2 = 1 ∧
      writeTarget (sysDup2 openedFile 3 1).1 3 = .file 1 0 ∧
      writeTarget (sysDup2 openedFile 3 1).1 1 = .console ∧
      (sysWrite (sysDup2 openedFile 3 1).1 ⟨true, some fun _ => 0⟩ 1 (some [120])).toOption.map
        (fun r => (r.1.vfs.get 1).map Node.contents) = some (some []) := by
  decide +kernel

end Nv0ken.Proc
