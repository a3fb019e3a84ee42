/-
When a tmpfs file is a byte file.

The block of a file is longer than the file, and everything turns on the bytes between
the two lengths.  They are zero when the block was just made longer, but a truncation
that shrinks the file leaves the old bytes where they were, and nothing clears them when
the file grows over them again.  So a file reads like a byte file exactly as long as it
only ever grows over zeros: `reads_agree_iff` says so for whole runs, in both directions,
and `stale_byte` is a run of three calls on which a byte comes back that was cut off.  A
single write is followed at every offset: `write_accounted_iff` says when it ends, and
inside a block that the allocator really gives.

Each call has one equation that says what it does to the block and to the size
(`tmpfsWrite_eq`, `tmpfsTruncate_eq`, `tmpfsRead_eq`); the rest follows from these.
-/
import Nv0ken.Kernel.Fs.TmpfsFile
import Nv0ken.Lib.ByteFile
import Nv0ken.Lib.Run
import Nv0ken.Proofs.Mm.Heap

namespace Nv0ken.Fs

open Buffer Word Run List Option

variable {node : Node} {data bytes : List UInt8} {offset count size fuel c : Nat}
  {junk : Nat → UInt8}

/-! ### What each call does -/

/-- The bytes the file owns, none when nothing was allocated yet. -/
def Node.block (node : Node) : List UInt8 := node.file.getD []

/-- The node with another block and another size. -/
def Node.withBlock (node : Node) (block : List UInt8) (size : Nat) : Node :=
  { node with file := some block, size := size }

@[simp] theorem Node.withBlock_block : (node.withBlock data size).block = data := rfl

@[simp] theorem Node.withBlock_size : (node.withBlock data size).size = size := rfl

theorem enlarge_eq (capacity : Nat) : enlarge data capacity junk = zeroExtend data capacity := by
  unfold enlarge overwrite zeroExtend
  have hdrop : (data ++ (range (capacity - data.length)).map junk).drop
      (data.length + (replicate (capacity - data.length) (0 : UInt8)).length) = [] := by
    simp
  simp only [hdrop, append_nil, take_left' rfl]

variable {required capacity : Nat} {reply : Reply} {node' : Node} {n : Int} {s : Node × List UInt8}

theorem growCapacity_isSome_iff (hcapacity : capacity < 2 ^ 64) :
    (growCapacity required (fuel + 1) capacity).isSome ↔
      ∃ k ≤ fuel, required ≤ u64 (capacity * 2 ^ k) := by
  induction fuel generalizing capacity with
  | zero =>
    rw [growCapacity, growCapacity]
    by_cases hlt : capacity < required
    · simp [hlt, u64_of_lt hcapacity]
    · simp [hlt, u64_of_lt hcapacity, Nat.not_lt.mp hlt]
  | succ fuel ih =>
    rw [growCapacity]
    by_cases hlt : capacity < required
    · have hdouble (k : Nat) : u64 (u64 (capacity * 2) * 2 ^ k) = u64 (capacity * 2 ^ (k + 1)) := by
        unfold u64
        rw [Nat.mod_mul_mod, Nat.mul_assoc, ← pow_succ']
      rw [if_pos hlt, ih (u64_lt _)]
      constructor
      · rintro ⟨k, hk, hroom⟩
        exact ⟨k + 1, by omega, by rwa [← hdouble]⟩
      · rintro ⟨k, hk, hroom⟩
        -- the capacity itself is too small, so the loop was entered
        cases k with
        | zero =>
          rw [pow_zero, Nat.mul_one, u64_of_lt hcapacity] at hroom
          omega
        | succ k => exact ⟨k, by omega, by rwa [hdouble]⟩
    · rw [if_neg hlt]
      refine iff_of_true rfl ⟨0, Nat.zero_le _, ?_⟩
      rw [pow_zero, Nat.mul_one, u64_of_lt hcapacity]
      exact Nat.not_lt.mp hlt

/-- Where the doubling ends, the capacity is a 64-bit number and large enough. -/
theorem growCapacity_bounds (hcapacity : capacity < 2 ^ 64)
    (h : growCapacity required fuel capacity = some c) : required ≤ c ∧ c < 2 ^ 64 := by
  induction fuel generalizing capacity with
  | zero => cases h
  | succ fuel ih =>
    rw [growCapacity] at h
    by_cases hlt : capacity < required
    · rw [if_pos hlt] at h
      exact ih (u64_lt _) h
    · rw [if_neg hlt] at h
      obtain rfl := some.inj h
      exact ⟨Nat.not_lt.mp hlt, hcapacity⟩

theorem fileOf_true (node : Node) (realloc : Option (Nat → UInt8)) :
    fileOf node ⟨true, realloc⟩ = some node.block := by
  unfold fileOf Node.block
  cases node.file <;> rfl

theorem storeBytes_eq (hsum : offset + bytes.length < 2 ^ 64)
    (hroom : offset + bytes.length ≤ data.length) :
    storeBytes node data offset bytes =
      .ok (node.withBlock (overwrite data offset bytes) (max node.size (offset + bytes.length)),
        toInt32 bytes.length) := by
  unfold storeBytes
  rw [copyInto_of_le hroom, u64_of_lt hsum]
  have hmax : (if offset + bytes.length > node.size then offset + bytes.length else node.size) =
      max node.size (offset + bytes.length) := by
    split <;> omega
  simp only [Except.map, hmax]
  rfl

theorem zeroExtend_self : zeroExtend data data.length = data := by
  unfold zeroExtend
  simp

theorem block_of_fileOf (h : fileOf node reply = some data) : node.block = data := by
  unfold fileOf at h
  unfold Node.block
  cases hfile : node.file with
  | some block =>
    rw [hfile] at h
    exact some.inj h
  | none =>
    rw [hfile] at h
    by_cases hcalloc : reply.calloc = true
    · rw [if_pos hcalloc] at h
      exact some.inj h
    · rw [if_neg hcalloc] at h
      cases h

/-- The capacity the doubling starts from. -/
def Node.startCapacity (node : Node) : Nat :=
  if node.block.length ≠ 0 then node.block.length else 128

/-- The capacity a write ends with; `none` when it doubles for ever. -/
def writeCapacity (node : Node) (required : Nat) : Option Nat :=
  if required > node.block.length then growCapacity required 65 node.startCapacity
  else some node.block.length

/-- What a write to a file comes to, once the file has its block: the doubling, the
request for memory if there was one, and the copy. -/
theorem tmpfsWrite_of_file (htype : node.type = .file)
    (hfile : fileOf node reply = some node.block) :
    tmpfsWrite node reply offset (some bytes) =
      match writeCapacity node (u64 (offset + bytes.length)) with
      | none => .error .diverges
      | some capacity =>
        if u64 (offset + bytes.length) > node.block.length ∧ reply.realloc = none then
          .ok (node.withBlock node.block node.size, -1)
        else storeBytes node (zeroExtend node.block capacity) offset bytes := by
  unfold tmpfsWrite writeCapacity
  simp only [hfile]
  rw [if_neg (not_not_intro htype)]
  by_cases hgrow : u64 (offset + bytes.length) > node.block.length
  · simp only [if_pos hgrow, Node.startCapacity]
    cases growCapacity (u64 (offset + bytes.length)) 65
        (if node.block.length ≠ 0 then node.block.length else 128) with
    | none => rfl
    | some capacity =>
      cases hrealloc : reply.realloc with
      | none => exact (if_pos ⟨hgrow, rfl⟩).symm
      | some junk =>
        simp only [enlarge_eq]
        exact (if_neg (by simp)).symm
  · simp only [if_neg hgrow, zeroExtend_self]
    exact (if_neg fun h => hgrow h.1).symm

/-- A write lengthens the block with zeros if it must, and copies the bytes in. -/
theorem tmpfsWrite_eq (junk : Nat → UInt8) (htype : node.type = .file)
    (hsum : offset + bytes.length < 2 ^ 31) :
    ∃ capacity, offset + bytes.length ≤ (zeroExtend node.block capacity).length ∧
      tmpfsWrite node ⟨true, some junk⟩ offset (some bytes) =
        .ok (node.withBlock (overwrite (zeroExtend node.block capacity) offset bytes)
          (max node.size (offset + bytes.length)), bytes.length) := by
  have hroom : ∃ c, writeCapacity node (offset + bytes.length) = some c ∧
      offset + bytes.length ≤ max node.block.length c := by
    unfold writeCapacity
    by_cases hgrow : offset + bytes.length > node.block.length
    · have hstart : 0 < node.startCapacity ∧ node.startCapacity < 2 ^ 31 := by
        unfold Node.startCapacity
        split <;> omega
      have hends : (growCapacity (offset + bytes.length) 65 node.startCapacity).isSome := by
        refine (growCapacity_isSome_iff (by omega)).mpr ⟨31, by decide, ?_⟩
        rw [u64_of_lt (by omega)]
        omega
      obtain ⟨c, hrun⟩ := isSome_iff_exists.mp hends
      have := growCapacity_bounds (by omega) hrun
      exact ⟨c, by rw [if_pos hgrow, hrun], by omega⟩
    · exact ⟨_, if_neg hgrow, by omega⟩
  obtain ⟨c, hcapacity, hroom⟩ := hroom
  rw [← length_zeroExtend] at hroom
  refine ⟨c, hroom, ?_⟩
  rw [tmpfsWrite_of_file htype (fileOf_true node _), u64_of_lt (by omega), hcapacity]
  exact (if_neg (by simp)).trans (by rw [storeBytes_eq (by omega) hroom, toInt32_of_lt (by omega)])

/-- A truncation lengthens the block if it must, and otherwise only sets the size. -/
theorem tmpfsTruncate_eq (htype : node.type = .file) :
    tmpfsTruncate node ⟨true, some junk⟩ size =
      (node.withBlock (zeroExtend node.block size) size, 0) := by
  unfold tmpfsTruncate
  simp only [fileOf_true]
  rw [if_neg (not_not_intro htype)]
  by_cases hgrow : size > node.block.length
  · rw [if_pos hgrow, enlarge_eq]
    rfl
  · have hsame : zeroExtend node.block size = node.block := by
      unfold zeroExtend
      rw [Nat.sub_eq_zero_of_le (Nat.not_lt.mp hgrow)]
      simp
    rw [if_neg hgrow, hsame]
    rfl

/-- What keeps a file node readable: the file is not longer than its block. -/
structure FileInv (node : Node) : Prop where
  type : node.type = .file
  fits : node.size ≤ node.block.length
  short : node.size < 2 ^ 31

theorem length_contents (hfits : node.size ≤ node.block.length) :
    node.contents.length = node.size := by
  unfold Node.contents
  rw [length_take]
  exact Nat.min_eq_left hfits

theorem byteAt_contents (node : Node) (i : Nat) :
    byteAt node.contents i = if i < node.size then byteAt node.block i else 0 := byteAt_take

/-- A read returns what the byte file of the node's contents returns. -/
theorem tmpfsRead_eq (inv : FileInv node) (hsum : offset + count < 2 ^ 31) :
    tmpfsRead node offset true count =
      .ok ((ByteFile.read node.contents offset count).length,
        ByteFile.read node.contents offset count) := by
  have hlen := length_contents inv.fits
  unfold tmpfsRead
  simp only [inv.type, Bool.not_true, Bool.false_or, ne_eq, not_true_eq_false, decide_false,
    Bool.false_eq_true, if_false]
  by_cases hbehind : offset ≥ node.size
  · have hnone : ByteFile.read node.contents offset count = [] := by
      unfold ByteFile.read slice
      rw [drop_of_length_le (by omega), take_nil]
    rw [hnone]
    cases node.file with
    | none => rfl
    | some data => exact if_pos hbehind
  · rcases hfile : node.file with _ | data
    · have := inv.fits
      unfold Node.block at this
      rw [hfile] at this
      simp at this
      omega
    · have hblock : node.block = data := by
        unfold Node.block
        rw [hfile]
        rfl
      have hfits := inv.fits
      rw [hblock] at hfits
      -- the count is clipped to what the file holds behind the offset
      have hclip : (if u64 (offset + count) > node.size then node.size - offset else count) =
          min count (node.size - offset) := by
        rw [u64_of_lt (by omega)]
        split <;> omega
      have hslice : ByteFile.read node.contents offset count =
          slice data offset (min count (node.size - offset)) := by
        rw [← hblock]
        unfold ByteFile.read Node.contents slice
        rw [drop_take, take_take]
        rfl
      have hcount : (slice data offset (min count (node.size - offset))).length =
          min count (node.size - offset) := by
        unfold slice
        rw [length_take, length_drop]
        omega
      simp only [if_neg hbehind, hclip]
      rw [copyOut_of_le (by omega), hslice, hcount, toInt32_of_lt (by omega)]
      rfl

/-! ### Contents -/

/-- Where a call wrote, file and reference hold the same bytes; elsewhere both kept
theirs.  So they agree afterwards exactly when the block held zeros in the part that
the file grew over unwritten. -/
theorem contents_eq_iff (node node' : Node) (ref' : List UInt8) (lo hi : Nat)
    (hfits' : node'.size ≤ node'.block.length) (hlen : ref'.length = node'.size)
    (hin : ∀ i, lo ≤ i → i < hi → byteAt node'.block i = byteAt ref' i)
    (hout : ∀ i, i < node'.size → ¬ (lo ≤ i ∧ i < hi) →
      byteAt node'.block i = byteAt node.block i ∧ byteAt ref' i = byteAt node.contents i) :
    node'.contents = ref' ↔
      ∀ i, node.size ≤ i → i < node'.size → ¬ (lo ≤ i ∧ i < hi) → byteAt node.block i = 0 := by
  constructor
  · intro heq i hold hnew hi'
    have hthis : byteAt node'.contents i = byteAt ref' i := by rw [heq]
    rw [byteAt_contents, if_pos hnew, (hout i hnew hi').1, (hout i hnew hi').2, byteAt_contents,
      if_neg (by omega)] at hthis
    exact hthis
  · intro hzero
    apply ext_byteAt ((length_contents hfits').trans hlen.symm)
    intro i hi'
    rw [length_contents hfits'] at hi'
    rw [byteAt_contents, if_pos hi']
    by_cases hw : lo ≤ i ∧ i < hi
    · exact hin i hw.1 hw.2
    · rw [(hout i hi' hw).1, (hout i hi' hw).2, byteAt_contents]
      by_cases hold : i < node.size
      · rw [if_pos hold]
      · rw [if_neg hold]
        exact hzero i (Nat.not_lt.mp hold) hi' hw

/-- Bytes copied into the block are bytes written to the byte file, exactly if the block
held zeros between the end of the file and the first of them. -/
theorem write_contents_iff (hfits : node.size ≤ node.block.length)
    (hroom : offset + bytes.length ≤ (zeroExtend node.block capacity).length) :
    (node.withBlock (overwrite (zeroExtend node.block capacity) offset bytes)
        (max node.size (offset + bytes.length))).contents =
          ByteFile.write node.contents offset bytes ↔
      ∀ i, node.size ≤ i → i < offset → byteAt node.block i = 0 := by
  generalize hnode' : node.withBlock (overwrite (zeroExtend node.block capacity) offset bytes)
    (max node.size (offset + bytes.length)) = node'
  have hblock : node'.block = overwrite (zeroExtend node.block capacity) offset bytes := by
    rw [← hnode', Node.withBlock_block]
  have hsize : node'.size = max node.size (offset + bytes.length) := by
    rw [← hnode', Node.withBlock_size]
  have hlen' : (ByteFile.write node.contents offset bytes).length = node'.size := by
    rw [ByteFile.length_write, length_contents hfits, hsize]
  have hfits' : node'.size ≤ node'.block.length := by
    rw [hblock, length_overwrite hroom]
    rw [length_zeroExtend] at hroom ⊢
    omega
  rw [contents_eq_iff node node' _ offset (offset + bytes.length) hfits' hlen']
  · constructor
    · intro hzero i hold hi'
      exact hzero i hold (by omega) (by omega)
    · intro hzero i hold hnew hw
      exact hzero i hold (by omega)
  · intro i hlow hhigh
    rw [hblock, byteAt_overwrite hroom, if_pos ⟨hlow, hhigh⟩, ByteFile.byteAt_write,
      if_pos ⟨hlow, hhigh⟩]
  · intro i _ hw
    rw [hblock, byteAt_overwrite hroom, if_neg hw, byteAt_zeroExtend, ByteFile.byteAt_write,
      if_neg hw]
    exact ⟨rfl, rfl⟩

/-! ### Writes of any length -/

/-- A file as its fields can be: not longer than its block, whose length is a 64-bit
number. -/
structure BlockInv (node : Node) : Prop where
  type : node.type = .file
  fits : node.size ≤ node.block.length
  bound : node.block.length < 2 ^ 64

theorem Node.startCapacity_lt (hbound : node.block.length < 2 ^ 64) :
    node.startCapacity < 2 ^ 64 := by
  unfold Node.startCapacity
  split <;> omega

/-- The block a write leaves has room for what is required. -/
theorem writeCapacity_bounds (hbound : node.block.length < 2 ^ 64)
    (h : writeCapacity node required = some c) :
    required ≤ (zeroExtend node.block c).length ∧ (zeroExtend node.block c).length < 2 ^ 64 := by
  rw [length_zeroExtend]
  unfold writeCapacity at h
  by_cases hgrow : required > node.block.length
  · rw [if_pos hgrow] at h
    have := growCapacity_bounds (Node.startCapacity_lt hbound) h
    omega
  · rw [if_neg hgrow] at h
    obtain rfl := some.inj h
    omega

theorem storeBytes_ok (hoffset : offset ≤ data.length) (hbound : data.length < 2 ^ 64)
    (h : storeBytes node data offset bytes = .ok (node', n)) :
    offset + bytes.length ≤ data.length ∧ n = toInt32 bytes.length ∧
      node' =
        node.withBlock (overwrite data offset bytes) (max node.size (offset + bytes.length)) := by
  have hroom : offset + bytes.length ≤ data.length := by
    obtain ⟨out, hcopy, -⟩ := ok_of_map h
    exact copyInto_ok hoffset hcopy
  rw [storeBytes_eq (by omega) hroom] at h
  obtain ⟨hnode, hn⟩ := Prod.mk.inj (Except.ok.inj h)
  exact ⟨hroom, hn.symm, hnode.symm⟩

/-- A write that succeeds copies its bytes into the block, or into a longer one. -/
theorem tmpfsWrite_stores (inv : BlockInv node)
    (h : tmpfsWrite node reply offset (some bytes) = .ok (node', n)) (hn : 0 ≤ n) :
    ∃ capacity, (zeroExtend node.block capacity).length < 2 ^ 64 ∧
      storeBytes node (zeroExtend node.block capacity) offset bytes = .ok (node', n) := by
  cases hfile : fileOf node reply with
  | none =>
    unfold tmpfsWrite at h
    simp only [hfile] at h
    rw [if_neg (not_not_intro inv.type)] at h
    obtain ⟨-, rfl⟩ := Prod.mk.inj (Except.ok.inj h)
    exact absurd hn (by decide)
  | some data =>
    obtain rfl := block_of_fileOf hfile
    rw [tmpfsWrite_of_file inv.type hfile] at h
    cases hcapacity : writeCapacity node (u64 (offset + bytes.length)) with
    | none =>
      rw [hcapacity] at h
      cases h
    | some c =>
      refine ⟨c, (writeCapacity_bounds inv.bound hcapacity).2, ?_⟩
      rw [hcapacity] at h
      by_cases hfail : u64 (offset + bytes.length) > node.block.length ∧ reply.realloc = none
      · obtain ⟨-, rfl⟩ := Prod.mk.inj (Except.ok.inj ((if_pos hfail).symm.trans h))
        exact absurd hn (by decide)
      · exact (if_neg hfail).symm.trans h

/-- **A write that succeeds and leaves no gap is a write to the byte file.** -/
theorem tmpfsWrite_contents (inv : BlockInv node) (hoffset : offset ≤ node.size)
    (h : tmpfsWrite node reply offset (some bytes) = .ok (node', n)) (hn : 0 ≤ n) :
    n = toInt32 bytes.length ∧
      ∃ block, node' = node.withBlock block (max node.size (offset + bytes.length)) ∧
        BlockInv node' ∧ node'.contents = ByteFile.write node.contents offset bytes := by
  obtain ⟨capacity, hbound, hstore⟩ := tmpfsWrite_stores inv h hn
  have hfits := inv.fits
  have hinside : offset ≤ (zeroExtend node.block capacity).length := by
    rw [length_zeroExtend]
    omega
  obtain ⟨hroom, hret, rfl⟩ := storeBytes_ok hinside hbound hstore
  refine ⟨hret, _, rfl, ⟨inv.type, ?_, ?_⟩, ?_⟩
  · rw [Node.withBlock_block, Node.withBlock_size, length_overwrite hroom]
    rw [length_zeroExtend] at hroom ⊢
    omega
  · rw [Node.withBlock_block, length_overwrite hroom]
    exact hbound
  · refine (write_contents_iff hfits hroom).mpr fun i hold hi => ?_
    exact absurd (Nat.lt_of_lt_of_le hi hoffset) (Nat.not_lt.mpr hold)

/-! ### Writes anywhere -/

/-- `krealloc` rounds the length it is asked for and keeps 32 bits of it; a block of that many
bytes is there only if this made it no shorter. -/
def Granted (capacity : Nat) : Prop := capacity ≤ Heap.alignSize capacity

theorem granted_iff {capacity : Nat} : Granted capacity ↔ capacity ≤ 2 ^ 32 - 16 := by
  refine ⟨fun h => ?_, Heap.le_alignSize⟩
  by_contra hlong
  have := Heap.alignSize_short (Nat.not_le.mp hlong)
  unfold Granted at h
  omega

/-- What a write owes its caller: it ends without leaving the block, and either it failed
and the file is as it was, or all the bytes are at their positions; and a block that was made
longer is really there. -/
def Accounted (node : Node) (offset : Nat) (bytes : List UInt8)
    (result : Except Fault (Node × Int)) : Prop :=
  ∃ node' n, result = .ok (node', n) ∧
    (n < 0 ∧ node'.size = node.size ∧ node'.contents = node.contents ∨
      offset + bytes.length ≤ node'.block.length ∧ slice node'.block offset bytes.length = bytes) ∧
    (node'.block.length = node.block.length ∨ Granted node'.block.length)

/-- Some doubling of the capacity is large enough before all its bits are gone. -/
def Doubles (node : Node) (required : Nat) : Prop :=
  ∃ k ≤ 64, required ≤ u64 (node.startCapacity * 2 ^ k)

/-- Some doubling of the capacity is large enough and can be allocated. -/
def Reaches (node : Node) (required : Nat) : Prop :=
  ∃ k, required ≤ node.startCapacity * 2 ^ k ∧ node.startCapacity * 2 ^ k ≤ 2 ^ 32 - 16

/-- Nothing is to be written; or the last position has a 64-bit number, and the bytes fit the
block as it is or one that can be allocated; or there is no memory for a longer block, and
the doubling ends. -/
def WriteSafe (node : Node) (reply : Reply) (offset : Nat) (bytes : List UInt8) : Prop :=
  node.type ≠ .file ∨ node.file = none ∧ reply.calloc = false ∨
    if u64 (offset + bytes.length) ≤ node.block.length then offset + bytes.length < 2 ^ 64
    else if reply.realloc.isSome then
      offset + bytes.length < 2 ^ 64 ∧ Reaches node (offset + bytes.length)
    else Doubles node (u64 (offset + bytes.length))

theorem growCapacity_le {required k : Nat} (hroom : required ≤ capacity * 2 ^ k)
    (hfits : capacity * 2 ^ k < 2 ^ 64) (h : growCapacity required fuel capacity = some c) :
    c ≤ capacity * 2 ^ k := by
  induction fuel generalizing capacity k with
  | zero => cases h
  | succ fuel ih =>
    rw [growCapacity] at h
    split_ifs at h with hlt
    · cases k with
      | zero => omega
      | succ k =>
        rw [pow_succ', ← Nat.mul_assoc] at hroom hfits ⊢
        have hdouble : capacity * 2 < 2 ^ 64 :=
          Nat.lt_of_le_of_lt (Nat.le_mul_of_pos_right _ (Nat.two_pow_pos k)) hfits
        rw [u64_of_lt hdouble] at h
        exact ih hroom hfits h
    · obtain rfl := some.inj h
      exact Nat.le_mul_of_pos_right _ (Nat.two_pow_pos k)

/-- Below half of the number space no doubling loses a bit. -/
theorem growCapacity_eq_mul {required : Nat} (hsmall : required ≤ 2 ^ 63)
    (h : growCapacity required fuel capacity = some c) : ∃ k, c = capacity * 2 ^ k := by
  induction fuel generalizing capacity with
  | zero => cases h
  | succ fuel ih =>
    rw [growCapacity] at h
    split_ifs at h with hlt
    · rw [u64_of_lt (by omega)] at h
      obtain ⟨k, rfl⟩ := ih h
      exact ⟨k + 1, by rw [pow_succ', Nat.mul_assoc]⟩
    · exact ⟨0, by rw [pow_zero, Nat.mul_one]; exact (some.inj h).symm⟩

/-- The capacity the loop ends with can be allocated exactly when one that is reached can. -/
theorem granted_grown_iff {required : Nat} (hcapacity : node.startCapacity < 2 ^ 64)
    (h : growCapacity required 65 node.startCapacity = some c) :
    Granted c ↔ Reaches node required := by
  have hreq := (growCapacity_bounds hcapacity h).1
  rw [granted_iff]
  constructor
  · intro hle
    obtain ⟨k, rfl⟩ := growCapacity_eq_mul (by omega) h
    exact ⟨k, hreq, hle⟩
  · rintro ⟨k, hroom, hle⟩
    exact (growCapacity_le hroom (by omega) h).trans hle

theorem Reaches.doubles {required : Nat} (h : Reaches node required) : Doubles node required := by
  obtain ⟨k, hroom, hle⟩ := h
  have hpos : 0 < node.startCapacity := by
    unfold Node.startCapacity
    split_ifs <;> omega
  have hk : 2 ^ k < 2 ^ 64 := by
    have := Nat.le_mul_of_pos_left (2 ^ k) hpos
    omega
  refine ⟨k, Nat.le_of_lt ((Nat.pow_lt_pow_iff_right (by decide)).mp hk), ?_⟩
  rwa [u64_of_lt (by omega)]

theorem slice_overwrite (hroom : offset + bytes.length ≤ data.length) :
    slice (overwrite data offset bytes) offset bytes.length = bytes := by
  have hlen : (data.take offset).length = offset := by
    rw [length_take]
    omega
  unfold slice overwrite
  rw [append_assoc, drop_left' hlen, take_left]

/-- A copy that was given enough room goes wrong exactly when the sum wrapped, or the room is
not there. -/
theorem accounted_storeBytes_iff (hoffset : offset < 2 ^ 64) (hbound : data.length < 2 ^ 64)
    (hreq : u64 (offset + bytes.length) ≤ data.length) :
    Accounted node offset bytes (storeBytes node data offset bytes) ↔
      offset + bytes.length < 2 ^ 64 ∧
        (data.length = node.block.length ∨ Granted data.length) := by
  by_cases hsum : offset + bytes.length < 2 ^ 64
  · rw [u64_of_lt hsum] at hreq
    have hlength : (node.withBlock (overwrite data offset bytes)
        (max node.size (offset + bytes.length))).block.length = data.length := by
      rw [Node.withBlock_block, length_overwrite hreq]
    rw [storeBytes_eq hsum hreq, and_iff_right hsum]
    constructor
    · rintro ⟨node', n, hok, -, hthere⟩
      obtain ⟨rfl, -⟩ := Prod.mk.inj (Except.ok.inj hok)
      rwa [hlength] at hthere
    · intro hthere
      refine ⟨_, _, rfl, Or.inr ⟨?_, ?_⟩, ?_⟩
      · rwa [hlength]
      · rw [Node.withBlock_block]
        exact slice_overwrite hreq
      · rwa [hlength]
  · refine iff_of_false ?_ fun h => hsum h.1
    rintro ⟨node', n, hstore, -⟩
    have hnil : bytes ≠ [] := by
      rintro rfl
      exact hsum hoffset
    unfold storeBytes copyInto at hstore
    rw [if_neg hnil, if_neg (by omega)] at hstore
    cases hstore

theorem accounted_failed (hsize : node'.size = node.size) (hblock : node'.block = node.block) :
    Accounted node offset bytes (.ok (node', -1)) := by
  refine ⟨node', -1, rfl, Or.inl ⟨by decide, hsize, ?_⟩, Or.inl (congrArg length hblock)⟩
  unfold Node.contents
  rw [hsize]
  exact congrArg (take node.size) hblock

/-- A file that has its block. -/
theorem accounted_file_iff (htype : node.type = .file)
    (hfile : fileOf node reply = some node.block) (hbound : node.block.length < 2 ^ 64)
    (hoffset : offset < 2 ^ 64) :
    Accounted node offset bytes (tmpfsWrite node reply offset (some bytes)) ↔
      if u64 (offset + bytes.length) ≤ node.block.length then offset + bytes.length < 2 ^ 64
      else if reply.realloc.isSome then
        offset + bytes.length < 2 ^ 64 ∧ Reaches node (offset + bytes.length)
      else Doubles node (u64 (offset + bytes.length)) := by
  rw [tmpfsWrite_of_file htype hfile]
  unfold writeCapacity
  by_cases hgrow : u64 (offset + bytes.length) ≤ node.block.length
  · rw [if_pos hgrow, if_neg (Nat.not_lt.mpr hgrow)]
    dsimp only
    rw [if_neg fun h => absurd h.1 (Nat.not_lt.mpr hgrow), zeroExtend_self,
      accounted_storeBytes_iff hoffset hbound hgrow]
    exact and_iff_left (Or.inl rfl)
  rw [if_neg hgrow, if_pos (Nat.not_le.mp hgrow)]
  have hstart := Node.startCapacity_lt hbound
  have hends : (growCapacity (u64 (offset + bytes.length)) 65 node.startCapacity).isSome ↔
      Doubles node (u64 (offset + bytes.length)) := growCapacity_isSome_iff hstart
  cases hcapacity : growCapacity (u64 (offset + bytes.length)) 65 node.startCapacity with
  | none =>
    have hnot : ¬ Doubles node (u64 (offset + bytes.length)) := by
      rw [hcapacity] at hends
      exact fun h => Bool.noConfusion (hends.mpr h)
    refine iff_of_false (fun ⟨_, _, h, _⟩ => by cases h) ?_
    split_ifs with hrealloc
    · rintro ⟨hsum, hreaches⟩
      rw [u64_of_lt hsum] at hnot
      exact hnot hreaches.doubles
    · exact hnot
  | some c =>
    have hdoubles : Doubles node (u64 (offset + bytes.length)) := hends.mp (hcapacity ▸ rfl)
    obtain ⟨hroom, hlt⟩ := growCapacity_bounds hstart hcapacity
    have hlength : (zeroExtend node.block c).length = c := by
      rw [length_zeroExtend]
      omega
    dsimp only
    cases hrealloc : reply.realloc with
    | none =>
      rw [if_pos ⟨Nat.not_le.mp hgrow, rfl⟩]
      exact iff_of_true (accounted_failed rfl rfl) hdoubles
    | some junk =>
      rw [if_neg fun h => absurd h.2 (by simp), accounted_storeBytes_iff hoffset
        (hlength.trans_lt hlt) (hroom.trans_eq hlength.symm), hlength, or_iff_right (by omega),
        granted_grown_iff hstart hcapacity]
      rw [isSome_some, if_pos rfl]
      exact and_congr_right fun hsum => by rw [u64_of_lt hsum]

/-- **`tmpfs_write` ends, and stores what it was given or leaves the file alone, exactly
when the end position does not wrap and the capacity it doubles to can be allocated.** -/
theorem write_accounted_iff (node : Node) (reply : Reply) (offset : Nat) (bytes : List UInt8)
    (hbound : node.block.length < 2 ^ 64) (hoffset : offset < 2 ^ 64) :
    Accounted node offset bytes (tmpfsWrite node reply offset (some bytes)) ↔
      WriteSafe node reply offset bytes := by
  unfold WriteSafe
  by_cases htype : node.type = .file
  swap
  · refine iff_of_true ?_ (Or.inl htype)
    unfold tmpfsWrite
    simp only [if_pos htype]
    exact accounted_failed rfl rfl
  have hnone : fileOf node reply = none ↔ node.file = none ∧ reply.calloc = false := by
    unfold fileOf
    cases node.file <;> simp
  rw [or_iff_right (not_not_intro htype), ← hnone]
  cases hfile : fileOf node reply with
  | none =>
    refine iff_of_true ?_ (Or.inl rfl)
    unfold tmpfsWrite
    simp only [hfile, if_neg (not_not_intro htype)]
    exact accounted_failed rfl rfl
  | some data =>
    obtain rfl := block_of_fileOf hfile
    rw [or_iff_right (by simp)]
    exact accounted_file_iff htype hfile hbound hoffset

/-- A file as `tmpfs_create_node` makes it. -/
def emptyFile : Node := { name := [102], type := .file, ops := .tmpfs }

/-- A file of one byte. -/
theorem write_accounted_first :
    emptyFile.block.length < 2 ^ 64 ∧ 0 < 2 ^ 64 ∧
      Accounted emptyFile 0 [97] (tmpfsWrite emptyFile ⟨true, some fun _ => 7⟩ 0 (some [97])) :=
  ⟨by decide, by decide, (write_accounted_iff emptyFile _ 0 [97] (by decide) (by decide)).mpr
    (Or.inr (Or.inr ⟨by decide, 0, by decide, by decide⟩))⟩

/-- Two bytes at the last position a seek can reach: the capacity is doubled until it is
zero, and then for ever. -/
theorem write_at_end_hangs :
    ¬ Accounted emptyFile (2 ^ 63 - 1) [97, 98]
      (tmpfsWrite emptyFile ⟨true, some fun _ => 7⟩ (2 ^ 63 - 1) (some [97, 98])) := by
  rintro ⟨node', n, hok, -⟩
  cases hok

/-! ### Runs beside a byte file -/

/-- A call on the file.  Sums stay below `2 ^ 31`, and every allocation is served, with
memory that holds arbitrary bytes. -/
inductive FileOp
  | write (offset : Nat) (bytes : List UInt8) (junk : Nat → UInt8)
      (hsum : offset + bytes.length < 2 ^ 31)
  | truncate (size : Nat) (junk : Nat → UInt8) (hsize : size < 2 ^ 31)
  | read (offset count : Nat) (hsum : offset + count < 2 ^ 31)

/-- The call on the node and on the reference file beside it. -/
def fileStep (s : Node × List UInt8) : FileOp → Option (Node × List UInt8)
  | .write offset bytes junk _ =>
    (tmpfsWrite s.1 ⟨true, some junk⟩ offset (some bytes)).toOption.map fun r =>
      (r.1, ByteFile.write s.2 offset bytes)
  | .truncate size junk _ =>
    some ((tmpfsTruncate s.1 ⟨true, some junk⟩ size).1, ByteFile.truncate s.2 size)
  | .read offset count _ => (tmpfsRead s.1 offset true count).toOption.map fun _ => s

/-- Every read that could be made now returns what the reference file returns. -/
def ReadsAgree (s : Node × List UInt8) : Prop :=
  ∀ offset count, offset + count < 2 ^ 31 →
    tmpfsRead s.1 offset true count =
      .ok ((ByteFile.read s.2 offset count).length, ByteFile.read s.2 offset count)

/-- If the call makes the file longer, the bytes of the block it does not write are zero. -/
def GrowsOverZeros (s : Node × List UInt8) : FileOp → Prop
  | .write offset _ _ _ => ∀ i, s.1.size ≤ i → i < offset → byteAt s.1.block i = 0
  | .truncate size _ _ => ∀ i, s.1.size ≤ i → i < size → byteAt s.1.block i = 0
  | .read _ _ _ => True

/-- The file and its reference have one length, whatever they hold. -/
def Paired (s : Node × List UInt8) : Prop := FileInv s.1 ∧ s.2.length = s.1.size

theorem readsAgree_iff (hs : Paired s) : ReadsAgree s ↔ s.1.contents = s.2 := by
  obtain ⟨inv, hlen⟩ := hs
  have hlen' := (length_contents inv.fits).trans hlen.symm
  constructor
  · intro hagree
    refine ByteFile.eq_of_read (b := 2 ^ 31 - 1) hlen' ?_ fun i hi => ?_
    · have := inv.short
      omega
    · have := hagree i 1 (by omega)
      rw [tmpfsRead_eq inv (by omega)] at this
      exact (Prod.mk.inj (Except.ok.inj this)).2
  · intro heq offset count hsum
    rw [tmpfsRead_eq inv hsum, heq]

/-- What a write does to the pair. -/
theorem write_step (junk : Nat → UInt8) (hs : Paired s) (hsum : offset + bytes.length < 2 ^ 31) :
    ∃ s', fileStep s (.write offset bytes junk hsum) = some s' ∧ Paired s' ∧
      (s.1.contents = s.2 → (s'.1.contents = s'.2 ↔
        GrowsOverZeros s (.write offset bytes junk hsum))) := by
  obtain ⟨inv, hlen⟩ := hs
  have hfits := inv.fits
  have hshort := inv.short
  obtain ⟨capacity, hroom, hrun⟩ := tmpfsWrite_eq junk inv.type hsum
  have hstep : fileStep s (.write offset bytes junk hsum) =
      some (s.1.withBlock (overwrite (zeroExtend s.1.block capacity) offset bytes)
        (max s.1.size (offset + bytes.length)), ByteFile.write s.2 offset bytes) := by
    simp only [fileStep, hrun]
    rfl
  refine ⟨_, hstep, ⟨⟨inv.type, ?_, ?_⟩, ?_⟩, fun hagree => ?_⟩
  · rw [Node.withBlock_block, Node.withBlock_size, length_overwrite hroom]
    rw [length_zeroExtend] at hroom ⊢
    omega
  · rw [Node.withBlock_size]
    omega
  · rw [ByteFile.length_write, hlen, Node.withBlock_size]
  · rw [← hagree]
    exact write_contents_iff hfits hroom

/-- What a truncation does to the pair. -/
theorem truncate_step (hs : Paired s) (hsize : size < 2 ^ 31) :
    ∃ s', fileStep s (.truncate size junk hsize) = some s' ∧ Paired s' ∧
      (s.1.contents = s.2 → (s'.1.contents = s'.2 ↔
        GrowsOverZeros s (.truncate size junk hsize))) := by
  obtain ⟨inv, hlen⟩ := hs
  refine ⟨_, by simp only [fileStep, tmpfsTruncate_eq inv.type]; rfl, ?_⟩
  have hfits' : (s.1.withBlock (zeroExtend s.1.block size) size).size ≤
      (s.1.withBlock (zeroExtend s.1.block size) size).block.length := by
    rw [Node.withBlock_block, length_zeroExtend]
    exact Nat.le_max_right _ _
  have hlen' : (ByteFile.truncate s.2 size).length =
      (s.1.withBlock (zeroExtend s.1.block size) size).size := ByteFile.length_truncate
  refine ⟨⟨⟨inv.type, hfits', hsize⟩, hlen'⟩, fun hagree => ?_⟩
  -- nothing is written, so the written range is empty
  rw [contents_eq_iff s.1 _ _ 0 0 hfits' hlen']
  · constructor
    · intro hzero i hold hi'
      exact hzero i hold hi' (by omega)
    · intro hzero i hold hnew _
      exact hzero i hold hnew
  · intro i _ hhigh
    omega
  · intro i hnew _
    rw [Node.withBlock_size] at hnew
    rw [Node.withBlock_block, byteAt_zeroExtend, ByteFile.byteAt_truncate, if_pos hnew, hagree]
    exact ⟨rfl, rfl⟩

theorem fileStep_spec (hs : Paired s) (op : FileOp) : ∃ s', fileStep s op = some s' ∧ Paired s' ∧
      (s.1.contents = s.2 → (s'.1.contents = s'.2 ↔ GrowsOverZeros s op)) := by
  cases op with
  | write offset bytes junk hsum => exact write_step junk hs hsum
  | truncate size junk hsize => exact truncate_step hs hsize
  | read offset count hsum =>
    refine ⟨s, by rw [fileStep, tmpfsRead_eq hs.1 hsum]; rfl, hs, fun hagree => ?_⟩
    exact iff_of_true hagree trivial

theorem fileStep_paired (s : Node × List UInt8) (op : FileOp) (s' : Node × List UInt8)
    (hs : Paired s) (hstep : fileStep s op = some s') : Paired s' := by
  obtain ⟨t, ht, hpair, -⟩ := fileStep_spec hs op
  exact some.inj (ht.symm.trans hstep) ▸ hpair

/-- **A file reads like a byte file exactly as long as it grows over zeros.**  Along any
run of writes, reads and truncations, in every state every read returns what the
reference returns, if and only if no call makes the file longer over bytes of the block
that are not zero; and no call of the run diverges or leaves the block. -/
theorem reads_agree_iff (node : Node) (inv : FileInv node) (ops : List FileOp) :
    (Throughout fileStep ReadsAgree (node, node.contents) ops ↔
        Along fileStep GrowsOverZeros (node, node.contents) ops) ∧
      (run fileStep (node, node.contents) ops).isSome := by
  have hstart : Paired (node, node.contents) := ⟨inv, length_contents inv.fits⟩
  have hdef (s : Node × List UInt8) (op : FileOp) (hs : Paired s) : (fileStep s op).isSome := by
    obtain ⟨t, ht, -⟩ := fileStep_spec hs op
    rw [ht]
    rfl
  constructor
  · refine throughout_iff_along (fun s op s' hs _ _ hstep => fileStep_paired s op s' hs hstep) ?_ ?_
      hstart ((readsAgree_iff hstart).mpr rfl)
    · intro s op hs _ hnone
      have := hdef s op hs
      rw [hnone] at this
      simp at this
    intro s op s' hs hagree hstep
    obtain ⟨t, ht, hpair, hiff⟩ := fileStep_spec hs op
    obtain rfl : t = s' := some.inj (ht.symm.trans hstep)
    rw [readsAgree_iff hpair]
    exact hiff ((readsAgree_iff hs).mp hagree)
  · exact run_isSome (fun s op s' hs _ => fileStep_paired s op s' hs)
      (fun s op hs _ => hdef s op hs)
      hstart (along_true _ _)

theorem emptyFile_inv : FileInv emptyFile := ⟨rfl, Nat.le_refl 0, by decide⟩

/-- A hole left by a write behind the end reads as zeros. -/
theorem reads_agree_hole :
    Throughout fileStep ReadsAgree (emptyFile, []) [.write 4 [97] (fun _ => 7) (by decide)] := by
  refine (reads_agree_iff emptyFile emptyFile_inv
    [.write 4 [97] (fun _ => 7) (by decide)]).1.mpr ⟨?_, fun _ _ => trivial⟩
  intro i _ _
  exact byteAt_of_le (Nat.zero_le i)

/-- One byte is written, cut off and stretched over again: it is still there. -/
theorem stale_byte :
    ¬ Throughout fileStep ReadsAgree (emptyFile, [])
      [.write 0 [97] (fun _ => 7) (by decide), .truncate 0 (fun _ => 7) (by decide),
        .truncate 1 (fun _ => 7) (by decide)] := by
  intro hall
  have hrun : (run fileStep (emptyFile, [])
      [.write 0 [97] (fun _ => 7) (by decide), .truncate 0 (fun _ => 7) (by decide),
        .truncate 1 (fun _ => 7) (by decide)]).map
      (fun s => ((tmpfsRead s.1 0 true 1).toOption, ByteFile.read s.2 0 1)) =
      some (some (1, [97]), [0]) := by decide +kernel
  obtain ⟨s, hs, hvalues⟩ := map_eq_some_iff.mp hrun
  obtain ⟨hread, href⟩ := Prod.mk.inj hvalues
  have hagree := hall.last hs 0 1 (by decide)
  rw [hagree, href] at hread
  exact absurd hread (by decide)

end Nv0ken.Fs
