/-
The heap invariant, and what each call of the allocator does to it.

`HeapInv h lo hi xs` says the memory of `h` stands for the blocks `xs`, which tile the
region from `lo` to `hi` with no two free neighbours, and that the counters agree with
them.  Each of `kmalloc`, `kfree` and `krealloc` is given one lemma that says which
list of blocks it leaves, and which bytes it may have written.

Everything about sizes goes through `alignSize`, whose mask is 32 bits wide.  Up to
`2 ^ 32 - 16` it rounds up; beyond, it drops the upper half of the size, and the block
handed out is always too small (`alignSize_short`).
-/
import Nv0ken.Proofs.Mm.HeapBlocks

namespace Nv0ken.Heap

open BlockList Word List Option

variable {h : State} {m : Mem} {lo hi size i : Nat} {xs pre post ys : List Block} {x : Block}

/-! ### Rounding a size -/

theorem alignSize_eq (size : Nat) : alignSize size = (size + 15) % 2 ^ 32 / 16 * 16 := by
  unfold alignSize u64
  rw [show (0xfffffff0 : Nat) = 2 ^ 32 - 2 ^ 4 from rfl, and_high_mask (by decide)]
  omega

theorem alignSize_lt (size : Nat) : alignSize size < 2 ^ 32 := by
  rw [alignSize_eq]
  omega

theorem le_alignSize (hsize : size ≤ 2 ^ 32 - 16) : size ≤ alignSize size := by
  rw [alignSize_eq]
  omega

/-- Past the width of the mask, even a whole block that was too short to cut is too
short for the request. -/
theorem alignSize_short (hsize : 2 ^ 32 - 16 < size) : alignSize size + headerSize + 16 ≤ size := by
  rw [alignSize_eq]
  unfold headerSize
  omega

/-! ### The invariant -/

/-- The memory and the counters of the heap stand for the blocks `xs` of the region
from `lo` to `hi`. -/
structure HeapInv (h : State) (lo hi : Nat) (xs : List Block) : Prop where
  head : h.head = firstAddr xs 0
  seg : Seg h.mem 0 xs 0
  tiles : Tiles headerSize lo xs hi
  noPair : NoFreePair xs
  used : h.usedSize = BlockList.used xs
  /-- The bounds `kfree` checks a pointer against are those of the region. -/
  total : xs ≠ [] → lo + h.totalSize + headerSize = hi
  /-- The region is ordinary memory: it is not at the null address. -/
  bottom : xs ≠ [] → 0 < lo
  top : hi < 2 ^ 64

namespace HeapInv

section

variable (inv : HeapInv h lo hi xs)
include inv

theorem addr_ne_zero (hx : x ∈ xs) : x.addr ≠ 0 := by
  have := inv.bottom (ne_nil_of_mem hx)
  have := (inv.tiles.bounds hx).1
  omega

theorem fin_le (hx : x ∈ xs) :
    x.addr + headerSize + x.size ≤ hi := (inv.tiles.bounds hx).2

theorem length_lt : xs.length < addressSpace := by
  have := inv.tiles.length_mul_le
  have := inv.top
  unfold headerSize addressSpace at *
  omega

/-- The header of a block of the list. -/
theorem header_at (hx : x ∈ xs) :
    blockSize h.mem x.addr = x.size ∧ blockFree h.mem x.addr = flag x.free := by
  obtain ⟨pre, post, rfl⟩ := append_of_mem hx
  have := inv.seg.at
  exact ⟨by rw [← header_size, this], by rw [← header_free, this]⟩

/-- The first block starts the region. -/
theorem head_eq (hx : x ∈ xs) : h.head = lo := by
  rcases xs with _ | ⟨y, ys⟩
  · simp at hx
  · rw [inv.head]
    exact inv.tiles.1

/-- The pointer checks of `kfree` and `krealloc` let every block pass. -/
theorem not_outside (hx : x ∈ xs) : ¬ outside h x.addr := by
  have hlo := (inv.tiles.bounds hx).1
  have hfin := inv.fin_le hx
  have htotal := inv.total (ne_nil_of_mem hx)
  unfold outside
  rw [inv.head_eq hx]
  unfold headerSize at *
  omega

/-- A byte of a payload is no byte of a header. -/
theorem payload_not_header (hx : x ∈ xs)
    (hlow : x.addr + headerSize ≤ i) (hhigh : i < x.addr + headerSize + x.size) :
    i ∉ headersOf xs := by
  rintro ⟨y, hy, hylow, hyhigh⟩
  rcases inv.tiles.apart hx hy with rfl | hlt | hlt <;> omega

/-- Writes that touch no header keep the invariant. -/
theorem of_frame {S : Set Nat} (hframe : Mem.Frame S h.mem m)
    (hS : ∀ i ∈ S, i ∉ headersOf xs) : HeapInv { h with mem := m } lo hi xs := by
  refine { inv with seg := inv.seg.congr fun y hy => header_of_frame hframe fun j hj hmem => ?_ }
  refine hS _ hmem ⟨y, hy, ?_⟩
  exact ⟨by omega, by omega⟩

/-- Writes inside one payload keep the invariant. -/
theorem of_payload_frame (hx : x ∈ xs)
    (hframe : Mem.Frame {i | x.addr + headerSize ≤ i ∧ i < x.addr + headerSize + x.size} h.mem m) :
    HeapInv { h with mem := m } lo hi xs :=
  inv.of_frame hframe fun _ hi' => inv.payload_not_header hx hi'.1 hi'.2

/-- The invariant for another list of blocks of the same region. -/
theorem update (hx : x ∈ xs) {u : Nat}
    (hseg : Seg m 0 ys 0) (htiles : Tiles headerSize lo ys hi) (hpair : NoFreePair ys)
    (hused : u = BlockList.used ys) : HeapInv { h with mem := m, usedSize := u } lo hi ys := by
  have hne : xs ≠ [] := ne_nil_of_mem hx
  have hregion : lo < hi := by
    have := inv.total hne
    unfold headerSize at this
    omega
  have hhead : h.head = firstAddr ys 0 := by
    rcases ys with _ | ⟨y, ys⟩
    · exact absurd htiles (Nat.ne_of_lt hregion)
    · exact (inv.head_eq hx).trans htiles.1.symm
  exact ⟨hhead, hseg, htiles, hpair, hused, fun _ => inv.total hne, fun _ => inv.bottom hne,
    inv.top⟩

end

end HeapInv

/-- **A fresh heap is one free block**, or none when the region is too small. -/
theorem heapInit_inv {base : Nat} (hsize : base + size < 2 ^ 64) :
    if base = 0 ∨ size ≤ headerSize then HeapInv (heapInit m base size) 0 0 []
    else HeapInv (heapInit m base size) base (base + size) [⟨base, size - headerSize, true⟩] := by
  by_cases hsmall : base = 0 ∨ size ≤ headerSize
  · rw [if_pos hsmall]
    unfold heapInit
    rw [if_pos hsmall]
    exact ⟨rfl, trivial, rfl, IsChain.nil, rfl, fun h => absurd rfl h, fun h => absurd rfl h,
      by decide⟩
  · rw [if_neg hsmall]
    have hpayload : u64Sub size headerSize = size - headerSize := u64Sub_of_le (by omega) (by omega)
    have hheader : header (heapInit m base size).mem base = ⟨size - headerSize, 1, 0, 0⟩ := by
      unfold heapInit
      rw [if_neg hsmall]
      simp only [hpayload]
      rw [header_setPrev (by decide), header_setNext (by decide), header_setFree (by decide),
        header_setSize (by omega)]
    have htotal : (heapInit m base size).totalSize = size - headerSize := by
      have hrefl : (heapInit m base size).totalSize
          = blockSize (heapInit m base size).mem base := by
        unfold heapInit
        rw [if_neg hsmall]
      rw [hrefl, ← header_size, hheader]
    have hfields : (heapInit m base size).head = base ∧ (heapInit m base size).usedSize = 0 := by
      unfold heapInit
      rw [if_neg hsmall]
      exact ⟨rfl, rfl⟩
    refine ⟨hfields.1, ⟨hheader, trivial⟩, ⟨rfl, ?_⟩, List.IsChain.singleton _, hfields.2, ?_, ?_,
      hsize⟩
    · show base + headerSize + (size - headerSize) = base + size
      omega
    · intro _
      omega
    · intro _
      omega

/-! ### `kmalloc` -/

theorem findFit_eq (inv : HeapInv h lo hi xs) (s : Nat) :
    findFit h.mem s addressSpace h.head = some (((xs.find? (fits s)).map Block.addr).getD 0) := by
  rw [inv.head]
  exact findFit_spec addressSpace xs 0 inv.seg (fun _ hx => inv.addr_ne_zero hx) inv.length_lt

/-- The request is refused: it is empty, too large to round, or fits no free block. -/
def Refused (xs : List Block) (size : Nat) : Prop :=
  size = 0 ∨ 2 ^ 64 - 16 < size ∨ xs.find? (fits (alignSize size)) = none

theorem kmalloc_refused (inv : HeapInv h lo hi xs) (href : Refused xs size) :
    kmalloc h size = some (h, 0) := by
  unfold kmalloc
  by_cases hguard : size = 0 ∨ size > 2 ^ 64 - 16
  · rw [if_pos hguard]
  · rw [if_neg hguard, findFit_eq inv]
    rcases href with h0 | hbig | hnone
    · exact absurd (Or.inl h0) hguard
    · exact absurd (Or.inr hbig) hguard
    · rw [hnone]
      rfl

/-- The blocks left by a successful request. -/
def allocated (pre : List Block) (x : Block) (post : List Block) (size : Nat) : List Block :=
  pre ++ carve headerSize x (alignSize size) (cuts x (alignSize size)) ++ post

/-- The payload size of the block handed out. -/
def granted (x : Block) (size : Nat) : Nat :=
  if cuts x (alignSize size) then alignSize size else x.size

theorem kmalloc_granted (inv : HeapInv h lo hi (pre ++ x :: post)) (h0 : size ≠ 0)
    (hbig : size ≤ 2 ^ 64 - 16)
    (hfind : (pre ++ x :: post).find? (fits (alignSize size)) = some x) :
    ∃ h', kmalloc h size = some (h', x.addr + headerSize) ∧
      HeapInv h' lo hi (allocated pre x post size) ∧
      Mem.Frame (headersOf (allocated pre x post size)) h.mem h'.mem := by
  have hmem : x ∈ pre ++ x :: post := by simp
  have hfit : fits (alignSize size) x = true := find?_some hfind
  have hfree : x.free = true := by
    simp only [fits, Bool.and_eq_true] at hfit
    exact hfit.1
  obtain ⟨hseg, hframe⟩ := handOut_spec inv.seg inv.tiles inv.top (alignSize_lt size)
  have htiles : Tiles headerSize lo (allocated pre x post size) hi := by
    refine carve_tiles (fun hcut => ?_) inv.tiles
    have := of_decide_eq_true hcut
    omega
  have hsize : blockSize (handOut h.mem x.addr (alignSize size)) x.addr = granted x size := by
    rw [append_assoc] at hseg
    have hat := (seg_append.mp hseg).2
    unfold granted
    unfold carve at hat
    by_cases hcut : cuts x (alignSize size) = true
    · rw [if_pos hcut] at hat ⊢
      rw [← header_size, hat.1]
    · rw [if_neg hcut] at hat ⊢
      rw [← header_size, hat.1]
  have hused : BlockList.used (allocated pre x post size)
      = BlockList.used (pre ++ x :: post) + granted x size := carve_used hfree
  have hroom := used_le htiles
  have htop := inv.top
  refine ⟨{ h with mem := handOut h.mem x.addr (alignSize size),
                   usedSize := u64 (h.usedSize + granted x size) }, ?_, ?_, hframe⟩
  · unfold kmalloc
    rw [if_neg (by omega), findFit_eq inv, hfind]
    show some (if x.addr = 0 then _ else _) = _
    rw [if_neg (inv.addr_ne_zero hmem)]
    simp only [← hsize]
    rfl
  · refine inv.update hmem hseg htiles (carve_noFreePair hfree inv.noPair) ?_
    rw [inv.used, hused, u64_of_lt (by omega)]

/-- **`kmalloc` in a well-formed heap** either refuses the request and changes nothing,
or hands out the first free block that fits. -/
theorem kmalloc_cases (inv : HeapInv h lo hi xs) (size : Nat) :
    (Refused xs size ∧ kmalloc h size = some (h, 0)) ∨
      ∃ pre x post h', xs = pre ++ x :: post ∧ x.free = true ∧ size ≠ 0 ∧
        size ≤ 2 ^ 64 - 16 ∧ alignSize size ≤ x.size ∧
        kmalloc h size = some (h', x.addr + headerSize) ∧
        HeapInv h' lo hi (allocated pre x post size) ∧
        Mem.Frame (headersOf (allocated pre x post size)) h.mem h'.mem := by
  by_cases href : Refused xs size
  · exact Or.inl ⟨href, kmalloc_refused inv href⟩
  · unfold Refused at href
    push Not at href
    obtain ⟨h0, hbig, hfind⟩ := href
    obtain ⟨x, hx⟩ := ne_none_iff_exists'.mp hfind
    obtain ⟨pre, post, hsplit⟩ := append_of_mem (mem_of_find?_eq_some hx)
    have hfit : fits (alignSize size) x = true := find?_some hx
    simp only [fits, Bool.and_eq_true, decide_eq_true_eq] at hfit
    subst hsplit
    obtain ⟨h', hrun, hinv, hframe⟩ := kmalloc_granted inv h0 (by omega) hx
    exact Or.inr ⟨pre, x, post, h', rfl, hfit.1, h0, by omega, hfit.2, hrun, hinv, hframe⟩

/-- Up to the width of the mask a block handed out holds the request; beyond it never does. -/
theorem granted_iff (hfit : alignSize size ≤ x.size) :
    size ≤ granted x size ↔ size ≤ 2 ^ 32 - 16 := by
  unfold granted cuts
  by_cases hsmall : size ≤ 2 ^ 32 - 16
  · have := le_alignSize hsmall
    split <;> omega
  · have := alignSize_short (Nat.not_le.mp hsmall)
    by_cases hcut : alignSize size + headerSize + 16 ≤ x.size
    · rw [if_pos (decide_eq_true hcut)]
      omega
    · rw [if_neg (by simpa using hcut)]
      omega

theorem le_granted (hfit : alignSize size ≤ x.size) : alignSize size ≤ granted x size := by
  unfold granted
  split <;> omega

/-! ### `kfree` -/

/-- **`kfree` of a block in use** frees it and joins it with its free neighbours, and
writes nothing but headers. -/
theorem kfree_spec (inv : HeapInv h lo hi xs) (hx : x ∈ xs) (hfree : x.free = false) :
    ∃ rpre post h', xs = rpre.reverse ++ x :: post ∧
      kfree h (x.addr + headerSize) = some h' ∧
      HeapInv h' lo hi (coalesceBlocks headerSize rpre { x with free := true } post) ∧
      Mem.Frame (headersOf xs) h.mem h'.mem := by
  obtain ⟨pre, post, hsplit⟩ := append_of_mem hx
  obtain ⟨rpre, rfl⟩ : ∃ rpre : List Block, pre = rpre.reverse := ⟨pre.reverse, by simp⟩
  obtain ⟨hsize, hflag⟩ := inv.header_at hx
  have hlo := inv.bottom (ne_nil_of_mem hx)
  have hlen := inv.length_lt
  subst hsplit
  have hused : BlockList.used (rpre.reverse ++ x :: post)
      = BlockList.used rpre.reverse + BlockList.used post + x.size := by
    simp [hfree]
    omega
  have hroom := used_le inv.tiles
  have htop := inv.top
  -- The block with its flag set, before anything is joined.
  set y : Block := { x with free := true } with hy
  obtain ⟨hpreA, hpostA⟩ := tiles_apart inv.tiles
  have hseg : Seg (setFree h.mem x.addr 1) 0 (rpre.reverse ++ y :: post) 0 := by
    obtain ⟨hsegPre, -, hsegPost⟩ := seg_append.mp inv.seg
    refine seg_append.mpr ⟨?_, ?_, ?_⟩
    · exact hsegPre.congr fun d hd => header_of_apart setFree_frame (Or.inr (hpreA d hd))
    · show header (setFree h.mem x.addr 1) x.addr = _
      rw [header_setFree (by decide), inv.seg.at]
      rfl
    · refine hsegPost.congr fun d hd => header_of_apart setFree_frame (Or.inl ?_)
      have := hpostA d hd
      omega
  have htiles : Tiles headerSize lo (rpre.reverse ++ y :: post) hi :=
    Tiles.of_around inv.tiles.around.1 inv.tiles.around.2
  obtain ⟨m', hrun, hseg', hframe⟩ := coalesce_spec hlo htop rpre addressSpace hseg htiles rfl
    (by simp only [length_append, length_reverse, length_cons] at hlen; omega)
  refine ⟨rpre, post, { h with mem := m', usedSize := u64Sub h.usedSize x.size }, rfl, ?_, ?_, ?_⟩
  · unfold kfree
    rw [if_neg (by unfold headerSize; omega)]
    simp only [Nat.add_sub_cancel]
    rw [if_neg (inv.not_outside hx), hflag, hsize, hrun]
    simp [hfree, flag]
  · refine inv.update hx hseg' (coalesceBlocks_tiles htiles) ?_ ?_
    · have hpair := inv.noPair
      unfold NoFreePair at hpair
      rw [isChain_append] at hpair
      exact coalesceBlocks_noFreePair hpair.1 hpair.2.1.tail
    · rw [coalesceBlocks_used rfl, inv.used, hused, u64Sub_of_le (by omega) (by omega)]
      omega
  · have hheads : headersOf (rpre.reverse ++ y :: post) ⊆ headersOf
        (rpre.reverse ++ x :: post) := by
      rintro j ⟨d, hd, hj⟩
      rcases mem_append.mp hd with hd | hd
      · exact ⟨d, mem_append_left _ hd, hj⟩
      · rcases mem_cons.mp hd with hdy | hd
        · exact ⟨x, by simp, by rw [hdy] at hj; exact hj⟩
        · exact ⟨d, by simp [hd], hj⟩
    exact (setFree_frame.mono (headerRange_subset hx)).trans (hframe.mono hheads)

/-! ### The blocks in use -/

/-- The list `ys` has the blocks in use of `xs`, without `old` and with `new`. -/
def Replaces (xs ys : List Block) (old new : Option Block) : Prop :=
  ∀ d : Block, d.free = false → (d ∈ ys ↔ (d ∈ xs ∧ some d ≠ old) ∨ some d = new)

/-- The block a request hands out. -/
def grantedBlock (x : Block) (size : Nat) : Block := ⟨x.addr, granted x size, false⟩

theorem allocated_replaces (hfree : x.free = true) :
    Replaces (pre ++ x :: post) (allocated pre x post size) none (some (grantedBlock x size)) := by
  intro d hd
  rw [allocated, mem_carve_used hfree hd]
  simp only [ne_eq, reduceCtorEq, not_false_eq_true, and_true, some.injEq]
  rfl

theorem grantedBlock_mem : grantedBlock x size ∈ allocated pre x post size := by
  unfold allocated carve grantedBlock granted
  by_cases hcut : cuts x (alignSize size) = true <;> simp [hcut]

theorem freed_replaces {rpre : List Block} (inv : HeapInv h lo hi (rpre.reverse ++ x :: post)) :
    Replaces (rpre.reverse ++ x :: post)
      (coalesceBlocks headerSize rpre { x with free := true } post) (some x) none := by
  intro d hd
  have hself : ∀ e ∈ rpre.reverse ++ post, e ≠ x := by
    rintro e he rfl
    obtain ⟨hpreA, hpostA⟩ := tiles_apart inv.tiles
    unfold headerSize at *
    rcases mem_append.mp he with he | he
    · have := hpreA e he; omega
    · have := hpostA e he; omega
  rw [mem_coalesceBlocks_used rfl hd]
  constructor
  · intro hmem
    refine Or.inl ⟨?_, by simpa using hself d hmem⟩
    rcases mem_append.mp hmem with h' | h'
    · exact mem_append_left _ h'
    · exact mem_append_right _ (by simp [h'])
  · rintro (⟨hmem, hne⟩ | hnone)
    · have hdx : d ≠ x := by simpa using hne
      rcases mem_append.mp hmem with h' | h'
      · exact mem_append_left _ h'
      · rcases mem_cons.mp h' with h'' | h''
        · exact absurd h'' hdx
        · exact mem_append_right _ h''
    · simp at hnone

/-- A block taken and another one given back. -/
theorem Replaces.trans {zs : List Block} {y : Block} (hxy : x ≠ y)
    (htake : Replaces xs ys none (some y)) (hgive : Replaces ys zs (some x) none) :
    Replaces xs zs (some x) (some y) := by
  intro d hd
  rw [hgive d hd, htake d hd]
  have hyd : some d = some y → some d ≠ some x := fun h1 h2 => hxy (some.inj (h2.symm.trans h1))
  simp only [reduceCtorEq, or_false, ne_eq, not_false_eq_true, and_true]
  constructor
  · rintro ⟨hmem | hmem, hne⟩
    · exact Or.inl ⟨hmem, hne⟩
    · exact Or.inr hmem
  · rintro (⟨hmem, hne⟩ | hmem)
    · exact ⟨Or.inl hmem, hne⟩
    · exact ⟨Or.inr hmem, hyd hmem⟩

/-! ### `krealloc` -/

section

variable (inv : HeapInv h lo hi xs) (hx : x ∈ xs) (hfree : x.free = false)
include inv hx hfree

/-- What `krealloc` does with the pointer of a block in use. -/
theorem krealloc_held (h0 : size ≠ 0) :
    krealloc h (x.addr + headerSize) size =
      if size ≤ x.size then some (h, x.addr + headerSize)
      else
        (kmalloc h size).bind fun r =>
          if r.2 = 0 then some (r.1, 0)
          else
            let m := r.1.mem.memcpy r.2 (x.addr + headerSize) (blockSize r.1.mem x.addr)
            (kfree { r.1 with mem := m } (x.addr + headerSize)).map fun h => (h, r.2) := by
  obtain ⟨hxsize, hxflag⟩ := inv.header_at hx
  have hguard : ¬ (outside h x.addr ∨ blockFree h.mem x.addr ≠ 0) := by
    rw [hxflag, hfree]
    rintro (hout | hne)
    · exact inv.not_outside hx hout
    · exact hne rfl
  unfold krealloc
  rw [if_neg (by unfold headerSize; omega), if_neg h0]
  simp only [Nat.add_sub_cancel]
  rw [if_neg hguard, hxsize]

/-- **A moving `krealloc`** copies the old payload into the new block and frees the old
one, as long as the old payload is no longer than the rounded request. -/
theorem krealloc_moves (hgrow : x.size < size) (hfits : x.size ≤ alignSize size)
    (href : ¬ Refused xs size) :
    ∃ h' y ys, krealloc h (x.addr + headerSize) size = some (h', y.addr + headerSize) ∧
      HeapInv h' lo hi ys ∧ Replaces xs ys (some x) (some y) ∧ y.free = false ∧ y ∈ ys ∧
      (size ≤ y.size ↔ size ≤ 2 ^ 32 - 16) ∧
      ∀ i, i < x.size → h'.mem (y.addr + headerSize + i) = h.mem (x.addr + headerSize + i) := by
  rcases kmalloc_cases inv size with ⟨hr, -⟩ |
    ⟨pre, z, post, h₁, hxs, hzfree, -, -, hfit, hrun₁, inv₁, hframe₁⟩
  · exact absurd hr href
  set y := grantedBlock z size with hy
  have hyfree : y.free = false := rfl
  have hysize : x.size ≤ y.size := Nat.le_trans hfits (le_granted hfit)
  have hrep₁ : Replaces xs (allocated pre z post size) none (some y) := by
    rw [hxs]
    exact allocated_replaces hzfree
  have hy₁ : y ∈ allocated pre z post size := grantedBlock_mem
  have hx₁ : x ∈ allocated pre z post size := (hrep₁ x hfree).mpr (Or.inl ⟨hx, by simp⟩)
  have hxy : x ≠ y := by
    intro heq
    have haddr : x.addr = z.addr := by rw [heq, hy, grantedBlock]
    have hxz := inv.tiles.eq_of_addr (by decide) hx (show z ∈ xs by rw [hxs]; simp) haddr
    rw [hxz, hzfree] at hfree
    cases hfree
  -- The old payload survives the allocation and is copied into the new block.
  set m₂ := h₁.mem.memcpy (y.addr + headerSize) (x.addr + headerSize) x.size with hm₂
  have inv₂ : HeapInv { h₁ with mem := m₂ } lo hi (allocated pre z post size) := by
    refine inv₁.of_payload_frame hy₁ (Mem.memcpy_frame fun i hi => ?_)
    exact ⟨by omega, by omega⟩
  have hcopy : ∀ i, i < x.size → m₂ (y.addr + headerSize + i) =
      h.mem (x.addr + headerSize + i) := by
    intro i hi
    have hsep : y.addr + headerSize ≤ x.addr + headerSize ∨
        x.addr + headerSize + x.size ≤ y.addr + headerSize := by
      rcases inv₁.tiles.apart hx₁ hy₁ with heq | hlt | hlt
      · exact absurd heq hxy
      · omega
      · omega
    rw [hm₂, Mem.memcpy_apply hsep ⟨by omega, by omega⟩]
    rw [show x.addr + headerSize + (y.addr + headerSize + i - (y.addr + headerSize))
      = x.addr + headerSize + i by omega]
    exact hframe₁ _ (inv₁.payload_not_header hx₁ (by omega) (by omega))
  obtain ⟨rpre, post', h₃, hsplit, hrun₃, inv₃, hframe₃⟩ := kfree_spec inv₂ hx₁ hfree
  refine ⟨h₃, y, _, ?_, inv₃, ?_, hyfree, ?_, granted_iff hfit, ?_⟩
  · have hx₁size : blockSize h₁.mem x.addr = x.size := (inv₁.header_at hx₁).1
    rw [krealloc_held inv hx hfree (by omega), if_neg (by omega), hrun₁, bind_some,
      if_neg (show ¬ z.addr + headerSize = 0 by unfold headerSize; omega)]
    simp only [hx₁size]
    exact congrArg (Option.map fun h => (h, z.addr + headerSize)) hrun₃
  · rw [hsplit] at inv₂ hrep₁
    exact hrep₁.trans hxy (freed_replaces inv₂)
  · rw [hsplit] at inv₂ hy₁
    exact (freed_replaces inv₂ y hyfree).mpr (Or.inl ⟨hy₁, by simpa using hxy.symm⟩)
  · intro i hi
    rw [hframe₃ _ (inv₁.payload_not_header hy₁ (by omega) (by omega))]
    exact hcopy i hi

end

end Nv0ken.Heap
