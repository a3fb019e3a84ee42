/-
What the heap's memory means.

The headers in memory stand for a list of blocks.  `Seg m p xs n` says so for a
stretch of the list: every block of `xs` has a header holding its size and its free
flag, linked to its neighbours, the first one back to `p` and the last one on to `n`.

The allocator changes a header in three ways only, so what each change does to a
stretch is said once: blocks whose headers are untouched keep it (`Seg.congr`), the
first block can be linked back to another one (`Seg.relink`), and a stretch can be cut
anywhere (`seg_append`).  The functions of the allocator are then followed through
the memory write by write, and each turns out to do to the list of blocks exactly
what `Lib/BlockList.lean` does: `splitBlock` carves, `coalesce` joins.
-/
import Nv0ken.Lib.BlockList
import Nv0ken.Kernel.Mm.Heap

namespace Nv0ken.Heap

open BlockList Word List

variable {m m' : Mem} {a b v p n lo hi s : Nat} {xs ys pre post : List Block} {x : Block}

/-! ### Headers -/

/-- The four fields of a header. -/
@[ext] structure Header where
  size : Nat
  free : Nat
  next : Nat
  prev : Nat

/-- The header at an address. -/
def header (m : Mem) (block : Nat) : Header :=
  ⟨blockSize m block, blockFree m block, blockNext m block, blockPrev m block⟩

theorem header_size (m : Mem) (block : Nat) : (header m block).size = blockSize m block := rfl

theorem header_free (m : Mem) (block : Nat) : (header m block).free = blockFree m block := rfl

theorem header_next (m : Mem) (block : Nat) : (header m block).next = blockNext m block := rfl

theorem header_prev (m : Mem) (block : Nat) : (header m block).prev = blockPrev m block := rfl

/-- The bytes of a header. -/
def headerRange (block : Nat) : Set Nat := {i | block ≤ i ∧ i < block + headerSize}

variable {S : Set Nat} {q s c : Nat}

theorem header_of_frame (h : Mem.Frame S m m') (hS : ∀ i, i < headerSize → b + i ∉ S) :
    header m' b = header m b := by
  have hfield : ∀ off k, off + k ≤ headerSize → m'.load (b + off) k = m.load (b + off) k := by
    intro off k hk
    refine h.load fun i hi => ?_
    have := hS (off + i) (by omega)
    rwa [← Nat.add_assoc] at this
  unfold header blockSize blockFree blockNext blockPrev
  rw [hfield 8 4 (by decide), hfield 16 8 (by decide), hfield 24 8 (by decide)]
  have := hfield 0 8 (by decide)
  rw [Nat.add_zero] at this
  rw [this]

theorem setSize_frame : Mem.Frame (headerRange a) m (setSize m a v) :=
  Mem.store_frame fun i hi => ⟨by omega, by unfold headerSize; omega⟩

theorem setFree_frame : Mem.Frame (headerRange a) m (setFree m a v) :=
  Mem.store_frame fun i hi => ⟨by omega, by unfold headerSize; omega⟩

theorem setNext_frame : Mem.Frame (headerRange a) m (setNext m a v) :=
  Mem.store_frame fun i hi => ⟨by omega, by unfold headerSize; omega⟩

theorem setPrev_frame : Mem.Frame (headerRange a) m (setPrev m a v) :=
  Mem.store_frame fun i hi => ⟨by omega, by unfold headerSize; omega⟩

/-- Two headers do not overlap. -/
def Apart (a b : Nat) : Prop := a + headerSize ≤ b ∨ b + headerSize ≤ a

theorem Apart.symm (h : Apart a b) : Apart b a := Or.symm h

theorem header_of_apart (h : Mem.Frame (headerRange a) m m') (hab : Apart a b) :
    header m' b = header m b := by
  refine header_of_frame h fun i hi hmem => ?_
  obtain ⟨hlo, hhi⟩ := hmem
  unfold Apart at hab
  omega

@[simp] theorem header_setSize (h : v < 2 ^ 64) :
    header (setSize m a v) a = { header m a with size := v } := by
  unfold header setSize blockSize blockFree blockNext blockPrev
  rw [Mem.load_store_same, Mem.load_store_of_disjoint (by omega),
    Mem.load_store_of_disjoint (by omega), Mem.load_store_of_disjoint (by omega),
    Nat.mod_eq_of_lt (show v < 256 ^ 8 from h)]

@[simp] theorem header_setFree (h : v < 2 ^ 32) :
    header (setFree m a v) a = { header m a with free := v } := by
  unfold header setFree blockSize blockFree blockNext blockPrev
  rw [Mem.load_store_same, Mem.load_store_of_disjoint (by omega),
    Mem.load_store_of_disjoint (by omega), Mem.load_store_of_disjoint (by omega),
    Nat.mod_eq_of_lt (show v < 256 ^ 4 from h)]

@[simp] theorem header_setNext (h : v < 2 ^ 64) :
    header (setNext m a v) a = { header m a with next := v } := by
  unfold header setNext blockSize blockFree blockNext blockPrev
  rw [Mem.load_store_same, Mem.load_store_of_disjoint (by omega),
    Mem.load_store_of_disjoint (by omega), Mem.load_store_of_disjoint (by omega),
    Nat.mod_eq_of_lt (show v < 256 ^ 8 from h)]

@[simp] theorem header_setPrev (h : v < 2 ^ 64) :
    header (setPrev m a v) a = { header m a with prev := v } := by
  unfold header setPrev blockSize blockFree blockNext blockPrev
  rw [Mem.load_store_same, Mem.load_store_of_disjoint (by omega),
    Mem.load_store_of_disjoint (by omega), Mem.load_store_of_disjoint (by omega),
    Nat.mod_eq_of_lt (show v < 256 ^ 8 from h)]

/-! ### Stretches of the list -/

/-- The flag a header holds for a block. -/
def flag (free : Bool) : Nat := if free then 1 else 0

/-- The address of the first block, or `n` when there is none. -/
def firstAddr (xs : List Block) (n : Nat) : Nat :=
  match xs with
  | [] => n
  | x :: _ => x.addr

/-- The address of the last block, or `p` when there is none. -/
def lastAddr (p : Nat) : List Block → Nat
  | [] => p
  | x :: xs => lastAddr x.addr xs

/-- The headers in memory stand for the blocks `xs`, linked back to `p` and on to `n`. -/
def Seg (m : Mem) : Nat → List Block → Nat → Prop
  | _, [], _ => True
  | p, x :: xs, n =>
    header m x.addr = ⟨x.size, flag x.free, firstAddr xs n, p⟩ ∧ Seg m x.addr xs n

@[simp] theorem firstAddr_append (xs ys : List Block) (n : Nat) :
    firstAddr (xs ++ ys) n = firstAddr xs (firstAddr ys n) := by
  cases xs <;> rfl

@[simp] theorem lastAddr_append (p : Nat) (xs ys : List Block) :
    lastAddr p (xs ++ ys) = lastAddr (lastAddr p xs) ys := by
  induction xs generalizing p with
  | nil => rfl
  | cons x xs ih => exact ih x.addr

theorem seg_append :
    Seg m p (xs ++ ys) n ↔ Seg m p xs (firstAddr ys n) ∧ Seg m (lastAddr p xs) ys n := by
  induction xs generalizing p with
  | nil => simp [Seg, lastAddr]
  | cons x xs ih => simp [Seg, lastAddr, ih, and_assoc]

theorem Seg.congr (h : Seg m p xs n) (hsame : ∀ x ∈ xs, header m' x.addr = header m x.addr) :
    Seg m' p xs n := by
  induction xs generalizing p with
  | nil => trivial
  | cons x xs ih =>
    refine ⟨(hsame x (by simp)).trans h.1, ih h.2 fun y hy => hsame y (by simp [hy])⟩

/-- The first block linked back to another one. -/
theorem Seg.relink {w : Block} (h : Seg m p xs n)
    (htiles : Tiles headerSize (w.fin headerSize) xs hi) (hback : firstAddr xs 0 ≠ 0 →
      header m' (firstAddr xs 0) = { header m (firstAddr xs 0) with prev := q })
    (hother : ∀ d ∈ xs, Apart (firstAddr xs 0) d.addr → header m' d.addr = header m d.addr) :
    Seg m' q xs n := by
  cases xs with
  | nil => trivial
  | cons x xs =>
    refine ⟨?_, h.2.congr fun d hd => hother d (mem_cons_of_mem _ hd) (Or.inl ?_)⟩
    · have hx := htiles.1
      unfold Block.fin headerSize at hx
      have hhead := hback (show x.addr ≠ 0 by omega)
      rwa [show firstAddr (x :: xs) 0 = x.addr from rfl, h.1] at hhead
    · have hle := (htiles.2.bounds hd).1
      unfold Block.fin at hle
      exact Nat.le_trans (Nat.le_add_right _ _) hle

/-- The header of a block that stands between two stretches. -/
theorem Seg.at (h : Seg m p (pre ++ x :: post) n) :
    header m x.addr = ⟨x.size, flag x.free, firstAddr post n, lastAddr p pre⟩ :=
  (seg_append.mp h).2.1

/-! ### The search -/

/-- A block the search stops at. -/
def fits (s : Nat) (x : Block) : Bool := x.free && decide (s ≤ x.size)

theorem flag_ne_zero {free : Bool} : flag free ≠ 0 ↔ free = true := by
  cases free <;> simp [flag]

/-- The loop returns the first block that fits. -/
theorem findFit_spec (fuel : Nat) (xs : List Block) (p : Nat) (hseg : Seg m p xs 0)
    (haddr : ∀ x ∈ xs, x.addr ≠ 0) (hlen : xs.length < fuel) :
    findFit m s fuel (firstAddr xs 0) = some (((xs.find? (fits s)).map Block.addr).getD 0) := by
  induction fuel generalizing xs p with
  | zero => omega
  | succ fuel ih =>
    rcases xs with _ | ⟨x, xs⟩
    · simp [findFit, firstAddr]
    · have hx : x.addr ≠ 0 := haddr x (by simp)
      have hhead := hseg.1
      have hfree : blockFree m x.addr = flag x.free := by rw [← header_free, hhead]
      have hsize : blockSize m x.addr = x.size := by rw [← header_size, hhead]
      have hnext : blockNext m x.addr = firstAddr xs 0 := by rw [← header_next, hhead]
      show findFit m s (fuel + 1) x.addr = _
      rw [findFit, if_neg hx, hfree, hsize, hnext]
      by_cases hfit : x.free = true ∧ x.size ≥ s
      · rw [if_pos ⟨flag_ne_zero.mpr hfit.1, hfit.2⟩,
          find?_cons_of_pos (by simpa [fits] using hfit)]
        rfl
      · rw [if_neg fun h => hfit ⟨flag_ne_zero.mp h.1, h.2⟩,
          find?_cons_of_neg (by simpa [fits] using hfit)]
        refine ih xs x.addr hseg.2 (fun y hy => haddr y (by simp [hy])) ?_
        simp only [length_cons] at hlen
        omega

/-! ### Writing a header, and linking back to it -/

/-- The four fields of a free block written at `a`. -/
def writeFree (m : Mem) (a size next prev : Nat) : Mem :=
  setPrev (setNext (setFree (setSize m a size) a 1) a next) a prev

theorem writeFree_frame {size next prev : Nat} :
    Mem.Frame (headerRange a) m (writeFree m a size next prev) :=
  ((setSize_frame.trans setFree_frame).trans setNext_frame).trans setPrev_frame

theorem header_writeFree {size next prev : Nat} (hsize : size < 2 ^ 64) (hnext : next < 2 ^ 64)
    (hprev : prev < 2 ^ 64) : header (writeFree m a size next prev) a = ⟨size, 1, next, prev⟩ := by
  rw [writeFree, header_setPrev hprev, header_setNext hnext, header_setFree (by decide),
    header_setSize hsize]

/-- The block at `c`, if there is one, linked back to `q`. -/
def linkBack (m : Mem) (c q : Nat) : Mem := if c ≠ 0 then setPrev m c q else m

theorem linkBack_frame (hS : c ≠ 0 → headerRange c ⊆ S) : Mem.Frame S m (linkBack m c q) := by
  unfold linkBack
  by_cases hc : c = 0
  · rw [if_neg (not_not.mpr hc)]
    exact Mem.Frame.refl S m
  · rw [if_pos hc]
    exact setPrev_frame.mono (hS hc)

theorem header_linkBack_self (hc : c ≠ 0) (hq : q < 2 ^ 64) :
    header (linkBack m c q) c = { header m c with prev := q } := by
  rw [linkBack, if_pos hc, header_setPrev hq]

theorem header_linkBack_of_apart (hb : c ≠ 0 → Apart c b) :
    header (linkBack m c q) b = header m b := by
  unfold linkBack
  by_cases hc : c = 0
  · rw [if_neg (not_not.mpr hc)]
  · rw [if_pos hc, header_of_apart setPrev_frame (hb hc)]

/-! ### Cutting a block -/

section

variable (hs : s < 2 ^ 32) (hc : (header m a).next = c)
  (hcut : s + headerSize + 16 ≤ (header m a).size) (hend : a + headerSize + s < 2 ^ 64)
include hs hc hcut hend

/-- The writes of `splitBlock` when it does cut: the block cut off, the link back to it
from the block after, and the two fields of the block itself. -/
theorem splitBlock_eq :
    splitBlock m a s =
      setSize (setNext (linkBack (writeFree m (a + headerSize + s)
        ((header m a).size - s - headerSize) c a) c (a + headerSize + s)) a
          (a + headerSize + s)) a s := by
  have hsize : (header m a).size < 2 ^ 64 := Mem.load_lt m a 8
  have hclt : c < 2 ^ 64 := hc ▸ Mem.load_lt m (a + 16) 8
  set cutAt := a + headerSize + s with hcutAt
  set rest := (header m a).size - s - headerSize with hrest
  have hsub : u64Sub (u64Sub (blockSize m a) s) headerSize = rest := by
    rw [← header_size, u64Sub_of_le (by omega) hsize, u64Sub_of_le (by omega) (by omega)]
  have hnext : blockNext (setFree (setSize m cutAt rest) cutAt 1) a = c := by
    have hframe : Mem.Frame (headerRange cutAt) m (setFree (setSize m cutAt rest) cutAt 1) :=
      setSize_frame.trans setFree_frame
    rw [← header_next, header_of_apart hframe (Or.inr (by omega)), hc]
  have hback : blockNext (writeFree m cutAt rest c a) cutAt = c := by
    rw [← header_next, header_writeFree (by omega) hclt (by omega)]
  have hguard : ¬ blockSize m a < u64 (s + headerSize + 16) := by
    rw [← header_size, u64_of_lt (by unfold headerSize; omega)]
    omega
  unfold writeFree at hback
  unfold splitBlock linkBack writeFree
  rw [if_neg hguard]
  simp only [hsub, ← hcutAt, hnext, hback]

/-- What is in the headers after a cut: the block itself, the one cut off it, the one
after, and all others. -/
theorem splitBlock_headers (hac : c ≠ 0 → Apart a c ∧ Apart (a + headerSize + s) c) :
    header (splitBlock m a s) a =
        ⟨s, (header m a).free, a + headerSize + s, (header m a).prev⟩ ∧
      header (splitBlock m a s) (a + headerSize + s) =
        ⟨(header m a).size - s - headerSize, 1, c, a⟩ ∧
      (c ≠ 0 → header (splitBlock m a s) c = { header m c with prev := a + headerSize + s }) ∧
      (∀ b, Apart a b → Apart (a + headerSize + s) b → (c ≠ 0 → Apart c b) →
        header (splitBlock m a s) b = header m b) := by
  have hsize : (header m a).size < 2 ^ 64 := Mem.load_lt m a 8
  have hclt : c < 2 ^ 64 := hc ▸ Mem.load_lt m (a + 16) 8
  rw [splitBlock_eq hs hc hcut hend]
  set cutAt := a + headerSize + s with hcutAt
  have hother : ∀ {m' : Mem} {b : Nat}, Apart a b →
      header (setSize (setNext m' a cutAt) a s) b = header m' b := by
    intro m' b hb
    rw [header_of_apart setSize_frame hb, header_of_apart setNext_frame hb]
  refine ⟨?_, ?_, ?_, ?_⟩
  · rw [header_setSize (by omega), header_setNext (by omega),
      header_linkBack_of_apart fun h => (hac h).1.symm,
      header_of_apart writeFree_frame (Or.inr (by omega))]
  · rw [hother (Or.inl (by omega)), header_linkBack_of_apart fun h => (hac h).2.symm,
      header_writeFree (by omega) hclt (by omega)]
  · intro hc0
    rw [hother (hac hc0).1, header_linkBack_self hc0 (by omega),
      header_of_apart writeFree_frame (hac hc0).2]
  · intro b hab hnb hcb
    rw [hother hab, header_linkBack_of_apart hcb, header_of_apart writeFree_frame hnb]

theorem splitBlock_frame (ha : headerRange a ⊆ S) (hnew : headerRange (a + headerSize + s) ⊆ S)
    (hcS : c ≠ 0 → headerRange c ⊆ S) : Mem.Frame S m (splitBlock m a s) := by
  rw [splitBlock_eq hs hc hcut hend]
  exact ((((writeFree_frame.mono hnew).trans (linkBack_frame hcS)).trans
    (setNext_frame.mono ha)).trans (setSize_frame.mono ha))

end

theorem splitBlock_of_lt (hs : s < 2 ^ 32) (h : (header m a).size < s + headerSize + 16) :
    splitBlock m a s = m := by
  unfold splitBlock
  rw [if_pos]
  rw [u64_of_lt (by unfold headerSize; omega)]
  exact h

/-! ### Handing out a block -/

/-- The bytes of all headers of the list. -/
def headersOf (xs : List Block) : Set Nat := {i | ∃ x ∈ xs, i ∈ headerRange x.addr}

theorem headerRange_subset (h : x ∈ xs) : headerRange x.addr ⊆ headersOf xs :=
  fun _ hi => ⟨x, h, hi⟩

/-- The block after a stretch, when there is one. -/
theorem firstAddr_ne_zero (h : firstAddr xs 0 ≠ 0) :
    ∃ y ys, xs = y :: ys ∧ firstAddr xs 0 = y.addr := by
  rcases xs with _ | ⟨y, ys⟩
  · exact absurd rfl h
  · exact ⟨y, ys, rfl, rfl⟩

/-- Where the other headers are, seen from one block of a tiling. -/
theorem tiles_apart (h : Tiles headerSize lo (pre ++ x :: post) hi) :
    (∀ d ∈ pre, d.addr + headerSize ≤ x.addr) ∧
      ∀ d ∈ post, x.addr + headerSize + x.size ≤ d.addr := by
  obtain ⟨hpre, hpost⟩ := h.around
  refine ⟨?_, ?_⟩
  · intro d hd
    have := (hpre.bounds hd).2
    unfold Block.fin at this
    omega
  · intro d hd
    exact (hpost.bounds hd).1

/-- Whether `splitBlock` cuts a block of this size. -/
def cuts (x : Block) (s : Nat) : Bool := decide (s + headerSize + 16 ≤ x.size)

/-- The memory in which the block `x` is handed out for `s` bytes. -/
def handOut (m : Mem) (a s : Nat) : Mem := setFree (splitBlock m a s) a 0

section

variable (hseg : Seg m 0 (pre ++ x :: post) 0) (htiles : Tiles headerSize lo (pre ++ x :: post) hi)
include hseg htiles

private theorem handOut_cut (hhi : hi < 2 ^ 64) (hs : s < 2 ^ 32)
    (hcut : s + headerSize + 16 ≤ x.size) :
    Seg (handOut m x.addr s) 0 (pre ++ carve headerSize x s true ++ post) 0 ∧
      Mem.Frame (headersOf (pre ++ carve headerSize x s true ++ post)) m
        (handOut m x.addr s) := by
  obtain ⟨hpreA, hpostA⟩ := tiles_apart htiles
  have hfin := (htiles.bounds (b := x) (by simp)).2
  unfold Block.fin at hfin
  have hx := hseg.at
  obtain ⟨hsegPre, -, hsegPost⟩ := seg_append.mp hseg
  have hsize : s + headerSize + 16 ≤ (header m x.addr).size := by rw [hx]; exact hcut
  have hnext : (header m x.addr).next = firstAddr post 0 := by rw [hx]
  have hend : x.addr + headerSize + s < 2 ^ 64 := by omega
  have hlink : firstAddr post 0 ≠ 0 → x.addr + headerSize + x.size ≤ firstAddr post 0 := by
    intro h0
    obtain ⟨y, ys, hpost, hy⟩ := firstAddr_ne_zero h0
    rw [hy]
    exact hpostA y (by simp [hpost])
  obtain ⟨hat, hnew, hback, hother⟩ := splitBlock_headers hs hnext hsize hend
    fun h0 => ⟨Or.inl (by omega), Or.inl (by omega)⟩
  have hfree : ∀ b, Apart x.addr b →
      header (handOut m x.addr s) b = header (splitBlock m x.addr s) b :=
    fun b hb => header_of_apart setFree_frame hb
  set taken : Block := ⟨x.addr, s, false⟩ with htaken
  set rest : Block := ⟨x.addr + headerSize + s, x.size - s - headerSize, true⟩ with hrest
  have hcarve : pre ++ carve headerSize x s true ++ post = pre ++ taken :: rest :: post := by
    rw [append_assoc]; rfl
  rw [hcarve]
  refine ⟨seg_append.mpr ⟨?_, ?_, ?_, ?_⟩, ?_⟩
  · -- the blocks before it
    refine hsegPre.congr fun d hd => ?_
    have hd' := hpreA d hd
    rw [hfree _ (Or.inr hd'), hother _ (Or.inr hd') (Or.inr (by omega))]
    exact fun h0 => Or.inr (by have := hlink h0; omega)
  · -- the block itself
    show header (setFree (splitBlock m x.addr s) x.addr 0) x.addr = _
    rw [header_setFree (by decide), hat, hx]
    rfl
  · -- the block cut off it
    show header (handOut m x.addr s) (x.addr + headerSize + s) = _
    rw [hfree _ (Or.inl (by omega)), hnew, hx]
    rfl
  · -- the blocks after it
    refine hsegPost.relink htiles.around.2 (fun h0 => ?_) (fun d hd hyd => ?_)
    · have hle := hlink h0
      rw [hfree _ (Or.inl (by omega)), hback h0]
    · have hdA := hpostA d hd
      rw [hfree _ (Or.inl (by omega)), hother _ (Or.inl (by omega)) (Or.inl (by omega)) fun _ =>
        hyd]
  · have hself : headerRange x.addr ⊆ headersOf (pre ++ taken :: rest :: post) :=
      headerRange_subset (x := taken) (by simp)
    have hnew : headerRange (x.addr + headerSize + s) ⊆ headersOf (pre ++ taken :: rest :: post) :=
      headerRange_subset (x := rest) (by simp)
    refine (splitBlock_frame hs hnext hsize hend hself hnew ?_).trans (setFree_frame.mono hself)
    intro h0
    obtain ⟨y, ys, hpost, hy⟩ := firstAddr_ne_zero h0
    rw [hy]
    exact headerRange_subset (by simp [hpost])

private theorem handOut_whole (hs : s < 2 ^ 32)
    (hcut : x.size < s + headerSize + 16) :
    Seg (handOut m x.addr s) 0 (pre ++ carve headerSize x s false ++ post) 0 ∧
      Mem.Frame (headersOf (pre ++ carve headerSize x s false ++ post)) m
        (handOut m x.addr s) := by
  obtain ⟨hpreA, hpostA⟩ := tiles_apart htiles
  have hx := hseg.at
  obtain ⟨hsegPre, -, hsegPost⟩ := seg_append.mp hseg
  have hout : handOut m x.addr s = setFree m x.addr 0 := by
    rw [handOut, splitBlock_of_lt hs (by rw [hx]; exact hcut)]
  have hcarve : pre ++ carve headerSize x s false ++ post =
      pre ++ ⟨x.addr, x.size, false⟩ :: post := by
    rw [append_assoc]; rfl
  rw [hout, hcarve]
  refine ⟨seg_append.mpr ⟨?_, ?_, ?_⟩, ?_⟩
  · exact hsegPre.congr fun d hd => header_of_apart setFree_frame (Or.inr (hpreA d hd))
  · show header (setFree m x.addr 0) x.addr = _
    rw [header_setFree (by decide), hx]
    rfl
  · refine hsegPost.congr fun d hd => header_of_apart setFree_frame (Or.inl ?_)
    have := hpostA d hd
    omega
  · exact setFree_frame.mono (headerRange_subset (x := ⟨x.addr, x.size, false⟩) (by simp))

/-- **Handing out a block carves it**, and writes nothing but headers. -/
theorem handOut_spec (hhi : hi < 2 ^ 64) (hs : s < 2 ^ 32) :
    Seg (handOut m x.addr s) 0 (pre ++ carve headerSize x s (cuts x s) ++ post) 0 ∧
      Mem.Frame (headersOf (pre ++ carve headerSize x s (cuts x s) ++ post)) m
        (handOut m x.addr s) := by
  by_cases hcut : s + headerSize + 16 ≤ x.size
  · rw [show cuts x s = true from decide_eq_true hcut]
    exact handOut_cut hseg htiles hhi hs hcut
  · rw [show cuts x s = false from decide_eq_false hcut]
    exact handOut_whole hseg htiles hs (Nat.not_le.mp hcut)

end

/-! ### Joining blocks -/

/-- The first half of `coalesce`: the join with a free successor. -/
def joinNext (m : Mem) (block : Nat) : Mem :=
  if blockNext m block ≠ 0 ∧ blockFree m (blockNext m block) ≠ 0 then
    let m := setSize m block
      (u64 (blockSize m block + (headerSize + blockSize m (blockNext m block))))
    let m := setNext m block (blockNext m (blockNext m block))
    linkBack m (blockNext m block) block
  else m

theorem coalesce_succ (fuel : Nat) (m : Mem) (block : Nat) :
    coalesce (fuel + 1) m block =
      if blockPrev (joinNext m block) block ≠ 0 ∧
          blockFree (joinNext m block) (blockPrev (joinNext m block) block) ≠ 0 then
        coalesce fuel (joinNext m block) (blockPrev (joinNext m block) block)
      else some (joinNext m block) := rfl

theorem joinNext_of_not {y : Nat} (hy : blockNext m a = y) (h : y ≠ 0 → blockFree m y = 0) :
    joinNext m a = m := by
  unfold joinNext
  rw [hy, if_neg]
  exact fun hc => hc.2 (h hc.1)

/-- The writes of a join, and what they leave in the headers. -/
theorem joinNext_headers {y z : Nat} (hy : (header m a).next = y) (hy0 : y ≠ 0)
    (hfree : (header m y).free ≠ 0) (hz : (header m y).next = z) (hay : Apart a y)
    (hsum : (header m a).size + (headerSize + (header m y).size) < 2 ^ 64) (ha : a < 2 ^ 64)
    (haz : z ≠ 0 → Apart a z) :
    header (joinNext m a) a =
        ⟨(header m a).size + (headerSize + (header m y).size), (header m a).free, z,
          (header m a).prev⟩ ∧
      (z ≠ 0 → header (joinNext m a) z = { header m z with prev := a }) ∧
      (∀ b, Apart a b → (z ≠ 0 → Apart z b) → header (joinNext m a) b = header m b) ∧
      (∀ S, headerRange a ⊆ S → (z ≠ 0 → headerRange z ⊆ S) →
        Mem.Frame S m (joinNext m a)) := by
  have hzlt : z < 2 ^ 64 := hz ▸ Mem.load_lt m (y + 16) 8
  set total := (header m a).size + (headerSize + (header m y).size) with htotal
  have hjoin : joinNext m a = linkBack (setNext (setSize m a total) a z) z a := by
    have hnext : blockNext (setSize m a total) a = y := by
      rw [← header_next, header_setSize hsum, hy]
    have hnext' : blockNext (setSize m a total) y = z := by
      rw [← header_next, header_of_apart setSize_frame hay, hz]
    have hnext'' : blockNext (setNext (setSize m a total) a z) a = z := by
      rw [← header_next, header_setNext hzlt]
    unfold joinNext
    rw [header_next] at hy
    rw [hy, if_pos ⟨hy0, hfree⟩, ← header_size, ← header_size, u64_of_lt hsum]
    simp only [hnext, hnext', hnext'']
  have hother : ∀ b, Apart a b →
      header (setNext (setSize m a total) a z) b = header m b := fun b hb => by
    rw [header_of_apart setNext_frame hb, header_of_apart setSize_frame hb]
  rw [hjoin]
  refine ⟨?_, ?_, ?_, ?_⟩
  · rw [header_linkBack_of_apart fun h => (haz h).symm, header_setNext hzlt, header_setSize hsum]
  · intro hz0
    rw [header_linkBack_self hz0 ha, hother z (haz hz0)]
  · intro b hab hzb
    rw [header_linkBack_of_apart hzb, hother b hab]
  · intro S haS hzS
    exact ((setSize_frame.mono haS).trans (setNext_frame.mono haS)).trans (linkBack_frame hzS)

/-- **A join in memory is a join of blocks.** -/
theorem joinNext_spec (hseg : Seg m 0 (pre ++ x :: post) 0)
    (htiles : Tiles headerSize lo (pre ++ x :: post) hi) (hhi : hi < 2 ^ 64) (hx : x.free = true) :
    Seg (joinNext m x.addr) 0 (pre ++ mergeRight headerSize x post) 0 ∧
      Mem.Frame (headersOf (pre ++ x :: post)) m (joinNext m x.addr) := by
  obtain ⟨hpreA, hpostA⟩ := tiles_apart htiles
  have hhead := hseg.at
  have hnext : blockNext m x.addr = firstAddr post 0 := by rw [← header_next, hhead]
  rcases post with _ | ⟨y, ys⟩
  · rw [joinNext_of_not hnext fun h => absurd rfl h]
    exact ⟨hseg, Mem.Frame.refl _ _⟩
  have hyseg : Seg m 0 ((pre ++ [x]) ++ y :: ys) 0 := by simpa using hseg
  have hyhead := hyseg.at
  by_cases hy : y.free = true
  · have hyA := hpostA y (by simp)
    have hyfin : y.fin headerSize ≤ hi := (htiles.bounds (b := y) (by simp)).2
    unfold Block.fin at hyfin
    have hrest : Tiles headerSize (y.fin headerSize) ys hi := htiles.around.2.2
    have hlink : firstAddr ys 0 ≠ 0 → y.addr + headerSize ≤ firstAddr ys 0 := by
      intro h0
      obtain ⟨z, zs, hys, hz⟩ := firstAddr_ne_zero h0
      have hzA := (hrest.bounds (b := z) (by simp [hys])).1
      unfold Block.fin at hzA
      omega
    obtain ⟨hat, hback, hother, hframe⟩ := joinNext_headers (m := m) (a := x.addr) (y := y.addr)
      (z := firstAddr ys 0) (by rw [hhead]; rfl) (by unfold headerSize at hyA; omega)
      (by rw [hyhead]; exact flag_ne_zero.mpr hy) (by rw [hyhead]) (Or.inl (by omega))
      (by rw [hhead, hyhead]; show x.size + (headerSize + y.size) < _; omega) (by omega)
      (fun h0 => Or.inl (by omega))
    rw [mergeRight, if_pos hy]
    obtain ⟨hsegPre, -, -, hsegPost⟩ := seg_append.mp hseg
    refine ⟨seg_append.mpr ⟨?_, ?_, ?_⟩, ?_⟩
    · refine hsegPre.congr fun d hd => ?_
      have hd' := hpreA d hd
      exact hother _ (Or.inr hd') fun h0 => Or.inr (by omega)
    · show header (joinNext m x.addr) x.addr = _
      rw [hat, hhead, hyhead, hx]
      rfl
    · refine hsegPost.relink hrest hback fun d hd hzd => ?_
      have hdA := hpostA d (mem_cons_of_mem _ hd)
      exact hother _ (Or.inl (by omega)) fun _ => hzd
    · refine hframe _ (headerRange_subset (by simp)) fun h0 => ?_
      obtain ⟨z, zs, hys, hz⟩ := firstAddr_ne_zero h0
      rw [hz]
      exact headerRange_subset (by simp [hys])
  · have hyfree : blockFree m y.addr = 0 := by
      rw [← header_free, hyhead]
      simp [flag, hy]
    rw [joinNext_of_not hnext fun _ => hyfree, mergeRight, if_neg hy]
    exact ⟨hseg, Mem.Frame.refl _ _⟩

/-- **`coalesce` joins the block with its free neighbours**, and writes nothing but
headers.  The induction is over the blocks before it, nearest first. -/
theorem coalesce_spec (hlo : 0 < lo) (hhi : hi < 2 ^ 64) {m : Mem} {x : Block} {post : List Block}
    (rpre : List Block) (fuel : Nat) (hseg : Seg m 0 (rpre.reverse ++ x :: post) 0)
    (htiles : Tiles headerSize lo (rpre.reverse ++ x :: post) hi) (hx : x.free = true)
    (hfuel : rpre.length < fuel) :
    ∃ m', coalesce fuel m x.addr = some m' ∧
      Seg m' 0 (coalesceBlocks headerSize rpre x post) 0 ∧
      Mem.Frame (headersOf (rpre.reverse ++ x :: post)) m m' := by
  obtain ⟨fuel, rfl⟩ : ∃ k, fuel = k + 1 := ⟨fuel - 1, by omega⟩
  obtain ⟨hjoin, hframe⟩ := joinNext_spec hseg htiles hhi hx
  have hprev : blockPrev (joinNext m x.addr) x.addr = lastAddr 0 rpre.reverse := by
    obtain ⟨x', post', hmerge, hx'addr⟩ := mergeRight_eq_cons headerSize x post
    rw [hmerge] at hjoin
    have hat := hjoin.at
    rw [hx'addr] at hat
    rw [← header_prev, hat]
  rw [coalesce_succ, hprev]
  cases rpre with
  | nil =>
    rw [if_neg fun h => h.1 rfl]
    exact ⟨_, rfl, hjoin, hframe⟩
  | cons a rpre =>
    have hlast : lastAddr 0 (a :: rpre).reverse = a.addr := by simp [lastAddr]
    have hlist : (a :: rpre).reverse ++ mergeRight headerSize x post
        = rpre.reverse ++ a :: mergeRight headerSize x post := by simp
    have htiles' : Tiles headerSize lo (rpre.reverse ++ a :: mergeRight headerSize x post) hi := by
      obtain ⟨mid, hpre, hrest⟩ := tiles_append.mp htiles
      rw [← hlist]
      exact tiles_append.mpr ⟨mid, hpre, mergeRight_tiles hrest⟩
    rw [hlist] at hjoin
    have hfree : blockFree (joinNext m x.addr) a.addr = flag a.free := by
      rw [← header_free, hjoin.at]
    have ha0 : a.addr ≠ 0 := by
      have := (htiles.bounds (b := a) (by simp)).1
      omega
    rw [hlast, hfree]
    by_cases ha : a.free = true
    · rw [if_pos ⟨ha0, flag_ne_zero.mpr ha⟩, coalesceBlocks, if_pos ha]
      obtain ⟨m', hrun, hseg', hframe'⟩ := coalesce_spec hlo hhi rpre fuel hjoin htiles' ha
        (by simp only [length_cons] at hfuel; omega)
      refine ⟨m', hrun, hseg', hframe.trans (hframe'.mono ?_)⟩
      -- joining drops headers and adds none
      rintro i ⟨d, hd, hi⟩
      rw [← hlist] at hd
      rcases mem_append.mp hd with hd | hd
      · exact ⟨d, mem_append_left _ hd, hi⟩
      · obtain ⟨e, he, heq⟩ := mergeRight_addr hd
        exact ⟨e, mem_append_right _ he, heq ▸ hi⟩
    · rw [if_neg fun h => ha (flag_ne_zero.mp h.2), coalesceBlocks, if_neg ha, hlist]
      exact ⟨_, rfl, hjoin, hframe⟩

end Nv0ken.Heap
