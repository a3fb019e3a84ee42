/-
Blocks that tile a region.

An allocator with boundary headers cuts a region into consecutive blocks, each a
header of `H` bytes and a payload.  What such an allocator does to its blocks is
always one of two things: it hands out a free block, cutting off the part that is
not needed (`carve`), or it takes one back and joins it with the free blocks on
either side of it (`absorb`, `coalesceBlocks`).  Both are written here on plain
lists of blocks, and shown to keep what makes the list a heap: the blocks tile the
region (`Tiles`), no two neighbours are free (`NoFreePair`), and the bytes in use are
those of the blocks that are not free (`used`).

`coalesceBlocks` takes the blocks before the released one nearest first, which is the
order in which joining walks back over them.
-/
import Mathlib.Data.List.Chain

namespace Nv0ken.BlockList

open List

/-- A block: where its header is, how long its payload is, whether it is free. -/
structure Block where
  addr : Nat
  size : Nat
  free : Bool
deriving DecidableEq, Repr

variable {H lo hi mid s : Nat} {b c : Block} {pre post xs ys : List Block}

/-- Where the block ends. -/
def Block.fin (H : Nat) (b : Block) : Nat := b.addr + H + b.size

/-- The blocks start at `lo`, each where the one before it ends, and end at `hi`. -/
def Tiles (H : Nat) : Nat → List Block → Nat → Prop
  | lo, [], hi => lo = hi
  | lo, b :: rest, hi => b.addr = lo ∧ Tiles H (b.fin H) rest hi

/-- No two neighbours are both free. -/
def NoFreePair (xs : List Block) : Prop := xs.IsChain fun a b => ¬(a.free = true ∧ b.free = true)

/-- The payload bytes of the blocks that are not free. -/
def used : List Block → Nat
  | [] => 0
  | b :: xs => (if b.free then 0 else b.size) + used xs

@[simp] theorem used_nil : used [] = 0 := rfl

@[simp] theorem used_cons (b : Block) (xs : List Block) :
    used (b :: xs) = (if b.free then 0 else b.size) + used xs := rfl

@[simp] theorem used_append (xs ys : List Block) : used (xs ++ ys) = used xs + used ys := by
  induction xs with
  | nil => rw [nil_append, used_nil, Nat.zero_add]
  | cons b xs ih => rw [cons_append, used_cons, used_cons, ih, Nat.add_assoc]

/-! ### Tilings -/

theorem tiles_append : Tiles H lo (xs ++ ys) hi ↔ ∃ mid, Tiles H lo xs mid ∧ Tiles H mid ys hi := by
  induction xs generalizing lo with
  | nil => simp [Tiles]
  | cons b xs ih => simp only [cons_append, Tiles, ih]; grind

theorem Tiles.le (h : Tiles H lo xs hi) : lo ≤ hi := by
  induction xs generalizing lo with
  | nil => exact Nat.le_of_eq h
  | cons b xs ih =>
    have := ih h.2
    have := h.1
    unfold Block.fin at *
    omega

theorem Tiles.bounds (h : Tiles H lo xs hi) (hb : b ∈ xs) : lo ≤ b.addr ∧ b.fin H ≤ hi := by
  induction xs generalizing lo with
  | nil => simp at hb
  | cons c xs ih =>
    have hle := h.2.le
    have haddr := h.1
    rcases mem_cons.mp hb with rfl | hb
    · exact ⟨Nat.le_of_eq haddr.symm, hle⟩
    · obtain ⟨hlo, hhi⟩ := ih h.2 hb
      unfold Block.fin at hlo
      omega

/-- A block splits the tiling into the blocks before it and the blocks after it. -/
theorem Tiles.around (h : Tiles H lo (pre ++ b :: post) hi) :
    Tiles H lo pre b.addr ∧ Tiles H (b.fin H) post hi := by
  obtain ⟨mid, hpre, hmid, hpost⟩ := tiles_append.mp h
  exact ⟨hmid ▸ hpre, hpost⟩

theorem Tiles.of_around (hpre : Tiles H lo pre b.addr) (hpost : Tiles H (b.fin H) post hi) :
    Tiles H lo (pre ++ b :: post) hi :=
  tiles_append.mpr ⟨b.addr, hpre, rfl, hpost⟩

theorem Tiles.length_mul_le (h : Tiles H lo xs hi) : lo + xs.length * H ≤ hi := by
  induction xs generalizing lo with
  | nil => simp only [length_nil, Nat.zero_mul, Nat.add_zero]; exact h.le
  | cons b xs ih =>
    have := ih h.2
    have := h.1
    unfold Block.fin at *
    rw [length_cons, Nat.succ_mul]
    omega

/-- Two blocks of a tiling are the same block or lie apart. -/
theorem Tiles.apart (h : Tiles H lo xs hi) (hb : b ∈ xs) (hc : c ∈ xs) :
    b = c ∨ b.addr + H + b.size ≤ c.addr ∨ c.addr + H + c.size ≤ b.addr := by
  induction xs generalizing lo with
  | nil => simp at hb
  | cons d xs ih =>
    rcases mem_cons.mp hb with hbd | hb' <;> rcases mem_cons.mp hc with hcd | hc'
    · exact Or.inl (hbd.trans hcd.symm)
    · exact Or.inr (Or.inl (hbd ▸ (h.2.bounds hc').1))
    · exact Or.inr (Or.inr (hcd ▸ (h.2.bounds hb').1))
    · exact ih h.2 hb' hc'

/-- With a header in front of every payload, a block is known by its address. -/
theorem Tiles.eq_of_addr (hH : 0 < H) (h : Tiles H lo xs hi) (hb : b ∈ xs) (hc : c ∈ xs)
    (haddr : b.addr = c.addr) : b = c := by
  rcases h.apart hb hc with heq | hlt | hlt
  · exact heq
  · omega
  · omega

theorem used_le (h : Tiles H lo xs hi) : lo + used xs ≤ hi := by
  induction xs generalizing lo with
  | nil => simpa using h.le
  | cons b xs ih =>
    have := ih h.2
    have := h.1
    unfold Block.fin at *
    rw [used_cons]
    split <;> omega

/-! ### Handing out a block -/

/-- The free block `b` handed out for `s` bytes: whole, or cut after them. -/
def carve (H : Nat) (b : Block) (s : Nat) (cut : Bool) : List Block :=
  if cut then [⟨b.addr, s, false⟩, ⟨b.addr + H + s, b.size - s - H, true⟩]
  else [⟨b.addr, b.size, false⟩]

variable {cut : Bool} {d : Block} {rpre : List Block}

theorem carve_tiles (hcut : cut = true → s + H ≤ b.size)
    (h : Tiles H lo (pre ++ b :: post) hi) : Tiles H lo (pre ++ carve H b s cut ++ post) hi := by
  obtain ⟨hpre, hpost⟩ := h.around
  rw [append_assoc]
  refine tiles_append.mpr ⟨b.addr, hpre, tiles_append.mpr ⟨b.fin H, ?_, hpost⟩⟩
  cases cut with
  | false => exact ⟨rfl, rfl⟩
  | true =>
    have hle := hcut rfl
    refine ⟨rfl, rfl, ?_⟩
    show b.addr + H + s + H + (b.size - s - H) = b.addr + H + b.size
    omega

theorem carve_noFreePair (hb : b.free = true) (h : NoFreePair (pre ++ b :: post)) :
    NoFreePair (pre ++ carve H b s cut ++ post) := by
  unfold NoFreePair at *
  rw [append_assoc]
  rw [isChain_append] at h ⊢
  obtain ⟨hpre, hpost, -⟩ := h
  rw [show b :: post = [b] ++ post from rfl, isChain_append] at hpost
  obtain ⟨-, hpost, hjoin⟩ := hpost
  -- The block handed out is not free, so it separates whatever stands on either side of it.
  refine ⟨hpre, ?_, ?_⟩
  · rw [isChain_append]
    refine ⟨?_, hpost, ?_⟩
    · cases cut <;> simp [carve]
    · intro x hx y hy
      have hy' := hjoin b (by simp) y hy
      simp only [hb, true_and] at hy'
      simp [hy']
  · intro x _ y hy
    have hyfree : y.free = false := by
      cases cut <;> simp [carve] at hy <;> rw [← hy]
    simp [hyfree]

theorem carve_used (hb : b.free = true) : used (pre ++ carve H b s cut ++ post)
      = used (pre ++ b :: post) + if cut then s else b.size := by
  cases cut <;> simp [carve, hb] <;> omega

/-- What is in use after handing out a block is what was before, and that block. -/
theorem mem_carve_used (hb : b.free = true) (hd : d.free = false) :
    d ∈ pre ++ carve H b s cut ++ post ↔
      d ∈ pre ++ b :: post ∨ d = ⟨b.addr, if cut then s else b.size, false⟩ := by
  have hdb : d ≠ b := by
    rintro rfl
    simp [hb] at hd
  have hdrem : d ≠ ⟨b.addr + H + s, b.size - s - H, true⟩ := by
    rintro rfl
    simp at hd
  cases cut <;> simp [carve, hdb, hdrem] <;> tauto

/-! ### Taking a block back -/

/-- Two neighbours joined into one free block. -/
def absorb (H : Nat) (b c : Block) : Block := ⟨b.addr, b.size + (H + c.size), true⟩

/-- `b` joined with the block after it, when that one is free. -/
def mergeRight (H : Nat) (b : Block) : List Block → List Block
  | [] => [b]
  | c :: post => if c.free then absorb H b c :: post else b :: c :: post

/-- The free block `b` joined with the free blocks on both sides of it.  The blocks
before it come nearest first. -/
def coalesceBlocks (H : Nat) : List Block → Block → List Block → List Block
  | [], b, post => mergeRight H b post
  | a :: rpre, b, post =>
    if a.free then coalesceBlocks H rpre a (mergeRight H b post)
    else (a :: rpre).reverse ++ mergeRight H b post

theorem mergeRight_tiles (h : Tiles H lo (b :: post) hi) : Tiles H lo (mergeRight H b post) hi := by
  cases post with
  | nil => exact h
  | cons c post =>
    rw [mergeRight]
    split
    · obtain ⟨hb, hc, hpost⟩ := h
      refine ⟨hb, ?_⟩
      have hfin : (absorb H b c).fin H = c.fin H := by
        show b.addr + H + (b.size + (H + c.size)) = c.addr + H + c.size
        unfold Block.fin at hc
        omega
      rw [hfin]
      exact hpost
    · exact h

theorem coalesceBlocks_tiles (h : Tiles H lo (rpre.reverse ++ b :: post) hi) :
    Tiles H lo (coalesceBlocks H rpre b post) hi := by
  have hmerged : ∀ {rpre : List Block} {b : Block} {post : List Block},
      Tiles H lo (rpre.reverse ++ b :: post) hi →
      Tiles H lo (rpre.reverse ++ mergeRight H b post) hi := by
    intro rpre b post h
    obtain ⟨mid, hpre, hrest⟩ := tiles_append.mp h
    exact tiles_append.mpr ⟨mid, hpre, mergeRight_tiles hrest⟩
  induction rpre generalizing b post with
  | nil => exact hmerged h
  | cons a rpre ih =>
    unfold coalesceBlocks
    split
    · refine ih ?_
      have := hmerged h
      rwa [reverse_cons, append_assoc] at this
    · exact hmerged h

theorem mergeRight_used (hb : b.free = true) : used (mergeRight H b post) = used post := by
  cases post with
  | nil => simp [mergeRight, hb]
  | cons c post =>
    rw [mergeRight]
    split
    · rename_i hc
      simp [absorb, hc]
    · simp [hb]

theorem coalesceBlocks_used (hb : b.free = true) :
    used (coalesceBlocks H rpre b post) = used rpre.reverse + used post := by
  induction rpre generalizing b post with
  | nil => simpa [coalesceBlocks] using mergeRight_used hb
  | cons a rpre ih =>
    unfold coalesceBlocks
    split
    · rename_i ha
      rw [ih ha, mergeRight_used hb]
      simp [ha]
    · rw [used_append, mergeRight_used hb]

/-- Joining to the right leaves the block itself in front. -/
theorem mergeRight_eq_cons (H : Nat) (b : Block) (post : List Block) :
    ∃ b' post', mergeRight H b post = b' :: post' ∧ b'.addr = b.addr := by
  rcases post with _ | ⟨c, post⟩
  · exact ⟨b, [], rfl, rfl⟩
  · rw [mergeRight]
    by_cases hc : c.free = true
    · rw [if_pos hc]
      exact ⟨absorb H b c, post, rfl, rfl⟩
    · rw [if_neg hc]
      exact ⟨b, c :: post, rfl, rfl⟩

/-- Joining adds no address. -/
theorem mergeRight_addr (hd : d ∈ mergeRight H b post) : ∃ e ∈ b :: post, d.addr = e.addr := by
  rcases post with _ | ⟨c, post⟩
  · exact ⟨d, hd, rfl⟩
  · rw [mergeRight] at hd
    by_cases hc : c.free = true
    · rw [if_pos hc] at hd
      rcases mem_cons.mp hd with hdb | hd'
      · exact ⟨b, by simp, by rw [hdb]; rfl⟩
      · exact ⟨d, by simp [hd'], rfl⟩
    · rw [if_neg hc] at hd
      exact ⟨d, hd, rfl⟩

theorem mergeRight_noFreePair (hpost : NoFreePair post) : NoFreePair (mergeRight H b post) := by
  unfold NoFreePair at *
  cases post with
  | nil => simp [mergeRight]
  | cons c post =>
    rw [mergeRight]
    split
    · rename_i hc
      cases post with
      | nil => simp
      | cons d post =>
        rw [isChain_cons_cons] at hpost ⊢
        exact ⟨fun h => hpost.1 ⟨hc, h.2⟩, hpost.2⟩
    · rename_i hc
      rw [isChain_cons_cons]
      exact ⟨fun h => hc h.2, hpost⟩

theorem coalesceBlocks_noFreePair (hpre : NoFreePair rpre.reverse)
    (hpost : NoFreePair post) : NoFreePair (coalesceBlocks H rpre b post) := by
  induction rpre generalizing b post with
  | nil => exact mergeRight_noFreePair hpost
  | cons a rpre ih =>
    unfold coalesceBlocks
    split
    · refine ih ?_ (mergeRight_noFreePair hpost)
      unfold NoFreePair at *
      rw [reverse_cons, isChain_append] at hpre
      exact hpre.1
    · rename_i ha
      unfold NoFreePair
      rw [isChain_append]
      refine ⟨hpre, mergeRight_noFreePair hpost, ?_⟩
      intro x hx y _
      have : x = a := by simpa using hx.symm
      simp [this, ha]

/-- Joining moves no block that is in use. -/
theorem mem_mergeRight_used (hb : b.free = true) (hd : d.free = false) :
    d ∈ mergeRight H b post ↔ d ∈ post := by
  have hne : ∀ e : Block, e.free = true → d ≠ e := by
    rintro e he rfl
    simp [he] at hd
  cases post with
  | nil => simp [mergeRight, hne b hb]
  | cons c post =>
    rw [mergeRight]
    split
    · rename_i hc
      simp [hne c hc, hne (absorb H b c) rfl]
    · simp [hne b hb]

theorem mem_coalesceBlocks_used (hb : b.free = true) (hd : d.free = false) :
    d ∈ coalesceBlocks H rpre b post ↔ d ∈ rpre.reverse ++ post := by
  induction rpre generalizing b post with
  | nil => simpa [coalesceBlocks] using mem_mergeRight_used hb hd
  | cons a rpre ih =>
    unfold coalesceBlocks
    split
    · rename_i ha
      have hda : d ≠ a := by
        rintro rfl
        simp [ha] at hd
      rw [ih ha]
      simp [mem_mergeRight_used hb hd, hda]
    · simp [mem_mergeRight_used hb hd]

end Nv0ken.BlockList
