/-
The frame allocator, frame by frame.

A call of one of the marking functions is a `Mark`; whether it reaches a frame depends on
its rounded bounds only.  `marks_free` says what a list of such calls leaves behind: a
frame is free exactly when the last call that reaches it is one that releases it.  The
allocating calls hand out free frames and never make a frame free, which is
`allocStep_spec`.
-/
import Nv0ken.Kernel.Mm.Pmm
import Nv0ken.Lib.LastWrite
import Nv0ken.Lib.Run
import Nv0ken.Proofs.Lib.Bitmap

namespace Nv0ken.Pmm

open Bitmap Word LastWrite List Option

variable {s : State} {k : Nat} {body : State → Nat → State}

/-! ### Rounding -/

theorem alignDownU64_frame (v : Nat) :
    alignDownU64 v frameSize = v % 2 ^ 64 / frameSize * frameSize := by
  unfold alignDownU64 frameSize
  rw [show (4096 : Nat) = 2 ^ 12 from rfl, and_high_mask (by decide)]

theorem alignUpU64_frame (v : Nat) :
    alignUpU64 v frameSize = u64 (v + frameSize - 1) / frameSize * frameSize := by
  unfold alignUpU64
  rw [alignDownU64_frame, Nat.mod_eq_of_lt (u64_lt _)]

/-! ### One frame -/

/-- The bitmap has a bit for every frame. -/
def Sized (s : State) : Prop := s.frameMap.bitCount = s.totalFrames

/-- The frame can be handed out. -/
def IsFree (s : State) (k : Nat) : Prop := k < s.totalFrames ∧ bitmapTest s.frameMap k = false

/-- The step writes `v` into the bit of the frame at its address, and nothing else. -/
def Writes (body : State → Nat → State) (v : Bool) : Prop :=
  ∀ s addr, Sized s → Sized (body s addr) ∧ (body s addr).totalFrames = s.totalFrames ∧
    ∀ k < s.totalFrames,
      bitmapTest (body s addr).frameMap k =
        if frameIndex addr = k then v else bitmapTest s.frameMap k

/-- A step that writes the bit where it differs. -/
theorem writes_of_differs {v : Bool} {write : Bitmap → Nat → Bitmap} {f : State → Nat}
    (hbody : ∀ s addr, body s addr =
      if frameIndex addr < s.totalFrames ∧
          (bitmapTest s.frameMap (frameIndex addr) == !v) = true then
        { s with frameMap := write s.frameMap (frameIndex addr), freeFrames := f s }
      else s) (hcount : ∀ b i, (write b i).bitCount = b.bitCount)
    (htest : ∀ b i j, i < b.bitCount → bitmapTest (write b i) j =
      if i = j then v else bitmapTest b j) : Writes body v := by
  intro s addr hs
  rw [hbody]
  split_ifs with hdiffers
  · exact ⟨(hcount _ _).trans hs, rfl, fun k _ => htest _ _ k (hs.symm ▸ hdiffers.1)⟩
  · refine ⟨hs, rfl, fun k hk => ?_⟩
    by_cases heq : frameIndex addr = k
    · rw [if_pos heq]
      subst heq
      simpa [hk] using hdiffers
    · rw [if_neg heq]

theorem releaseAt_writes : Writes releaseAt false :=
  writes_of_differs (f := fun s => u64 (s.freeFrames + 1))
    (fun s addr => by simp [releaseAt, release]) (fun _ _ => bitCount_bitmapClear)
    fun _ _ _ => bitmapTest_bitmapClear

theorem reserveAt_writes : Writes reserveAt true :=
  writes_of_differs (f := fun s => u64Sub s.freeFrames 1) (fun s addr => by simp [reserveAt])
    (fun _ _ => bitCount_bitmapSet)
    fun _ _ _ => bitmapTest_bitmapSet

/-- The loop over a list of addresses writes the bits of the frames on the list. -/
theorem foldl_writes {v : Bool} (hbody : Writes body v) (addrs : List Nat) {s : State}
    (hs : Sized s) :
    Sized (addrs.foldl body s) ∧ (addrs.foldl body s).totalFrames = s.totalFrames ∧
      ∀ k < s.totalFrames,
        bitmapTest (addrs.foldl body s).frameMap k =
          if ∃ addr ∈ addrs, frameIndex addr = k then v else bitmapTest s.frameMap k := by
  induction addrs generalizing s with
  | nil => exact ⟨hs, rfl, fun k _ => by simp⟩
  | cons addr addrs ih =>
    obtain ⟨hs', htotal, htest⟩ := hbody s addr hs
    obtain ⟨hsized, htotal', htest'⟩ := ih hs'
    refine ⟨hsized, htotal'.trans htotal, fun k hk => ?_⟩
    rw [foldl_cons, htest' k (htotal.symm ▸ hk), htest k hk]
    by_cases hrest : ∃ addr ∈ addrs, frameIndex addr = k
    · rw [if_pos hrest, if_pos]
      obtain ⟨a, ha, hak⟩ := hrest
      exact ⟨a, by simp [ha], hak⟩
    · rw [if_neg hrest]
      by_cases hhere : frameIndex addr = k
      · rw [if_pos hhere, if_pos ⟨addr, by simp, hhere⟩]
      · rw [if_neg hhere, if_neg]
        rintro ⟨a, ha, hak⟩
        rcases mem_cons.mp ha with rfl | ha
        · exact hhere hak
        · exact hrest ⟨a, ha, hak⟩

/-- The frames a loop between two rounded addresses passes through. -/
theorem mem_frameLoop (i j k : Nat) :
    (∃ addr ∈ List.range' (i * frameSize)
        ((j * frameSize - i * frameSize + frameSize - 1) / frameSize) frameSize,
      frameIndex addr = k) ↔ i ≤ k ∧ k < j := by
  have hcount : (j * frameSize - i * frameSize + frameSize - 1) / frameSize = j - i := by
    unfold frameSize
    omega
  unfold frameIndex
  constructor
  · rintro ⟨addr, hmem, hk⟩
    obtain ⟨n, hn, rfl⟩ := mem_range'.mp hmem
    unfold frameSize at hk
    omega
  · rintro ⟨hlow, hhigh⟩
    refine ⟨k * frameSize, mem_range'.mpr ⟨k - i, by omega, ?_⟩, ?_⟩
    all_goals
      unfold frameSize
      omega

/-! ### Marks -/

/-- One call of `pmm_mark_usable` or `pmm_mark_reserved`. -/
structure Mark where
  usable : Bool
  base : Nat
  length : Nat
  deriving DecidableEq, Repr

def Mark.apply (s : State) (m : Mark) : State :=
  if m.usable then pmmMarkUsable s m.base m.length else pmmMarkReserved s m.base m.length

/-- The first frame of the range, rounded as the call rounds it. -/
def Mark.first (m : Mark) : Nat :=
  if m.usable then u64 (m.base + frameSize - 1) / frameSize else m.base % 2 ^ 64 / frameSize

/-- The first frame behind the range. -/
def Mark.behind (m : Mark) : Nat :=
  if m.usable then u64 (m.base + m.length) / frameSize
  else u64 (u64 (m.base + m.length) + frameSize - 1) / frameSize

/-- The call reaches the frame. -/
def Mark.Hits (m : Mark) (k : Nat) : Prop := m.first ≤ k ∧ k < m.behind

instance (m : Mark) (k : Nat) : Decidable (m.Hits k) := inferInstanceAs (Decidable (_ ∧ _))

/-- What the call writes into the bit of a frame. -/
def Mark.writes (k : Nat) (m : Mark) : Option Bool := if m.Hits k then some (!m.usable) else none

theorem Mark.apply_eq (s : State) (m : Mark) :
    m.apply s = (List.range' (m.first * frameSize)
      ((m.behind * frameSize - m.first * frameSize + frameSize - 1) / frameSize) frameSize).foldl
        (if m.usable then releaseAt else reserveAt) s := by
  unfold Mark.apply Mark.first Mark.behind pmmMarkUsable pmmMarkReserved frameLoop
  cases m.usable with
  | true =>
    simp only [if_true]
    rw [alignUpU64_frame, alignDownU64_frame, Nat.mod_eq_of_lt (u64_lt _)]
  | false =>
    simp only [Bool.false_eq_true, if_false]
    rw [alignUpU64_frame, alignDownU64_frame]

theorem Mark.apply_spec (m : Mark) (hs : Sized s) :
    Sized (m.apply s) ∧ (m.apply s).totalFrames = s.totalFrames ∧
      ∀ k < s.totalFrames,
        bitmapTest (m.apply s).frameMap k = (m.writes k).getD (bitmapTest s.frameMap k) := by
  have hbody : Writes (if m.usable then releaseAt else reserveAt) (!m.usable) := by
    cases m.usable with
    | true => exact releaseAt_writes
    | false => exact reserveAt_writes
  rw [Mark.apply_eq]
  obtain ⟨hsized, htotal, htest⟩ := foldl_writes hbody (range' (m.first * frameSize)
    ((m.behind * frameSize - m.first * frameSize + frameSize - 1) / frameSize) frameSize) hs
  refine ⟨hsized, htotal, fun k hk => ?_⟩
  rw [htest k hk]
  simp only [mem_frameLoop]
  unfold Mark.writes
  by_cases hhit : m.Hits k
  · rw [if_pos hhit, getD_some]
    exact if_pos hhit
  · rw [if_neg hhit, getD_none]
    exact if_neg hhit

theorem foldl_marks (marks : List Mark) {s : State} (hs : Sized s) :
    Sized (marks.foldl (fun s m => m.apply s) s) ∧
      (marks.foldl (fun s m => m.apply s) s).totalFrames = s.totalFrames ∧
      ∀ k < s.totalFrames,
        bitmapTest (marks.foldl (fun s m => m.apply s) s).frameMap k =
          lastWrite (Mark.writes k) (bitmapTest s.frameMap k) marks := by
  induction marks generalizing s with
  | nil => exact ⟨hs, rfl, fun _ _ => rfl⟩
  | cons m marks ih =>
    obtain ⟨hs', htotal, htest⟩ := m.apply_spec hs
    obtain ⟨hsized, htotal', htest'⟩ := ih hs'
    refine ⟨hsized, htotal'.trans htotal, fun k hk => ?_⟩
    rw [foldl_cons, htest' k (htotal.symm ▸ hk), htest k hk, lastWrite_cons]

theorem pmmInit_sized (top : Nat) : Sized (pmmInit top) := rfl

theorem pmmInit_test (top : Nat) (hk : k < (pmmInit top).totalFrames) :
    bitmapTest (pmmInit top).frameMap k = true := bitmapTest_bitmapSetAll hk

/-- **What a list of marks leaves free**: the frames that a releasing mark reaches and no
later mark reaches again. -/
theorem marks_free (top : Nat) (marks : List Mark) :
    IsFree (marks.foldl (fun s m => m.apply s) (pmmInit top)) k ↔
      k < (pmmInit top).totalFrames ∧ LastIs (Mark.writes k) false marks := by
  obtain ⟨-, htotal, htest⟩ := foldl_marks marks (pmmInit_sized top)
  unfold IsFree
  rw [htotal]
  refine and_congr_right fun hk => ?_
  rw [htest k hk, lastWrite_eq_iff, pmmInit_test top hk]
  simp

/-! ### Handing out frames -/

/-- A call of `pmm_alloc_frame` or `pmm_alloc_frames`. -/
inductive AllocCall
  | frame
  | frames (count : Nat)

def allocate (s : State) : AllocCall → State × Nat
  | .frame => pmmAllocFrame s
  | .frames count => pmmAllocFrames s count

def AllocCall.count : AllocCall → Nat
  | .frame => 1
  | .frames count => count

/-- The frames the call returns, none when it returns a null address. -/
def handedOut (s : State) (c : AllocCall) : List Nat :=
  if (allocate s c).2 = 0 then [] else List.range' (frameIndex (allocate s c).2) c.count

theorem bitmapTest_bitmapSet_mono {b : Bitmap} {i : Nat} (h : bitmapTest b k = true) :
    bitmapTest (bitmapSet b i) k = true := by
  by_cases hi : i < b.bitCount
  · rw [bitmapTest_bitmapSet hi, h, ite_self]
  · unfold bitmapSet
    rw [if_pos (Nat.not_lt.mp hi)]
    exact h

theorem foldl_bitmapSet (index : Nat) (is : List Nat) {b : Bitmap} :
    (is.foldl (fun b i => bitmapSet b (index + i)) b).bitCount = b.bitCount ∧
      (bitmapTest b k = true →
        bitmapTest (is.foldl (fun b i => bitmapSet b (index + i)) b) k = true) := by
  induction is generalizing b with
  | nil => exact ⟨rfl, id⟩
  | cons i is ih =>
    obtain ⟨hcount, hmono⟩ := ih (b := bitmapSet b (index + i))
    exact ⟨hcount.trans bitCount_bitmapSet, fun h => hmono (bitmapTest_bitmapSet_mono h)⟩

/-- An allocation changes nothing, or it takes a range of clear bits and sets some. -/
theorem allocate_cases (s : State) (c : AllocCall) :
    allocate s c = (s, 0) ∨
      ∃ index b free, allocate s c =
        ({ s with frameMap := b, freeFrames := free }, index * frameSize) ∧
        b.bitCount = s.frameMap.bitCount ∧ index + c.count ≤ s.frameMap.bitCount ∧
        (∀ j, index ≤ j → j < index + c.count → bitmapTest s.frameMap j = false) ∧
        ∀ k, bitmapTest s.frameMap k = true → bitmapTest b k = true := by
  cases c with
  | frame =>
    rw [allocate, pmmAllocFrame]
    rcases hfind : bitmapFindClear s.frameMap with _ | index
    · exact Or.inl rfl
    · obtain ⟨hlt, hclear⟩ := bitmapFindClear_spec hfind
      refine Or.inr ⟨index, _, _, rfl, bitCount_bitmapSet, hlt, fun j hlow hhigh => ?_,
        fun k hk => bitmapTest_bitmapSet_mono hk⟩
      rw [AllocCall.count] at hhigh
      obtain rfl : j = index := by omega
      exact hclear
  | frames count =>
    rw [allocate, pmmAllocFrames]
    rcases hfind : bitmapFindClearRange s.frameMap count with _ | index
    · exact Or.inl rfl
    · obtain ⟨hlt, hclear⟩ := bitmapFindClearRange_spec hfind
      exact Or.inr ⟨index, _, _, rfl, (foldl_bitmapSet (k := 0) index _).1, hlt, hclear,
        fun k hk => (foldl_bitmapSet index _).2 hk⟩

/-- An allocation returns free frames, and makes none free. -/
theorem allocate_spec (hs : Sized s) (c : AllocCall) :
    Sized (allocate s c).1 ∧ (∀ k, IsFree (allocate s c).1 k → IsFree s k) ∧
      ∀ k ∈ handedOut s c, IsFree s k := by
  unfold handedOut
  rcases allocate_cases s c with heq | ⟨index, b, free, heq, hcount, hlt, hclear, hmono⟩
  · rw [heq]
    exact ⟨hs, fun _ h => h, by simp⟩
  · rw [heq]
    refine ⟨hcount.trans hs, fun k hk => ⟨hk.1, ?_⟩, fun k hk => ?_⟩
    · by_contra hset
      have := hmono k (Bool.of_not_eq_false hset)
      exact absurd hk.2 (by simp [this])
    · by_cases hzero : index * frameSize = 0
      · rw [if_pos hzero] at hk
        simp at hk
      · rw [if_neg hzero] at hk
        simp only [frameIndex] at hk
        rw [Nat.mul_div_cancel _ (by decide)] at hk
        obtain ⟨j, hj, rfl⟩ := mem_range'.mp hk
        exact ⟨by rw [← hs]; omega, hclear _ (by omega) (by omega)⟩

/-- `pmm_alloc_frame` fails, or takes one free frame. -/
theorem pmmAllocFrame_spec (hs : Sized s) :
    pmmAllocFrame s = (s, 0) ∨
      ∃ index, IsFree s index ∧ (pmmAllocFrame s).2 = index * frameSize ∧
        Sized (pmmAllocFrame s).1 ∧ (pmmAllocFrame s).1.totalFrames = s.totalFrames ∧
        ∀ k, IsFree (pmmAllocFrame s).1 k → IsFree s k ∧ k ≠ index := by
  unfold pmmAllocFrame
  rcases hfind : bitmapFindClear s.frameMap with _ | index
  · exact Or.inl rfl
  · obtain ⟨hlt, hclear⟩ := bitmapFindClear_spec hfind
    refine Or.inr ⟨index, ⟨hs ▸ hlt, hclear⟩, rfl, bitCount_bitmapSet.trans hs, rfl, ?_⟩
    rintro k ⟨hk, htest⟩
    rw [bitmapTest_bitmapSet hlt] at htest
    split_ifs at htest with hne
    exact ⟨⟨hk, htest⟩, Ne.symm hne⟩

/-- A call as a step. -/
def allocStep (s : State) (c : AllocCall) : Option State := some (allocate s c).1

/-- **No sequence of calls returns a frame that was not free at the start.** -/
theorem alloc_run_free {t : State} {calls : List AllocCall} (hs : Sized s)
    (hrun : Run.run allocStep s calls = some t) (c : AllocCall) :
    ∀ k ∈ handedOut t c, IsFree s k := by
  have hinv : Run.Throughout allocStep (fun t => Sized t ∧ ∀ k, IsFree t k →
      IsFree s k) s calls := by
    refine Run.along_throughout (P := fun _ _ => True) ?_ ⟨hs, fun _ h => h⟩ (Run.along_true _ _)
    rintro t c t' ⟨ht, hfree⟩ - hstep
    obtain ⟨hsized, hless, -⟩ := allocate_spec ht c
    obtain rfl : (allocate t c).1 = t' := some.inj hstep
    exact ⟨hsized, fun k hk => hfree k (hless k hk)⟩
  obtain ⟨ht, hfree⟩ := hinv.last hrun
  exact fun k hk => hfree k ((allocate_spec ht c).2.2 k hk)

end Nv0ken.Pmm
