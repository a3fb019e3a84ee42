/-
Bitmaps as sets of bits.

The words are only a way to store the bits: setting or clearing one bit changes that
bit and no other, and the searches find bits that are clear.  Nothing above this module
looks at a word.
-/
import Nv0ken.Kernel.Lib.Bitmap

namespace Nv0ken.Bitmap

variable {b : Bitmap} {i j count : Nat} {w : BitVec 64}

theorem bitMask_eq (bit : Nat) : bitMask bit = BitVec.twoPow 64 (bit % 64) := rfl

theorem mod_lt_word (bit : Nat) : bit % 64 < 64 := Nat.mod_lt _ (by decide)

theorem getLsbD_bitMask (i j : Nat) : (bitMask i).getLsbD (j % 64) = decide (i % 64 = j % 64) := by
  rw [bitMask_eq, BitVec.getLsbD_twoPow]
  simp [mod_lt_word]

/-- Testing a bit reads it out of its word. -/
theorem bitmapTest_eq (h : j < b.bitCount) :
    bitmapTest b j = (b.words (j / 64)).getLsbD (j % 64) := by
  have hne : BitVec.twoPow 64 (j % 64) ≠ 0#64 := by
    intro hzero
    have hbit := congrArg (fun w => w.getLsbD (j % 64)) hzero
    simp [mod_lt_word] at hbit
  unfold bitmapTest bitsPerWord
  rw [if_neg (by omega), bitMask_eq, BitVec.and_twoPow]
  cases (b.words (j / 64)).getLsbD (j % 64) with
  | true => simp [hne]
  | false => simp

theorem bitmapTest_of_le (h : b.bitCount ≤ j) : bitmapTest b j = false := by
  unfold bitmapTest
  rw [if_pos h]

@[simp] theorem bitCount_bitmapSet : (bitmapSet b i).bitCount = b.bitCount := by
  unfold bitmapSet setWord
  by_cases hi : i ≥ b.bitCount
  · rw [if_pos hi]
  · rw [if_neg hi]

@[simp] theorem bitCount_bitmapClear : (bitmapClear b i).bitCount = b.bitCount := by
  unfold bitmapClear setWord
  by_cases hi : i ≥ b.bitCount
  · rw [if_pos hi]
  · rw [if_neg hi]

/-- Replacing the word of bit `i` is seen at the bits of that word only. -/
theorem bitmapTest_setWord (h : j < b.bitCount) :
    bitmapTest (b.setWord (i / 64) w) j =
      if j / 64 = i / 64 then w.getLsbD (j % 64) else bitmapTest b j := by
  rw [bitmapTest_eq (b := b.setWord (i / 64) w) h, bitmapTest_eq h]
  unfold setWord
  by_cases hword : j / 64 = i / 64
  · simp only [if_pos hword]
  · simp only [if_neg hword]

/-- A word in which one bit was written. -/
theorem bitmapTest_written {v : Bool} (hi : i < b.bitCount)
    (hw : ∀ k, w.getLsbD (k % 64) =
      if i % 64 = k % 64 then v else (b.words (i / 64)).getLsbD (k % 64)) :
    bitmapTest (b.setWord (i / 64) w) j = if i = j then v else bitmapTest b j := by
  by_cases hj : j < b.bitCount
  · rw [bitmapTest_setWord hj, bitmapTest_eq hj, hw]
    by_cases hword : j / 64 = i / 64
    · have hsame : (i % 64 = j % 64) ↔ i = j := by omega
      rw [if_pos hword, hword]
      simp only [hsame]
    · have hne : ¬ i = j := fun h => hword (by rw [h])
      rw [if_neg hword, if_neg hne]
  · rw [if_neg (by omega), bitmapTest_of_le (Nat.not_lt.mp hj)]
    exact bitmapTest_of_le (Nat.not_lt.mp hj)

theorem bitmapTest_bitmapSet (hi : i < b.bitCount) :
    bitmapTest (bitmapSet b i) j = if i = j then true else bitmapTest b j := by
  unfold bitmapSet
  rw [if_neg (Nat.not_le.mpr hi)]
  refine bitmapTest_written hi fun k => ?_
  rw [BitVec.getLsbD_or, getLsbD_bitMask]
  by_cases hk : i % 64 = k % 64
  · simp [hk]
  · simp [hk, bitsPerWord]

theorem bitmapTest_bitmapClear (hi : i < b.bitCount) :
    bitmapTest (bitmapClear b i) j = if i = j then false else bitmapTest b j := by
  unfold bitmapClear
  rw [if_neg (Nat.not_le.mpr hi)]
  refine bitmapTest_written hi fun k => ?_
  rw [BitVec.getLsbD_and, BitVec.getLsbD_not, getLsbD_bitMask]
  by_cases hk : i % 64 = k % 64
  · simp [hk]
  · simp [hk, bitsPerWord, mod_lt_word]

theorem bitmapTest_bitmapSetAll (hj : j < b.bitCount) : bitmapTest (bitmapSetAll b) j = true := by
  have hword : j / 64 < bitmapStorageWords b.bitCount := by
    unfold bitmapStorageWords bitsPerWord
    omega
  rw [bitmapTest_eq (b := bitmapSetAll b) hj]
  unfold bitmapSetAll
  simp only [if_pos hword]
  rw [BitVec.getLsbD_allOnes]
  simp [mod_lt_word]

/-! ### Searching -/

/-- The bit found is clear. -/
theorem bitmapFindClear_spec (h : bitmapFindClear b = some i) :
    i < b.bitCount ∧ bitmapTest b i = false := by
  have hmem := List.mem_of_find?_eq_some h
  have htest := List.find?_some h
  exact ⟨List.mem_range.mp hmem, by simpa using htest⟩

/-- The loop carries a run of clear bits that ends just before the current one. -/
theorem findClearRun_spec : ∀ {left bit runStart runLength : Nat},
    (∀ j, bit - runLength ≤ j → j < bit → bitmapTest b j = false) → runLength ≤ bit →
    (runLength ≠ 0 → runStart + runLength = bit) →
    findClearRun b count left bit runStart runLength = some i →
    i + count ≤ bit + left ∧ ∀ j, i ≤ j → j < i + count → bitmapTest b j = false := by
  intro left
  induction left with
  | zero => intro bit runStart runLength _ _ _ hrun; simp [findClearRun] at hrun
  | succ left ih =>
    intro bit runStart runLength hclear hle hstart hrun
    rw [findClearRun] at hrun
    by_cases hset : bitmapTest b bit = true
    · rw [if_pos hset] at hrun
      have := ih (fun j hlow hhigh => absurd hhigh (by omega)) (Nat.zero_le _)
        (fun hne => absurd rfl hne) hrun
      exact ⟨by omega, this.2⟩
    · rw [if_neg hset] at hrun
      -- the run now starts here, or goes on
      have hnew : (if runLength = 0 then bit else runStart) + runLength = bit := by
        by_cases hzero : runLength = 0
        · rw [if_pos hzero]
          omega
        · rw [if_neg hzero]
          exact hstart hzero
      have hclear' : ∀ j, bit + 1 - (runLength + 1) ≤ j → j < bit + 1 → bitmapTest b j = false := by
        intro j hlow hhigh
        by_cases hlast : j = bit
        · rw [hlast]
          simpa using hset
        · exact hclear j (by omega) (by omega)
      by_cases hdone : runLength + 1 = count
      · rw [if_pos hdone] at hrun
        have hi := Option.some.inj hrun
        exact ⟨by omega, fun j hlow hhigh => hclear' j (by omega) (by omega)⟩
      · rw [if_neg hdone] at hrun
        have := ih hclear' (by omega) (fun _ => by omega) hrun
        exact ⟨by omega, this.2⟩

/-- All the bits of the range found are clear. -/
theorem bitmapFindClearRange_spec (h : bitmapFindClearRange b count = some i) :
    i + count ≤ b.bitCount ∧ ∀ j, i ≤ j → j < i + count → bitmapTest b j = false := by
  unfold bitmapFindClearRange at h
  by_cases hbad : count = 0 ∨ count > b.bitCount
  · rw [if_pos hbad] at h
    simp at h
  · rw [if_neg hbad] at h
    have := findClearRun_spec (fun j _ hhigh => absurd hhigh (by omega)) (Nat.zero_le _)
      (fun hne => absurd rfl hne) h
    exact ⟨by omega, this.2⟩

end Nv0ken.Bitmap
