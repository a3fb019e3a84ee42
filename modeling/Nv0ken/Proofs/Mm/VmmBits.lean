/-
Addresses and entries, bit by bit.

What the masks of the page-table code keep and what they lose.  `PAGE_MASK` clears the
low twelve bits and keeps all others, the no-execute bit among them: the address read
back out of an entry is the address that went in together with that bit
(`leafEntry_and_pageMask`).
-/
import Nv0ken.Kernel.Mm.Vmm

namespace Nv0ken.Vmm

variable {a v w phys flags : BitVec 64} {i : Nat}

theorem getLsbD_pageMask (i : Nat) : pageMask.getLsbD i = decide (12 ≤ i ∧ i < 64) := by
  have hmask : pageMask = BitVec.allOnes 64 <<< 12 := by decide
  rw [hmask, BitVec.getLsbD_shiftLeft, BitVec.getLsbD_allOnes]
  by_cases hlow : 12 ≤ i
  · by_cases hhigh : i < 64
    · have : i - 12 < 64 := by omega
      simp [hlow, hhigh, this]
    · simp [hhigh]
  · have : i < 12 := by omega
    simp [hlow, this]

/-- The low twelve bits are clear. -/
def Aligned (a : BitVec 64) : Prop := a &&& (pageSize - 1#64) = 0#64

instance (a : BitVec 64) : Decidable (Aligned a) := inferInstanceAs (Decidable (_ = _))

/-- Only the low twelve bits are set. -/
def Low (a : BitVec 64) : Prop := a &&& pageMask = 0#64

theorem getLsbD_offset (i : Nat) : (pageSize - 1#64).getLsbD i = decide (i < 12) := by
  have hmask : pageSize - 1#64 = ~~~ pageMask := by decide
  rw [hmask, BitVec.getLsbD_not, getLsbD_pageMask]
  by_cases hlow : i < 12
  · have : ¬ 12 ≤ i := by omega
    have : i < 64 := by omega
    simp [*]
  · have : 12 ≤ i := by omega
    by_cases hhigh : i < 64
    · simp [*]
    · simp [hlow, hhigh]

theorem Aligned.bit (h : Aligned a) (hi : i < 12) : a.getLsbD i = false := by
  have hbit : (a &&& (pageSize - 1#64)).getLsbD i = false := by
    rw [h]
    exact BitVec.getLsbD_zero
  rwa [BitVec.getLsbD_and, getLsbD_offset, decide_eq_true hi, Bool.and_true] at hbit

theorem Low.bit (h : Low a) (hi : 12 ≤ i) : a.getLsbD i = false := by
  by_cases hhigh : i < 64
  · have hbit : (a &&& pageMask).getLsbD i = false := by
      rw [h]
      exact BitVec.getLsbD_zero
    rwa [BitVec.getLsbD_and, getLsbD_pageMask, decide_eq_true ⟨hi, hhigh⟩, Bool.and_true] at hbit
  · exact BitVec.getLsbD_of_ge _ _ (by omega)

theorem aligned_and_pageMask (h : Aligned a) : a &&& pageMask = a := by
  apply BitVec.eq_of_getLsbD_eq
  intro i hi
  rw [BitVec.getLsbD_and, getLsbD_pageMask]
  by_cases hlow : i < 12
  · rw [h.bit hlow, Bool.false_and]
  · simp [Nat.not_lt.mp hlow, hi]

theorem low_offset (v : BitVec 64) : Low (v &&& (pageSize - 1#64)) := by
  unfold Low
  rw [BitVec.and_assoc, show (pageSize - 1#64) &&& pageMask = 0#64 by decide, BitVec.and_zero]

theorem aligned_frame (k : Nat) : Aligned (BitVec.ofNat 64 (k * Pmm.frameSize)) := by
  apply BitVec.eq_of_getLsbD_eq
  intro i hi
  rw [BitVec.getLsbD_and, getLsbD_offset, BitVec.getLsbD_ofNat]
  by_cases hlow : i < 12
  · have hbit : (k * Pmm.frameSize).testBit i = false := by
      rw [show Pmm.frameSize = 2 ^ 12 from rfl, Nat.testBit_mul_two_pow]
      simp [hlow]
    rw [hbit]
    simp
  · simp [hlow]

/-! ### Entries -/

/-- An entry that leads to a table made by `vmm_next_table`. -/
def tableEntry (frame flags : BitVec 64) : Pte :=
  frame ||| ptePresent ||| pteWritable ||| (flags &&& pteUser)

/-- An entry that maps a page. -/
def leafEntry (phys flags : BitVec 64) : Pte := (phys &&& pageMask) ||| flags ||| ptePresent

theorem tableEntry_and_pageMask (h : Aligned a) : tableEntry a flags &&& pageMask = a := by
  unfold tableEntry
  have huser : (flags &&& pteUser) &&& pageMask = 0#64 := by
    rw [BitVec.and_assoc, show pteUser &&& pageMask = 0#64 by decide, BitVec.and_zero]
  simp only [BitVec.and_or_distrib_right, aligned_and_pageMask h, huser,
    show ptePresent &&& pageMask = 0#64 by decide, show pteWritable &&& pageMask = 0#64 by decide,
    BitVec.or_zero]

theorem tableEntry_present (a flags : BitVec 64) : tableEntry a flags &&& ptePresent ≠ 0#64 := by
  intro h
  have hbit := congrArg (fun x => x.getLsbD 0) h
  simp [tableEntry, ptePresent] at hbit

theorem tableEntry_not_huge (h : Aligned a) (flags : BitVec 64) :
    tableEntry a flags &&& pteHuge = 0#64 := by
  have ha : a &&& pteHuge = 0#64 := by
    rw [← aligned_and_pageMask h, BitVec.and_assoc,
      show pageMask &&& pteHuge = 0#64 by decide, BitVec.and_zero]
  have huser : (flags &&& pteUser) &&& pteHuge = 0#64 := by
    rw [BitVec.and_assoc, show pteUser &&& pteHuge = 0#64 by decide, BitVec.and_zero]
  unfold tableEntry
  simp only [BitVec.and_or_distrib_right, ha, huser, show ptePresent &&& pteHuge = 0#64 by decide,
    show pteWritable &&& pteHuge = 0#64 by decide, BitVec.or_zero]

/-- All the flags of `paging.h`. -/
def allFlags : BitVec 64 :=
  ptePresent ||| pteWritable ||| pteUser ||| pteWritethrough ||| pteNocache ||| pteAccessed |||
    pteDirty ||| pteHuge ||| pteGlobal ||| pteNoexec

theorem leafEntry_present (phys flags : BitVec 64) :
    leafEntry phys flags &&& ptePresent ≠ 0#64 := by
  intro h
  have hbit := congrArg (fun x => x.getLsbD 0) h
  simp [leafEntry, ptePresent] at hbit

/-- The address read back is the address written, with the no-execute flag on top. -/
theorem leafEntry_and_pageMask (hphys : Aligned phys) (hflags : flags &&& allFlags = flags) :
    leafEntry phys flags &&& pageMask = phys ||| (flags &&& pteNoexec) := by
  have hhigh : flags &&& pageMask = flags &&& pteNoexec := by
    rw [← hflags, BitVec.and_assoc, BitVec.and_assoc,
      show allFlags &&& pageMask = allFlags &&& pteNoexec by decide]
  unfold leafEntry
  simp only [BitVec.and_or_distrib_right, aligned_and_pageMask hphys, hhigh,
    show ptePresent &&& pageMask = 0#64 by decide, BitVec.or_zero]

/-- Adding a page offset to a page address only puts the bits side by side. -/
theorem aligned_or_offset (h : Aligned a) (v : BitVec 64) :
    a ||| (v &&& (pageSize - 1#64)) = a + (v &&& (pageSize - 1#64)) := by
  refine (BitVec.add_eq_or_of_and_eq_zero _ _ ?_).symm
  rw [BitVec.and_comm v, ← BitVec.and_assoc, h, BitVec.zero_and]

/-- Below `2 ^ 52` the no-execute bit is not part of an address. -/
theorem noexec_visible (hphys : phys.toNat < 2 ^ 52) (v : BitVec 64) :
    (phys ||| (flags &&& pteNoexec)) ||| (v &&& (pageSize - 1#64)) =
        phys ||| (v &&& (pageSize - 1#64)) ↔ flags &&& pteNoexec = 0#64 := by
  constructor
  · intro heq
    have hphys63 : phys.getLsbD 63 = false :=
      Nat.testBit_lt_two_pow (Nat.lt_of_lt_of_le hphys (by decide))
    have hoffset63 := (low_offset v).bit (i := 63) (by decide)
    have hbit := congrArg (fun x => x.getLsbD 63) heq
    simp only [BitVec.getLsbD_or, hphys63, hoffset63, Bool.or_false, Bool.false_or] at hbit
    rw [BitVec.getLsbD_and, show pteNoexec.getLsbD 63 = true by decide, Bool.and_true] at hbit
    rw [show pteNoexec = BitVec.twoPow 64 63 from rfl, BitVec.and_twoPow, hbit]
    rfl
  · intro hnone
    rw [hnone, BitVec.or_zero]

/-! ### Pages -/

/-- Bits 48 to 63 repeat bit 47. -/
def Canonical (v : BitVec 64) : Prop := (v.setWidth 48).signExtend 64 = v

instance (v : BitVec 64) : Decidable (Canonical v) := inferInstanceAs (Decidable (_ = _))

/-- The two addresses lie in one page. -/
def SamePage (v w : BitVec 64) : Prop := v &&& pageMask = w &&& pageMask

/-- The indices down to the last table. -/
def path (v : BitVec 64) : List Index := [pml4Index v, pdptIndex v, pdIndex v]

theorem samePage_bit : SamePage v w ↔ ∀ i, 12 ≤ i → i < 64 → v.getLsbD i = w.getLsbD i := by
  constructor
  · intro h i hlow hhigh
    have hbit := congrArg (fun x => x.getLsbD i) h
    simpa only [BitVec.getLsbD_and, getLsbD_pageMask, decide_eq_true (And.intro hlow hhigh),
      Bool.and_true] using hbit
  · intro h
    apply BitVec.eq_of_getLsbD_eq
    intro i hi
    rw [BitVec.getLsbD_and, BitVec.getLsbD_and, getLsbD_pageMask]
    by_cases hlow : 12 ≤ i
    · rw [h i hlow hi]
    · simp [hlow]

theorem Canonical.bit (h : Canonical v) (hlow : 48 ≤ i) (hhigh : i < 64) :
    v.getLsbD i = v.getLsbD 47 := by
  have hbit := congrArg (fun x => x.getLsbD i) h
  simp only [BitVec.getLsbD_signExtend, decide_eq_true hhigh, Bool.true_and,
    if_neg (Nat.not_lt.mpr hlow), BitVec.msb_eq_getLsbD_last, BitVec.getLsbD_setWidth] at hbit
  exact hbit.symm

/-- Equal indices are equal bits. -/
theorem index_bit {start : Nat} (h : BitVec.extractLsb' start 9 v = BitVec.extractLsb' start 9 w)
    (hlow : start ≤ i) (hhigh : i < start + 9) : v.getLsbD i = w.getLsbD i := by
  have hbit := congrArg (fun x => x.getLsbD (i - start)) h
  have hin : i - start < 9 := by omega
  simpa only [BitVec.getLsbD_extractLsb', decide_eq_true hin, Bool.true_and,
    Nat.add_sub_cancel' hlow] using hbit

theorem SamePage.indices (h : SamePage v w) : path v = path w ∧ ptIndex v = ptIndex w := by
  have hbits := samePage_bit.mp h
  have hindex : ∀ start, 12 ≤ start → start + 9 ≤ 64 →
      BitVec.extractLsb' start 9 v = BitVec.extractLsb' start 9 w := by
    intro start hlow hhigh
    apply BitVec.eq_of_getLsbD_eq
    intro i hi
    rw [BitVec.getLsbD_extractLsb', BitVec.getLsbD_extractLsb',
      hbits (start + i) (by omega) (by omega)]
  unfold path pml4Index pdptIndex pdIndex ptIndex
  rw [hindex 39 (by decide) (by decide), hindex 30 (by decide) (by decide),
    hindex 21 (by decide) (by decide), hindex 12 (by decide) (by decide)]
  exact ⟨rfl, rfl⟩

/-- **The four indices tell canonical pages apart.** -/
theorem samePage_of_indices (hv : Canonical v) (hw : Canonical w) (hpath : path v = path w)
    (hpt : ptIndex v = ptIndex w) : SamePage v w := by
  obtain ⟨hpml4, hpath⟩ := List.cons.inj hpath
  obtain ⟨hpdpt, hpath⟩ := List.cons.inj hpath
  obtain ⟨hpd, -⟩ := List.cons.inj hpath
  rw [samePage_bit]
  have hmiddle : ∀ i, 12 ≤ i → i < 48 → v.getLsbD i = w.getLsbD i := by
    intro i hlow hhigh
    by_cases h39 : 39 ≤ i
    · exact index_bit hpml4 h39 hhigh
    by_cases h30 : 30 ≤ i
    · exact index_bit hpdpt h30 (by omega)
    by_cases h21 : 21 ≤ i
    · exact index_bit hpd h21 (by omega)
    · exact index_bit hpt hlow (by omega)
  intro i hlow hhigh
  by_cases hin : i < 48
  · exact hmiddle i hlow hin
  · rw [hv.bit (by omega) hhigh, hw.bit (by omega) hhigh]
    exact hmiddle 47 (by decide) (by decide)

end Nv0ken.Vmm
