/-
Mapping and unmapping pages.

The tables of an address space are a radix tree of four levels, and a translation is an
entry of the last level.  `vmm_next_table` follows an entry or hangs a new table into the
tree, which changes no translation (`vmmNextTable_spec`); the write at the end of
`vmm_map_page` changes exactly one.  So a page can be mapped and unmapped without any
other page noticing, whatever the flags.

What does depend on the flags is the address that is read back: the mask that should
cut the flags off keeps bit 63.  `map_page_iff` says that a mapping reads back correctly
exactly when it does not carry the no-execute flag.
-/
import Nv0ken.Lib.RadixTree
import Nv0ken.Proofs.Mm.Pmm
import Nv0ken.Proofs.Mm.VmmBits

namespace Nv0ken.Vmm

open RadixTree Pmm Option

variable {space : Space} {s s' : State} {t t' v virt phys flags : BitVec 64} {p q : List Index}
  {i j : Index} {k : Nat}

/-! ### The tree -/

/-- The table an entry leads to. -/
def child (space : Space) (e : Pte) : Option (BitVec 64) :=
  if e &&& ptePresent = 0#64 then none else some (physToVirt space (e &&& pageMask))

def root (space : Space) : BitVec 64 := physToVirt space space.pml4Phys

/-- A mapping state without huge pages: no table is used twice, and no free frame is used
as a table. -/
structure Mapping (space : Space) (s : State) : Prop where
  tree : Tree (child space) s.tables (root space) 3
  noHuge : ∀ q t i, q.length < 3 → walk (child space) s.tables (root space) q = some t →
    s.tables t i &&& ptePresent ≠ 0#64 → s.tables t i &&& pteHuge = 0#64
  sized : Sized s.pmm
  few : s.pmm.totalFrames ≤ maxFrames
  unused : ∀ k, IsFree s.pmm k → Unused (child space) s.tables (root space) 3
    (physToVirt space (BitVec.ofNat 64 (k * frameSize)))

/-- An entry that is not present counts as none. -/
def ifPresent (e : Pte) : Option Pte := if e &&& ptePresent = 0#64 then none else some e

/-- The present entry of the last level behind some indices. -/
def leaf (space : Space) (s : State) (q : List Index) (j : Index) : Option Pte :=
  (entry (child space) s.tables (root space) q j).bind ifPresent

theorem physToVirt_inj (space : Space) {a b : BitVec 64}
    (h : physToVirt space a = physToVirt space b) : a = b := by
  unfold physToVirt at h
  simpa using h

theorem frame_inj {a b : Nat} (ha : a < maxFrames) (hb : b < maxFrames)
    (h : BitVec.ofNat 64 (a * frameSize) = BitVec.ofNat 64 (b * frameSize)) : a = b := by
  have hnat := congrArg BitVec.toNat h
  rw [BitVec.toNat_ofNat, BitVec.toNat_ofNat] at hnat
  unfold maxFrames frameSize at *
  omega

theorem child_zero (space : Space) : child space 0#64 = none := rfl

theorem child_tableEntry (space : Space) (k : Nat) (flags : BitVec 64) :
    child space (tableEntry (BitVec.ofNat 64 (k * frameSize)) flags) =
      some (physToVirt space (BitVec.ofNat 64 (k * frameSize))) := by
  unfold child
  rw [if_neg (tableEntry_present _ _), tableEntry_and_pageMask (aligned_frame k)]

/-- A new table in the free frame `k` was hung below an absent entry. -/
structure Hung (space : Space) (s s' : State) (p : List Index) (t : BitVec 64) (i : Index) (k : Nat)
    (flags : BitVec 64) : Prop where
  path : walk (child space) s.tables (root space) p = some t
  short : p.length < 3
  absent : child space (s.tables t i) = none
  free : IsFree s.pmm k
  sized : Sized s'.pmm
  total : s'.pmm.totalFrames = s.pmm.totalFrames
  rest : ∀ k', IsFree s'.pmm k' → IsFree s.pmm k' ∧ k' ≠ k
  tables : s'.tables = grow s.tables t i (tableEntry (BitVec.ofNat 64 (k * frameSize)) flags)
    (physToVirt space (BitVec.ofNat 64 (k * frameSize))) 0#64

/-- One more path leads somewhere, and all others lead where they led. -/
theorem Hung.walk_eq (hs : Mapping space s) (hung : Hung space s s' p t i k flags)
    (hq : q.length ≤ 3) :
    walk (child space) s'.tables (root space) q =
      if q = p ++ [i] then some (physToVirt space (BitVec.ofNat 64 (k * frameSize)))
      else walk (child space) s.tables (root space) q := by
  rw [hung.tables]
  exact walk_grow hs.tree hung.path hung.short hung.absent (hs.unused k hung.free)
    (child_zero space) (child_tableEntry space k flags) hq

theorem Hung.length_le (hung : Hung space s s' p t i k flags) : (p ++ [i]).length ≤ 3 := by
  have := hung.short
  rw [List.length_append, List.length_singleton]
  omega

theorem Hung.walk_before (hung : Hung space s s' p t i k flags) :
    walk (child space) s.tables (root space) (p ++ [i]) = none := by
  rw [walk_snoc, hung.path, bind_some, hung.absent]

section

variable (hs : Mapping space s)
include hs

section

variable (hung : Hung space s s' p t i k flags)
include hung

theorem Hung.noHuge (q : List Index) (t' : BitVec 64) (i' : Index) (hq : q.length < 3)
    (hqt : walk (child space) s'.tables (root space) q = some t')
    (hpresent : s'.tables t' i' &&& ptePresent ≠ 0#64) : s'.tables t' i' &&& pteHuge = 0#64 := by
  have hunused := hs.unused k hung.free
  rw [hung.walk_eq hs (by omega)] at hqt
  rw [hung.tables] at hpresent ⊢
  by_cases hnew : q = p ++ [i]
  · -- the new table is empty
    rw [if_pos hnew] at hqt
    obtain rfl := some.inj hqt
    have hnt : physToVirt space (BitVec.ofNat 64 (k * frameSize)) ≠ t := by
      rintro rfl
      exact hunused p (by have := hung.short; omega) hung.path
    rw [grow_new hnt] at hpresent
    exact absurd rfl hpresent
  · rw [if_neg hnew] at hqt
    by_cases hhere : t' = t ∧ i' = i
    · obtain ⟨rfl, rfl⟩ := hhere
      unfold grow
      rw [setEntry_same]
      exact tableEntry_not_huge (aligned_frame k) flags
    · have hold : t' ≠ physToVirt space (BitVec.ofNat 64 (k * frameSize)) := by
        rintro rfl
        exact hunused q (by omega) hqt
      rw [grow_of_ne hold hhere] at hpresent ⊢
      exact hs.noHuge q t' i' hq hqt hpresent

/-- The frames still free are used by no table, the new one included. -/
theorem Hung.unused (k' : Nat) (hk' : IsFree s'.pmm k') :
    Unused (child space) s'.tables (root space) 3
      (physToVirt space (BitVec.ofNat 64 (k' * frameSize))) := by
  intro q hq hqt
  obtain ⟨hold, hne⟩ := hung.rest k' hk'
  rw [hung.walk_eq hs hq] at hqt
  by_cases hnew : q = p ++ [i]
  · rw [if_pos hnew] at hqt
    have hframe := physToVirt_inj space (some.inj hqt)
    have hfew := hs.few
    exact hne (frame_inj (by have := hold.1; omega) (by have := hung.free.1; omega) hframe.symm)
  · rw [if_neg hnew] at hqt
    exact hs.unused k' hold q hq hqt

/-- Nothing can be seen of a new table: the leaves are what they were. -/
theorem Hung.leaf_eq (j : Index) (hq : q.length = 3) : leaf space s' q j = leaf space s q j := by
  unfold leaf
  rw [hung.tables, entry_grow hs.tree hung.path hung.short hung.absent (hs.unused k hung.free)
    (child_zero space) (child_tableEntry space k flags) hq]
  by_cases hnew : q = p ++ [i]
  · have hold : entry (child space) s.tables (root space) q j = none := by
      unfold entry
      rw [hnew, hung.walk_before]
      rfl
    rw [if_pos hnew, hold]
    rfl
  · rw [if_neg hnew]

theorem Hung.mapping : Mapping space s' where
  tree := by
    rw [hung.tables]
    exact tree_grow hs.tree hung.path hung.short hung.absent (hs.unused k hung.free)
      (child_zero space) (child_tableEntry space k flags)
  noHuge := hung.noHuge hs
  sized := hung.sized
  few := by
    rw [hung.total]
    exact hs.few
  unused := hung.unused hs

theorem Hung.walk_keeps {t' : BitVec 64} (hq : q.length ≤ 3)
    (hqt : walk (child space) s.tables (root space) q = some t') :
    walk (child space) s'.tables (root space) q = some t' := by
  rw [hung.walk_eq hs hq, if_neg, hqt]
  rintro rfl
  rw [hung.walk_before] at hqt
  cases hqt

end

section

variable (hp : walk (child space) s.tables (root space) p = some t)
include hp

/-- Following an entry, or hanging in a new table, keeps the tree and its leaves. -/
theorem vmmNextTable_spec (hlen : p.length < 3) (hrun : vmmNextTable space s t i flags = (s', t'))
    (ht' : t' ≠ 0#64) :
    Mapping space s' ∧ walk (child space) s'.tables (root space) (p ++ [i]) = some t' ∧
      (∀ q t', q.length ≤ 3 → walk (child space) s.tables (root space) q = some t' →
        walk (child space) s'.tables (root space) q = some t') ∧
      ∀ q j, q.length = 3 → leaf space s' q j = leaf space s q j := by
  unfold vmmNextTable at hrun
  by_cases habsent : s.tables t i &&& ptePresent = 0#64
  · rw [if_pos habsent] at hrun
    have hnone : child space (s.tables t i) = none := if_pos habsent
    rcases pmmAllocFrame_spec hs.sized with hfail | ⟨k, hfree, hframe, hsized, htotal, hrest⟩
    · rw [hfail, if_pos rfl] at hrun
      exact absurd (Prod.mk.inj hrun).2.symm ht'
    by_cases hzero : (pmmAllocFrame s.pmm).2 = 0
    · rw [if_pos hzero] at hrun
      exact absurd (Prod.mk.inj hrun).2.symm ht'
    rw [if_neg hzero] at hrun
    by_cases hnull : physToVirt space (BitVec.ofNat 64 (pmmAllocFrame s.pmm).2) = 0#64
    · rw [if_pos hnull] at hrun
      exact absurd (Prod.mk.inj hrun).2.symm ht'
    rw [if_neg hnull] at hrun
    obtain ⟨hs', rfl⟩ := Prod.mk.inj hrun
    have hung : Hung space s s' p t i k flags := by
      rw [← hs', hframe]
      exact ⟨hp, hlen, hnone, hfree, hsized, htotal, hrest, rfl⟩
    rw [hframe]
    refine ⟨hung.mapping hs, ?_, fun q t' hq => hung.walk_keeps hs hq, fun q j => hung.leaf_eq hs j⟩
    rw [hung.walk_eq hs hung.length_le, if_pos rfl]
  · rw [if_neg habsent] at hrun
    have hhuge := hs.noHuge p t i hlen hp habsent
    rw [if_neg (not_not_intro hhuge)] at hrun
    obtain ⟨rfl, rfl⟩ := Prod.mk.inj hrun
    refine ⟨hs, ?_, fun _ _ _ h => h, fun _ _ _ => rfl⟩
    rw [walk_snoc, hp]
    exact if_neg habsent

/-- Writing an entry of the last level changes that one leaf. -/
theorem Mapping.writeLeaf (hlen : p.length = 3) (e : Pte) :
    Mapping space (s.write t i e) ∧
      (∀ q, q.length ≤ 3 → walk (child space) (s.write t i e).tables (root space) q =
        walk (child space) s.tables (root space) q) ∧
      ∀ q j, q.length = 3 → leaf space (s.write t i e) q j =
        if q = p ∧ j = i then ifPresent e else leaf space s q j := by
  have hwalk (q : List Index) (hq : q.length ≤ 3) :
      walk (child space) (s.write t i e).tables (root space) q =
        walk (child space) s.tables (root space) q := walk_setEntry hs.tree hp hlen hq
  refine ⟨⟨tree_setEntry hs.tree hp hlen, ?_, hs.sized, hs.few, ?_⟩, hwalk, ?_⟩
  · intro q t' i' hq hqt hpresent
    rw [hwalk q (by omega)] at hqt
    have hne : t' ≠ t := by
      rintro rfl
      have heq := hs.tree q p t' (by omega) (by omega) hqt hp
      rw [heq] at hq
      omega
    have hsame : (s.write t i e).tables t' i' = s.tables t' i' := if_neg fun h => hne h.1
    rw [hsame] at hpresent ⊢
    exact hs.noHuge q t' i' hq hqt hpresent
  · intro k hk q hq
    rw [hwalk q hq]
    exact hs.unused k hk q hq
  · intro q j hq
    have hentry : entry (child space) (s.write t i e).tables (root space) q j =
        if q = p ∧ j = i then some e else entry (child space) s.tables (root space) q j :=
      entry_setEntry hs.tree hp hlen (Nat.le_of_eq hq)
    unfold leaf
    rw [hentry]
    by_cases hhere : q = p ∧ j = i
    · rw [if_pos hhere, if_pos hhere, bind_some]
    · rw [if_neg hhere, if_neg hhere]

end

end

/-! ### Translation -/

theorem child_of_present {e : Pte} (h : e &&& ptePresent ≠ 0#64) :
    child space e = some (physToVirt space (e &&& pageMask)) := if_neg h

/-- The translation of an address is read off its leaf. -/
theorem vmmVirtToPhys_eq (hs : Mapping space s) (hpml4 : space.pml4Phys ≠ 0#64) (v : BitVec 64) :
    vmmVirtToPhys space s v = (leaf space s (path v) (ptIndex v)).elim 0#64
      fun e => (e &&& pageMask) ||| (v &&& (pageSize - 1#64)) := by
  unfold vmmVirtToPhys leaf entry path
  rw [if_neg hpml4, show physToVirt space space.pml4Phys = root space from rfl]
  simp only [walk]
  by_cases h4 : s.tables (root space) (pml4Index v) &&& ptePresent = 0#64
  · rw [if_pos h4, show child space (s.tables (root space) (pml4Index v)) = none from if_pos h4]
    rfl
  rw [if_neg h4, child_of_present h4, bind_some]
  have hpdpt : walk (child space) s.tables (root space) [pml4Index v] =
      some (physToVirt space (s.tables (root space) (pml4Index v) &&& pageMask)) := by
    rw [walk, child_of_present h4]
    rfl
  generalize physToVirt space (s.tables (root space) (pml4Index v) &&& pageMask) = pdpt at *
  by_cases h3 : s.tables pdpt (pdptIndex v) &&& ptePresent = 0#64
  · rw [if_pos h3, show child space (s.tables pdpt (pdptIndex v)) = none from if_pos h3]
    rfl
  rw [if_neg h3, child_of_present h3, bind_some]
  have hpd : walk (child space) s.tables (root space) ([pml4Index v] ++ [pdptIndex v]) =
      some (physToVirt space (s.tables pdpt (pdptIndex v) &&& pageMask)) := by
    rw [walk_snoc, hpdpt, bind_some, child_of_present h3]
  generalize physToVirt space (s.tables pdpt (pdptIndex v) &&& pageMask) = pd at *
  by_cases h2 : s.tables pd (pdIndex v) &&& ptePresent = 0#64
  · rw [if_pos h2, show child space (s.tables pd (pdIndex v)) = none from if_pos h2]
    rfl
  rw [if_neg h2, if_neg (not_not_intro (hs.noHuge _ pd (pdIndex v) (by simp) hpd h2)),
    child_of_present h2, bind_some, map_some, bind_some]
  unfold ifPresent
  generalize s.tables (physToVirt space (s.tables pd (pdIndex v) &&& pageMask)) (ptIndex v) = pte
  by_cases h1 : pte &&& ptePresent = 0#64
  · rw [if_pos h1, if_pos h1, elim_none]
  · rw [if_neg h1, if_neg h1, elim_some]

/-- The tables on the way to a page are there, and none is a null pointer. -/
def Reaches (space : Space) (s : State) (v pt : BitVec 64) : Prop :=
  ∃ pdpt pd, pdpt ≠ 0#64 ∧ pd ≠ 0#64 ∧ pt ≠ 0#64 ∧
    walk (child space) s.tables (root space) [pml4Index v] = some pdpt ∧
    walk (child space) s.tables (root space) [pml4Index v, pdptIndex v] = some pd ∧
    walk (child space) s.tables (root space) (path v) = some pt

/-- **What mapping a page does**: the page gets its leaf, all other leaves stay. -/
theorem vmmMapPage_spec (hs : Mapping space s)
    (hrun : vmmMapPage space s virt phys flags = (s', true)) :
    space.pml4Phys ≠ 0#64 ∧ root space ≠ 0#64 ∧ Mapping space s' ∧
      (∃ pt, Reaches space s' virt pt) ∧
      ∀ q j, q.length = 3 → leaf space s' q j =
        if q = path virt ∧ j = ptIndex virt then some (leafEntry phys flags)
        else leaf space s q j := by
  unfold vmmMapPage at hrun
  by_cases hpml4 : space.pml4Phys = 0#64
  · rw [if_pos hpml4] at hrun
    exact absurd (Prod.mk.inj hrun).2 (by decide)
  rw [if_neg hpml4] at hrun
  by_cases hroot : physToVirt space space.pml4Phys = 0#64
  · rw [if_pos hroot] at hrun
    exact absurd (Prod.mk.inj hrun).2 (by decide)
  rw [if_neg hroot] at hrun
  rcases h1 : vmmNextTable space s (physToVirt space space.pml4Phys) (pml4Index virt) flags with
    ⟨s1, pdpt⟩
  rw [h1] at hrun
  simp only at hrun
  by_cases hpdpt : pdpt = 0#64
  · simp [hpdpt] at hrun
  rw [if_pos hpdpt] at hrun
  rcases h2 : vmmNextTable space s1 pdpt (pdptIndex virt) flags with ⟨s2, pd⟩
  rw [h2] at hrun
  by_cases hpd : pd = 0#64
  · simp [hpd] at hrun
  rw [if_pos hpd] at hrun
  rcases h3 : vmmNextTable space s2 pd (pdIndex virt) flags with ⟨s3, pt⟩
  rw [h3] at hrun
  by_cases hpt : pt = 0#64
  · simp [hpt] at hrun
  rw [if_neg hpt, show (phys &&& pageMask) ||| flags ||| ptePresent = leafEntry phys flags from rfl]
    at hrun
  obtain ⟨rfl, -⟩ := Prod.mk.inj hrun
  -- three steps down, each of which keeps what the ones before found
  obtain ⟨hm1, hw1, -, hl1⟩ := vmmNextTable_spec hs (p := []) rfl (by decide) h1 hpdpt
  obtain ⟨hm2, hw2, hk2, hl2⟩ := vmmNextTable_spec hm1 hw1 (by simp) h2 hpd
  obtain ⟨hm3, hw3, hk3, hl3⟩ := vmmNextTable_spec hm2 hw2 (by simp) h3 hpt
  obtain ⟨hm4, hw4, hl4⟩ := hm3.writeLeaf (i := ptIndex virt) hw3 rfl (leafEntry phys flags)
  refine ⟨hpml4, hroot, hm4, ⟨pt, pdpt, pd, hpdpt, hpd, hpt, ?_, ?_, ?_⟩, fun q j hq => ?_⟩
  · rw [hw4 _ (by simp)]
    exact hk3 _ _ (by simp) (hk2 _ _ (by simp) hw1)
  · rw [hw4 _ (by simp)]
    exact hk3 _ _ (by simp) hw2
  · rw [hw4 _ (by simp [path])]
    exact hw3
  · rw [hl4 q j hq, hl3 q j hq, hl2 q j hq, hl1 q j hq]
    have hpresent : ifPresent (leafEntry phys flags) = some (leafEntry phys flags) :=
      if_neg (leafEntry_present phys flags)
    rw [hpresent]
    rfl

theorem vmmLookupTable_eq (hs : Mapping space s)
    (hp : walk (child space) s.tables (root space) p = some t) (hlen : p.length < 3)
    (hnext : walk (child space) s.tables (root space) (p ++ [i]) = some t') :
    vmmLookupTable space s t i = t' := by
  rw [walk_snoc, hp, bind_some] at hnext
  unfold child at hnext
  by_cases hpresent : s.tables t i &&& ptePresent = 0#64
  · rw [if_pos hpresent] at hnext
    simp at hnext
  · rw [if_neg hpresent] at hnext
    have hhuge := hs.noHuge p t i hlen hp hpresent
    unfold vmmLookupTable
    rw [if_neg (by simp [hpresent, hhuge])]
    exact some.inj hnext

/-- **What unmapping a page does**: its leaf is gone, all others stay. -/
theorem vmmUnmapPage_spec (hs : Mapping space s) (hpml4 : space.pml4Phys ≠ 0#64)
    (hroot : root space ≠ 0#64) {pt : BitVec 64} (hreach : Reaches space s virt pt) {e : Pte}
    (hleaf : leaf space s (path virt) (ptIndex virt) = some e) :
    ∃ s', vmmUnmapPage space s virt = (s', true) ∧ Mapping space s' ∧
      ∀ q j, q.length = 3 → leaf space s' q j =
        if q = path virt ∧ j = ptIndex virt then none else leaf space s q j := by
  obtain ⟨pdpt, pd, hpdpt, hpd, hpt, hw1, hw2, hw3⟩ := hreach
  have hpresent : s.tables pt (ptIndex virt) &&& ptePresent ≠ 0#64 := by
    intro habsent
    unfold leaf entry ifPresent at hleaf
    rw [hw3, map_some, bind_some, if_pos habsent] at hleaf
    simp at hleaf
  have hwrite := hs.writeLeaf (i := ptIndex virt) hw3 rfl 0#64
  refine ⟨s.write pt (ptIndex virt) 0#64, ?_, hwrite.1, hwrite.2.2⟩
  unfold vmmUnmapPage
  rw [if_neg hpml4]
  simp only
  rw [show physToVirt space space.pml4Phys = root space from rfl, if_neg hroot,
    vmmLookupTable_eq hs (p := []) rfl (by decide) hw1, if_pos hpdpt,
    vmmLookupTable_eq hs hw1 (by simp) hw2, if_pos hpd, vmmLookupTable_eq hs hw2 (by simp) hw3,
    if_neg (by simp [hpt, hpresent])]

/-! ### Mapping, reading back and unmapping -/

/-- After a page was mapped from `s` to `s'`: it reads back as the physical page, every
other page reads as before, and unmapping takes away this translation alone. -/
def MapsPage (space : Space) (s s' : State) (virt phys : BitVec 64) : Prop :=
  (∀ v, SamePage v virt → vmmVirtToPhys space s' v = phys + (v &&& (pageSize - 1#64))) ∧
  (∀ v, Canonical v → ¬ SamePage v virt → vmmVirtToPhys space s' v = vmmVirtToPhys space s v) ∧
  ∃ s'', vmmUnmapPage space s' virt = (s'', true) ∧
    (∀ v, SamePage v virt → vmmVirtToPhys space s'' v = 0#64) ∧
    ∀ v, Canonical v → ¬ SamePage v virt → vmmVirtToPhys space s'' v = vmmVirtToPhys space s' v

theorem page_indices (hvirt : Canonical virt) (hv : Canonical v) (hpage : ¬ SamePage v virt) :
    ¬ (path v = path virt ∧ ptIndex v = ptIndex virt) :=
  fun h => hpage (samePage_of_indices hv hvirt h.1 h.2)

/-- **A mapping does what it should exactly without the no-execute flag.** -/
theorem map_page_iff (space : Space) (s s' : State) (virt phys flags : BitVec 64)
    (hs : Mapping space s) (hvirt : Canonical virt) (hphys : Aligned phys)
    (hrange : phys.toNat < 2 ^ 52) (hflags : flags &&& allFlags = flags)
    (hrun : vmmMapPage space s virt phys flags = (s', true)) :
    MapsPage space s s' virt phys ↔ flags &&& pteNoexec = 0#64 := by
  obtain ⟨hpml4, hroot, hs', ⟨pt, hreach⟩, hleaf⟩ := vmmMapPage_spec hs hrun
  have hhere : leaf space s' (path virt) (ptIndex virt) = some (leafEntry phys flags) := by
    rw [hleaf _ _ rfl, if_pos ⟨rfl, rfl⟩]
  obtain ⟨s'', hunmap, hs'', hleaf''⟩ := vmmUnmapPage_spec hs' hpml4 hroot hreach hhere
  -- only what is read back depends on the flags
  have hback (v : BitVec 64) (hv : SamePage v virt) : vmmVirtToPhys space s' v =
      (phys ||| (flags &&& pteNoexec)) ||| (v &&& (pageSize - 1#64)) := by
    rw [vmmVirtToPhys_eq hs' hpml4, hv.indices.1, hv.indices.2, hhere, elim_some,
      leafEntry_and_pageMask hphys hflags]
  constructor
  · intro hmaps
    have hself := hmaps.1 virt rfl
    rw [hback virt rfl, ← aligned_or_offset hphys] at hself
    exact (noexec_visible hrange virt).mp hself
  · intro hnone
    refine ⟨fun v hv => ?_, fun v hv hpage => ?_, s'', hunmap, fun v hv => ?_, fun v hv hpage => ?_⟩
    · rw [hback v hv, ← aligned_or_offset hphys]
      exact (noexec_visible hrange v).mpr hnone
    · rw [vmmVirtToPhys_eq hs' hpml4, vmmVirtToPhys_eq hs hpml4, hleaf _ _ rfl,
        if_neg (page_indices hvirt hv hpage)]
    · rw [vmmVirtToPhys_eq hs'' hpml4, hleaf'' _ _ rfl, if_pos hv.indices, elim_none]
    · rw [vmmVirtToPhys_eq hs'' hpml4, vmmVirtToPhys_eq hs' hpml4, hleaf'' _ _ rfl,
        if_neg (page_indices hvirt hv hpage)]

/-- An address space with an empty top table, and a few free frames to make tables of. -/
def emptySpace : Space := ⟨0x100000#64, 0xffff800000000000#64⟩

def emptyState : State :=
  { tables := fun _ _ => 0#64
    pmm := { frameMap := ⟨fun _ => 1#64, 8⟩, totalFrames := 8, freeFrames := 7 } }

theorem walk_emptyState (q : List Index) (hq : q ≠ []) :
    walk (child emptySpace) emptyState.tables (root emptySpace) q = none := by
  cases q with
  | nil => exact absurd rfl hq
  | cons i q =>
    rw [walk, show emptyState.tables (root emptySpace) i = 0#64 from rfl]
    rfl

theorem emptyState_mapping : Mapping emptySpace emptyState := by
  refine ⟨?_, ?_, rfl, by decide, ?_⟩
  · intro p q t _ _ hp hq
    by_cases hpnil : p = []
    · by_cases hqnil : q = []
      · rw [hpnil, hqnil]
      · rw [walk_emptyState q hqnil] at hq
        simp at hq
    · rw [walk_emptyState p hpnil] at hp
      simp at hp
  · intro q t i _ _ hpresent
    exact absurd (BitVec.zero_and (x := ptePresent)) hpresent
  · intro k hk q _ hq
    by_cases hnil : q = []
    · rw [hnil, walk] at hq
      have hk8 : k < 8 := hk.1
      have heq := physToVirt_inj emptySpace (some.inj hq)
      have hnat := congrArg BitVec.toNat heq
      rw [BitVec.toNat_ofNat, show emptySpace.pml4Phys.toNat = 0x100000 from rfl] at hnat
      unfold frameSize at hnat
      omega
    · rw [walk_emptyState q hnil] at hq
      simp at hq

/-- Mapping a writable page works. -/
theorem map_page_writable :
    MapsPage emptySpace emptyState
      (vmmMapPage emptySpace emptyState 0x400000#64 0x5000#64 pteWritable).1 0x400000#64
        0x5000#64 := by
  have hrun : (vmmMapPage emptySpace emptyState 0x400000#64 0x5000#64 pteWritable).2 = true := by
    decide +kernel
  refine (map_page_iff emptySpace emptyState _ 0x400000#64 0x5000#64 pteWritable emptyState_mapping
    (by decide) (by decide) (by decide) (by decide) ?_).mpr (by decide)
  exact Prod.ext rfl hrun

/-- A page mapped with the no-execute flag reads back with bit 63 set. -/
theorem map_page_noexec :
    (vmmMapPage emptySpace emptyState 0x400000#64 0x5000#64 pteNoexec).2 = true ∧
      ¬ MapsPage emptySpace emptyState
        (vmmMapPage emptySpace emptyState 0x400000#64 0x5000#64 pteNoexec).1
        0x400000#64 0x5000#64 := by
  refine ⟨by decide +kernel, fun hmaps => ?_⟩
  have hself := hmaps.1 0x400000#64 rfl
  exact absurd hself (by decide)

end Nv0ken.Vmm
