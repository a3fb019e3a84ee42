/-
Which frames are free after boot.

`init_memory` marks the regions of its table one after another, usable and reserved ones
in the order of the boot loader, and then reserves what the kernel itself occupies.  The
order decides: a frame that a reserved region and a usable region share is free if the
usable region comes later.  `reserved_safe_iff` states on the map exactly when no frame of
a region that is not usable is free, and so none is ever handed out; `overlap_released` is
a map of two regions that are in the wrong order.

Two more things keep a reserved region from counting: it may not have found a place in
the table, and the end of a region in the last page of the address space rounds up to
zero.  The beginning of a usable region there rounds up to zero as well, and everything
below it is released.
-/
import Nv0ken.Kernel.Main
import Nv0ken.Proofs.Mm.Pmm

namespace Nv0ken.Boot

open Word Mmap Pmm LastWrite List

variable {info : Info} {k : Nat}

/-- The map as the boot loader hands it over, every entry of it. -/
def Info.map (info : Info) : List Region :=
  match info.limine with
  | some entries => (entries.filterMap id).map limineRegion
  | none =>
    match info.multiboot with
    | some mb => mb.entries.map multibootRegion
    | none => []

/-- The part of the map that finds a place in the table. -/
def Info.recorded (info : Info) : List Region :=
  (info.map.filter fun r => 0 < r.length).take maxRegions

/-- The frame lies at least partly in the region. -/
def Touches (r : Region) (k : Nat) : Prop :=
  0 < r.length ∧ r.base < (k + 1) * frameSize ∧ k * frameSize < r.base + r.length

/-- Marking the region usable releases the frame: the frame lies in it entirely, or the
beginning of the region rounds up to zero. -/
def Releases (r : Region) (k : Nat) : Prop :=
  (r.base ≤ k * frameSize ∧ (k + 1) * frameSize ≤ r.base + r.length) ∨
    2 ^ 64 - frameSize < r.base

/-- Marking the region reserved takes the frame, unless the end rounds up to zero. -/
def Reserves (r : Region) (k : Nat) : Prop :=
  Touches r k ∧ r.base + r.length ≤ 2 ^ 64 - frameSize

/-- The frame lies below the end of the kernel, or at least partly in the first module. -/
def Info.Own (info : Info) (k : Nat) : Prop :=
  k * frameSize < info.kernelEnd ∨
    ∃ m ∈ info.multiboot.bind Multiboot.module,
      m.1 ≤ m.2 ∧ m.1 < (k + 1) * frameSize ∧ k * frameSize < m.2

/-- No region wraps, the kernel lies behind the first megabyte and in the two gigabytes it
is linked for, and the ends of a module are 32 bits. -/
structure Info.Sane (info : Info) : Prop where
  fits : ∀ r ∈ info.map, r.base + r.length < 2 ^ 64
  kernelStart : 0x100000 ≤ info.kernelEnd
  kernelFits : info.kernelEnd < 2 ^ 31
  moduleFits : ∀ m ∈ info.multiboot.bind Multiboot.module, m.2 < 2 ^ 32

/-! ### The table -/

/-- Regions are added up to the last free place, those without length left out. -/
theorem foldl_mmapAddRegion (rs acc : List Region) :
    rs.foldl mmapAddRegion acc =
      acc ++ (rs.filter fun r => 0 < r.length).take (maxRegions - acc.length) := by
  induction rs generalizing acc with
  | nil => simp
  | cons r rs ih =>
    rw [foldl_cons, ih, mmapAddRegion]
    by_cases hlen : r.length = 0
    · rw [if_pos (Or.inl hlen), filter_cons_of_neg (by simp [hlen])]
    rw [filter_cons_of_pos (by simp; omega)]
    by_cases hfull : acc.length ≥ maxRegions
    · rw [if_pos (Or.inr hfull), Nat.sub_eq_zero_of_le hfull, take_zero, take_zero]
    · have hroom : maxRegions - acc.length = maxRegions - (acc ++ [r]).length + 1 := by
        rw [length_append, length_singleton]
        omega
      rw [if_neg (by simp [hlen, hfull]), hroom, take_succ_cons, append_assoc, singleton_append]

/-- The loop over the entries of limine stops at a full table. -/
theorem limineLoop_eq (es : List (Option Entry)) (acc : List Region) :
    limineLoop acc es = ((es.filterMap id).map limineRegion).foldl mmapAddRegion acc := by
  induction es generalizing acc with
  | nil => rfl
  | cons e es ih =>
    unfold limineLoop
    split_ifs with hroom
    · cases e with
      | none => exact ih acc
      | some e =>
        rw [show (some e :: es).filterMap id = e :: es.filterMap id from rfl, map_cons, foldl_cons,
          ← ih]
        dsimp only
        split_ifs with hlen
        · rw [mmapAddRegion, if_pos (Or.inl (show (limineRegion e).length = 0 from hlen))]
        · rfl
    · rw [foldl_mmapAddRegion, Nat.sub_eq_zero_of_le (Nat.not_lt.mp hroom), take_zero, append_nil]

theorem regions_eq (info : Info) : regions info = info.recorded := by
  have hfold : ∀ rs : List Region,
      rs.foldl mmapAddRegion [] = (rs.filter fun r => 0 < r.length).take maxRegions :=
    fun rs => foldl_mmapAddRegion rs []
  unfold regions Info.recorded Info.map
  cases info.limine with
  | some es => exact (limineLoop_eq es []).trans (hfold _)
  | none =>
    cases info.multiboot with
    | some mb => exact (foldl_map ..).symm.trans (hfold _)
    | none => rfl

theorem mem_map_of_mem_recorded {r : Region} (h : r ∈ info.recorded) :
    r ∈ info.map ∧ 0 < r.length := by
  obtain ⟨hmem, hpos⟩ := mem_filter.mp (mem_of_mem_take h)
  exact ⟨hmem, of_decide_eq_true hpos⟩

/-! ### The marks -/

def regionMark (r : Region) : Mark := ⟨decide (r.type = .usable), r.base, r.length⟩

/-- The marks behind those of the regions. -/
def ownMarks (info : Info) : List Mark :=
  [⟨false, 0, 0x100000⟩, ⟨false, 0x100000, u64Sub info.kernelEnd 0x100000⟩] ++
    (multiboot2Module info).toList.map fun m => ⟨false, m.1, m.2⟩

/-- The marking calls that are made, in order. -/
def marks (info : Info) : List Mark :=
  if (regions info).length > 0 then (regions info).map regionMark ++ ownMarks info else []

theorem reserved_apply (s : State) (base length : Nat) :
    (Mark.mk false base length).apply s = pmmMarkReserved s base length := rfl

theorem foldl_regionMark (rs : List Region) (s : State) :
    (rs.map regionMark).foldl (fun s m => m.apply s) s = rs.foldl markRegion s := by
  rw [foldl_map]
  unfold Mark.apply regionMark markRegion
  simp only [decide_eq_true_eq]

theorem foldl_kernelMarks (s : State) (rest : Nat) :
    ([⟨false, 0, 0x100000⟩, ⟨false, 0x100000, rest⟩] : List Mark).foldl (fun s m => m.apply s) s =
      pmmMarkReserved (pmmMarkReserved s 0 0x100000) 0x100000 rest := by
  rw [foldl_cons, foldl_cons, foldl_nil, reserved_apply, reserved_apply]

theorem foldl_moduleMark (s : State) (m : Option (Nat × Nat)) :
    (m.toList.map fun m => Mark.mk false m.1 m.2).foldl (fun s m => m.apply s) s =
      m.elim s fun m => pmmMarkReserved s m.1 m.2 := by
  cases m <;> rfl

theorem initMemory_eq (info : Info) :
    initMemory info =
      (marks info).foldl (fun s m => m.apply s) (pmmInit (mmapHighestAddr (regions info))) := by
  unfold initMemory marks
  by_cases hsome : (regions info).length > 0
  · rw [if_pos hsome, if_pos hsome, ownMarks, foldl_append, foldl_append, foldl_regionMark,
      foldl_kernelMarks, foldl_moduleMark]
    cases multiboot2Module info with
    | none => rw [Option.elim_none]
    | some m => rw [Option.elim_some]
  · rw [if_neg hsome, if_neg hsome]
    have hnil : regions info = [] := length_eq_zero_iff.mp (by omega)
    rw [hnil]
    rfl

theorem initMemory_sized (info : Info) : Sized (initMemory info) := by
  rw [initMemory_eq]
  exact (foldl_marks _ (pmmInit_sized _)).1

/-! ### What the marks of a map reach -/

theorem hits_usable {u : Region} (hfit : u.base + u.length < 2 ^ 64) (htype : u.type = .usable)
    (hk : k < maxFrames) : (regionMark u).Hits k ↔ Releases u k := by
  have husable : decide (u.type = .usable) = true := decide_eq_true htype
  simp only [Mark.Hits, Mark.first, Mark.behind, regionMark, husable, if_true, Releases,
    u64_of_lt hfit]
  unfold u64 frameSize
  unfold maxFrames at hk
  omega

theorem hits_reserved {w : Region} (hfit : w.base + w.length < 2 ^ 64) (hpos : 0 < w.length)
    (htype : w.type ≠ .usable) : (regionMark w).Hits k ↔ Reserves w k := by
  have husable : decide (w.type = .usable) = false := decide_eq_false htype
  simp only [Mark.Hits, Mark.first, Mark.behind, regionMark, husable, Bool.false_eq_true,
    if_false, Reserves, Touches, u64_of_lt hfit]
  unfold u64 frameSize
  omega

theorem writes_false_iff {u : Region} (hfit : u.base + u.length < 2 ^ 64) (hk : k < maxFrames) :
    (regionMark u).writes k = some false ↔ u.type = .usable ∧ Releases u k := by
  by_cases htype : u.type = .usable
  · have husable : (regionMark u).usable = true := decide_eq_true htype
    simp [Mark.writes, husable, htype, hits_usable hfit htype hk]
  · have husable : (regionMark u).usable = false := decide_eq_false htype
    simp [Mark.writes, husable, htype]

theorem writes_only_false_iff {w : Region} (hfit : w.base + w.length < 2 ^ 64)
    (hpos : 0 < w.length) :
    (∀ v, (regionMark w).writes k = some v → v = false) ↔ (w.type ≠ .usable → ¬ Reserves w k) := by
  by_cases htype : w.type = .usable
  · have husable : (regionMark w).usable = true := decide_eq_true htype
    simp [Mark.writes, husable, htype]
  · have husable : (regionMark w).usable = false := decide_eq_false htype
    simp [Mark.writes, husable, htype, hits_reserved hfit hpos htype]

theorem own_iff (h : info.Sane) : info.Own k ↔ ∃ m ∈ ownMarks info, m.Hits k := by
  have hrest : u64Sub info.kernelEnd 0x100000 = info.kernelEnd - 0x100000 :=
    u64Sub_of_le h.kernelStart (by have := h.kernelFits; omega)
  have hkernel : k * frameSize < info.kernelEnd ↔ (Mark.mk false 0 0x100000).Hits k ∨
      (Mark.mk false 0x100000 (info.kernelEnd - 0x100000)).Hits k := by
    have hstart := h.kernelStart
    have hfits := h.kernelFits
    simp only [Mark.Hits, Mark.first, Mark.behind, Bool.false_eq_true, if_false]
    unfold u64 frameSize
    omega
  rw [Info.Own, hkernel, ownMarks, hrest, multiboot2Module]
  cases hbind : info.multiboot.bind Multiboot.module with
  | none => simp
  | some m =>
    have hm := h.moduleFits m hbind
    by_cases hle : m.2 < m.1
    · simp [hle, Nat.not_le.mpr hle]
    · have hhits : (Mark.mk false m.1 (m.2 - m.1)).Hits k ↔
          m.1 < (k + 1) * frameSize ∧ k * frameSize < m.2 := by
        simp only [Mark.Hits, Mark.first, Mark.behind, Bool.false_eq_true, if_false]
        unfold u64 frameSize
        omega
      simp [hle, Nat.not_lt.mp hle, hhits, or_assoc]

theorem foldl_highest (rs : List Region) (init : Nat) :
    init ≤ rs.foldl (fun highest r =>
      if u64 (r.base + r.length) > highest then u64 (r.base + r.length) else highest) init ∧
    ∀ u ∈ rs, u64 (u.base + u.length) ≤ rs.foldl (fun highest r =>
      if u64 (r.base + r.length) > highest then u64 (r.base + r.length) else highest) init := by
  induction rs generalizing init with
  | nil => exact ⟨Nat.le_refl _, fun u hu => absurd hu not_mem_nil⟩
  | cons r rs ih =>
    obtain ⟨hinit, hrest⟩ :=
      ih (if u64 (r.base + r.length) > init then u64 (r.base + r.length) else init)
    refine ⟨Nat.le_trans ?_ hinit, fun u hu => ?_⟩
    · split_ifs with hgt
      · exact Nat.le_of_lt hgt
      · exact Nat.le_refl _
    rcases mem_cons.mp hu with rfl | hmem
    · refine Nat.le_trans ?_ hinit
      split_ifs with hgt
      · exact Nat.le_refl _
      · exact Nat.not_lt.mp hgt
    · exact hrest u hmem

/-- There is a bit for every frame that a usable region of the table releases. -/
theorem lt_totalFrames {u : Region} (h : info.Sane) (hu : u ∈ info.recorded)
    (hk : k < maxFrames) (hrel : Releases u k) :
    k < (pmmInit (mmapHighestAddr (regions info))).totalFrames := by
  have hfit := h.fits u (mem_map_of_mem_recorded hu).1
  have hle : u.base + u.length ≤ mmapHighestAddr (regions info) := by
    have := (foldl_highest (regions info) 0).2 u (regions_eq info ▸ hu)
    rwa [u64_of_lt hfit] at this
  have hend : (k + 1) * frameSize ≤ u.base + u.length := by
    rcases hrel with ⟨-, hend⟩ | hlast
    · exact hend
    · unfold maxFrames at hk
      unfold frameSize at hlast ⊢
      omega
  exact Nat.lt_min.mpr ⟨(Nat.le_div_iff_mul_le (by decide)).mpr (hend.trans hle), hk⟩

theorem writes_ownMark {m : Mark} (hm : m ∈ ownMarks info) :
    m.writes k = if m.Hits k then some true else none := by
  have husable : m.usable = false := by
    simp only [ownMarks, cons_append, nil_append, mem_cons, mem_map] at hm
    rcases hm with rfl | rfl | ⟨_, -, rfl⟩ <;> rfl
  rw [Mark.writes, husable]
  rfl

/-- Some usable region of the table releases the frame, and none behind it reserves it. -/
def Released (info : Info) (k : Nat) : Prop :=
  ∃ before u after, info.recorded = before ++ u :: after ∧ u.type = .usable ∧ Releases u k ∧
    ∀ w ∈ after, w.type ≠ .usable → ¬ Reserves w k

theorem lastIs_regions (h : info.Sane) (hk : k < maxFrames) :
    LastIs (fun r => (regionMark r).writes k) false info.recorded ↔ Released info k := by
  rw [lastIs_iff_same]
  refine exists_congr fun before => exists_congr fun u => exists_congr fun after =>
    and_congr_right fun heq => ?_
  have hmem : ∀ r ∈ u :: after, r.base + r.length < 2 ^ 64 ∧ 0 < r.length := by
    intro r hr
    obtain ⟨hmap, hpos⟩ := mem_map_of_mem_recorded (heq ▸ mem_append_right before hr)
    exact ⟨h.fits r hmap, hpos⟩
  rw [writes_false_iff (hmem u mem_cons_self).1 hk, and_assoc]
  refine and_congr_right fun _ => and_congr_right fun _ => forall_congr' fun w =>
    forall_congr' fun hw => ?_
  obtain ⟨hfit, hpos⟩ := hmem w (mem_cons_of_mem u hw)
  exact writes_only_false_iff hfit hpos

/-- **Which frames are free after boot**, for every map. -/
theorem initMemory_free (h : info.Sane) :
    IsFree (initMemory info) k ↔ k < maxFrames ∧ ¬ info.Own k ∧ Released info k := by
  have hlast : k < maxFrames → (LastIs (Mark.writes k) false (marks info) ↔
      ¬ info.Own k ∧ Released info k) := by
    intro hk
    have hown : (∀ m ∈ ownMarks info, m.writes k = none) ↔ ¬ info.Own k := by
      rw [own_iff h]
      simp [Mark.writes]
    have hkept : ¬ LastIs (Mark.writes k) false (ownMarks info) := by
      rintro ⟨pre, m, post, heq, hm, -⟩
      rw [writes_ownMark (heq ▸ mem_append_right _ mem_cons_self)] at hm
      split_ifs at hm
      cases hm
    rw [marks, regions_eq]
    split_ifs with hsome
    · rw [lastIs_append, or_iff_right hkept, lastIs_map, lastIs_regions h hk, hown, and_comm]
    · have hnil : info.recorded = [] := length_eq_zero_iff.mp (by omega)
      simp [LastIs, Released, hnil]
  rw [initMemory_eq, marks_free]
  constructor
  · rintro ⟨hlt, hmarks⟩
    have hk := (Nat.lt_min.mp hlt).2
    exact ⟨hk, (hlast hk).mp hmarks⟩
  · rintro ⟨hk, hrest⟩
    obtain ⟨before, u, after, heq, -, hrel, -⟩ := hrest.2
    exact ⟨lt_totalFrames h (heq ▸ mem_append_right _ mem_cons_self) hk hrel, (hlast hk).mpr hrest⟩

/-- No frame that touches a region not marked usable is free after boot, and none is
returned by any later allocation. -/
def ReservedSafe (info : Info) : Prop :=
  ∀ r ∈ info.map, r.type ≠ .usable → ∀ k, Touches r k →
    ¬ IsFree (initMemory info) k ∧
      ∀ calls t c, Run.run allocStep (initMemory info) calls = some t → k ∉ handedOut t c

/-- **Reserved memory is safe exactly when no usable region has the last word** on any of
its frames that the kernel does not keep for itself. -/
theorem reserved_safe_iff (info : Info) (h : info.Sane) :
    ReservedSafe info ↔
      ∀ r ∈ info.map, r.type ≠ .usable → ∀ k < maxFrames, Touches r k →
        info.Own k ∨ ∀ before u after, info.recorded = before ++ u :: after →
          u.type = .usable → Releases u k → ∃ w ∈ after, w.type ≠ .usable ∧ Reserves w k := by
  have hnot : ∀ k, ¬ Released info k ↔ ∀ before u after, info.recorded = before ++ u :: after →
      u.type = .usable → Releases u k → ∃ w ∈ after, w.type ≠ .usable ∧ Reserves w k := by
    intro k
    simp only [Released, not_exists, not_and, not_forall, not_not, exists_prop]
  constructor
  · intro hsafe r hr htype k hk htouch
    rw [← hnot, or_iff_not_imp_left]
    intro hown hreleased
    exact (hsafe r hr htype k htouch).1 ((initMemory_free h).mpr ⟨hk, hown, hreleased⟩)
  · intro hcond r hr htype k htouch
    have hfree : ¬ IsFree (initMemory info) k := by
      intro hfree
      obtain ⟨hk, hown, hreleased⟩ := (initMemory_free h).mp hfree
      exact (hnot k).mpr ((hcond r hr htype k hk htouch).resolve_left hown) hreleased
    exact ⟨hfree, fun calls t c hrun hout =>
      hfree (alloc_run_free (initMemory_sized info) hrun c k hout)⟩

/-- Three megabytes of usable memory, then a page of firmware in them. -/
def inOrder : Info :=
  { limine := some [some ⟨0, 0x300000, 0⟩, some ⟨0x200000, 0x1000, 1⟩]
    multiboot := none
    kernelEnd := 0x180000 }

theorem inOrder_sane : inOrder.Sane := ⟨by decide, by decide, by decide, by simp [inOrder]⟩

theorem reserved_safe_iff_inOrder : ReservedSafe inOrder := by
  refine (reserved_safe_iff inOrder inOrder_sane).mpr fun r hr htype k hk htouch => Or.inr ?_
  have hrecorded : inOrder.recorded = [⟨0, 0x300000, .usable⟩, ⟨0x200000, 0x1000, .reserved⟩] := rfl
  obtain rfl : r = ⟨0x200000, 0x1000, .reserved⟩ := by
    rcases mem_pair.mp (show r ∈ [(⟨0, 0x300000, .usable⟩ : Region), _] from hr) with rfl | rfl
    · exact absurd rfl htype
    · rfl
  intro before u after heq husable _
  rw [hrecorded] at heq
  rcases before with - | ⟨_, - | ⟨_, before⟩⟩
  · obtain ⟨-, rfl⟩ := cons.inj heq
    exact ⟨_, mem_singleton_self _, htype, htouch, by decide⟩
  · obtain ⟨-, heq⟩ := cons.inj heq
    obtain ⟨rfl, -⟩ := cons.inj heq
    cases husable
  · simp at heq

/-- A page of firmware, then three megabytes of usable memory around it. -/
def overlap : Info :=
  { limine := some [some ⟨0x200000, 0x1000, 1⟩, some ⟨0, 0x300000, 0⟩]
    multiboot := none
    kernelEnd := 0x180000 }

theorem overlap_sane : overlap.Sane := ⟨by decide, by decide, by decide, by simp [overlap]⟩

/-- The page is free after boot. -/
theorem overlap_released : ¬ ReservedSafe overlap := by
  intro hsafe
  have htouch : Touches ⟨0x200000, 0x1000, .reserved⟩ 0x200 := by
    unfold Touches
    decide
  have hfree : IsFree (initMemory overlap) 0x200 := by
    rw [initMemory_free overlap_sane]
    refine ⟨by decide, ?_, [⟨0x200000, 0x1000, .reserved⟩], ⟨0, 0x300000, .usable⟩, [], rfl, rfl,
      Or.inl (by decide), fun w hw => absurd hw not_mem_nil⟩
    unfold Info.Own
    simp [overlap, frameSize]
  exact (hsafe ⟨0x200000, 0x1000, .reserved⟩ (by decide) (by decide) 0x200 htouch).1 hfree

end Nv0ken.Boot
