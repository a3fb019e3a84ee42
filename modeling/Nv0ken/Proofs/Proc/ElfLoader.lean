/-
The images the ELF loader accepts.

The loader checks that the bytes of a segment lie in the file and that its addresses do not
wrap round.  It compares them with no limit of the user's part of the address space, and
the entry point only with the lowest and the highest address of all segments together.  So
an accepted image is as it should be exactly if its segments are placed so
(`accepted_safe_iff`): in the documented range, and with no gap between them at the entry.
What the comparison leaves open is such a gap (`entry_in_segment`).
-/
import Nv0ken.Kernel.Proc.ElfLoader

namespace Nv0ken.Proc

open Wire Word

variable {image : List UInt8} {e e' : Extent} {indices : List Nat} {k : Nat}

/-- Where the programs of users begin and the user's part of the address space ends,
`docs/memory_layout.md`. -/
def userBase : Nat := 0x400000

def userEnd : Nat := 0x800000000000

/-- The segments the image wants loaded. -/
def segments (image : List UInt8) : List ProgramHeader :=
  ((List.range (elfPhnum image)).map (programHeader image)).filter fun p => p.type = 1

/-- File ranges inside the image, memory ranges in the user's part, and the entry point in
one of them. -/
def LoadsSafely (image : List UInt8) (entry : Nat) : Prop :=
  (∀ p ∈ segments image, p.offset + p.filesz ≤ image.length ∧
    (p.memsz ≠ 0 → userBase ≤ p.vaddr ∧ p.vaddr + p.memsz ≤ userEnd)) ∧
    ∃ p ∈ segments image, p.vaddr ≤ entry ∧ entry < p.vaddr + p.memsz

/-- As the machine adds addresses, no segment leaves the user's part, and no gap between
the segments holds the entry point. -/
def WellPlaced (image : List UInt8) : Prop :=
  (∀ p ∈ segments image, p.memsz ≠ 0 → userBase ≤ p.vaddr ∧ p.stop ≤ userEnd) ∧
    ∃ p ∈ segments image, p.vaddr ≤ elfEntry image ∧ elfEntry image < p.stop

theorem elfField_lt (image : List UInt8) (offset : Nat) : elfField image offset 8 < 2 ^ 64 :=
  calc elfField image offset 8
      < 256 ^ ((image.drop offset).take 8).length := leValue_lt _
    _ ≤ 256 ^ 8 := Nat.pow_le_pow_right (by decide) (List.length_take_le _ _)

/-- What one round checks of a segment: its bytes are in the file, its end does not wrap. -/
def ProgramHeader.Checked (p : ProgramHeader) (image : List UInt8) : Prop :=
  p.offset + p.filesz ≤ image.length ∧ p.stop = p.vaddr + p.memsz

theorem loadSegment_some (h : loadSegment image e k = some e')
    (htype : (programHeader image k).type = 1) : (programHeader image k).Checked image := by
  have hmemsz : (programHeader image k).memsz < 2 ^ 64 := elfField_lt image _
  unfold loadSegment at h
  generalize programHeader image k = p at *
  by_cases hbad : p.offset > image.length ∨ p.filesz > image.length - p.offset ∨
      p.filesz > p.memsz ∨ p.stop < p.vaddr
  · simp [htype, hbad] at h
  · unfold ProgramHeader.Checked ProgramHeader.stop u64 at *
    omega

theorem checks_of_loop (h : indices.foldlM (loadSegment image) e = some e') (hk : k ∈ indices)
    (htype : (programHeader image k).type = 1) : (programHeader image k).Checked image := by
  induction indices generalizing e with
  | nil => cases hk
  | cons index indices ih =>
    rw [List.foldlM_cons] at h
    obtain ⟨next, hnext, hrest⟩ := Option.bind_eq_some_iff.mp h
    rcases List.mem_cons.mp hk with rfl | hk
    · exact loadSegment_some hnext htype
    · exact ih hrest hk

/-- Every bound the loop has is that of a segment, or the one it began with. -/
theorem bounds_of_loop (h : indices.foldlM (loadSegment image) e = some e')
    (hin : ∀ k ∈ indices, k < elfPhnum image) (x : Nat) :
    (e'.low ≤ x → e.low ≤ x ∨ ∃ p ∈ segments image, p.vaddr ≤ x) ∧
      (x < e'.high → x < e.high ∨ ∃ p ∈ segments image, x < p.stop) := by
  induction indices generalizing e with
  | nil =>
    obtain rfl := Option.some.inj h
    exact ⟨Or.inl, Or.inl⟩
  | cons k indices ih =>
    rw [List.foldlM_cons] at h
    obtain ⟨next, hnext, hrest⟩ := Option.bind_eq_some_iff.mp h
    have hlater := ih hrest fun k hk => hin k (List.mem_cons_of_mem _ hk)
    have hp (htype : (programHeader image k).type = 1) :
        programHeader image k ∈ segments image := by
      simp only [segments, List.mem_filter, List.mem_map, List.mem_range]
      exact ⟨⟨k, hin k List.mem_cons_self, rfl⟩, decide_eq_true htype⟩
    unfold loadSegment at hnext
    grind

/-- What is accepted has passed the loop, and the entry point lies between its bounds. -/
theorem loop_of_accepted {r : ElfLoadResult} (h : elfLoadProcess image = some r) :
    r.entry = elfEntry image ∧ ∃ e : Extent,
      (List.range (elfPhnum image)).foldlM (loadSegment image) {} = some e ∧
        e.low ≤ elfEntry image ∧ elfEntry image < e.high := by
  unfold elfLoadProcess at h
  split at h
  · cases h
  obtain ⟨e, hloop, hr⟩ := Option.bind_eq_some_iff.mp h
  split at hr
  · cases hr
  · obtain rfl := Option.some.inj hr
    exact ⟨rfl, e, hloop, by omega, by omega⟩

/-- A segment ends at or before the entry point, and another begins behind it. -/
def Gap (image : List UInt8) : Prop :=
  ∃ p ∈ segments image, ∃ q ∈ segments image,
    p.stop ≤ elfEntry image ∧ elfEntry image < q.vaddr

/-- The comparison with the lowest and the highest address leaves only a gap to be feared. -/
theorem entry_in_segment {r : ElfLoadResult} (haccepted : elfLoadProcess image = some r)
    (hgap : ¬ Gap image) :
    ∃ p ∈ segments image, p.vaddr ≤ elfEntry image ∧ elfEntry image < p.stop := by
  obtain ⟨-, e, hloop, hlow, hhigh⟩ := loop_of_accepted haccepted
  have hbounds := bounds_of_loop hloop (fun _ => List.mem_range.mp) (elfEntry image)
  obtain ⟨q, hq, hstop⟩ := (hbounds.2 hhigh).resolve_left (Nat.not_lt_zero _)
  have hlt : q.stop < 2 ^ 64 := Nat.mod_lt _ (by decide)
  obtain ⟨p, hp, hstart⟩ := (hbounds.1 hlow).resolve_left
    (show ¬ 2 ^ 64 - 1 ≤ elfEntry image by omega)
  by_contra hnone
  refine hgap ⟨p, hp, q, hq, Nat.not_lt.mp fun h => hnone ⟨p, hp, hstart, h⟩, ?_⟩
  exact Nat.not_le.mp fun h => hnone ⟨q, hq, h, hstop⟩

/-- **Which accepted images are safe.**  An image the loader accepts has the file ranges of
its segments inside the image, their memory inside the user's part of the address space and
the entry point in one of them, exactly if its segments are well placed. -/
theorem accepted_safe_iff (image : List UInt8) (r : ElfLoadResult)
    (haccepted : elfLoadProcess image = some r) : LoadsSafely image r.entry ↔ WellPlaced image := by
  obtain ⟨hentry, e, hloop, -, -⟩ := loop_of_accepted haccepted
  have hchecked (p) (hp : p ∈ segments image) : p.Checked image := by
    simp only [segments, List.mem_filter, List.mem_map, decide_eq_true_eq] at hp
    obtain ⟨⟨k, hk, rfl⟩, htype⟩ := hp
    exact checks_of_loop hloop hk htype
  rw [hentry]
  constructor
  · rintro ⟨hranges, p, hp, hlow, hhigh⟩
    refine ⟨fun q hq hmem => ?_, p, hp, hlow, by rwa [(hchecked p hp).2]⟩
    rw [(hchecked q hq).2]
    exact (hranges q hq).2 hmem
  · rintro ⟨hplaced, p, hp, hlow, hhigh⟩
    rw [(hchecked p hp).2] at hhigh
    refine ⟨fun q hq => ⟨(hchecked q hq).1, fun hmem => ?_⟩, p, hp, hlow, hhigh⟩
    rw [← (hchecked q hq).2]
    exact hplaced q hq hmem

/-- An image with one segment, which begins at the entry point. -/
def oneSegment (vaddr : Nat) : List UInt8 :=
  [0x7F, 69, 76, 70, 2, 1] ++ leBytes 12 0 ++ leBytes 6 0x3E ++ leBytes 8 vaddr ++ leBytes 8 64 ++
    leBytes 12 0 ++ leBytes 2 64 ++ leBytes 2 56 ++ leBytes 8 1 ++ leBytes 16 1 ++
    leBytes 16 vaddr ++ leBytes 8 120 ++ leBytes 16 4096

theorem accepted_safe_small : ∃ r, elfLoadProcess (oneSegment userBase) = some r ∧
    LoadsSafely (oneSegment userBase) r.entry := by
  have haccepted : elfLoadProcess (oneSegment userBase) =
      some ⟨userBase, userBase, userBase + 4096⟩ := by decide +kernel
  have hsegments : segments (oneSegment userBase) = [⟨1, 0, userBase, 120, 4096⟩] := by
    decide +kernel
  have hentry : elfEntry (oneSegment userBase) = userBase := by decide +kernel
  refine ⟨_, haccepted, (accepted_safe_iff _ _ haccepted).mpr ?_⟩
  rw [WellPlaced, hsegments, hentry]
  simp [ProgramHeader.stop, u64, userBase, userEnd]

/-- A segment over the kernel is accepted. -/
theorem kernel_range_accepted : ∃ r, elfLoadProcess (oneSegment 0xFFFFFFFF80000000) = some r ∧
    ¬ LoadsSafely (oneSegment 0xFFFFFFFF80000000) r.entry := by
  have haccepted : elfLoadProcess (oneSegment 0xFFFFFFFF80000000) =
      some ⟨0xFFFFFFFF80000000, 0xFFFFFFFF80000000, 0xFFFFFFFF80001000⟩ := by decide +kernel
  have hsegments : segments (oneSegment 0xFFFFFFFF80000000) =
      [⟨1, 0, 0xFFFFFFFF80000000, 120, 4096⟩] := by decide +kernel
  refine ⟨_, haccepted, ?_⟩
  simp [LoadsSafely, hsegments, userEnd]

end Nv0ken.Proc
