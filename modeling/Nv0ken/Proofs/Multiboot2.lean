/-
The search for a tag of the boot loader.

The search looks at the size of a tag only to go on to the next one.  It does not compare
it with the size of the block, so it may return a tag that reaches beyond the block; and a
size close to `2 ^ 32` is rounded up to 0, so it may stay at one tag for ever.  Neither
happens exactly if every tag on the way lies inside the block (`find_tag_safe_iff`): such a
tag is short enough to be passed, and one that is not can be searched for.
-/
import Nv0ken.Kernel.Multiboot2

namespace Nv0ken.Boot

open Wire

variable {info : InfoBlock} {wanted cursor rounds occurrence : Nat} {r : Option Nat}

/-- The search returns, and a tag it returns lies inside the block. -/
def SearchSafe (magic : Nat) (info : Option InfoBlock) (wanted occurrence : Nat) : Prop :=
  ∃ rounds r, findTag magic info wanted occurrence rounds = some r ∧
    ∀ tag block, r = some tag → info = some block → tag + tagSize block tag ≤ word32 block 0

/-- The places the loop comes to. -/
inductive Met (info : InfoBlock) : Nat → Prop
  | first : Met info 8
  | next {cursor : Nat} (hmet : Met info cursor) (htag : AtTag info cursor) :
      Met info (cursor + tagAdvance info cursor)

/-- Every tag up to the end tag ends inside the block. -/
def TagsInside (info : InfoBlock) : Prop :=
  ∀ tag, Met info tag → AtTag info tag → tag + tagSize info tag ≤ word32 info 0

theorem word32_lt (info : InfoBlock) (offset : Nat) : word32 info offset < 2 ^ 32 := by
  simpa [word32] using leValue_lt ((List.range 4).map fun i => info (offset + i))

/-- More rounds do not change what is returned. -/
theorem findTagLoop_mono (h : findTagLoop info wanted rounds cursor occurrence = some r) (k : Nat) :
    findTagLoop info wanted (rounds + k) cursor occurrence = some r := by
  fun_induction findTagLoop info wanted rounds cursor occurrence with
  | case1 => cases h
  | case2 cursor rounds occurrence hend => simpa [Nat.succ_add, findTagLoop, hend] using h
  | case3 cursor rounds hat htype => simpa [Nat.succ_add, findTagLoop, hat, htype] using h
  | case4 cursor rounds hat htype occurrence ih =>
    simpa [Nat.succ_add, findTagLoop, hat, htype] using ih h
  | case5 cursor rounds occurrence hat htype ih =>
    simpa [Nat.succ_add, findTagLoop, hat, htype] using ih h

/-- The loop can be made to come to every place it may come to. -/
theorem findTagLoop_met (hmet : Met info cursor) (wanted : Nat) :
    ∃ passed counted, ∀ rounds occurrence,
      findTagLoop info wanted (rounds + passed) 8 (occurrence + counted) =
        findTagLoop info wanted rounds cursor occurrence := by
  induction hmet with
  | first => exact ⟨0, 0, fun _ _ => rfl⟩
  | @next cursor _ htag ih =>
    obtain ⟨passed, counted, h⟩ := ih
    by_cases htype : tagType info cursor = wanted
    · refine ⟨passed + 1, counted + 1, fun rounds occurrence => ?_⟩
      rw [show rounds + (passed + 1) = rounds + 1 + passed by omega,
        show occurrence + (counted + 1) = occurrence + 1 + counted by omega, h]
      simp [findTagLoop, htag, htype]
    · refine ⟨passed + 1, counted, fun rounds occurrence => ?_⟩
      rw [show rounds + (passed + 1) = rounds + 1 + passed by omega, h]
      simp [findTagLoop, htag, htype]

theorem Met.low (hmet : Met info cursor) : 8 ≤ cursor := by
  induction hmet with
  | first => exact Nat.le_refl 8
  | next _ _ ih => omega

/-- Where all tags lie inside, every round brings the loop nearer to the end. -/
theorem findTagLoop_inside (hinside : TagsInside info) (hmet : Met info cursor)
    (hrounds : word32 info 0 < cursor + 8 + rounds) (wanted occurrence : Nat) :
    ∃ r, findTagLoop info wanted (rounds + 1) cursor occurrence = some r ∧
      ∀ tag, r = some tag → tag + tagSize info tag ≤ word32 info 0 := by
  induction rounds generalizing cursor occurrence with
  | zero =>
    have hend : ¬ AtTag info cursor := fun h => absurd h.1 (by omega)
    exact ⟨none, by simp [findTagLoop, hend], by simp⟩
  | succ rounds ih =>
    by_cases htag : AtTag info cursor
    · have hend := hinside cursor hmet htag
      have hpast : 8 ≤ tagAdvance info cursor := by
        have hlow := hmet.low
        have hlt := word32_lt info 0
        have hsize := htag.2.2
        unfold tagAdvance
        omega
      have hnext := ih (hmet.next htag) (by omega)
      by_cases htype : tagType info cursor = wanted
      · cases occurrence with
        | zero =>
          refine ⟨some cursor, by simp [findTagLoop, htag, htype], ?_⟩
          rintro tag ⟨⟩
          exact hend
        | succ occurrence => simpa [findTagLoop, htag, htype] using hnext occurrence
      · simpa [findTagLoop, htag, htype] using hnext occurrence
    · exact ⟨none, by simp [findTagLoop, htag], by simp⟩

/-- **When a search for a tag is safe.**  For every boot loader magic and every information
block, all searches return, and with tags only that lie inside the block, exactly if every
tag up to the end tag lies inside the block (where a block is searched at all). -/
theorem find_tag_safe_iff (magic : Nat) (info : Option InfoBlock) :
    (∀ wanted occurrence, SearchSafe magic info wanted occurrence) ↔
      ∀ block, info = some block → magic = multiboot2Magic → 16 ≤ word32 block 0 →
        TagsInside block := by
  constructor
  · rintro hsafe block rfl rfl htotal tag hmet htag
    obtain ⟨passed, counted, hreach⟩ := findTagLoop_met hmet (tagType block tag)
    obtain ⟨rounds, r, hfound, hinside⟩ := hsafe (tagType block tag) counted
    rw [findTag, if_neg (by simp [htotal])] at hfound
    have hmore := findTagLoop_mono hfound (1 + passed)
    have hhere := hreach (rounds + 1) 0
    rw [Nat.zero_add, Nat.add_assoc, hmore] at hhere
    simp only [findTagLoop, htag, not_true_eq_false, if_false, if_true] at hhere
    exact hinside tag block (Option.some.inj hhere) rfl
  · intro hinside wanted occurrence
    cases info with
    | none => exact ⟨0, none, rfl, by simp⟩
    | some block =>
      by_cases hsearch : magic ≠ multiboot2Magic ∨ word32 block 0 < 16
      · exact ⟨0, none, by rw [findTag, if_pos hsearch], by simp⟩
      · have htags := hinside block rfl (by omega) (by omega)
        have hrounds : word32 block 0 < 8 + 8 + word32 block 0 := by omega
        obtain ⟨r, hfound, hin⟩ := findTagLoop_inside htags .first hrounds wanted occurrence
        refine ⟨word32 block 0 + 1, r, by rw [findTag, if_neg hsearch, hfound], ?_⟩
        rintro tag _ htag ⟨⟩
        exact hin tag htag

/-- A block of 24 bytes with one tag, of 100 bytes. -/
def longTag : InfoBlock := fun i => [24, 0, 0, 0, 0, 0, 0, 0, 1, 0, 0, 0, 100, 0, 0, 0].getD i 0

theorem long_tag_found :
    word32 longTag 0 = 24 ∧ tagSize longTag 8 = 100 ∧
      ¬ SearchSafe multiboot2Magic (some longTag) 1 0 := by
  refine ⟨by decide, by decide, ?_⟩
  rintro ⟨rounds, r, hr, hinside⟩
  cases rounds with
  | zero => cases hr
  | succ rounds =>
    exact absurd (hinside 8 longTag (Option.some.inj hr).symm rfl) (by decide)

end Nv0ken.Boot
