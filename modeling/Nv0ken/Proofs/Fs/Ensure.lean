/-
One entry of the ramdisk, on the table of paths.

`ensure_directories` makes a directory of every place on the way that is not there yet; it fails at
a place whose own directory turns out to be a file (`Blocked`).  Then the entry itself is placed: a
directory like those on the way, a file by writing it over what is there, unless that is a
directory.  `loadEntry_ok` and `loadEntry_fails` say so: which table an entry leaves, and that it
fails exactly when `EntryOk` does not hold.
-/
import Nv0ken.Proofs.Fs.Items

namespace Nv0ken.Fs

open Pieces List Option

variable {s : Vfs} {path bytes : List UInt8} {F G : List (List UInt8)} {heap : Heap} {K : Table}
  {item : Item} {seen L : List (List (List UInt8))}

/-! ### Tables -/

/-- There is something other than a directory under this path. -/
def Table.FileAt (K : Table) (F : List (List UInt8)) : Prop :=
  ∃ item, K F = some item ∧ item.type ≠ .dir

/-- The place of this path is in something other than a directory. -/
def Table.Blocked (K : Table) (F : List (List UInt8)) : Prop := ∃ G c, F = G ++ [c] ∧ K.FileAt G

instance lawfulPaths : LawfulBEq (List (List UInt8)) := inferInstance

/-- The table with directories under those of the paths that are free. -/
def Table.withDirs (K : Table) (L : List (List (List UInt8))) : Table := fun F =>
  match K F with
  | some item => some item
  | none => if F ∈ L then some (Item.new .dir) else none

theorem withDirs_of_some (h : K F = some item) : K.withDirs L F = some item := by
  unfold Table.withDirs
  rw [h]

theorem withDirs_of_none (h : K F = none) :
    K.withDirs L F = if F ∈ L then some (Item.new .dir) else none := by
  unfold Table.withDirs
  rw [h]

theorem withDirs_of_present (h : ∀ F ∈ L, (K F).isSome) : K.withDirs L = K := by
  funext F
  cases hF : K F with
  | some item => rw [withDirs_of_some hF]
  | none =>
    have hnot : F ∉ L := fun hmem => by simpa [hF] using h F hmem
    rw [withDirs_of_none hF, if_neg hnot]

theorem withDirs_singleton_of_none (h : K F = none) : K.withDirs [F] = K.set F (Item.new .dir) := by
  funext G
  rw [Table.set_apply]
  by_cases hGF : G = F
  · rw [hGF, if_pos rfl, withDirs_of_none h, if_pos (mem_singleton_self F)]
  · rw [if_neg hGF]
    cases hG : K G with
    | some item => rw [withDirs_of_some hG]
    | none => simp [withDirs_of_none hG, hGF]

theorem withDirs_append (K : Table) (L M : List (List (List UInt8))) :
    (K.withDirs L).withDirs M = K.withDirs (L ++ M) := by
  funext F
  cases hF : K F with
  | some item => rw [withDirs_of_some (withDirs_of_some hF), withDirs_of_some hF]
  | none =>
    have hL := withDirs_of_none (L := L) hF
    rw [withDirs_of_none hF]
    by_cases hmem : F ∈ L
    · rw [if_pos hmem] at hL
      rw [withDirs_of_some hL, if_pos (mem_append_left M hmem)]
    · rw [if_neg hmem] at hL
      simp [withDirs_of_none hL, hmem]

/-- A new item of a table with new directories is a new directory. -/
theorem withDirs_cases (h : K.withDirs L F = some item) :
    K F = some item ∨ item = Item.new .dir := by
  cases hF : K F with
  | some old =>
    rw [withDirs_of_some hF] at h
    exact Or.inl h
  | none =>
    rw [withDirs_of_none hF] at h
    split_ifs at h
    exact Or.inr (some.inj h).symm

theorem file_of_withDirs (h : K.withDirs L F = some item) (htype : item.type = .file) :
    K F = some item := by
  rcases withDirs_cases h with hold | hnew
  · exact hold
  · rw [hnew] at htype
    exact absurd htype (by decide)

theorem fits_withDirs (hfits : ∀ F item, K F = some item → item.size ≤ item.block.length)
    (h : K.withDirs L F = some item) : item.size ≤ item.block.length := by
  rcases withDirs_cases h with hold | hnew
  · exact hfits F item hold
  · rw [hnew]
    exact Nat.le_refl 0

/-- New directories are no files. -/
theorem fileAt_withDirs : (K.withDirs L).FileAt F ↔ K.FileAt F := by
  unfold Table.FileAt
  cases h : K F with
  | some item => rw [withDirs_of_some h]
  | none =>
    rw [withDirs_of_none h]
    split_ifs with hmem
    · simp [Item.new]
    · exact Iff.rfl

theorem blocked_withDirs : (K.withDirs L).Blocked F ↔ K.Blocked F := by
  unfold Table.Blocked
  simp only [fileAt_withDirs]

/-- What is there is in a directory. -/
theorem Shows.not_blocked (hs : Shows s K) (h : K F = some item) : ¬ K.Blocked F := by
  intro ⟨G, c, hF, parent, hparent, htype⟩
  rw [hF] at h
  obtain ⟨parent', hparent', hdir⟩ := hs.parent h
  obtain rfl := some.inj (hparent.symm.trans hparent')
  exact htype hdir

/-- A place that is free is in something, or the place before it is free as well. -/
theorem Shows.free (hs : Shows s K) (h : K F = none) : ∃ G c, F = G ++ [c] := by
  rcases eq_nil_or_concat F with rfl | ⟨G, c, rfl⟩
  · have hroot := hs.root
    rw [h] at hroot
    exact absurd hroot (by simp)
  · exact ⟨G, c, concat_eq_append⟩

/-! ### Making sure of a node -/

/-- What making sure of a node under a path does: nothing if it is there, a new node if it is not
and its place is not blocked. -/
theorem lookupOrCreate_dir (hheap : heap.Succeeds) (hs : Shows s K)
    (hform : normalForm pathMax path = some F) (hshort : Short F)
    (hparent : (K F.dropLast).isSome) :
    (¬ K.Blocked F → ∃ s' id, lookupOrCreate heap s path .dir = (s', some id) ∧
      Shows s' (K.withDirs [F])) ∧
      (K.Blocked F → lookupOrCreate heap s path .dir = (s, none)) := by
  cases hF : K F with
  | some item =>
    obtain ⟨id, hrun, -⟩ := @lookupOrCreate_found s path F .dir heap K item hs hform hshort hF
    refine ⟨fun _ => ⟨s, id, hrun, ?_⟩, fun hb => absurd hb (hs.not_blocked hF)⟩
    rw [withDirs_of_present (by simp [hF])]
    exact hs
  | none =>
    obtain ⟨G, c, rfl⟩ := hs.free hF
    rw [dropLast_concat] at hparent
    obtain ⟨parent, hparent⟩ := isSome_iff_exists.mp hparent
    constructor
    · intro hfree
      have htype : parent.type = .dir := by
        by_contra hne
        exact hfree ⟨G, c, rfl, parent, hparent, hne⟩
      obtain ⟨s', id, hrun, -, hs'⟩ :=
        @lookupOrCreate_made s path c G .dir heap K parent hheap hs hform hshort hF hparent htype
      refine ⟨s', id, hrun, ?_⟩
      rw [withDirs_singleton_of_none hF]
      exact hs'
    · intro ⟨G', c', heq, parent', hparent', htype⟩
      obtain ⟨rfl, -⟩ := append_inj' heq rfl
      exact lookupOrCreate_refused hs hform hshort hF hparent' htype

theorem isSome_withDirs_of_mem (h : F ∈ L) : (K.withDirs L F).isSome := by
  cases hF : K F with
  | some item =>
    rw [withDirs_of_some hF]
    rfl
  | none =>
    rw [withDirs_of_none hF, if_pos h]
    rfl

theorem isSome_withDirs (h : (K F).isSome) : (K.withDirs L F).isSome := by
  obtain ⟨item, hitem⟩ := isSome_iff_exists.mp h
  rw [withDirs_of_some hitem]
  rfl

/-! ### The directories on the way -/

/-- What is asked of a path: it starts with a slash, it fits, and no component is cut. -/
structure PathOk (path : List UInt8) : Prop where
  rooted : ∃ rest, path = slash :: rest
  fits : path.length < pathMax
  short : ∀ c ∈ pieces slash path, c.length ≤ nameMax - 1

theorem PathOk.normalForm (h : PathOk path) : normalForm pathMax path = some (target path) := by
  obtain ⟨rest, rfl⟩ := h.rooted
  exact normalForm_eq h.fits

theorem PathOk.short_target (h : PathOk path) : Short (target path) := by
  intro c hc
  rcases mem_follow hc with hnil | hpieces
  · exact absurd hnil not_mem_nil
  · exact h.short c hpieces

/-- What stands before a slash is such a path as well. -/
theorem PathOk.before {before rest : List UInt8} (h : PathOk (slash :: before ++ slash :: rest)) :
    PathOk (slash :: before) := by
  refine ⟨⟨before, rfl⟩, ?_, ?_⟩
  · have hlen := h.fits
    rw [length_append] at hlen
    omega
  · intro c hc
    refine h.short c ?_
    rw [pieces_append]
    exact mem_append_left _ hc

theorem ensureLoop_spec (hheap : heap.Succeeds) (before rest : List UInt8)
    (hpath : PathOk (slash :: before ++ rest)) (hs : Shows s K)
    (hground : Grounded seen (stops (slash :: before) rest)) (hseen : ∀ F ∈ seen, (K F).isSome) :
    ((∀ F ∈ stops (slash :: before) rest, ¬ K.Blocked F) →
      ∃ s', ensureLoop heap s (slash :: before) rest = (s', true) ∧
        Shows s' (K.withDirs (stops (slash :: before) rest))) ∧
    ((∃ F ∈ stops (slash :: before) rest, K.Blocked F) →
      ∃ s', ensureLoop heap s (slash :: before) rest = (s', false)) := by
  induction rest generalizing s K before seen with
  | nil =>
    refine ⟨fun _ => ⟨s, rfl, ?_⟩, ?_⟩
    · rw [stops, withDirs_of_present (by simp)]
      exact hs
    · rintro ⟨F, hF, -⟩
      exact absurd hF not_mem_nil
  | cons x rest ih =>
    have happ : slash :: before ++ x :: rest = slash :: (before ++ [x]) ++ rest := by simp
    have hsnoc : slash :: before ++ [x] = slash :: (before ++ [x]) := rfl
    by_cases hx : x = slash
    · subst hx
      rw [ensureLoop]
      have hhere := hpath.before
      obtain ⟨hfree, hblocked⟩ := lookupOrCreate_dir hheap hs hhere.normalForm hhere.short_target
        (hseen _ hground.1)
      by_cases hb : K.Blocked (target (slash :: before))
      · rw [hblocked hb]
        exact ⟨fun h => absurd hb (h _ (mem_cons_self ..)), fun _ => ⟨s, rfl⟩⟩
      · obtain ⟨s', id, hrun, hs'⟩ := hfree hb
        have hseen' : ∀ F ∈ target (slash :: before) :: seen,
            (K.withDirs [target (slash :: before)] F).isSome := by
          intro F hF
          rcases mem_cons.mp hF with rfl | hF
          · exact isSome_withDirs_of_mem (mem_singleton_self _)
          · exact isSome_withDirs (hseen F hF)
        rw [happ] at hpath
        obtain ⟨hok, hfail⟩ := ih (before ++ [slash]) hpath hs' hground.2 hseen'
        simp only [blocked_withDirs, withDirs_append, singleton_append] at hok hfail
        rw [hrun]
        constructor
        · intro hall
          exact hok fun F hF => hall F (mem_cons_of_mem _ hF)
        · rintro ⟨F, hF, hbF⟩
          rcases mem_cons.mp hF with rfl | hF
          · exact absurd hbF hb
          · exact hfail ⟨F, hF, hbF⟩
    · rw [stops, if_neg hx, hsnoc] at hground ⊢
      rw [ensureLoop, if_pos hx]
      rw [happ] at hpath
      exact ih (before ++ [x]) hpath hs hground hseen

theorem ensureDirectories_spec (hheap : heap.Succeeds) (hpath : PathOk path) (hs : Shows s K) :
    ((∀ F ∈ parents path, ¬ K.Blocked F) →
      ∃ s', ensureDirectories heap s path = (s', true) ∧ Shows s' (K.withDirs (parents path))) ∧
    ((∃ F ∈ parents path, K.Blocked F) → ∃ s', ensureDirectories heap s path = (s', false)) := by
  obtain ⟨rest, rfl⟩ := hpath.rooted
  have hroot : ∀ F ∈ ([[]] : List (List (List UInt8))), (K F).isSome := by
    intro F hF
    rw [mem_singleton.mp hF]
    exact hs.root
  unfold ensureDirectories
  rw [if_neg (Nat.not_le.mpr hpath.fits)]
  exact ensureLoop_spec hheap [] rest hpath hs (grounded_parents rest).1 hroot

/-- The directory of the entry itself is there once those on the way are. -/
theorem isSome_dropLast_target (hpath : PathOk path) (hs : Shows s K) :
    (K.withDirs (parents path) (target path).dropLast).isSome := by
  obtain ⟨rest, rfl⟩ := hpath.rooted
  rcases mem_cons.mp (grounded_parents rest).2 with hroot | hmem
  · rw [hroot]
    exact isSome_withDirs hs.root
  · exact isSome_withDirs_of_mem hmem

/-! ### The entry -/

/-- Nothing on the way to an entry, nor the entry, is in something other than a directory. -/
def Table.Open (K : Table) (path : List UInt8) : Prop :=
  ∀ F ∈ target path :: parents path, ¬ K.Blocked F

/-- There is a file under the path, or nothing, and the way there does not make a directory of
it. -/
def Table.Writable (K : Table) (path : List UInt8) : Prop :=
  match K (target path) with
  | some item => item.type = .file
  | none => target path ∉ parents path

theorem withDirs_append_target (K : Table) (path : List UInt8) :
    (K.withDirs (parents path)).withDirs [target path] =
      K.withDirs (target path :: parents path) := by
  rw [withDirs_append]
  unfold Table.withDirs
  simp [or_comm]

/-- **A directory entry**: it fails exactly when the way to it is not open. -/
theorem loadEntry_dir (hheap : heap.Succeeds) (index : Nat) (hpath : PathOk (stripSlashes path))
    (hs : Shows s K) :
    (K.Open (stripSlashes path) → ∃ s', loadEntry heap index s 53 path bytes = some (s', true) ∧
      Shows s' (K.withDirs (target (stripSlashes path) :: parents (stripSlashes path)))) ∧
    (¬ K.Open (stripSlashes path) → ∃ s', loadEntry heap index s 53 path bytes =
      some (s', false)) := by
  unfold loadEntry Table.Open
  generalize stripSlashes path = path at *
  obtain ⟨hok, hfail⟩ := ensureDirectories_spec hheap hpath hs
  by_cases hway : ∀ F ∈ parents path, ¬ K.Blocked F
  · obtain ⟨s', hrun, hs'⟩ := hok hway
    obtain ⟨hmade, hrefused⟩ := lookupOrCreate_dir hheap hs' hpath.normalForm hpath.short_target
      (isSome_dropLast_target hpath hs)
    rw [hrun, forall_mem_cons]
    simp only [blocked_withDirs] at hmade hrefused
    constructor
    · intro ⟨hfree, _⟩
      obtain ⟨s'', id, hlook, hs''⟩ := hmade hfree
      refine ⟨s'', ?_, ?_⟩
      · simp [placeEntry, hlook]
      · rw [withDirs_append_target] at hs''
        exact hs''
    · intro hnot
      have hblocked : K.Blocked (target path) := by
        by_contra hfree
        exact hnot ⟨hfree, hway⟩
      simp [placeEntry, hrefused hblocked]
  · obtain ⟨s', hrun⟩ := hfail (by simpa using hway)
    rw [hrun, forall_mem_cons]
    exact ⟨fun h => absurd h.2 hway, fun _ => ⟨s', rfl⟩⟩

/-- The size of what is under a path. -/
def Table.sizeAt (K : Table) (F : List (List UInt8)) : Nat := ((K F).map Item.size).getD 0

theorem sizeAt_of_some (h : K F = some item) : K.sizeAt F = item.size := by
  unfold Table.sizeAt
  rw [h]
  rfl

theorem sizeAt_of_none (h : K F = none) : K.sizeAt F = 0 := by
  unfold Table.sizeAt
  rw [h]
  rfl

/-- New directories have no size. -/
theorem sizeAt_withDirs : (K.withDirs L).sizeAt F = K.sizeAt F := by
  cases hF : K F with
  | some item => rw [sizeAt_of_some hF, sizeAt_of_some (withDirs_of_some hF)]
  | none =>
    unfold Table.sizeAt
    rw [withDirs_of_none hF, hF]
    split_ifs with hmem <;> rfl

theorem writable_iff :
    K.Writable path ↔ ∀ item, K.withDirs (parents path) (target path) = some item →
      item.type = .file := by
  unfold Table.Writable
  cases hF : K (target path) with
  | some item => simp [withDirs_of_some hF]
  | none =>
    rw [withDirs_of_none hF]
    by_cases hmem : target path ∈ parents path
    · simp [hmem, Item.new]
    · simp [hmem]

theorem set_set (K : Table) (F : List (List UInt8)) (a b : Item) :
    (K.set F a).set F b = K.set F b :=
  Function.update_idem ..

section

variable (hheap : heap.Succeeds) (index : Nat) {flag : UInt8} (hflag : flag = 0 ∨ flag = 48)
include hheap index hflag

/-- A file is found or made, and written. -/
theorem placeEntry_file (hpath : PathOk path) (hs : Shows s K)
    (hparent : (K (target path).dropLast).isSome)
    (hsizes : ∀ item, K (target path) = some item → item.size ≤ item.block.length)
    (hbytes : bytes.length < 2 ^ 31) :
    (¬ K.Blocked (target path) → (∀ item, K (target path) = some item → item.type = .file) →
      ∃ s' block, placeEntry heap index s flag path bytes = some (s', true) ∧
        max (K.sizeAt (target path)) bytes.length ≤ block.length ∧ block.take bytes.length = bytes ∧
        Shows s' (K.set (target path) ⟨.file, max (K.sizeAt (target path)) bytes.length, block⟩)) ∧
    (K.Blocked (target path) ∨ (∃ item, K (target path) = some item ∧ item.type ≠ .file) →
      ∃ s', placeEntry heap index s flag path bytes = some (s', false)) := by
  have hplace : placeEntry heap index s flag path bytes =
      (lookupOrCreate heap s path .file).2.elim (some ((lookupOrCreate heap s path .file).1, false))
        fun id => writeFile (lookupOrCreate heap s path .file).1 (heap.write index) id bytes := by
    have hother : ¬ flag = 53 := by
      rcases hflag with rfl | rfl <;> decide
    refine (if_neg hother).trans ((if_pos hflag).trans ?_)
    rcases lookupOrCreate heap s path .file with ⟨s', - | id⟩ <;> rfl
  rw [hplace]
  have hform := hpath.normalForm
  have hshort := hpath.short_target
  cases hF : K (target path) with
  | some item =>
    obtain ⟨id, hrun, hat⟩ :=
      @lookupOrCreate_found s path (target path) .file heap K item hs hform hshort hF
    rw [hrun, sizeAt_of_some hF]
    constructor
    · intro _ htype
      exact writeFile_file hheap index hs hat hF (htype item rfl) (hsizes item hF) hbytes
    · rintro (hblocked | ⟨item', hitem, htype⟩)
      · exact absurd hblocked (hs.not_blocked hF)
      · obtain rfl := some.inj hitem
        exact writeFile_other hs hat hF htype hbytes
  | none =>
    rw [sizeAt_of_none hF]
    obtain ⟨G, c, hG⟩ := hs.free hF
    rw [hG] at hform hshort hF ⊢
    rw [hG, dropLast_concat] at hparent
    obtain ⟨parent, hparent⟩ := isSome_iff_exists.mp hparent
    constructor
    · intro hfree _
      have htype : parent.type = .dir := by
        by_contra hne
        exact hfree ⟨G, c, rfl, parent, hparent, hne⟩
      obtain ⟨s', id, hrun, hat, hs'⟩ :=
        @lookupOrCreate_made s path c G .file heap K parent hheap hs hform hshort hF hparent htype
      have hnew : K.set (G ++ [c]) (Item.new .file) (G ++ [c]) = some (Item.new .file) := by
        rw [Table.set_apply, if_pos rfl]
      obtain ⟨s'', block, hwrite, hlen, htake, hs''⟩ :=
        writeFile_file hheap index hs' hat hnew rfl (Nat.le_refl 0) hbytes
      rw [hrun]
      rw [set_set] at hs''
      exact ⟨s'', block, hwrite, hlen, htake, hs''⟩
    · rintro (⟨G', c', heq, parent', hparent', htype⟩ | ⟨item, hitem, -⟩)
      · obtain ⟨rfl, -⟩ := append_inj' heq rfl
        rw [lookupOrCreate_refused hs hform hshort hF hparent' htype]
        exact ⟨s, rfl⟩
      · exact absurd hitem (some_ne_none _).symm

/-- **A file entry**: it fails exactly when the way is not open or there is no file to be
written. -/
theorem loadEntry_file (hpath : PathOk (stripSlashes path)) (hs : Shows s K)
    (hsizes : ∀ F item, K F = some item → item.size ≤ item.block.length)
    (hbytes : bytes.length < 2 ^ 31) :
    (K.Open (stripSlashes path) → K.Writable (stripSlashes path) →
      ∃ s' block, loadEntry heap index s flag path bytes = some (s', true) ∧
        max (K.sizeAt (target (stripSlashes path))) bytes.length ≤ block.length ∧
        block.take bytes.length = bytes ∧
        Shows s' ((K.withDirs (parents (stripSlashes path))).set (target (stripSlashes path))
          ⟨.file, max (K.sizeAt (target (stripSlashes path))) bytes.length, block⟩)) ∧
    (¬ (K.Open (stripSlashes path) ∧ K.Writable (stripSlashes path)) →
      ∃ s', loadEntry heap index s flag path bytes = some (s', false)) := by
  unfold loadEntry Table.Open
  generalize stripSlashes path = path at *
  obtain ⟨hok, hfail⟩ := ensureDirectories_spec hheap hpath hs
  by_cases hway : ∀ F ∈ parents path, ¬ K.Blocked F
  · obtain ⟨s', hrun, hs'⟩ := hok hway
    obtain ⟨hmade, hrefused⟩ := placeEntry_file hheap index hflag hpath hs'
      (isSome_dropLast_target hpath hs) (fun item hitem => fits_withDirs hsizes hitem) hbytes
    rw [hrun, forall_mem_cons, writable_iff]
    rw [blocked_withDirs, sizeAt_withDirs] at hmade
    rw [blocked_withDirs] at hrefused
    refine ⟨fun hopen hwritable => hmade hopen.1 hwritable, fun hnot => hrefused ?_⟩
    by_contra hcon
    rw [not_or] at hcon
    refine hnot ⟨⟨hcon.1, hway⟩, ?_⟩
    intro item hitem
    by_contra htype
    exact hcon.2 ⟨item, hitem, htype⟩
  · obtain ⟨s', hrun⟩ := hfail (by simpa using hway)
    rw [hrun, forall_mem_cons]
    exact ⟨fun h => absurd h.2 hway, fun _ => ⟨s', rfl⟩⟩

end

end Nv0ken.Fs
