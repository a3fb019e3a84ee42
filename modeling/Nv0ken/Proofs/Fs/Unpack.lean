/-
What the loader makes of an archive.

Whether a path is a file or a directory is decided by the first entry that touches it: one that
leads to it, or one that passes it on the way to something else (`kindOf`).  From then on nothing
changes it, so the load fails at an entry that passes a file or that writes to a directory
(`EntryOk`); `allOk_iff` says what that asks of an archive as a whole.  A file is written over, and
never cut: its size is that of its longest entry, and its first bytes are those of its last entry
(`Represents`).  So an archive is unpacked as it should be exactly when, in addition, no file has an
entry that is longer than its last: `unpacked_iff`.
-/
import Nv0ken.Proofs.Fs.Ensure
import Nv0ken.Proofs.Fs.Tar

namespace Nv0ken.Fs

open Pieces List Option

variable {s : Vfs} {heap : Heap} {path : List UInt8} {F G : List (List UInt8)} {K : Table}
  {item : Item} {e d : Entry} {done archive : List Entry}

/-! ### Paths of entries -/

theorem stripLoop_spec (rev : List UInt8) :
    pieces slash (stripLoop rev).reverse = pieces slash rev.reverse ∧ stripLoop rev <:+ rev ∧
      (rev ≠ [] → stripLoop rev ≠ []) := by
  induction rev with
  | nil => exact ⟨rfl, suffix_refl _, fun h => h⟩
  | cons c rest ih =>
    rcases rest with _ | ⟨c', rest⟩
    · exact ⟨rfl, suffix_refl _, fun h => h⟩
    · rw [stripLoop]
      split_ifs with hc
      · refine ⟨?_, ih.2.1.trans (suffix_cons _ _), fun _ => ih.2.2 (cons_ne_nil _ _)⟩
        have hempty : pieces slash ([] : List UInt8) = [] := rfl
        have hlast : (c :: c' :: rest).reverse = (c' :: rest).reverse ++ slash :: [] := by
          rw [hc]
          exact reverse_cons
        rw [ih.1, hlast, pieces_append, hempty, append_nil]
      · exact ⟨rfl, suffix_refl _, fun h => h⟩

theorem pieces_stripSlashes (path : List UInt8) :
    pieces slash (stripSlashes path) = pieces slash path := by
  have h := (stripLoop_spec path.reverse).1
  rwa [reverse_reverse] at h

theorem target_stripSlashes (path : List UInt8) : target (stripSlashes path) = target path := by
  unfold target
  rw [pieces_stripSlashes]

/-- What is left starts with the first slash, and is not longer. -/
theorem stripSlashes_rooted (path : List UInt8) :
    ∃ rest, stripSlashes (slash :: path) = slash :: rest ∧
      (slash :: rest).length ≤ (slash :: path).length := by
  obtain ⟨-, ⟨front, hsuffix⟩, hne⟩ := stripLoop_spec (slash :: path).reverse
  have hfront : stripSlashes (slash :: path) ++ front.reverse = slash :: path := by
    have hrev := congrArg reverse hsuffix
    rwa [reverse_append, reverse_reverse] at hrev
  cases hstrip : stripSlashes (slash :: path) with
  | nil => exact absurd (reverse_eq_nil_iff.mp hstrip) (hne (by simp))
  | cons a rest =>
    rw [hstrip] at hfront
    have hlen := congrArg length hfront
    obtain rfl := (cons.inj hfront).1
    rw [length_append] at hlen
    exact ⟨rest, rfl, by omega⟩

theorem PathOk.stripSlashes (h : PathOk path) : PathOk (stripSlashes path) := by
  obtain ⟨rest, rfl⟩ := h.rooted
  obtain ⟨more, hstrip, hlen⟩ := stripSlashes_rooted rest
  refine ⟨⟨more, hstrip⟩, ?_, ?_⟩
  · have hfits := h.fits
    rw [hstrip]
    omega
  · rw [pieces_stripSlashes]
    exact h.short

/-! ### What an archive says of a path -/

/-- Where an entry leads. -/
def Entry.place (e : Entry) : List (List UInt8) := target e.path

/-- What an entry passes on its way. -/
def Entry.way (e : Entry) : List (List (List UInt8)) := parents (stripSlashes e.path)

def Entry.isFile (e : Entry) : Bool :=
  match e.content with
  | .directory => false
  | .file _ _ => true

def Entry.data (e : Entry) : List UInt8 := e.content.data

/-- The entry leads to the path or passes it. -/
def Entry.touches (e : Entry) (F : List (List UInt8)) : Bool := decide (F ∈ e.place :: e.way)

/-- What the entries make of a path: the first to touch it decides. -/
def kindOf (done : List Entry) (F : List (List UInt8)) : Option NodeType :=
  if F = [] then some .dir
  else (done.find? (·.touches F)).map fun d => if d.isFile = true ∧ F ∉ d.way then .file else .dir

/-- The last entry for a path. -/
def lastAt (done : List Entry) (F : List (List UInt8)) : Option Entry :=
  done.reverse.find? fun e => decide (e.place = F)

theorem kindOf_snoc_of_some {type : NodeType} (h : kindOf done F = some type) :
    kindOf (done ++ [e]) F = some type := by
  unfold kindOf at h ⊢
  split_ifs at h ⊢ with hroot
  · exact h
  · obtain ⟨d, hd, rfl⟩ := map_eq_some_iff.mp h
    rw [find?_append, hd]
    rfl

theorem kindOf_snoc_of_none (h : kindOf done F = none) :
    kindOf (done ++ [e]) F =
      if e.touches F then some (if e.isFile = true ∧ F ∉ e.way then .file else .dir) else none := by
  unfold kindOf at h ⊢
  split_ifs at h with hroot
  rw [map_eq_none_iff] at h
  rw [if_neg hroot, find?_append, h, find?_singleton]
  by_cases htouch : e.touches F = true
  · rw [if_pos htouch, if_pos htouch]
    rfl
  · rw [if_neg htouch, if_neg htouch]
    rfl

theorem not_touches_of_none (h : kindOf done F = none) (hd : d ∈ done) : d.touches F = false := by
  unfold kindOf at h
  split_ifs at h with hroot
  rw [map_eq_none_iff, find?_eq_none] at h
  simpa using h d hd

theorem lastAt_snoc (done : List Entry) (e : Entry) (F : List (List UInt8)) :
    lastAt (done ++ [e]) F = if e.place = F then some e else lastAt done F := by
  unfold lastAt
  rw [reverse_append]
  by_cases h : e.place = F <;> simp [h]

/-! ### The table after some entries -/

/-- The table holds what these entries have made. -/
structure Represents (done : List Entry) (K : Table) : Prop where
  kind : ∀ F, (K F).map Item.type = kindOf done F
  fits : ∀ F item, K F = some item → item.size ≤ item.block.length
  longest : ∀ F item, K F = some item → item.type = .file →
    (∀ d ∈ done, d.place = F → d.isFile = true → d.data.length ≤ item.size) ∧
      ∃ d ∈ done, d.place = F ∧ d.isFile = true ∧ d.data.length = item.size
  last : ∀ F item, K F = some item → item.type = .file → ∀ d, lastAt done F = some d →
    d.isFile = true →
    item.block.take d.data.length = d.data

theorem Represents.kind_of_some (h : Represents done K) (hF : K F = some item) :
    kindOf done F = some item.type := by
  rw [← h.kind, hF]
  rfl

theorem Represents.kind_of_none (h : Represents done K) (hF : K F = none) :
    kindOf done F = none := by
  rw [← h.kind, hF]
  rfl

theorem Represents.type_cases (h : Represents done K) (hF : K F = some item) :
    item.type = .dir ∨ item.type = .file := by
  have hkind := h.kind_of_some hF
  unfold kindOf at hkind
  split_ifs at hkind with hroot
  · exact Or.inl (some.inj hkind).symm
  · obtain ⟨d, -, htype⟩ := map_eq_some_iff.mp hkind
    rw [← htype]
    split_ifs
    · exact Or.inr rfl
    · exact Or.inl rfl

theorem represents_nil : Represents [] fun F => if F = [] then some (Item.new .dir) else none := by
  have hdir : ∀ (F : List (List UInt8)) item, (if F = [] then some (Item.new .dir) else none) =
      some item →
      item = Item.new .dir := by
    intro F item h
    split_ifs at h
    exact (some.inj h).symm
  refine ⟨?_, ?_, ?_, ?_⟩
  · intro F
    unfold kindOf
    split_ifs with hroot <;> rfl
  · intro F item h
    rw [hdir F item h]
    exact Nat.le_refl 0
  all_goals
    intro F item h htype
    rw [hdir F item h] at htype
    exact absurd htype (by decide)

theorem Represents.directory (h : Represents done K) (he : e.isFile = false) :
    Represents (done ++ [e]) (K.withDirs (e.place :: e.way)) := by
  refine ⟨?_, ?_, ?_, ?_⟩
  · intro F
    cases hF : K F with
    | some item =>
      rw [withDirs_of_some hF, kindOf_snoc_of_some (h.kind_of_some hF)]
      rfl
    | none =>
      rw [withDirs_of_none hF, kindOf_snoc_of_none (h.kind_of_none hF), he]
      unfold Entry.touches
      by_cases hmem : F ∈ e.place :: e.way
      · simp [hmem, Item.new]
      · simp [hmem]
  · intro F item hitem
    exact fits_withDirs h.fits hitem
  · intro F item hitem htype
    obtain ⟨hall, d, hd, hrest⟩ := h.longest F item (file_of_withDirs hitem htype) htype
    refine ⟨?_, d, mem_append_left _ hd, hrest⟩
    intro d hd hplace hfile
    rcases mem_append.mp hd with hd | hd
    · exact hall d hd hplace hfile
    · rw [mem_singleton.mp hd, he] at hfile
      exact absurd hfile (by decide)
  · intro F item hitem htype d hlast hfile
    rw [lastAt_snoc] at hlast
    split_ifs at hlast with hplace
    · rw [← some.inj hlast, he] at hfile
      exact absurd hfile (by decide)
    · exact h.last F item (file_of_withDirs hitem htype) htype d hlast hfile

/-- The size of what is written over is that of the longest entry so far. -/
theorem Represents.longest_place (h : Represents done K)
    (hkind : kindOf done F = some .file ∨ kindOf done F = none) :
    (∀ d ∈ done, d.place = F → d.isFile = true → d.data.length ≤ K.sizeAt F) ∧
      (K.sizeAt F = 0 ∨ ∃ d ∈ done, d.place = F ∧ d.isFile = true ∧
        d.data.length = K.sizeAt F) := by
  cases hF : K F with
  | some item =>
    have hfile := h.kind_of_some hF
    rw [sizeAt_of_some hF]
    rcases hkind with hkind | hkind
    · rw [hkind] at hfile
      obtain ⟨hall, hmax⟩ := h.longest F item hF (some.inj hfile).symm
      exact ⟨hall, Or.inr hmax⟩
    · rw [hkind] at hfile
      exact absurd hfile (some_ne_none _).symm
  | none =>
    refine ⟨?_, Or.inl (sizeAt_of_none hF)⟩
    intro d hd hplace _
    have huntouched := not_touches_of_none (h.kind_of_none hF) hd
    simp [Entry.touches, hplace] at huntouched

/-- A file that is written where there is a file or nothing. -/
theorem Represents.file (h : Represents done K) (he : e.isFile = true) {block : List UInt8}
    (hkind : kindOf done e.place = some .file ∨ kindOf done e.place = none ∧ e.place ∉ e.way)
    (hlen : max (K.sizeAt e.place) e.data.length ≤ block.length)
    (htake : block.take e.data.length = e.data) :
    Represents (done ++ [e])
      ((K.withDirs e.way).set e.place ⟨.file, max (K.sizeAt e.place) e.data.length, block⟩) := by
  refine ⟨?_, ?_, ?_, ?_⟩
  · intro F
    rw [Table.set_apply]
    by_cases hF : F = e.place
    · rw [if_pos hF, hF]
      rcases hkind with hfile | ⟨hnone, hway⟩
      · rw [kindOf_snoc_of_some hfile]
        rfl
      · rw [kindOf_snoc_of_none hnone, he]
        simp [Entry.touches, hway]
    · rw [if_neg hF]
      cases hK : K F with
      | some item =>
        rw [withDirs_of_some hK, kindOf_snoc_of_some (h.kind_of_some hK)]
        rfl
      | none =>
        rw [withDirs_of_none hK, kindOf_snoc_of_none (h.kind_of_none hK)]
        by_cases hmem : F ∈ e.way
        · simp [Entry.touches, hmem, Item.new]
        · simp [Entry.touches, hmem, hF]
  · intro F item hitem
    rw [Table.set_apply] at hitem
    split_ifs at hitem with hF
    · rw [← some.inj hitem]
      exact hlen
    · exact fits_withDirs h.fits hitem
  · intro F item hitem htype
    rw [Table.set_apply] at hitem
    by_cases hF : F = e.place
    · rw [if_pos hF] at hitem
      rw [← some.inj hitem]
      obtain ⟨hall, hmax⟩ := h.longest_place (hkind.imp_right And.left)
      refine ⟨?_, ?_⟩
      · intro d hd hplace hfile
        rcases mem_append.mp hd with hd | hd
        · exact Nat.le_trans (hall d hd (hplace.trans hF) hfile) (Nat.le_max_left _ _)
        · rw [mem_singleton.mp hd]
          exact Nat.le_max_right _ _
      · by_cases hbig : K.sizeAt e.place ≤ e.data.length
        · exact ⟨e, by simp, hF.symm, he, (Nat.max_eq_right hbig).symm⟩
        · rcases hmax with hzero | ⟨d, hd, hplace, hfile, hsize⟩
          · omega
          · refine ⟨d, mem_append_left _ hd, hplace.trans hF.symm, hfile, ?_⟩
            show _ = max (K.sizeAt e.place) e.data.length
            omega
    · rw [if_neg hF] at hitem
      obtain ⟨hall, d, hd, hrest⟩ := h.longest F item (file_of_withDirs hitem htype) htype
      refine ⟨?_, d, mem_append_left _ hd, hrest⟩
      intro d hd hplace hfile
      rcases mem_append.mp hd with hd | hd
      · exact hall d hd hplace hfile
      · rw [mem_singleton.mp hd] at hplace
        exact absurd hplace.symm hF
  · intro F item hitem htype d hlast hfile
    rw [Table.set_apply] at hitem
    rw [lastAt_snoc] at hlast
    by_cases hF : F = e.place
    · rw [if_pos hF] at hitem
      rw [if_pos hF.symm] at hlast
      rw [← some.inj hitem, ← some.inj hlast]
      exact htake
    · rw [if_neg hF] at hitem
      rw [if_neg (Ne.symm hF)] at hlast
      exact h.last F item (file_of_withDirs hitem htype) htype d hlast hfile

/-! ### One entry after the others -/

/-- An entry that is loaded after these: no file is in its way, and a file is written to a file or
to a place that its own way leaves free. -/
def EntryOk (done : List Entry) (e : Entry) : Prop :=
  (∀ F ∈ e.place :: e.way, ∀ G c, F = G ++ [c] → kindOf done G ≠ some .file) ∧
    (e.isFile = true → kindOf done e.place = some .file ∨ kindOf done e.place = none ∧
      e.place ∉ e.way)

/-- What is asked of the path of an entry beyond its length. -/
def Entry.Short (e : Entry) : Prop := ∀ c ∈ pieces slash e.path, c.length ≤ nameMax - 1

theorem Entry.pathOk (hshort : e.Short) (hfits : e.path.length < pathMax) :
    PathOk (stripSlashes e.path) :=
  PathOk.stripSlashes ⟨⟨_, rfl⟩, hfits, hshort⟩

theorem Represents.fileAt_iff (h : Represents done K) :
    K.FileAt G ↔ kindOf done G = some .file := by
  rw [← h.kind, map_eq_some_iff]
  refine exists_congr fun item => and_congr_right fun hG => ?_
  rcases h.type_cases hG with htype | htype <;> simp [htype]

theorem Represents.entryOk_iff (h : Represents done K) :
    EntryOk done e ↔ K.Open (stripSlashes e.path) ∧
      (e.isFile = true → K.Writable (stripSlashes e.path)) := by
  unfold EntryOk Table.Open Table.Blocked Table.Writable
  rw [target_stripSlashes]
  refine and_congr ?_ (imp_congr_right fun _ => ?_)
  · constructor
    · intro hall F hF ⟨G, c, heq, hfile⟩
      exact hall F hF G c heq (h.fileAt_iff.mp hfile)
    · intro hall F hF G c heq hfile
      exact hall F hF ⟨G, c, heq, h.fileAt_iff.mpr hfile⟩
  · cases hF : K (target e.path) with
    | none =>
      have hnone : kindOf done e.place = none := h.kind_of_none hF
      rw [hnone]
      simp [Entry.way, Entry.place]
    | some item =>
      have hkind : kindOf done e.place = some item.type := h.kind_of_some hF
      rw [hkind]
      simp

/-- **One entry**: the table it leaves, and when it fails. -/
theorem loadEntry_spec (hheap : heap.Succeeds) (index : Nat) (hs : Shows s K)
    (h : Represents done K)
    (hshort : e.Short) (hfits : e.path.length < pathMax) (hsize : e.data.length < 2 ^ 31) :
    (EntryOk done e → ∃ s' K', loadEntry heap index s e.content.flag e.path e.content.data =
      some (s', true) ∧
      Shows s' K' ∧ Represents (done ++ [e]) K') ∧
    (¬ EntryOk done e →
      ∃ s', loadEntry heap index s e.content.flag e.path e.content.data = some (s', false)) := by
  have hpath := Entry.pathOk hshort hfits
  have hiff := @Represents.entryOk_iff K e done h
  cases hcontent : e.content with
  | directory =>
    have he : e.isFile = false := by
      unfold Entry.isFile
      rw [hcontent]
    obtain ⟨hok, hfail⟩ := @loadEntry_dir s e.path [] heap K hheap index hpath hs
    rw [target_stripSlashes] at hok
    rw [hiff, he]
    constructor
    · intro ⟨hopen, _⟩
      obtain ⟨s', hrun, hs'⟩ := hok hopen
      exact ⟨s', _, hrun, hs', h.directory he⟩
    · intro hnot
      exact hfail fun hopen => hnot ⟨hopen, fun hfile => absurd hfile (by decide)⟩
  | file old data =>
    have he : e.isFile = true := by
      unfold Entry.isFile
      rw [hcontent]
    have hdata : e.data = data := by
      unfold Entry.data
      rw [hcontent]
      rfl
    have hflag : (Content.file old data).flag = 0 ∨ (Content.file old data).flag = 48 := by
      cases old with
      | true => exact Or.inl rfl
      | false => exact Or.inr rfl
    rw [hdata] at hsize
    obtain ⟨hok, hfail⟩ := loadEntry_file hheap index hflag hpath hs h.fits hsize
    rw [target_stripSlashes] at hok
    constructor
    · intro hentry
      obtain ⟨hopen, hwritable⟩ := hiff.mp hentry
      obtain ⟨s', block, hrun, hlen, htake, hs'⟩ := hok hopen (hwritable he)
      rw [← hdata] at hlen htake hs'
      exact ⟨s', _, hrun, hs', h.file he (hentry.2 he) hlen htake⟩
    · intro hnot
      exact hfail fun hboth => hnot (hiff.mpr ⟨hboth.1, fun _ => hboth.2⟩)

/-- Nothing fails in this run. -/
def AllOk (done : List Entry) : List Entry → Prop
  | [] => True
  | e :: entries => (e.path.length < pathMax ∧ EntryOk done e ∧ done.length + 1 < 2 ^ 31) ∧
      AllOk (done ++ [e]) entries

/-- **The run over an archive.** -/
theorem loadAll_spec (hheap : heap.Succeeds) (entries : List Entry) (hs : Shows s K)
    (h : Represents done K)
    (hshort : ∀ e ∈ entries, e.Short) (hsizes : ∀ e ∈ entries, e.data.length < 2 ^ 31) :
    (AllOk done entries → ∃ s' K', loadAll heap done.length entries s
      = some (s', ((done ++ entries).length : Int)) ∧ Shows s' K' ∧
        Represents (done ++ entries) K') ∧
    (¬ AllOk done entries → ∀ s' n, loadAll heap done.length entries s = some (s', n) →
      n = -1) := by
  induction entries generalizing s K done with
  | nil =>
    refine ⟨fun _ => ⟨s, K, ?_, hs, ?_⟩, fun hnot => absurd trivial hnot⟩
    · rw [append_nil]
      rfl
    · rw [append_nil]
      exact h
  | cons e entries ih =>
    rw [forall_mem_cons] at hshort hsizes
    rw [loadAll]
    by_cases hfits : e.path.length < pathMax
    · rw [if_pos hfits]
      obtain ⟨hok, hfail⟩ := loadEntry_spec hheap done.length hs h hshort.1 hfits hsizes.1
      by_cases hentry : EntryOk done e
      · obtain ⟨s', K', hrun, hs', h'⟩ := hok hentry
        obtain ⟨hgood, hbad⟩ := ih hs' h' hshort.2 hsizes.2
        rw [hrun]
        dsimp only
        rw [length_append, append_assoc] at hgood
        rw [length_append] at hbad
        by_cases hcount : done.length + 1 < 2 ^ 31
        · rw [if_pos hcount]
          refine ⟨fun hall => hgood hall.2, fun hnot => hbad fun hall => hnot ?_⟩
          exact ⟨⟨hfits, hentry, hcount⟩, hall⟩
        · rw [if_neg hcount]
          refine ⟨fun hall => absurd hall.1.2.2 hcount, ?_⟩
          intro _ s' n hnone
          exact absurd hnone (some_ne_none _).symm
      · obtain ⟨s', hrun⟩ := hfail hentry
        rw [hrun]
        refine ⟨fun hall => absurd hall.1.2.1 hentry, ?_⟩
        intro _ s'' n hsome
        exact (congrArg Prod.snd (some.inj hsome)).symm
    · rw [if_neg hfits]
      refine ⟨fun hall => absurd hall.1.1 hfits, ?_⟩
      intro _ s' n hsome
      exact (congrArg Prod.snd (some.inj hsome)).symm

theorem allOk_iff_split (done entries : List Entry) :
    AllOk done entries ↔ ∀ before e after, entries = before ++ e :: after →
      e.path.length < pathMax ∧ EntryOk (done ++ before) e ∧
        (done ++ before).length + 1 < 2 ^ 31 := by
  induction entries generalizing done with
  | nil => simp [AllOk]
  | cons x entries ih =>
    rw [AllOk, ih]
    constructor
    · intro ⟨hx, hrest⟩ before e after heq
      rcases before with _ | ⟨y, before⟩
      · obtain ⟨rfl, -⟩ := cons.inj heq
        rw [append_nil]
        exact hx
      · obtain ⟨rfl, htail⟩ := cons.inj heq
        have h := hrest before e after htail
        rwa [append_assoc] at h
    · intro h
      refine ⟨?_, ?_⟩
      · have hx := h [] x entries rfl
        rwa [append_nil] at hx
      · intro before e after heq
        have hnext := h (x :: before) e after (by rw [heq]; rfl)
        rwa [append_assoc]

/-! ### The archive as a whole -/

/-- What an archive may say of its files: a file is not the root, no entry leads on from it, and the
first entry to touch it makes it a file. -/
def Consistent (archive : List Entry) : Prop :=
  ∀ e ∈ archive, e.isFile = true → e.place ≠ [] ∧
    (∀ d ∈ archive, ∀ F ∈ d.place :: d.way, F ≠ [] → F.dropLast ≠ e.place) ∧
    ∃ d ∈ archive.find? (·.touches e.place), d.isFile = true ∧ e.place ∉ d.way

theorem kindOf_eq_file : kindOf done F = some .file ↔
    F ≠ [] ∧ ∃ d, done.find? (·.touches F) = some d ∧ d.isFile = true ∧ F ∉ d.way := by
  unfold kindOf
  by_cases hroot : F = []
  · simp [hroot]
  · rw [if_neg hroot, map_eq_some_iff]
    constructor
    · rintro ⟨d, hd, hkind⟩
      refine ⟨hroot, d, hd, ?_⟩
      by_contra hnot
      rw [if_neg hnot] at hkind
      exact absurd hkind (by decide)
    · rintro ⟨-, d, hd, hfile⟩
      exact ⟨d, hd, if_pos hfile⟩

theorem kindOf_eq_none : kindOf done F = none ↔ F ≠ [] ∧ done.find? (·.touches F) = none := by
  unfold kindOf
  by_cases hroot : F = [] <;> simp [hroot]

theorem touches_place (e : Entry) : e.touches e.place = true := by
  simp [Entry.touches]

/-- An entry passes what its places are in. -/
theorem dropLast_mem_way (hF : F ∈ e.place :: e.way) : F.dropLast = [] ∨ F.dropLast ∈ e.way := by
  obtain ⟨rest, hrest, -⟩ : ∃ rest, stripSlashes e.path = slash :: rest ∧ _ := stripSlashes_rooted _
  have hground := grounded_parents rest
  rw [← hrest, target_stripSlashes] at hground
  rcases mem_cons.mp hF with rfl | hway
  · exact mem_cons.mp hground.2
  · rcases hground.1.mem hway with hroot | hmem
    · exact Or.inl (mem_singleton.mp hroot)
    · exact Or.inr hmem

/-- **What the steps ask of an archive.** -/
theorem entryOk_all_iff (archive : List Entry) :
    (∀ before e after, archive = before ++ e :: after → EntryOk before e) ↔ Consistent archive := by
  constructor
  · intro hsteps e he hfile
    obtain ⟨before, after, harchive⟩ := append_of_mem he
    have hkind := (hsteps before e after harchive).2 hfile
    -- the entry that makes the file
    have hmaker : e.place ≠ [] ∧ ∃ m, archive.find? (·.touches e.place) = some m ∧ m.isFile = true ∧
        e.place ∉ m.way := by
      rcases hkind with hkind | ⟨hkind, hway⟩
      · obtain ⟨hroot, m, hm, hrest⟩ := kindOf_eq_file.mp hkind
        refine ⟨hroot, m, ?_, hrest⟩
        rw [harchive, find?_append, hm]
        rfl
      · obtain ⟨hroot, hnone⟩ := kindOf_eq_none.mp hkind
        refine ⟨hroot, e, ?_, hfile, hway⟩
        rw [harchive, find?_append, hnone, none_or, find?_cons, touches_place]
    obtain ⟨hroot, m, hm, hmfile, hmway⟩ := hmaker
    refine ⟨hroot, ?_, m, hm, hmfile, hmway⟩
    intro d hd F hF hne hback
    obtain ⟨before, after, harchive⟩ := append_of_mem hd
    obtain ⟨G, c, hG⟩ : ∃ G c, F = G ++ [c] := ⟨_, _, (dropLast_append_getLast hne).symm⟩
    have hGe : G = e.place := by rw [← hback, hG, dropLast_concat]
    have hfree := (hsteps before d after harchive).1 F hF G c hG
    rw [hGe] at hfree
    cases hfirst : before.find? (·.touches e.place) with
    | some x =>
      rw [harchive, find?_append, hfirst] at hm
      obtain rfl := some.inj hm
      exact hfree (kindOf_eq_file.mpr ⟨hroot, x, hfirst, hmfile, hmway⟩)
    | none =>
      -- then this entry is the first to touch the file, and it passes it
      have hway : e.place ∈ d.way := by
        rcases dropLast_mem_way hF with hnil | hmem
        · exact absurd (hback.symm.trans hnil) hroot
        · rwa [hback] at hmem
      have htouch : d.touches e.place = true := by simp [Entry.touches, hway]
      rw [harchive, find?_append, hfirst, find?_cons, htouch] at hm
      obtain rfl := some.inj hm
      exact hmway hway
  · intro hconsistent before e after harchive
    have hsub : ∀ d ∈ before, d ∈ archive := by
      intro d hd
      rw [harchive]
      exact mem_append_left _ hd
    have he : e ∈ archive := by
      rw [harchive]
      simp
    refine ⟨?_, ?_⟩
    · intro F hF G c hG hkind
      obtain ⟨hroot, d, hd, hdfile, hdway⟩ := kindOf_eq_file.mp hkind
      have hplace : d.place = G := by
        have htouch := find?_some hd
        rcases mem_cons.mp (of_decide_eq_true htouch) with heq | hmem
        · exact heq.symm
        · exact absurd hmem hdway
      obtain ⟨-, hleads, -⟩ := hconsistent d (hsub d (mem_of_find?_eq_some hd)) hdfile
      refine hleads e he F hF (by simp [hG]) ?_
      rw [hG, dropLast_concat, hplace]
    · intro hfile
      obtain ⟨hroot, -, d, hd, hdfile, hdway⟩ := hconsistent e he hfile
      rw [harchive, find?_append] at hd
      cases hfirst : before.find? (·.touches e.place) with
      | some x =>
        rw [hfirst] at hd
        obtain rfl := some.inj hd
        exact Or.inl (kindOf_eq_file.mpr ⟨hroot, x, hfirst, hdfile, hdway⟩)
      | none =>
        rw [hfirst, find?_cons, touches_place] at hd
        obtain rfl := some.inj hd
        exact Or.inr ⟨kindOf_eq_none.mpr ⟨hroot, hfirst⟩, hdway⟩

theorem allOk_iff (archive : List Entry) :
    AllOk [] archive ↔
      archive.length < 2 ^ 31 ∧ (∀ e ∈ archive, e.path.length < pathMax) ∧ Consistent archive := by
  rw [allOk_iff_split, ← entryOk_all_iff]
  constructor
  · intro h
    refine ⟨?_, ?_, fun before e after heq => (h before e after heq).2.1⟩
    · rcases eq_nil_or_concat archive with rfl | ⟨before, e, heq⟩
      · decide
      · rw [concat_eq_append] at heq
        have hcount := (h before e [] heq).2.2
        rw [heq, length_append]
        exact hcount
    · intro e he
      obtain ⟨before, after, heq⟩ := append_of_mem he
      exact (h before e after heq).1
  · intro ⟨hcount, hfits, hsteps⟩ before e after heq
    refine ⟨hfits e (by rw [heq]; simp), hsteps before e after heq, ?_⟩
    have hlen := congrArg length heq
    rw [length_append, length_cons] at hlen
    rw [nil_append]
    omega

/-! ### The tree and the archive -/

/-- The tree holds what the entry says: a directory, or a file of that size and with those bytes. -/
def Present (s : Vfs) (e : Entry) : Prop :=
  ∃ id node, vfsLookup s e.path = some id ∧ s.get id = some node ∧
    match e.content with
    | .directory => node.type = .dir
    | .file _ data => node.type = .file ∧ node.size = data.length ∧ node.contents = data

/-- The archive is loaded, every archived path exists, and the last entry of each is what is
there. -/
def Unpacked (heap : Heap) (image : List UInt8) (archive : List Entry) : Prop :=
  ∃ s n, initrdLoad heap mountRoot image 0 = some (s, n) ∧ n ≠ -1 ∧
    (∀ e ∈ archive, (vfsLookup s e.path).isSome) ∧
    ∀ e ∈ archive, lastAt archive e.place = some e → Present s e

/-- Every file has a last entry that is a file and not shorter than its others. -/
def LastIsLongest (archive : List Entry) : Prop :=
  ∀ e ∈ archive, e.isFile = true →
    ∃ l ∈ lastAt archive e.place, l.isFile = true ∧ e.data.length ≤ l.data.length

theorem lastAt_mem {l : Entry} (h : lastAt archive F = some l) : l ∈ archive ∧ l.place = F := by
  have hplace := find?_some h
  exact ⟨mem_reverse.mp (mem_of_find?_eq_some h), of_decide_eq_true hplace⟩

theorem exists_lastAt (he : e ∈ archive) : ∃ l, lastAt archive e.place = some l := by
  apply isSome_iff_exists.mp
  rw [lastAt, find?_isSome]
  exact ⟨e, mem_reverse.mpr he, by simp⟩

/-- What is under the path of an entry. -/
theorem Represents.found (h : Represents archive K) (he : e ∈ archive) :
    ∃ item, K e.place = some item := by
  cases hF : K e.place with
  | some item => exact ⟨item, rfl⟩
  | none =>
    have huntouched := not_touches_of_none (h.kind_of_none hF) he
    rw [touches_place] at huntouched
    exact absurd huntouched (by decide)

theorem Shows.lookup (hs : Shows s K) (hshort : e.Short) (hfits : e.path.length < pathMax)
    (h : K e.place = some item) :
    ∃ id node, vfsLookup s e.path = some id ∧ s.get id = some node ∧ node.item = item := by
  have hpath : PathOk e.path := ⟨⟨_, rfl⟩, hfits, hshort⟩
  obtain ⟨id, node, hat, hget, hitem⟩ := hs.found h
  exact ⟨id, node, (vfsLookup_short hpath.normalForm hpath.short_target).trans hat, hget, hitem⟩

theorem Consistent.kind_file (h : Consistent archive) (he : e ∈ archive) (hfile : e.isFile = true) :
    kindOf archive e.place = some .file := by
  obtain ⟨hroot, -, d, hd, hdfile, hdway⟩ := h e he hfile
  exact kindOf_eq_file.mpr ⟨hroot, d, hd, hdfile, hdway⟩

/-- Where the load succeeds, the tree is right exactly if the last entries are the longest. -/
theorem present_iff (hs : Shows s K) (h : Represents archive K) (hconsistent : Consistent archive)
    (hshort : ∀ e ∈ archive, e.Short) (hfits : ∀ e ∈ archive, e.path.length < pathMax) :
    (∀ e ∈ archive, lastAt archive e.place = some e → Present s e) ↔ LastIsLongest archive := by
  constructor
  · intro hpresent e he hfile
    obtain ⟨l, hl⟩ := exists_lastAt he
    obtain ⟨hmem, hplace⟩ := lastAt_mem hl
    obtain ⟨item, hitem⟩ := h.found he
    have htype : item.type = .file := by
      have hkind := h.kind_of_some hitem
      rw [hconsistent.kind_file he hfile] at hkind
      exact (some.inj hkind).symm
    obtain ⟨id, node, hlook, hget, hnode⟩ :=
      hs.lookup (hshort l hmem) (hfits l hmem) (hplace ▸ hitem)
    obtain ⟨id', node', hlook', hget', hcontent⟩ := hpresent l hmem (hplace ▸ hl)
    obtain rfl := some.inj (hlook.symm.trans hlook')
    obtain rfl := some.inj (hget.symm.trans hget')
    have htype' : node.type = .file := by
      rw [← htype, ← hnode]
      rfl
    refine ⟨l, hl, ?_⟩
    cases hl : l.content with
    | directory =>
      rw [hl] at hcontent
      have hdir : node.type = .dir := hcontent
      rw [htype'] at hdir
      exact absurd hdir (by decide)
    | file old data =>
      rw [hl] at hcontent
      have hsize : item.size = data.length := by
        rw [← hnode]
        exact hcontent.2.1
      have hle := (h.longest _ item hitem htype).1 e he rfl hfile
      refine ⟨by simp [Entry.isFile, hl], ?_⟩
      rw [hsize] at hle
      simpa [Entry.data, hl, Content.data] using hle
  · intro hlongest e he hlast
    obtain ⟨item, hitem⟩ := h.found he
    obtain ⟨id, node, hlook, hget, rfl⟩ := hs.lookup (hshort e he) (hfits e he) hitem
    refine ⟨id, node, hlook, hget, ?_⟩
    cases hcontent : e.content with
    | directory =>
      have hnofile : e.isFile = false := by simp [Entry.isFile, hcontent]
      rcases h.type_cases hitem with hdir | htype
      · exact hdir
      · obtain ⟨-, d, hd, hplace, hdfile, -⟩ := h.longest _ _ hitem htype
        obtain ⟨l, hl, hlfile, -⟩ := hlongest d hd hdfile
        rw [hplace, hlast] at hl
        rw [← some.inj hl, hnofile] at hlfile
        exact absurd hlfile (by decide)
    | file old data =>
      have hfile : e.isFile = true := by simp [Entry.isFile, hcontent]
      have hdata : e.data = data := by simp [Entry.data, hcontent, Content.data]
      have hkind := h.kind_of_some hitem
      rw [hconsistent.kind_file he hfile] at hkind
      have htype : node.item.type = .file := (some.inj hkind).symm
      obtain ⟨hall, d, hd, hplace, hdfile, hsize⟩ := h.longest _ _ hitem htype
      obtain ⟨l, hl, -, hle⟩ := hlongest d hd hdfile
      rw [hplace, hlast] at hl
      obtain rfl := some.inj hl
      have hlen : node.size = data.length := by
        have hge := hall e he rfl hfile
        rw [hdata] at hge hle
        have hnode : node.item.size = node.size := rfl
        omega
      refine ⟨htype, hlen, ?_⟩
      have htake := h.last _ _ hitem htype e hlast hfile
      rw [hdata] at htake
      show node.block.take node.size = data
      rw [hlen]
      exact htake

/-- **An archive is unpacked as it says exactly when** it has fewer than `2 ^ 31` entries, its paths
fit, its files are consistent, and no file has an entry longer than its last. -/
theorem unpacked_iff (heap : Heap) (hheap : heap.Succeeds) (archive : List Entry)
    (image : List UInt8) (himage : Encodes archive image) (hshort : ∀ e ∈ archive, e.Short)
    (hsizes : ∀ e ∈ archive, e.data.length < 2 ^ 31) :
    Unpacked heap image archive ↔ archive.length < 2 ^ 31 ∧
      (∀ e ∈ archive, e.path.length < pathMax) ∧
      Consistent archive ∧ LastIsLongest archive := by
  obtain ⟨hok, hfail⟩ := loadAll_spec hheap archive shows_mountRoot represents_nil hshort hsizes
  have hrun : initrdLoad heap mountRoot image 0 = loadAll heap 0 archive mountRoot :=
    initrdLoad_eq himage hsizes rfl
  unfold Unpacked
  rw [hrun]
  constructor
  · intro ⟨s, n, hload, hn, _, hpresent⟩
    have hall : AllOk [] archive := by
      by_contra hnot
      exact hn (hfail hnot s n hload)
    obtain ⟨hcount, hfits, hconsistent⟩ := (allOk_iff archive).mp hall
    obtain ⟨s', K, hload', hs, h⟩ := hok hall
    obtain ⟨rfl, -⟩ := Prod.mk.inj (some.inj (hload.symm.trans hload'))
    exact ⟨hcount, hfits, hconsistent, (present_iff hs h hconsistent hshort hfits).mp hpresent⟩
  · intro ⟨hcount, hfits, hconsistent, hlongest⟩
    obtain ⟨s, K, hload, hs, h⟩ := hok ((allOk_iff archive).mpr ⟨hcount, hfits, hconsistent⟩)
    refine ⟨s, _, hload, by omega, ?_, (present_iff hs h hconsistent hshort hfits).mpr hlongest⟩
    intro e he
    obtain ⟨item, hitem⟩ := h.found he
    obtain ⟨id, node, hlook, -, -⟩ := hs.lookup (hshort e he) (hfits e he) hitem
    rw [hlook]
    rfl

/-- Memory for everything. -/
def plentyHeap : Heap :=
  { node := fun _ => true, write := fun _ => { calloc := true, realloc := some fun _ => 0 } }

/-- The header of a file `a` of fewer than eight bytes: names, octal fields, checksum and magic as
they should be. -/
def fileHeader (size : UInt8) (checksum : List UInt8) : List UInt8 :=
  97 :: replicate 99 0 ++ [48, 48, 48, 48, 54, 52, 52, 0] ++ replicate 7 48 ++ [0] ++
    replicate 7 48 ++ [0] ++ replicate 10 48 ++ [48 + size, 0] ++ replicate 11 48 ++ [0] ++
    checksum ++ [48] ++ replicate 100 0 ++ [117, 115, 116, 97, 114, 0, 48, 48] ++
    replicate 64 0 ++ replicate 7 48 ++ [0] ++ replicate 7 48 ++ [0] ++ replicate 155 0 ++
    replicate 12 0

def fileEntry (data : List UInt8) : Entry :=
  { name := [97], directory := [], content := .file false data }

/-- The file `a` twice, first with the bytes `xy` and then with the byte `z`. -/
def twice : List Entry := [fileEntry [120, 121], fileEntry [122]]

def twiceImage : List UInt8 :=
  fileHeader 2 [48, 48, 55, 51, 52, 48, 0, 32] ++ [120, 121] ++ replicate 510 0 ++
    (fileHeader 1 [48, 48, 55, 51, 51, 55, 0, 32] ++ [122] ++ replicate 511 0 ++
      (replicate tarBlockSize 0 ++ replicate tarBlockSize 0))

theorem plentyHeap_succeeds : plentyHeap.Succeeds where
  node := fun _ => rfl
  calloc := fun _ => rfl
  realloc := fun _ => rfl

theorem headerOf_first :
    HeaderOf (fileHeader 2 [48, 48, 55, 51, 52, 48, 0, 32]) (fileEntry [120, 121]) where
  length_eq := by decide +kernel
  named := by decide
  name_eq := by decide +kernel
  directory_eq := by decide +kernel
  size := ⟨[], replicate 10 48 ++ [50], [0], by decide +kernel⟩
  type_eq := by decide +kernel

theorem headerOf_second :
    HeaderOf (fileHeader 1 [48, 48, 55, 51, 51, 55, 0, 32]) (fileEntry [122]) where
  length_eq := by decide +kernel
  named := by decide
  name_eq := by decide +kernel
  directory_eq := by decide +kernel
  size := ⟨[], replicate 10 48 ++ [49], [0], by decide +kernel⟩
  type_eq := by decide +kernel

theorem encodes_twice : Encodes twice twiceImage := by
  refine Encodes.entry headerOf_first (by decide +kernel) (by decide +kernel) ?_
  exact Encodes.entry headerOf_second (by decide +kernel) (by decide +kernel) (Encodes.done _)

theorem unpacked_iff_twice :
    (plentyHeap.Succeeds ∧ Encodes twice twiceImage) ∧
      (Unpacked plentyHeap twiceImage twice ↔ twice.length < 2 ^ 31 ∧
        (∀ e ∈ twice, e.path.length < pathMax) ∧ Consistent twice ∧ LastIsLongest twice) :=
  ⟨⟨plentyHeap_succeeds, encodes_twice⟩, unpacked_iff plentyHeap plentyHeap_succeeds twice
    twiceImage encodes_twice (by unfold Entry.Short; decide +kernel) (by decide)⟩

/-- Both entries are loaded, and the file has the two bytes `zy`, where its last entry has one. -/
theorem shorter_entry_not_cut :
    lastAt twice (fileEntry [122]).place = some (fileEntry [122]) ∧
      (initrdLoad plentyHeap mountRoot twiceImage 0).map
          (fun r => (r.2, (vfsLookup r.1 (fileEntry [122]).path).bind fun id =>
            (r.1.get id).map Node.contents))
        = some (2, some [122, 121]) := by
  decide +kernel

end Nv0ken.Fs
