/-
Reading a directory while it changes.

`sys_readdir` finds the next entry by its position among the children, and the position
is the number of entries delivered so far.  A new child is put in front of the others and
moves all of them up by one; an unlinked child moves those behind it down by one.  So a
scan delivers every entry that stays exactly once as long as no entry is moved over the
position (`scan_exact`): nothing is created in the directory between the first entry and
the end, and nothing is unlinked that was delivered already.  The loop that unlinks each
entry it is given does just that, and leaves something behind in every directory with
more than one entry.
-/
import Nv0ken.Kernel.Proc.DirHandlers
import Nv0ken.Lib.Cursor
import Nv0ken.Proofs.Fs.FdTable
import Nv0ken.Proofs.Fs.Names

namespace Nv0ken.Proc

open Cursor Fs Run Word

/-- The children of the directory that is open under this descriptor. -/
def entries (s : Files) (fd : Nat) : List NodeId :=
  ((fdGet s.fds (toInt32 fd)).bind fun entry => s.vfs.get entry.node).elim [] Node.children

/-- How many entries the descriptor has delivered. -/
def position (s : Files) (fd : Nat) : Nat := (fdGet s.fds (toInt32 fd)).elim 0 FdEntry.offset

/-- The descriptor stands for the directory `dir`. -/
def OpenAt (s : Files) (fd : Nat) (dir : NodeId) : Prop :=
  ∃ entry node, fdGet s.fds (toInt32 fd) = some entry ∧ entry.node = dir ∧
    s.vfs.get dir = some node ∧ node.type = .dir

/-- A scan of an open directory, with the inode numbers delivered so far. -/
structure Scan where
  files : Files
  delivered : List NodeId

/-- What can happen during a scan.  Everything that creates goes through `vfs_create`, and
`sys_unlink` is `vfs_unlink`. -/
inductive ScanOp
  | readdir
  | create (path : List UInt8) (type : NodeType) (alloc : Bool)
  | unlink (path : List UInt8)

def Scan.change (s : Scan) (vfs : Vfs) : Scan := { s with files := { s.files with vfs := vfs } }

/-- A scan has no next step after `sys_readdir` has reported the end. -/
def scanStep (fd : Nat) (s : Scan) : ScanOp → Option Scan
  | .readdir =>
    (sysReaddir s.files fd true).2.2.map fun e =>
      { files := (sysReaddir s.files fd true).1, delivered := s.delivered ++ [e.dIno] }
  | .create path type alloc => some (s.change (vfsCreate s.files.vfs path type alloc).1)
  | .unlink path => some (s.change (vfsUnlink s.files.vfs path).1)

/-- `sys_readdir` reports the end. -/
def AtEnd (s : Scan) (fd : Nat) : Prop := (sysReaddir s.files fd true).2.1 = 0

/-- No entry is moved over the position: a node is created in the directory only before the
first entry or when more were delivered than there are, and an entry is taken out only before
it is delivered or after all were. -/
def MovesNone (fd : Nat) (dir : NodeId) (s : Scan) : ScanOp → Prop
  | .readdir => True
  | .create path _ alloc =>
    (∃ cs c, alloc = true ∧ normalForm pathMax path = some (cs ++ [c]) ∧
      Place s.files.vfs (address cs) c dir) →
    position s.files fd = 0 ∨ (entries s.files fd).length < position s.files fd
  | .unlink path =>
    (vfsUnlink s.files.vfs path).2 = true →
    ∀ id ∈ entries s.files fd, vfsLookup s.files.vfs path = some id →
      position s.files fd ≤ (entries s.files fd).idxOf id ∨
        (entries s.files fd).length ≤ position s.files fd

instance (s : Scan) (fd : Nat) : Decidable (AtEnd s fd) :=
  inferInstanceAs (Decidable ((sysReaddir s.files fd true).2.1 = 0))

/-- The loop that unlinks each entry it is given, by any path to it, until there is none. -/
inductive Sweep (fd : Nat) : Scan → Scan → Prop
  | done {s : Scan} : AtEnd s fd → Sweep fd s s
  | next {s t u : Scan} {id : NodeId} {path : List UInt8} :
      scanStep fd s .readdir = some t → t.delivered = s.delivered ++ [id] →
      vfsLookup t.files.vfs path = some id → (vfsUnlink t.files.vfs path).2 = true →
      Sweep fd (t.change (vfsUnlink t.files.vfs path).1) u → Sweep fd s u

variable {s t u : Scan} {f : Files} {fd : Nat} {dir id : NodeId} {path : List UInt8} {node : Node}

/-! ### One call -/

theorem entries_eq (hopen : OpenAt f fd dir) (hget : f.vfs.get dir = some node) :
    entries f fd = node.children := by
  obtain ⟨entry, node', hfd, rfl, hget', -⟩ := hopen
  unfold entries
  rw [hfd, Option.bind_some, hget]
  rfl

theorem position_eq {entry : FdEntry} (hfd : fdGet f.fds (toInt32 fd) = some entry) :
    position f fd = entry.offset := by
  unfold position
  rw [hfd]
  rfl

/-- **What `sys_readdir` does** with an open directory. -/
theorem sysReaddir_spec (hinv : TreeInv f.vfs) (hopen : OpenAt f fd dir) :
    (entries f fd)[position f fd]? = none ∧ sysReaddir f fd true = (f, 0, none) ∨
      ∃ id e fds, (entries f fd)[position f fd]? = some id ∧ e.dIno = id ∧
        sysReaddir f fd true = ({ f with fds := fds }, 1, some e) ∧
        OpenAt { f with fds := fds } fd dir ∧
        position { f with fds := fds } fd = position f fd + 1 := by
  obtain ⟨entry, node, hfd, rfl, hget, htype⟩ := id hopen
  obtain ⟨hlow, hhigh⟩ := range_of_fdGet hfd
  rw [entries_eq hopen hget, position_eq hfd]
  unfold sysReaddir
  rw [hfd]
  simp only [hget, htype, Bool.not_true, ne_eq, not_true, decide_false, Bool.or_self,
    Bool.false_eq_true, if_false]
  cases hchild : node.children[entry.offset]? with
  | none => exact Or.inl ⟨rfl, rfl⟩
  | some child =>
    refine Or.inr ⟨child, ?_⟩
    obtain ⟨-, c, hc, -⟩ := hinv.child entry.node node hget child (List.mem_of_getElem? hchild)
    have hnew :
        fdGet (f.fds.set (toInt32 fd).toNat (some { entry with offset := entry.offset + 1 }))
          (toInt32 fd) = some { entry with offset := entry.offset + 1 } :=
      fdGet_set_self hlow hhigh
    have hentry : dirent f.vfs child = some
        { dIno := child, dType := direntType c, dName := c.name.take (direntNameMax - 1) } := by
      unfold dirent
      rw [hc]
      rfl
    simp only [hentry]
    exact ⟨_, _, trivial, rfl, rfl, ⟨_, node, hnew, rfl, hget, htype⟩, by rw [position_eq hnew]⟩

/-- A new node goes in front of the entries, or they stay as they are. -/
theorem create_spec (hopen : OpenAt s.files fd dir)
    (path : List UInt8) (type : NodeType) (alloc : Bool) :
    OpenAt (s.change (vfsCreate s.files.vfs path type alloc).1).files fd dir ∧
      s.files.vfs.nodes.length ≤ (vfsCreate s.files.vfs path type alloc).1.nodes.length ∧
      (entries (s.change (vfsCreate s.files.vfs path type alloc).1).files fd = entries s.files fd ∨
        (∃ cs c, alloc = true ∧ normalForm pathMax path = some (cs ++ [c]) ∧
          Place s.files.vfs (address cs) c dir) ∧
        entries (s.change (vfsCreate s.files.vfs path type alloc).1).files fd =
          s.files.vfs.nodes.length :: entries s.files fd) := by
  rcases vfsCreate_cases s.files.vfs path type alloc with ⟨-, hnone⟩ |
    ⟨⟨halloc, -⟩, cs, c, at', hform, hplace, hdone⟩
  · rw [hnone]
    exact ⟨hopen, Nat.le_refl _, Or.inl rfl⟩
  rw [hdone]
  obtain ⟨entry, node, hfd, hnode, hget, htype⟩ := id hopen
  have hnew : (attach s.files.vfs at' c type).get dir = some (if dir = at' then
      { node with children := s.files.vfs.nodes.length :: node.children } else node) := by
    rw [get_attach_old (lt_of_get hget), hget]
    rfl
  have hopen' : OpenAt (s.change (attach s.files.vfs at' c type)).files fd dir := by
    refine ⟨entry, _, hfd, hnode, hnew, ?_⟩
    by_cases hat : dir = at'
    · rw [if_pos hat]
      exact htype
    · rw [if_neg hat]
      exact htype
  refine ⟨hopen', ?_, ?_⟩
  · unfold attach vfsAttachChild Vfs.modify
    simp
  rw [entries_eq hopen' hnew, entries_eq hopen hget]
  by_cases hat : dir = at'
  · subst hat
    rw [if_pos rfl]
    exact Or.inr ⟨⟨cs, c, halloc, hform, hplace⟩, rfl⟩
  · rw [if_neg hat]
    exact Or.inl rfl

/-- A node taken out of the tree is no longer among the entries. -/
theorem detach_spec (hinv : TreeInv s.files.vfs) (hopen : OpenAt s.files fd dir) {at' : NodeId}
    (hget : s.files.vfs.get id = some node) (hparent : node.parent = some at') :
    OpenAt (s.change (detach s.files.vfs at' id)).files fd dir ∧
      entries (s.change (detach s.files.vfs at' id)).files fd = (entries s.files fd).erase id := by
  have hentries := fun n => @entries_eq s.files fd dir n hopen
  obtain ⟨entry, d, hfd, hnode, hdir, htype⟩ := hopen
  have hnew := get_detach s.files.vfs at' id dir
  rw [hdir, Option.map_some] at hnew
  have hopen' : OpenAt (s.change (detach s.files.vfs at' id)).files fd dir :=
    ⟨entry, _, hfd, hnode, hnew, htype⟩
  refine ⟨hopen', ?_⟩
  rw [entries_eq hopen' hnew, hentries d hdir]
  by_cases hat : dir = at'
  · rw [if_pos hat]
  · rw [if_neg hat]
    -- the node has another parent, so it was not among the children
    refine (List.erase_of_not_mem fun hmem => hat ?_).symm
    obtain ⟨-, child, hchild, hup⟩ := hinv.child dir d hdir id hmem
    obtain rfl := Option.some.inj (hget.symm.trans hchild)
    exact Option.some.inj (hup.symm.trans hparent)

theorem nodes_detach (vfs : Vfs) (dir id : NodeId) :
    (detach vfs dir id).nodes.length = vfs.nodes.length := by
  unfold detach Vfs.modify
  simp

/-! ### The scan -/

/-- What a scan keeps: `old` is the number of nodes there were when it began. -/
structure ScanInv (fd : Nat) (dir : NodeId) (old : Nat) (s : Scan) : Prop where
  tree : TreeInv s.files.vfs
  opened : OpenAt s.files fd dir
  grown : old ≤ s.files.vfs.nodes.length
  seen : Seen (· < old) (entries s.files fd) (position s.files fd) s.delivered

theorem nodup_entries (hinv : TreeInv f.vfs) (hopen : OpenAt f fd dir) : (entries f fd).Nodup := by
  obtain ⟨entry, node, -, -, hget, -⟩ := id hopen
  rw [entries_eq hopen hget]
  exact hinv.nodup dir node hget

theorem lt_of_mem_entries (hinv : TreeInv f.vfs) (hopen : OpenAt f fd dir)
    (hid : id ∈ entries f fd) : id < f.vfs.nodes.length := by
  obtain ⟨entry, node, -, -, hget, -⟩ := ‹OpenAt f fd dir›
  rw [entries_eq hopen hget] at hid
  obtain ⟨-, child, hchild, -⟩ := hinv.child dir node hget id hid
  exact lt_of_get hchild

/-- What a `readdir` that delivers an entry does to the scan. -/
theorem readdir_spec (hinv : TreeInv s.files.vfs) (hopen : OpenAt s.files fd dir)
    (hstep : scanStep fd s .readdir = some t) :
    ∃ id, (entries s.files fd)[position s.files fd]? = some id ∧
      t.delivered = s.delivered ++ [id] ∧ t.files.vfs = s.files.vfs ∧ OpenAt t.files fd dir ∧
      entries t.files fd = entries s.files fd ∧ position t.files fd = position s.files fd + 1 := by
  unfold scanStep at hstep
  rcases sysReaddir_spec hinv hopen with ⟨-, hend⟩ | ⟨id, e, fds, hid, rfl, hread, hopen', hpos⟩
  · rw [hend] at hstep
    simp at hstep
  · rw [hread] at hstep
    obtain rfl := Option.some.inj hstep
    refine ⟨e.dIno, hid, rfl, rfl, hopen', ?_, hpos⟩
    obtain ⟨entry, node, -, -, hget, -⟩ := ‹OpenAt s.files fd dir›
    rw [entries_eq hopen hget, entries_eq hopen' hget]

theorem scanInv_step {old : Nat} (op : ScanOp) (hinv : ScanInv fd dir old s)
    (hmoves : MovesNone fd dir s op) (hstep : scanStep fd s op = some t) :
    ScanInv fd dir old t := by
  have hnodup := nodup_entries hinv.tree hinv.opened
  cases op with
  | readdir =>
    obtain ⟨id, hid, hdel, hvfs, hopen, hsame, hpos⟩ := readdir_spec hinv.tree hinv.opened hstep
    refine ⟨hvfs ▸ hinv.tree, hopen, hvfs ▸ hinv.grown, ?_⟩
    rw [hsame, hpos, hdel]
    exact hinv.seen.next hnodup hid
  | create path type alloc =>
    obtain rfl := Option.some.inj hstep
    obtain ⟨hopen, hgrown, hentries⟩ := create_spec hinv.opened path type alloc
    have htree : TreeInv (vfsCreate s.files.vfs path type alloc).1 :=
      treeInv_step s.files.vfs (.create path type alloc) _ hinv.tree rfl
    refine ⟨htree, hopen, Nat.le_trans hinv.grown hgrown, ?_⟩
    rcases hentries with hsame | ⟨hhere, hnew⟩
    · rw [hsame]
      exact hinv.seen
    · rw [hnew]
      exact hinv.seen.cons (Nat.not_lt.mpr hinv.grown) (hmoves hhere)
  | unlink path =>
    obtain rfl := Option.some.inj hstep
    cases hfound : vfsLookup s.files.vfs path with
    | none =>
      rw [vfsUnlink_of_none hfound]
      exact hinv
    | some id =>
      rcases vfsUnlink_found hfound with hnone | ⟨node, at', -, hget, hparent, -, -, hdone⟩
      · rw [hnone]
        exact hinv
      have hmoves := hmoves (congrArg Prod.snd hdone)
      rw [hdone]
      obtain ⟨hopen, hentries⟩ := detach_spec hinv.tree hinv.opened hget hparent
      refine ⟨treeInv_detach hinv.tree hget hparent, hopen, ?_, ?_⟩
      · exact Nat.le_trans hinv.grown (Nat.le_of_eq (nodes_detach s.files.vfs at' id).symm)
      rw [hentries]
      by_cases hmem : id ∈ entries s.files fd
      · exact hinv.seen.erase (hmoves id hmem hfound)
      · rw [List.erase_of_not_mem hmem]
        exact hinv.seen

/-! ### Emptying a directory -/

/-- One round of the loop takes out the entry at the position and moves the position on. -/
theorem round_spec (hinv : TreeInv s.files.vfs) (hopen : OpenAt s.files fd dir)
    (hread : scanStep fd s .readdir = some t) (hdel : t.delivered = s.delivered ++ [id])
    (hfound : vfsLookup t.files.vfs path = some id)
    (hdone : (vfsUnlink t.files.vfs path).2 = true) :
    TreeInv (vfsUnlink t.files.vfs path).1 ∧
      OpenAt (t.change (vfsUnlink t.files.vfs path).1).files fd dir ∧
      entries (t.change (vfsUnlink t.files.vfs path).1).files fd =
        (entries s.files fd).eraseIdx (position s.files fd) ∧
      position (t.change (vfsUnlink t.files.vfs path).1).files fd = position s.files fd + 1 := by
  obtain ⟨id', hid, hdel', hvfs, hopen', hsame, hpos⟩ := readdir_spec hinv hopen hread
  obtain rfl : id = id' := by simpa using hdel.symm.trans hdel'
  have htree : TreeInv t.files.vfs := hvfs ▸ hinv
  rcases vfsUnlink_found hfound with hnone | ⟨node, at', -, hget, hparent, -, -, hunlink⟩
  · rw [hnone] at hdone
    simp at hdone
  rw [hunlink]
  obtain ⟨hopen'', hentries⟩ := detach_spec htree hopen' hget hparent
  refine ⟨treeInv_detach htree hget hparent, hopen'', ?_, hpos⟩
  rw [hentries, hsame, erase_read (nodup_entries hinv hopen) hid]

/-- The first entry stays where it is once the position is behind it. -/
theorem sweep_keeps (hsweep : Sweep fd s u) (hinv : TreeInv s.files.vfs)
    (hopen : OpenAt s.files fd dir) (hpos : 0 < position s.files fd)
    (hhead : (entries s.files fd)[0]? = some id) : (entries u.files fd)[0]? = some id := by
  induction hsweep with
  | done _ => exact hhead
  | next hread hdel hfound hdone _ ih =>
    obtain ⟨htree, hopen', hentries, hpos'⟩ := round_spec hinv hopen hread hdel hfound hdone
    apply ih htree hopen'
    · rw [hpos']
      exact Nat.succ_pos _
    · rw [hentries, List.getElem?_eraseIdx, if_pos hpos]
      exact hhead

theorem atEnd_iff (hinv : TreeInv s.files.vfs) (hopen : OpenAt s.files fd dir) :
    AtEnd s fd ↔ (entries s.files fd)[position s.files fd]? = none := by
  unfold AtEnd
  rcases sysReaddir_spec hinv hopen with ⟨hnone, hend⟩ | ⟨id, e, fds, hid, -, hread, -⟩
  · rw [hend, hnone]
    simp
  · rw [hread, hid]
    simp

/-- The loop empties a directory exactly when there is at most one entry in it. -/
theorem sweep_empties_iff (hsweep : Sweep fd s u) (hinv : TreeInv s.files.vfs)
    (hopen : OpenAt s.files fd dir) (hpos : position s.files fd = 0) :
    entries u.files fd = [] ↔ (entries s.files fd).length ≤ 1 := by
  cases hsweep with
  | done hend =>
    rw [atEnd_iff hinv hopen, hpos, List.getElem?_eq_none_iff] at hend
    have hnil : entries s.files fd = [] := List.length_eq_zero_iff.mp (Nat.le_zero.mp hend)
    simp [hnil]
  | next hread hdel hfound hdone hrest =>
    obtain ⟨id, hid, -⟩ := readdir_spec hinv hopen hread
    obtain ⟨htree, hopen', hentries, hpos'⟩ := round_spec hinv hopen hread hdel hfound hdone
    rw [hpos] at hid hentries hpos'
    cases hlist : entries s.files fd with
    | nil =>
      rw [hlist] at hid
      simp at hid
    | cons first rest =>
      rw [hlist] at hentries
      cases rest with
      | nil =>
        -- the only entry is gone, so the next call reports the end
        cases hrest with
        | done _ => simp [hentries]
        | next hread' _ _ _ _ =>
          obtain ⟨_, hnext, -⟩ := readdir_spec htree hopen' hread'
          rw [hentries] at hnext
          simp at hnext
      | cons second rest =>
        have hkept := sweep_keeps hrest htree hopen' (by rw [hpos']; exact Nat.one_pos)
          (show _ = some second by rw [hentries]; rfl)
        constructor
        · intro hnil
          rw [hnil] at hkept
          simp at hkept
        · intro hlen
          simp at hlen

/-! ### Opening -/

theorem opendir_spec {g : Files} (h : sysOpendir f path = (g, (fd : Int)))
    (hdir : vfsLookup f.vfs path = some dir) :
    g.vfs = f.vfs ∧ OpenAt g fd dir ∧ position g fd = 0 := by
  unfold sysOpendir fdAlloc at h
  rw [hdir] at h
  cases hget : f.vfs.get dir with
  | none => simp [hget, eNoEnt] at h
  | some node =>
    by_cases htype : node.type = .dir
    · simp only [hget, Option.any_some, htype, decide_true, if_true] at h
      cases hfree : f.fds.firstFree 3 with
      | none => simp [hfree, eNoMem] at h
      | some slot =>
        obtain ⟨-, hslot, -⟩ := Slots.firstFree_some hfree
        rw [hfree] at h
        simp only [Int.natCast_nonneg, Int.not_lt.mpr, if_false, Prod.mk.injEq,
          Int.natCast_inj] at h
        obtain ⟨rfl, rfl⟩ := h
        have hfd : fdGet (f.fds.set slot
            (some { node := dir, offset := 0, flags := oDirectory, refs := 1 })) (toInt32 slot) =
            some { node := dir, offset := 0, flags := oDirectory, refs := 1 } := by
          rw [toInt32_fd hslot, fdGet_ofNat hslot, Slots.get_set_self hslot]
        exact ⟨rfl, ⟨_, node, hfd, rfl, hget, htype⟩, by rw [position_eq hfd]⟩
    · simp [hget, htype, eNoEnt] at h

/-- **A scan delivers every entry that stays exactly once, as long as no entry is moved over
the position; and the loop that unlinks every entry empties the directory exactly when it has
at most one.** -/
theorem scan_exact {g : Files} (hinv : TreeInv f.vfs) (hdir : vfsLookup f.vfs path = some dir)
    (hopen : sysOpendir f path = (g, (fd : Int))) :
    (∀ ops u, run (scanStep fd) ⟨g, []⟩ ops = some u →
      Along (scanStep fd) (MovesNone fd dir) ⟨g, []⟩ ops → AtEnd u fd →
      ∀ id, Throughout (scanStep fd) (fun t => id ∈ entries t.files fd) ⟨g, []⟩ ops →
        u.delivered.count id = 1) ∧
    ∀ u, Sweep fd ⟨g, []⟩ u → (entries u.files fd = [] ↔ (entries g fd).length ≤ 1) := by
  obtain ⟨hvfs, hopen', hpos⟩ := opendir_spec hopen hdir
  have htree : TreeInv g.vfs := hvfs ▸ hinv
  refine ⟨fun ops u hrun halong hend id hthere => ?_, fun u hsweep =>
    sweep_empties_iff hsweep htree hopen' hpos⟩
  have hstart : ScanInv fd dir g.vfs.nodes.length ⟨g, []⟩ := by
    refine ⟨htree, hopen', Nat.le_refl _, ?_⟩
    rw [hpos]
    exact seen_start _ _
  have hinvs := along_throughout (fun s op s' => scanInv_step op) hstart halong
  have hlast := hinvs.last hrun
  rw [atEnd_iff hlast.tree hlast.opened] at hend
  exact hlast.seen.all hend (hthere.last hrun) (lt_of_mem_entries htree hopen' hthere.head)

/-- A root with the files `b` and `a` in it. -/
def twoFiles : Files where
  vfs := (vfsCreate (vfsCreate mountRoot [slash, 97] .file true).1 [slash, 98] .file true).1
  fds := fdTableInit

/-- The root opened under descriptor 3. -/
def twoFilesOpen : Files := (sysOpendir twoFiles [slash]).1

theorem treeInv_twoFiles : TreeInv twoFiles.vfs :=
  treeInv_step _ (.create [slash, 98] .file true) _
    (treeInv_step _ (.create [slash, 97] .file true) _ treeInv_mountRoot rfl) rfl

/-- `a` is unlinked after `b` was delivered, which moves nothing over the position. -/
theorem scan_exact_twoFiles :
    ∃ u, run (scanStep 3) ⟨twoFilesOpen, []⟩ [.readdir, .unlink [slash, 97]] = some u ∧
      AtEnd u 3 ∧ u.delivered.count 2 = 1 := by
  have hopen : sysOpendir twoFiles [slash] = (twoFilesOpen, ((3 : Nat) : Int)) := rfl
  have hscan :=
    (scan_exact treeInv_twoFiles (show vfsLookup _ _ = some 0 by decide +kernel) hopen).1
    [.readdir, .unlink [slash, 97]]
  refine ⟨_, rfl, by decide +kernel, hscan _ rfl ⟨trivial, fun t ht => ⟨?_, fun _ _ => trivial⟩⟩
    (by decide +kernel) 2 ⟨by decide +kernel, fun t ht => ⟨?_, fun u hu => ?_⟩⟩⟩
  · obtain rfl := Option.some.inj ht
    intro _
    show ∀ id ∈ entries _ 3, vfsLookup _ _ = some id → position _ 3 ≤ _ ∨ _ ≤ position _ 3
    decide +kernel
  · obtain rfl := Option.some.inj ht
    decide +kernel
  · obtain rfl := Option.some.inj ht
    obtain rfl := Option.some.inj hu
    show 2 ∈ entries _ 3
    decide +kernel

/-- The loop is given `b`, unlinks it, and is told that this was the last entry: `a` is
still there and was never delivered. -/
theorem sweep_leaves_one :
    ∃ u, Sweep 3 ⟨twoFilesOpen, []⟩ u ∧ entries u.files 3 = [1] ∧ u.delivered = [2] := by
  have hread : scanStep 3 ⟨twoFilesOpen, []⟩ .readdir =
      some ⟨(sysReaddir twoFilesOpen 3 true).1, [2]⟩ := rfl
  have hfound : vfsLookup (sysReaddir twoFilesOpen 3 true).1.vfs [slash, 98] = some 2 := by
    decide +kernel
  exact ⟨_, .next hread rfl hfound (by decide +kernel) (.done (by decide +kernel)),
    by decide +kernel, rfl⟩

end Nv0ken.Proc
