/-
What a failed `sys_open` or `sys_pipe` leaves behind.

Both calls do several things one after the other and take nothing back when a later one
fails.  A failed `sys_open` may have created directories, or the file itself, or have
emptied a file that was there; a failed `sys_pipe` may have taken the last descriptor.
`failed_call_iff` says that these are the only traces, and exactly when they are left.

The tree is compared by what can be seen of it: the nodes that were there, with their
names, types, sizes, contents and links.
-/
import Nv0ken.Kernel.Proc.SyscallHandlers
import Nv0ken.Proofs.Fs.Vfs

namespace Nv0ken.Proc

open Word Fs List Option

variable {s : System} {v v' v'' : Vfs} {path : List UInt8} {flags : Nat} {reply : OpenReply}
  {id : NodeId} {node : Node} {fds : FdTable}

/-- What can be seen of a node: the block of a file counts only as far as the file goes. -/
def view (node : Node) : Node := { node with file := some node.contents }

/-- Every node that was there looks the same. -/
def SameTree (v v' : Vfs) : Prop :=
  v'.rootNode = v.rootNode ∧
    ∀ id, id < v.nodes.length → (v'.get id).map view = (v.get id).map view

def Unchanged (s s' : System) : Prop := SameTree s.vfs s'.vfs ∧ s'.fds = s.fds

/-- There is nothing that `sys_open` could create: no directory on the way that is missing,
and not the node itself. -/
def NothingToCreate (v : Vfs) (path : List UInt8) (reply : OpenReply) : Prop :=
  (path.length < pathMax →
      ∀ dir ∈ parentPaths path, (vfsLookup v dir).isSome ∨ ¬ Creatable v dir (reply.dirs dir)) ∧
    ¬ Creatable v path reply.node

/-- Before the call: a missing path is not to be created, or nothing of it can be; and a
file that is to be emptied is empty, or has no memory to be emptied in. -/
def OpenHarmless (s : System) (reply : OpenReply) (path : Option (List UInt8)) (flags : Nat) :
    Prop :=
  ∀ p, path = some p →
    (vfsLookup s.vfs p = none → flags &&& oCreat ≠ 0 → NothingToCreate s.vfs p reply) ∧
      (flags &&& oTrunc ≠ 0 → ∀ id node, vfsLookup s.vfs p = some id → s.vfs.get id = some node →
        node.ops = .tmpfs → node.type = .file → (fileOf node reply.truncate).isSome → node.size = 0)

/-- There is exactly one descriptor to be had. -/
def OneFree (fds : FdTable) : Prop :=
  ∃ i, 3 ≤ i ∧ i < fdTableMax ∧ fds.get i = none ∧
    ∀ j, 3 ≤ j → j < fdTableMax → fds.get j = none → j = i

/-- Before the call: `sys_pipe` has not the memory to get as far as the table, or there is
not a single free slot there. -/
def PipeHarmless (s : System) (reply : PipeReply) (fds : Bool) : Prop :=
  fds = true → reply.node = true → reply.pipe = true → reply.buffer.isSome → ¬ OneFree s.fds

theorem SameTree.refl (v : Vfs) : SameTree v v := ⟨rfl, fun _ _ => rfl⟩

/-! ### Directories that grow -/

/-- Directories keep their children. -/
def Extends (v v' : Vfs) : Prop :=
  ∀ id node, v.get id = some node → ∃ node', v'.get id = some node' ∧
    node.children.length ≤ node'.children.length

/-- Some directory got another child. -/
def Grown (v v' : Vfs) : Prop :=
  ∃ id node node', v.get id = some node ∧ v'.get id = some node' ∧
    node.children.length < node'.children.length

theorem Extends.trans (h : Extends v v') (h' : Extends v' v'') : Extends v v'' := by
  intro id node hget
  obtain ⟨node', hget', hle⟩ := h id node hget
  obtain ⟨node'', hget'', hle'⟩ := h' id node' hget'
  exact ⟨node'', hget'', Nat.le_trans hle hle'⟩

theorem Grown.trans (h : Grown v v') (h' : Extends v' v'') : Grown v v'' := by
  obtain ⟨id, node, node', hget, hget', hlt⟩ := h
  obtain ⟨node'', hget'', hle⟩ := h' id node' hget'
  exact ⟨id, node, node'', hget, hget'', Nat.lt_of_lt_of_le hlt hle⟩

theorem not_sameTree_of_grown (h : Grown v v') : ¬ SameTree v v' := by
  intro hsame
  obtain ⟨id, node, node', hget, hget', hlt⟩ := h
  have hview := hsame.2 id (lt_of_get hget)
  rw [hget, hget'] at hview
  have hchildren := congrArg Node.children (some.inj hview)
  exact Nat.ne_of_gt hlt (congrArg length hchildren)

theorem Grown.ne (h : Grown v v') : v' ≠ v := by
  rintro rfl
  exact not_sameTree_of_grown h (SameTree.refl _)

/-- Nothing changed, or directories only grew. -/
def SameOrGrown (v v' : Vfs) : Prop := v' = v ∨ Extends v v' ∧ Grown v v'

theorem SameOrGrown.extends (h : SameOrGrown v v') : Extends v v' := by
  rcases h with rfl | ⟨h, -⟩
  · exact fun _ node hget => ⟨node, hget, Nat.le_refl _⟩
  · exact h

theorem SameOrGrown.trans (h : SameOrGrown v v') (h' : SameOrGrown v' v'') : SameOrGrown v v'' := by
  rcases h with rfl | ⟨hext, hgrown⟩
  · exact h'
  · exact Or.inr ⟨hext.trans h'.extends, hgrown.trans h'.extends⟩

/-- What has grown does not shrink back. -/
theorem SameOrGrown.antisymm (h : SameOrGrown v v') (h' : SameOrGrown v' v) : v' = v := by
  rcases h with heq | ⟨-, hgrown⟩
  · exact heq
  · exact absurd rfl (hgrown.trans h'.extends).ne

/-- **A call of `vfs_create` changes nothing, or a directory grows.** -/
theorem vfsCreate_grown (v : Vfs) (path : List UInt8) (type : NodeType) (alloc : Bool) :
    SameOrGrown v (vfsCreate v path type alloc).1 ∧
      ((vfsCreate v path type alloc).1 = v ↔ ¬ Creatable v path alloc) := by
  rcases vfsCreate_cases v path type alloc with ⟨hnot, h⟩ | ⟨hcreatable, cs, c, dir, -, hplace, h⟩
  · rw [h]
    exact ⟨Or.inl rfl, iff_of_true rfl hnot⟩
  · obtain ⟨parent, hget, -⟩ := hplace.directory
    have hgrown : Grown v (attach v dir c type) := by
      refine ⟨dir, parent, { parent with children := v.nodes.length :: parent.children }, hget, ?_,
        Nat.lt_succ_self _⟩
      rw [get_attach_old (lt_of_get hget), hget, map_some, if_pos rfl]
    have hext : Extends v (attach v dir c type) := by
      intro id node hid
      rw [get_attach_old (lt_of_get hid), hid]
      by_cases hdir : id = dir <;> simp [hdir]
    rw [h]
    exact ⟨Or.inr ⟨hext, hgrown⟩, iff_of_false hgrown.ne (not_not_intro hcreatable)⟩

/-- One directory on the way, created if it is missing. -/
theorem makeDir_grown (v : Vfs) (dir : List UInt8) (alloc : Bool) :
    let v' := if (vfsLookup v dir).isSome then v else (vfsCreate v dir .dir alloc).1
    SameOrGrown v v' ∧ (v' = v ↔ (vfsLookup v dir).isSome ∨ ¬ Creatable v dir alloc) := by
  by_cases hfound : (vfsLookup v dir).isSome
  · rw [if_pos hfound]
    exact ⟨Or.inl rfl, iff_of_true rfl (Or.inl hfound)⟩
  · rw [if_neg hfound]
    obtain ⟨hgrown, hsame⟩ := vfsCreate_grown v dir .dir alloc
    exact ⟨hgrown, hsame.trans ⟨Or.inr, fun h => h.resolve_left hfound⟩⟩

/-- Steps that only make directories grow change nothing together exactly if none of them
would change anything alone. -/
theorem foldl_grown {α : Type} (f : Vfs → α → Vfs) (hf : ∀ v a, SameOrGrown v (f v a)) (l : List α)
    (v : Vfs) : SameOrGrown v (l.foldl f v) ∧ (l.foldl f v = v ↔ ∀ a ∈ l, f v a = v) := by
  induction l generalizing v with
  | nil => exact ⟨Or.inl rfl, iff_of_true rfl fun a ha => absurd ha not_mem_nil⟩
  | cons a l ih =>
    rw [foldl_cons, forall_mem_cons]
    obtain ⟨hgrown, hsame⟩ := ih (f v a)
    refine ⟨(hf v a).trans hgrown, ?_⟩
    by_cases hfirst : f v a = v
    · rw [hfirst] at hsame ⊢
      rw [hsame, and_iff_right rfl]
    · refine iff_of_false (fun heq => hfirst ((hf v a).antisymm ?_)) fun h => hfirst h.1
      rw [heq] at hgrown
      exact hgrown

theorem makeParentDirs_grown (v : Vfs) (path : List UInt8) (allocs : List UInt8 → Bool) :
    SameOrGrown v (makeParentDirs v path allocs) ∧
      (makeParentDirs v path allocs = v ↔ (path.length < pathMax →
        ∀ dir ∈ parentPaths path, (vfsLookup v dir).isSome ∨ ¬ Creatable v dir (allocs dir))) := by
  unfold makeParentDirs
  by_cases hlong : path.length ≥ pathMax
  · rw [if_pos hlong]
    exact ⟨Or.inl rfl, iff_of_true rfl fun hshort => absurd hlong (Nat.not_le.mpr hshort)⟩
  · rw [if_neg hlong]
    obtain ⟨hgrown, hsame⟩ := foldl_grown _ (fun v dir => (makeDir_grown v dir (allocs dir)).1)
      (parentPaths path) v
    refine ⟨hgrown, hsame.trans ?_⟩
    rw [forall_prop_of_true (Nat.not_le.mp hlong)]
    exact forall₂_congr fun dir _ => (makeDir_grown v dir (allocs dir)).2

/-- Finding or creating the node of a path leaves the tree as it is, or directories grow;
what is not there and not created is not opened. -/
theorem openNode_grown (v : Vfs) (path : List UInt8) (flags : Nat) (reply : OpenReply) :
    SameOrGrown v (openNode v path flags reply).1 ∧
      ((openNode v path flags reply).1 = v ↔
        (vfsLookup v path = none → flags &&& oCreat ≠ 0 → NothingToCreate v path reply)) := by
  unfold openNode
  cases hfound : vfsLookup v path with
  | some id => exact ⟨Or.inl rfl, iff_of_true rfl fun h => by cases h⟩
  | none =>
    simp only
    by_cases hcreat : flags &&& oCreat ≠ 0
    · rw [if_pos hcreat, forall_const, forall_prop_of_true hcreat]
      obtain ⟨hdirs, hdirsSame⟩ := makeParentDirs_grown v path reply.dirs
      obtain ⟨hnode, hnodeSame⟩ := vfsCreate_grown (makeParentDirs v path reply.dirs) path
        (if flags &&& oDirectory ≠ 0 then .dir else .file) reply.node
      refine ⟨hdirs.trans hnode, fun heq => ?_, fun hnothing => ?_⟩
      · rw [heq] at hnode hnodeSame
        have hback := hdirs.antisymm hnode
        rw [hback] at hnodeSame
        exact ⟨hdirsSame.mp hback, hnodeSame.mp rfl⟩
      · rw [hdirsSame.mpr hnothing.1] at hnodeSame ⊢
        exact hnodeSame.mpr hnothing.2
    · rw [if_neg hcreat]
      exact ⟨Or.inl rfl, iff_of_true rfl fun _ h => absurd h hcreat⟩

theorem openNode_missing (hmissing : vfsLookup v path = none)
    (hsame : (openNode v path flags reply).1 = v) : (openNode v path flags reply).2 = none := by
  have hnothing := (openNode_grown v path flags reply).2.mp hsame hmissing
  unfold openNode
  rw [hmissing]
  by_cases hcreat : flags &&& oCreat ≠ 0
  · obtain ⟨hdirs, hnode⟩ := hnothing hcreat
    rw [if_pos hcreat, (makeParentDirs_grown v path reply.dirs).2.mpr hdirs,
      vfsCreate_of_not_creatable hnode]
  · rw [if_neg hcreat]

/-! ### Truncation -/

theorem children_openTruncate (node : Node) (reply : Reply) :
    (openTruncate node reply).children = node.children := by
  unfold openTruncate tmpfsTruncate
  by_cases hops : node.ops = .tmpfs
  · rw [if_pos hops]
    by_cases htype : node.type ≠ .file
    · rw [if_pos htype]
    · rw [if_neg htype]
      cases fileOf node reply with
      | none => rfl
      | some data =>
        simp only
        rw [if_neg (Nat.not_lt_zero _)]
  · rw [if_neg hops]

theorem extends_truncate (v : Vfs) (id : NodeId) (reply : Reply) :
    Extends v (v.modify id fun node => openTruncate node reply) := by
  intro k node hget
  rw [get_modify, hget]
  by_cases hk : k = id
  · simp [hk, children_openTruncate]
  · simp [hk]

/-- Emptying a file shows exactly if there was something in it. -/
theorem view_openTruncate_iff (node : Node) (reply : Reply) :
    view (openTruncate node reply) = view node ↔
      (node.ops = .tmpfs → node.type = .file → (fileOf node reply).isSome → node.size = 0) := by
  unfold openTruncate tmpfsTruncate
  by_cases hops : node.ops = .tmpfs
  · rw [if_pos hops]
    by_cases htype : node.type = .file
    · rw [if_neg (not_not_intro htype)]
      cases hfile : fileOf node reply with
      | none => simp
      | some data =>
        simp only
        rw [if_neg (Nat.not_lt_zero _)]
        simp only [hops, htype, isSome_some, forall_const]
        constructor
        · intro h
          exact (congrArg Node.size h).symm
        · intro hsize
          unfold view Node.contents
          simp only [hsize, take_zero]
          rw [hops, htype]
    · rw [if_pos htype]
      simp [htype]
  · rw [if_neg hops]
    simp [hops]

/-- Changing one node shows exactly if the node looks different. -/
theorem sameTree_modify_iff (f : Node → Node) :
    SameTree v (v.modify id f) ↔ ∀ node, v.get id = some node → view (f node) = view node := by
  constructor
  · intro h node hget
    have hview := h.2 id (lt_of_get hget)
    rw [get_modify, hget, map_some, if_pos rfl] at hview
    exact some.inj hview
  · intro hview
    refine ⟨rfl, fun k _ => ?_⟩
    rw [get_modify]
    cases hget : v.get k with
    | none => rfl
    | some node =>
      by_cases hk : k = id
      · subst hk
        simp [hview node hget]
      · simp [hk]

/-! ### Opening -/

theorem fdAlloc_failed {f : Int} (h : (fdAlloc fds id f).2 < 0) :
    fdAlloc fds id f = (fds, -1) ∧ fds.firstFree 3 = none := by
  unfold fdAlloc at h ⊢
  cases hfree : fds.firstFree 3 with
  | none => exact ⟨rfl, rfl⟩
  | some fd =>
    rw [hfree] at h
    simp at h
    omega

/-- The tree after the truncation, if one was asked for. -/
def afterTruncate (v : Vfs) (id : NodeId) (flags : Nat) (reply : Reply) : Vfs :=
  if flags &&& oTrunc ≠ 0 then v.modify id fun node => openTruncate node reply else v

/-- What `sys_open` leaves behind when there is a node but no descriptor. -/
theorem sysOpen_full (hnode : openNode s.vfs path flags reply = (v', some id))
    (h : (sysOpen s reply (some path) flags).2 < 0) :
    (sysOpen s reply (some path) flags).1 =
      { s with files := { s.files with vfs := afterTruncate v' id flags reply.truncate } } := by
  unfold sysOpen at h ⊢
  simp only [hnode] at h ⊢
  have hneg : (fdAlloc s.fds id (toInt32 flags)).2 < 0 := by
    by_contra hpos
    rw [if_neg hpos] at h
    exact hpos h
  obtain ⟨halloc, -⟩ := fdAlloc_failed hneg
  rw [halloc]
  simp [afterTruncate]

theorem sysOpen_missing (hnode : openNode s.vfs path flags reply = (v', none)) :
    (sysOpen s reply (some path) flags).1 = { s with files := { s.files with vfs := v' } } := by
  unfold sysOpen
  simp only [hnode]

/-- Nothing was created: what shows is whether a file was emptied. -/
theorem sysOpen_failed_found (hfound : vfsLookup s.vfs path = some id)
    (h : (sysOpen s reply (some path) flags).2 < 0) :
    Unchanged s (sysOpen s reply (some path) flags).1 ↔
      (flags &&& oTrunc ≠ 0 → ∀ node, s.vfs.get id = some node → node.ops = .tmpfs →
        node.type = .file → (fileOf node reply.truncate).isSome → node.size = 0) := by
  have hnode : openNode s.vfs path flags reply = (s.vfs, some id) := by
    unfold openNode
    rw [hfound]
  rw [sysOpen_full hnode h]
  by_cases htrunc : flags &&& oTrunc ≠ 0
  · rw [afterTruncate, if_pos htrunc]
    constructor
    · intro hun _ node hget
      exact (view_openTruncate_iff node _).mp ((sameTree_modify_iff _).mp hun.1 node hget)
    · intro hempty
      refine ⟨(sameTree_modify_iff _).mpr fun node hget => ?_, rfl⟩
      exact (view_openTruncate_iff node _).mpr (hempty htrunc node hget)
  · rw [afterTruncate, if_neg htrunc]
    exact iff_of_true ⟨SameTree.refl _, rfl⟩ fun h => absurd h htrunc

/-- Something was created, and nothing takes it away again. -/
theorem sysOpen_failed_grown (hgrown : Grown s.vfs (openNode s.vfs path flags reply).1)
    (h : (sysOpen s reply (some path) flags).2 < 0) :
    ¬ Unchanged s (sysOpen s reply (some path) flags).1 := by
  rcases hnode : openNode s.vfs path flags reply with ⟨v', _ | id⟩
  · rw [sysOpen_missing hnode]
    rw [hnode] at hgrown
    exact fun hun => not_sameTree_of_grown hgrown hun.1
  · rw [sysOpen_full hnode h]
    rw [hnode] at hgrown
    by_cases htrunc : flags &&& oTrunc ≠ 0
    · rw [afterTruncate, if_pos htrunc]
      exact fun hun =>
        not_sameTree_of_grown (hgrown.trans (extends_truncate v' id reply.truncate)) hun.1
    · rw [afterTruncate, if_neg htrunc]
      exact fun hun => not_sameTree_of_grown hgrown hun.1

theorem sysOpen_failed_iff (path : Option (List UInt8)) (h : (sysOpen s reply path flags).2 < 0) :
    Unchanged s (sysOpen s reply path flags).1 ↔ OpenHarmless s reply path flags := by
  cases path with
  | none =>
    exact iff_of_true ⟨SameTree.refl _, rfl⟩ fun p hp => by cases hp
  | some path =>
    obtain ⟨hgrown, hsame⟩ := openNode_grown s.vfs path flags reply
    have hharmless : OpenHarmless s reply (some path) flags ↔
        (openNode s.vfs path flags reply).1 = s.vfs ∧
          (flags &&& oTrunc ≠ 0 → ∀ id node, vfsLookup s.vfs path = some id →
            s.vfs.get id = some node → node.ops = .tmpfs → node.type = .file →
            (fileOf node reply.truncate).isSome → node.size = 0) := by
      rw [hsame]
      refine ⟨fun h => h path rfl, fun h p hp => ?_⟩
      obtain rfl := some.inj hp
      exact h
    rw [hharmless]
    rcases hgrown with hsame | ⟨-, hgrown⟩
    · rw [and_iff_right hsame]
      cases hfound : vfsLookup s.vfs path with
      | none =>
        rw [sysOpen_missing (Prod.ext hsame (openNode_missing hfound hsame))]
        exact iff_of_true ⟨SameTree.refl _, rfl⟩ fun _ id node hid => by cases hid
      | some id =>
        rw [sysOpen_failed_found hfound h]
        refine ⟨fun hempty htrunc id' node hid => ?_, fun hempty htrunc node =>
          hempty htrunc id node rfl⟩
        obtain rfl := some.inj hid
        exact hempty htrunc node
    · exact iff_of_false (sysOpen_failed_grown hgrown h) fun hharmless => hgrown.ne hharmless.1

/-! ### Pipes -/

theorem sameTree_append (v : Vfs) (node : Node) :
    SameTree v { v with nodes := v.nodes ++ [node] } := by
  refine ⟨rfl, fun k hk => ?_⟩
  unfold Vfs.get
  rw [getElem?_append_left hk]

/-- With one slot left, the read end takes it and there is none for the write end. -/
theorem fdAlloc_twice {f f' : Int}
    (h : (fdAlloc fds id f).2 < 0 ∨ (fdAlloc (fdAlloc fds id f).1 id f').2 < 0) :
    (fdAlloc (fdAlloc fds id f).1 id f').1 = fds ↔ ¬ OneFree fds := by
  by_cases hfirst : (fdAlloc fds id f).2 < 0
  · obtain ⟨halloc, hfull⟩ := fdAlloc_failed hfirst
    have hsecond : fdAlloc fds id f' = (fds, -1) := by
      unfold fdAlloc
      rw [hfull]
    rw [halloc, hsecond]
    refine iff_of_true rfl ?_
    rintro ⟨i, hlow, hhigh, hfree, -⟩
    exact Slots.firstFree_none.mp hfull i hlow hhigh hfree
  · obtain ⟨halloc, hfull⟩ := fdAlloc_failed (h.resolve_left hfirst)
    rw [halloc]
    unfold fdAlloc at hfirst hfull ⊢
    cases hfree : fds.firstFree 3 with
    | none =>
      rw [hfree] at hfirst
      simp at hfirst
    | some i =>
      rw [hfree] at hfull
      obtain ⟨hlow, hhigh, hempty⟩ := Slots.firstFree_some hfree
      refine iff_of_false ?_ (not_not_intro ⟨i, hlow, hhigh, hempty, fun j hj hj' hfree' => ?_⟩)
      · intro hsame
        have hslot := congrArg (fun t => Slots.get t i) hsame
        simp only [Slots.get_set_self hhigh, hempty] at hslot
        simp at hslot
      · by_contra hne
        have := Slots.firstFree_none.mp hfull j hj hj'
        rw [Slots.get_set_ne hne] at this
        exact this hfree'

theorem pipefsCreateNode_isSome_iff (name : List UInt8) (reply : PipeReply) :
    (pipefsCreateNode name reply).isSome ↔
      reply.node = true ∧ reply.pipe = true ∧ reply.buffer.isSome := by
  unfold pipefsCreateNode Ipc.pipeInit
  cases reply.node <;> cases reply.pipe <;> cases reply.buffer <;> simp

theorem sysPipe_failed_iff (reply : PipeReply) (fds : Bool) (h : (sysPipe s reply fds).2.1 < 0) :
    Unchanged s (sysPipe s reply fds).1 ↔ PipeHarmless s reply fds := by
  have hharmless : PipeHarmless s reply fds ↔
      (fds = true → (pipefsCreateNode pipeName reply).isSome → ¬ OneFree s.fds) := by
    rw [pipefsCreateNode_isSome_iff, and_imp, and_imp, PipeHarmless]
  rw [hharmless]
  unfold sysPipe at h ⊢
  cases fds with
  | false => exact iff_of_true ⟨SameTree.refl _, rfl⟩ fun h => by cases h
  | true =>
    simp only [Bool.not_true, Bool.false_eq_true, if_false, forall_const] at h ⊢
    cases hnode : pipefsCreateNode pipeName reply with
    | none => exact iff_of_true ⟨SameTree.refl _, rfl⟩ fun h => by cases h
    | some node =>
      rw [hnode] at h
      simp only [isSome_some, forall_const] at h ⊢
      by_cases hfailed : (fdAlloc s.fds s.vfs.nodes.length 0).2 < 0 ∨
          (fdAlloc (fdAlloc s.fds s.vfs.nodes.length 0).1 s.vfs.nodes.length 1).2 < 0
      · rw [if_pos hfailed, ← fdAlloc_twice hfailed]
        exact ⟨fun hun => hun.2, fun hfds => ⟨sameTree_append _ node, hfds⟩⟩
      · rw [if_neg hfailed] at h
        simp at h

/-- **What a failed call leaves behind.**  A `sys_open` that returns an error leaves tree
and table as they were exactly if, before the call, there was nothing it was to create and
could, and no file it was to empty with something in it; a `sys_pipe` that returns an error
does exactly if it had no memory for its node, or not a single descriptor was free. -/
theorem failed_call_iff (s : System) :
    (∀ reply path flags, (sysOpen s reply path flags).2 < 0 →
        (Unchanged s (sysOpen s reply path flags).1 ↔ OpenHarmless s reply path flags)) ∧
      ∀ reply fds, (sysPipe s reply fds).2.1 < 0 →
        (Unchanged s (sysPipe s reply fds).1 ↔ PipeHarmless s reply fds) :=
  ⟨fun _ path _ h => sysOpen_failed_iff path h, fun reply fds h => sysPipe_failed_iff reply fds h⟩

theorem failed_call_missing :
    (sysOpen .initial .served (some [slash, 102]) 0).2 < 0 ∧
      Unchanged .initial (sysOpen .initial .served (some [slash, 102]) 0).1 := by
  have hfails : (sysOpen .initial .served (some [slash, 102]) 0).2 < 0 := by decide +kernel
  refine ⟨hfails, ((failed_call_iff .initial).1 _ _ _ hfails).mpr fun p _ => ⟨?_, ?_⟩⟩
  · exact fun _ h => absurd (by decide) h
  · exact fun h => absurd (by decide) h

/-- The table with descriptor 5 free and all others taken. -/
def oneLeft : FdTable :=
  (⟨List.replicate fdTableMax (some { node := 0, offset := 0, flags := 0, refs := 1 }),
    List.length_replicate⟩ : FdTable).set 5 none

/-- `sys_open("/d/", O_CREAT)` fails because `/d` is there by then, and `/d` stays; with one
descriptor left, `sys_pipe` fails and the descriptor is gone. -/
theorem failed_calls_leave_traces :
    (sysOpen .initial .served (some [slash, 100, slash]) oCreat).2 = -eNoEnt ∧
      vfsLookup System.initial.vfs [slash, 100] = none ∧
      vfsLookup (sysOpen .initial .served (some [slash, 100, slash]) oCreat).1.vfs [slash, 100] =
        some 1 ∧
      ¬ SameTree System.initial.vfs
        (sysOpen .initial .served (some [slash, 100, slash]) oCreat).1.vfs ∧
      (sysPipe { files := { vfs := mountRoot, fds := oneLeft } } ⟨true, true,
        some fun _ => 0⟩ true).2.1 =
        -eNoMem ∧
      oneLeft.get 5 = none ∧
      ((sysPipe { files := { vfs := mountRoot, fds := oneLeft } }
        ⟨true, true, some fun _ => 0⟩ true).1.fds.get 5).isSome := by
  have hroot : ((sysOpen .initial .served (some [slash, 100, slash]) oCreat).1.vfs.get 0).map view ≠
      (System.initial.vfs.get 0).map view := by decide +kernel
  refine ⟨by decide +kernel, by decide +kernel, by decide +kernel, fun h => ?_, by decide +kernel,
    by decide +kernel, by decide +kernel⟩
  exact hroot (h.2 0 (by decide))

end Nv0ken.Proc
