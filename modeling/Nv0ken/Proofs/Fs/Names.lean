/-
Names in the tree, over whole runs of `vfs_create` and `vfs_unlink`.

The shape of the tree, `TreeInv`, is kept by every call, so a node has one address at
most (`nodeAt_inj`), and a node just created is found under the path it was created
with.  Names are another matter.  `tmpfs_create_node` searches the directory for the
whole name but stores 63 bytes of it, and a lookup cuts what it compares to the same 63
bytes.  The components that no other component is mistaken for are those of
`kept_iff`, and `names_ok_iff` is the run theorem: directories stay free of duplicates
and paths stay unambiguous exactly as long as every node is created with such a name.
-/
import Nv0ken.Lib.Run
import Nv0ken.Proofs.Fs.Vfs
import Mathlib.Data.List.Find

namespace Nv0ken.Fs

open Pieces Run List Option

variable {s : Vfs} {path c d name : List UInt8} {cs ds up v : List (List UInt8)} {dir id n : NodeId}
  {type : NodeType} {alloc : Bool} {node : Node}

/-- The calls that change the tree; `alloc` is the answer of the allocator. -/
inductive VfsOp
  | create (path : List UInt8) (type : NodeType) (alloc : Bool)
  | unlink (path : List UInt8)

def vfsStep (s : Vfs) : VfsOp → Option Vfs
  | .create path type alloc => some (vfsCreate s path type alloc).1
  | .unlink path => some (vfsUnlink s path).1

/-- No directory holds two children with the same stored name. -/
def NoDuplicateNames (s : Vfs) : Prop :=
  ∀ node ∈ s.nodes, ∀ a ∈ node.children, ∀ b ∈ node.children,
    (s.get a).map Node.name = (s.get b).map Node.name → a = b

instance (s : Vfs) : Decidable (NoDuplicateNames s) :=
  inferInstanceAs (Decidable (∀ node ∈ s.nodes, ∀ a ∈ node.children, ∀ b ∈ node.children,
    (s.get a).map Node.name = (s.get b).map Node.name → a = b))

/-- Paths that resolve to the same node have the same normal form. -/
def NoAliases (s : Vfs) : Prop :=
  ∀ p q n, vfsLookup s p = some n → vfsLookup s q = some n → normalized p = normalized q

/-- A successful create leaves the new node where a lookup of the same path finds it. -/
def CreatedIsFound (s : Vfs) : VfsOp → Prop
  | .create path type alloc =>
    ∀ id, (vfsCreate s path type alloc).2 = some id →
      vfsLookup (vfsCreate s path type alloc).1 path = some id
  | .unlink _ => True

/-- A node is created only with a last component shorter than what a node can store, or as
long as that if the whole path has the greatest length there is. -/
def NameKept (s : Vfs) : VfsOp → Prop
  | .create path _ alloc =>
    ∀ out, Creatable s path alloc → normalized path = some out →
      (splitLast out).2.length < nameMax - 1 ∨
        (splitLast out).2.length = nameMax - 1 ∧ out.length = pathMax - 1
  | .unlink _ => True

/-! ### The shape of the tree -/

/-- The tree as the calls keep it. -/
structure TreeInv (s : Vfs) : Prop where
  root : s.rootNode = some 0
  bound : 0 < s.nodes.length
  child : ∀ dir node, s.get dir = some node → ∀ id ∈ node.children,
    id ≠ 0 ∧ ∃ child, s.get id = some child ∧ child.parent = some dir
  nodup : ∀ dir node, s.get dir = some node → node.children.Nodup

theorem treeInv_mountRoot : TreeInv mountRoot where
  root := rfl
  bound := by decide
  child := by
    intro dir node hget id hid
    cases dir with
    | zero =>
      obtain rfl := some.inj hget
      simp at hid
    | succ dir => simp [Vfs.get, mountRoot] at hget
  nodup := by
    intro dir node hget
    cases dir with
    | zero =>
      obtain rfl := some.inj hget
      exact nodup_nil
    | succ dir => simp [Vfs.get, mountRoot] at hget

/-- What a lookup in a directory finds is a child of it, with that name. -/
theorem child_of_opsLookup (hinv : TreeInv s) (h : opsLookup s dir name = some id) :
    id ≠ 0 ∧ ∃ child, s.get id = some child ∧ child.parent = some dir ∧ child.name = name := by
  obtain ⟨node, hget, -, -, hfind⟩ := opsLookup_eq_some.mp h
  obtain ⟨hne, child, hchild, hparent⟩ := hinv.child dir node hget id (mem_of_find?_eq_some hfind)
  obtain ⟨child', hchild', hname⟩ := named_iff.mp (find?_some hfind)
  obtain rfl := some.inj (hchild.symm.trans hchild')
  exact ⟨hne, child, hchild, hparent, hname⟩

theorem nodeAt_lt (hinv : TreeInv s) (h : nodeAt s v = some n) : n < s.nodes.length := by
  cases v with
  | nil =>
    obtain rfl := some.inj (hinv.root.symm.trans h)
    exact hinv.bound
  | cons name v =>
    obtain ⟨dir, -, hlookup⟩ := bind_eq_some_iff.mp h
    obtain ⟨-, child, hchild, -⟩ := child_of_opsLookup hinv hlookup
    exact lt_of_get hchild

/-- **A node has one address.**  Parent links lead back the way the lookup came. -/
theorem nodeAt_inj (hinv : TreeInv s) {w : List (List UInt8)} (hv : nodeAt s v = some n)
    (hw : nodeAt s w = some n) : v = w := by
  induction v generalizing w n with
  | nil =>
    obtain rfl := some.inj (hinv.root.symm.trans hv)
    cases w with
    | nil => rfl
    | cons name w =>
      obtain ⟨dir, -, hlookup⟩ := bind_eq_some_iff.mp hw
      exact absurd rfl (child_of_opsLookup hinv hlookup).1
  | cons name v ih =>
    obtain ⟨dir, hdir, hlookup⟩ := bind_eq_some_iff.mp hv
    obtain ⟨hne, child, hchild, hparent, hname⟩ := child_of_opsLookup hinv hlookup
    cases w with
    | nil => exact absurd (some.inj (hinv.root.symm.trans hw)).symm hne
    | cons name' w =>
      obtain ⟨dir', hdir', hlookup'⟩ := bind_eq_some_iff.mp hw
      obtain ⟨-, child', hchild', hparent', hname'⟩ := child_of_opsLookup hinv hlookup'
      obtain rfl := some.inj (hchild.symm.trans hchild')
      obtain rfl := some.inj (hparent.symm.trans hparent')
      rw [ih hdir hdir', ← hname, hname']

/-! ### A new node -/

/-- The names of the nodes that were there stay. -/
theorem name_attach_old (hlt : id < s.nodes.length) :
    ((attach s dir c type).get id).map Node.name = (s.get id).map Node.name := by
  rw [get_attach_old hlt]
  cases s.get id with
  | none => rfl
  | some node =>
    by_cases hdir : id = dir <;> simp [hdir]

theorem find?_attach_old (hinv : TreeInv s) (hget : s.get id = some node) (name : List UInt8) :
    node.children.find? ((attach s dir c type).named name) =
      node.children.find? (s.named name) := by
  apply find?_congr
  intro k hk
  obtain ⟨-, child, hchild, -⟩ := hinv.child id node hget k hk
  exact named_congr (name_attach_old (lt_of_get hchild)) name

/-- What directories other than the one of the new node are looked up for stays. -/
theorem opsLookup_attach_other (hinv : TreeInv s) (hlt : id < s.nodes.length) (hne : id ≠ dir)
    (name : List UInt8) : opsLookup (attach s dir c type) id name = opsLookup s id name := by
  unfold opsLookup tmpfsLookup
  rw [get_attach_old hlt]
  cases hget : s.get id with
  | none => rfl
  | some node =>
    simp only [map_some, if_neg hne]
    rw [find?_attach_old hinv hget]

theorem opsLookup_attach_dir (hinv : TreeInv s) (hplace : Place s up c dir) (name : List UInt8) :
    opsLookup (attach s dir c type) dir name =
      if name = storedName c then some s.nodes.length else opsLookup s dir name := by
  obtain ⟨parent, hget, hops, htype⟩ := hplace.directory
  have hnew : (attach s dir c type).named name s.nodes.length = decide (storedName c = name) := by
    unfold Vfs.named
    rw [get_attach_new]
    rfl
  unfold opsLookup tmpfsLookup
  rw [get_attach_old hplace.lt, hget]
  simp only [map_some, if_true, hops, htype, find?_cons, hnew, ne_eq, not_true, if_false]
  rw [find?_attach_old hinv hget]
  by_cases hname : name = storedName c
  · simp [hname]
  · simp [hname, Ne.symm hname]

theorem opsLookup_attach_new (name : List UInt8) :
    opsLookup (attach s dir c type) s.nodes.length name = none := by
  unfold opsLookup tmpfsLookup
  rw [get_attach_new]
  by_cases htype : type = .dir <;> simp [newNode, htype]

section

variable (hinv : TreeInv s)
include hinv

section

variable (hplace : Place s up c dir)
include hplace

/-- The way to the new node's directory does not pass through that directory before. -/
theorem nodeAt_attach_short (hlen : v.length ≤ up.length) (h : nodeAt s v = some n) :
    nodeAt (attach s dir c type) v = some n := by
  induction v generalizing n with
  | nil => exact h
  | cons name v ih =>
    obtain ⟨m, hm, hlookup⟩ := bind_eq_some_iff.mp h
    have hne : m ≠ dir := by
      rintro rfl
      have := nodeAt_inj hinv hm hplace.found
      subst this
      exact Nat.not_succ_le_self _ hlen
    rw [nodeAt, ih (by simp at hlen; omega) hm, bind_some,
      opsLookup_attach_other hinv (nodeAt_lt hinv hm) hne, hlookup]

/-- The new node has the address it was made for. -/
theorem nodeAt_attach_new :
    nodeAt (attach s dir c type) (storedName c :: up) = some s.nodes.length := by
  rw [nodeAt, nodeAt_attach_short hinv hplace (Nat.le_refl _) hplace.found, bind_some,
    opsLookup_attach_dir hinv hplace, if_pos rfl]

/-- Every other address is an address of before. -/
theorem nodeAt_attach_cases (h : nodeAt (attach s dir c type) v = some n) :
    n = s.nodes.length ∧ v = storedName c :: up ∨ n < s.nodes.length ∧ nodeAt s v = some n := by
  induction v generalizing n with
  | nil =>
    have hroot : nodeAt s [] = some n := h
    exact Or.inr ⟨nodeAt_lt hinv hroot, hroot⟩
  | cons name v ih =>
    obtain ⟨m, hnew, hlookup⟩ := bind_eq_some_iff.mp h
    rcases ih hnew with ⟨rfl, -⟩ | ⟨hlt, hm⟩
    · rw [opsLookup_attach_new] at hlookup
      simp at hlookup
    have hold (hlookup : opsLookup s m name = some n) :
        n < s.nodes.length ∧ nodeAt s (name :: v) = some n := by
      have hnode : nodeAt s (name :: v) = some n := by rw [nodeAt, hm, bind_some, hlookup]
      exact ⟨nodeAt_lt hinv hnode, hnode⟩
    by_cases hdir : m = dir
    · subst hdir
      rw [opsLookup_attach_dir hinv hplace] at hlookup
      by_cases hname : name = storedName c
      · rw [if_pos hname] at hlookup
        exact Or.inl ⟨(some.inj hlookup).symm, by rw [hname, nodeAt_inj hinv hm hplace.found]⟩
      · rw [if_neg hname] at hlookup
        exact Or.inr (hold hlookup)
    · rw [opsLookup_attach_other hinv hlt hdir] at hlookup
      exact Or.inr (hold hlookup)

end

theorem treeInv_attach : TreeInv (attach s dir c type) where
  root := hinv.root
  bound := by
    unfold attach vfsAttachChild
    simp
  child := by
    intro k node hget id hid
    rcases attach_cases hget with rfl | ⟨node, hold, rfl⟩
    · simp [newNode] at hid
    -- a child of before keeps its parent; the new one has the directory for parent
    have hkeep (hid : id ∈ node.children) :
        id ≠ 0 ∧ ∃ child, (attach s dir c type).get id = some child ∧ child.parent = some k := by
      obtain ⟨hne, child, hchild, hparent⟩ := hinv.child k node hold id hid
      rw [get_attach_old (lt_of_get hchild), hchild]
      refine ⟨hne, _, rfl, ?_⟩
      by_cases hdir : id = dir
      · simpa only [if_pos hdir] using hparent
      · simpa only [if_neg hdir] using hparent
    by_cases hdir : k = dir
    · rw [if_pos hdir] at hid
      rcases mem_cons.mp hid with rfl | hid
      · exact ⟨Nat.ne_of_gt hinv.bound, _, get_attach_new s dir c type, by rw [hdir]⟩
      · exact hkeep hid
    · rw [if_neg hdir] at hid
      exact hkeep hid
  nodup := by
    intro k node hget
    rcases attach_cases hget with rfl | ⟨node, hold, rfl⟩
    · exact nodup_nil
    by_cases hdir : k = dir
    · rw [if_pos hdir]
      refine nodup_cons.mpr ⟨fun hmem => ?_, hinv.nodup k node hold⟩
      obtain ⟨-, child, hchild, -⟩ := hinv.child k node hold _ hmem
      exact Nat.lt_irrefl _ (lt_of_get hchild)
    · rw [if_neg hdir]
      exact hinv.nodup k node hold

/-! ### A node taken out -/

omit hinv in
theorem mem_of_detached {k x : NodeId} {l : List NodeId}
    (hx : x ∈ (if k = dir then l.erase id else l)) : x ∈ l := by
  by_cases hdir : k = dir
  · rw [if_pos hdir] at hx
    exact mem_of_mem_erase hx
  · rw [if_neg hdir] at hx
    exact hx

theorem treeInv_detach (hget : s.get id = some node) (hparent : node.parent = some dir) :
    TreeInv (detach s dir id) where
  root := hinv.root
  bound := by
    unfold detach Vfs.modify
    simpa using hinv.bound
  child := by
    intro k node' hk x hx
    rw [get_detach] at hk
    obtain ⟨old, hold, rfl⟩ := map_eq_some_iff.mp hk
    obtain ⟨hne, child, hchild, hup⟩ := hinv.child k old hold x (mem_of_detached hx)
    have hxid : x ≠ id := by
      rintro rfl
      obtain rfl := some.inj (hget.symm.trans hchild)
      have hdir : k = dir := some.inj (hup.symm.trans hparent)
      rw [if_pos hdir] at hx
      exact (hinv.nodup k old hold).not_mem_erase hx
    refine ⟨hne,
      { child with children := if x = dir then child.children.erase id else child.children },
      ?_, hup⟩
    rw [get_detach, hchild, map_some, if_neg hxid]
  nodup := by
    intro k node' hk
    rw [get_detach] at hk
    obtain ⟨old, hold, rfl⟩ := map_eq_some_iff.mp hk
    by_cases hdir : k = dir
    · rw [if_pos hdir]
      exact (hinv.nodup k old hold).erase id
    · rw [if_neg hdir]
      exact hinv.nodup k old hold

end

theorem name_detach (s : Vfs) (dir id k : NodeId) :
    ((detach s dir id).get k).map Node.name = (s.get k).map Node.name := by
  rw [get_detach, Option.map_map]
  rfl

/-! ### Names that are kept -/

/-- The last component is shorter than what a node can store, or as long as that with no
room behind it. -/
def Kept (cs : List (List UInt8)) (c : List UInt8) : Prop :=
  c.length < nameMax - 1 ∨ c.length = nameMax - 1 ∧ (render (cs ++ [c])).length = pathMax - 1

theorem Kept.storedName_eq (h : Kept cs c) : storedName c = c := by
  apply take_of_length_le
  rcases h with h | h
  · exact Nat.le_of_lt h
  · exact Nat.le_of_eq h.1

theorem length_render_snoc (cs : List (List UInt8)) (c : List UInt8) :
    (render (cs ++ [c])).length = (join slash cs).length + 1 + c.length := by
  rw [render_snoc, length_append, length_cons]
  omega

theorem length_storedName (c : List UInt8) : (storedName c).length = min 63 c.length :=
  length_take

theorem Fits.snoc (h : Fits (cs ++ [c])) (hd : Component d)
    (hlen : (render (cs ++ [d])).length < pathMax) : Fits (cs ++ [d]) := by
  refine ⟨fun e he => ?_, hlen⟩
  rcases mem_append.mp he with he | he
  · exact h.component e (by simp [he])
  · rw [mem_singleton.mp he]
    exact hd

/-- A long name is a component whatever its bytes are. -/
theorem component_of_length (hlen : 2 < c.length) (hc : slash ∉ c) : Component c := by
  refine ⟨⟨?_, hc⟩, ?_, ?_⟩ <;>
    · rintro rfl
      simp at hlen

/-- **The names no other name is mistaken for**: in the place of such a component, no other
component that fits is stored as the same name. -/
theorem kept_iff (hfits : Fits (cs ++ [c])) :
    Kept cs c ↔ ∀ d, Fits (cs ++ [d]) → storedName d = storedName c → d = c := by
  have hclean := hfits.last.clean.2
  have hlen := hfits.length
  rw [length_render_snoc] at hlen
  constructor
  · intro hkept d hd hname
    have hdlen := hd.length
    rw [length_render_snoc] at hdlen
    have hshort : d.length ≤ nameMax - 1 := by
      have hcut := length_storedName d
      rw [hname, hkept.storedName_eq] at hcut
      unfold Kept at hkept
      rw [length_render_snoc] at hkept
      unfold nameMax pathMax at *
      omega
    rw [hkept.storedName_eq] at hname
    rw [← hname]
    exact (take_of_length_le hshort).symm
  · intro hunique
    by_contra hkept
    unfold Kept at hkept
    rw [length_render_snoc] at hkept
    -- a longer name is stored as its first bytes; one that just fits is what a longer one is
    -- stored as
    by_cases hlong : c.length > nameMax - 1
    · have hcut := length_storedName c
      have hd : Component (storedName c) :=
        component_of_length (by unfold nameMax at hlong; omega)
          fun h => hclean (mem_of_mem_take h)
      have heq := hunique (storedName c)
        (hfits.snoc hd (by rw [length_render_snoc]; unfold nameMax at hlong; omega))
        (by unfold storedName; rw [take_take, Nat.min_self])
      rw [heq] at hcut
      unfold nameMax at hlong
      omega
    · have hexact : c.length = nameMax - 1 := by omega
      have hd : Component (c ++ [dot]) := by
        apply component_of_length
        · rw [length_append, hexact]
          decide
        · simp [hclean, show slash ≠ dot by decide]
      have heq := hunique (c ++ [dot])
        (hfits.snoc hd (by
          rw [length_render_snoc, length_append, length_singleton]
          omega))
        (by
          unfold storedName
          rw [take_append_of_le_length (by omega)])
      simpa using congrArg length heq

/-! ### Duplicates and aliases -/

theorem noAliases_iff :
    NoAliases s ↔ ∀ cs ds n, Fits cs → Fits ds → nodeAt s (address cs) = some n →
      nodeAt s (address ds) = some n → cs = ds := by
  constructor
  · intro h cs ds n hcs hds hc hd
    have hnorm := h (render cs) (render ds) n (by rw [vfsLookup_render hcs, hc])
      (by rw [vfsLookup_render hds, hd])
    rw [normalized_eq, normalized_eq, hcs.normalForm, hds.normalForm] at hnorm
    exact render_inj hcs.component hds.component (some.inj hnorm)
  · intro h p q n hp hq
    rw [vfsLookup_eq] at hp hq
    obtain ⟨cs, hcs, hc⟩ := bind_eq_some_iff.mp hp
    obtain ⟨ds, hds, hd⟩ := bind_eq_some_iff.mp hq
    have heq := h cs ds n (fits_of_normalForm hcs) (fits_of_normalForm hds) hc hd
    rw [normalized_eq, normalized_eq, hcs, hds, heq]

theorem noDuplicateNames_iff :
    NoDuplicateNames s ↔ ∀ k node, s.get k = some node → ∀ a ∈ node.children, ∀ b ∈ node.children,
      (s.get a).map Node.name = (s.get b).map Node.name → a = b := by
  constructor
  · intro h k node hget
    exact h node (mem_of_getElem? hget)
  · intro h node hnode
    obtain ⟨k, hk⟩ := mem_iff_getElem?.mp hnode
    exact h k node hk

/-- A name the directory was searched for in vain is not among its children. -/
theorem name_ne_of_fresh {parent : Node} (hget : s.get dir = some parent)
    (hops : parent.ops = .tmpfs) (htype : parent.type = .dir) (hfresh : opsLookup s dir c = none)
    (hid : id ∈ parent.children) : (s.get id).map Node.name ≠ some c := by
  intro hname
  obtain ⟨child, hchild, rfl⟩ := map_eq_some_iff.mp hname
  unfold opsLookup tmpfsLookup at hfresh
  rw [hget] at hfresh
  simp only [hops, htype, if_true, ne_eq, not_true, if_false] at hfresh
  exact find?_eq_none.mp hfresh id hid (named_iff.mpr ⟨child, hchild, rfl⟩)

theorem noDuplicateNames_attach (hinv : TreeInv s) (hplace : Place s up c dir)
    (hdup : NoDuplicateNames s) (hname : storedName c = c) :
    NoDuplicateNames (attach s dir c type) := by
  rw [noDuplicateNames_iff] at hdup ⊢
  intro k node hget
  rcases attach_cases hget with rfl | ⟨old, hold, rfl⟩
  · intro a ha
    simp [newNode] at ha
  have hlt (x : NodeId) (hx : x ∈ old.children) : x < s.nodes.length := by
    obtain ⟨-, child, hchild, -⟩ := hinv.child k old hold x hx
    exact lt_of_get hchild
  have hkeep (a b : NodeId) (ha : a ∈ old.children) (hb : b ∈ old.children) :
      ((attach s dir c type).get a).map Node.name = ((attach s dir c type).get b).map Node.name →
        a = b := by
    rw [name_attach_old (hlt a ha), name_attach_old (hlt b hb)]
    exact hdup k old hold a ha b hb
  by_cases hdir : k = dir
  · subst hdir
    obtain ⟨parent, hparent, hops, htype⟩ := hplace.directory
    obtain rfl := some.inj (hold.symm.trans hparent)
    have hnew : ((attach s k c type).get s.nodes.length).map Node.name = some c := by
      rw [get_attach_new]
      exact congrArg some hname
    have hother (b : NodeId) (hb : b ∈ old.children) :
        ((attach s k c type).get b).map Node.name ≠ some c := by
      rw [name_attach_old (hlt b hb)]
      exact name_ne_of_fresh hold hops htype hplace.fresh hb
    simp only [if_true]
    intro a ha b hb heq
    rcases mem_cons.mp ha with rfl | ha
    · rcases mem_cons.mp hb with rfl | hb
      · rfl
      · exact absurd (heq.symm.trans hnew) (hother b hb)
    · rcases mem_cons.mp hb with rfl | hb
      · exact absurd (heq.trans hnew) (hother a ha)
      · exact hkeep a b ha hb heq
  · simp only [if_neg hdir]
    intro a ha b hb
    exact hkeep a b ha hb

section

variable (hdup : NoDuplicateNames s)
include hdup

theorem noDuplicateNames_detach : NoDuplicateNames (detach s dir id) := by
  rw [noDuplicateNames_iff] at hdup ⊢
  intro k node hget a ha b hb
  rw [get_detach] at hget
  obtain ⟨old, hold, rfl⟩ := map_eq_some_iff.mp hget
  rw [name_detach, name_detach]
  exact hdup k old hold a (mem_of_detached ha) b (mem_of_detached hb)

/-- Without duplicates, taking a node out does not uncover another one. -/
theorem opsLookup_detach {k : NodeId} (h : opsLookup (detach s dir id) k name = some n) :
    opsLookup s k name = some n := by
  rw [noDuplicateNames_iff] at hdup
  obtain ⟨node, hget, hops, htype, hfind⟩ := opsLookup_eq_some.mp h
  rw [get_detach] at hget
  obtain ⟨old, hold, rfl⟩ := map_eq_some_iff.mp hget
  have hmem : n ∈ old.children := mem_of_detached (mem_of_find?_eq_some hfind)
  have hname : (s.get n).map Node.name = some name := by
    obtain ⟨node, hnode, hname⟩ := named_iff.mp (find?_some hfind)
    rw [← name_detach s dir id, hnode, map_some, hname]
  obtain ⟨child, hchild, rfl⟩ := map_eq_some_iff.mp hname
  obtain ⟨first, hfirst⟩ : ∃ first, old.children.find? (s.named child.name) = some first :=
    isSome_iff_exists.mp
      (find?_isSome.mpr ⟨n, hmem, named_iff.mpr ⟨child, hchild, rfl⟩⟩)
  obtain ⟨other, hother, hsame⟩ := named_iff.mp (find?_some hfirst)
  have hfn : first = n := by
    apply hdup k old hold first (mem_of_find?_eq_some hfirst) n hmem
    rw [hother, hchild, map_some, map_some, hsame]
  exact opsLookup_eq_some.mpr ⟨old, hold, hops, htype, hfn ▸ hfirst⟩

theorem nodeAt_detach (h : nodeAt (detach s dir id) v = some n) : nodeAt s v = some n := by
  induction v generalizing n with
  | nil => exact h
  | cons name v ih =>
    obtain ⟨m, hm, hlookup⟩ := bind_eq_some_iff.mp h
    rw [nodeAt, ih hm, bind_some, opsLookup_detach hdup hlookup]

theorem noAliases_detach (hal : NoAliases s) : NoAliases (detach s dir id) := by
  rw [noAliases_iff] at hal ⊢
  intro cs ds n hcs hds hc hd
  exact hal cs ds n hcs hds (nodeAt_detach hdup hc) (nodeAt_detach hdup hd)

end

/-- With a kept name there is one path to a new node. -/
theorem components_of_new (hal : NoAliases s) (hfits : Fits (cs ++ [c]))
    (hplace : Place s (address cs) c dir) (hkept : Kept cs c) (hds : Fits ds)
    (haddr : address ds = storedName c :: address cs) : ds = cs ++ [c] := by
  rcases eq_nil_or_concat ds with rfl | ⟨ds, d, rfl⟩
  · simp [address] at haddr
  rw [concat_eq_append] at *
  rw [address_snoc] at haddr
  obtain ⟨hname, hup⟩ := cons.inj haddr
  have hprefix : ds = cs :=
    noAliases_iff.mp hal ds cs dir hds.init hfits.init (by rw [hup, hplace.found]) hplace.found
  subst hprefix
  rw [(kept_iff hfits).mp hkept d hds hname]

/-- **What a new name does to the tree.** -/
theorem attach_names_iff (hinv : TreeInv s) (hdup : NoDuplicateNames s) (hal : NoAliases s)
    (hfits : Fits (cs ++ [c])) (hplace : Place s (address cs) c dir) :
    (NoDuplicateNames (attach s dir c type) ∧ NoAliases (attach s dir c type)) ↔ Kept cs c := by
  constructor
  · intro ⟨_, hnew⟩
    rw [kept_iff hfits]
    intro d hd hname
    have hnode : nodeAt (attach s dir c type) (address (cs ++ [c])) = some s.nodes.length := by
      rw [address_snoc]
      exact nodeAt_attach_new hinv hplace
    have heq := noAliases_iff.mp hnew (cs ++ [d]) (cs ++ [c]) _ hd hfits
      (by rw [address_snoc, hname, ← address_snoc]; exact hnode) hnode
    simpa using heq
  · intro hkept
    refine ⟨noDuplicateNames_attach hinv hplace hdup hkept.storedName_eq, ?_⟩
    rw [noAliases_iff]
    intro es ds n hes hds hnode hnode'
    rcases nodeAt_attach_cases hinv hplace hnode with ⟨rfl, he⟩ | ⟨hlt, he⟩
    · rcases nodeAt_attach_cases hinv hplace hnode' with ⟨-, hd⟩ | ⟨hlt, -⟩
      · rw [components_of_new hal hfits hplace hkept hes he,
          components_of_new hal hfits hplace hkept hds hd]
      · exact absurd hlt (Nat.lt_irrefl _)
    · rcases nodeAt_attach_cases hinv hplace hnode' with ⟨rfl, -⟩ | ⟨-, hd⟩
      · exact absurd hlt (Nat.lt_irrefl _)
      · exact noAliases_iff.mp hal es ds n hes hds he hd

/-! ### Runs -/

theorem treeInv_step (s : Vfs) (op : VfsOp) (s' : Vfs) (hinv : TreeInv s)
    (hstep : vfsStep s op = some s') : TreeInv s' := by
  cases op with
  | create path type alloc =>
    obtain rfl := some.inj hstep
    rcases vfsCreate_cases s path type alloc with ⟨-, h⟩ | ⟨-, cs, c, dir, -, -, h⟩
    · rw [h]
      exact hinv
    · rw [h]
      exact treeInv_attach hinv
  | unlink path =>
    obtain rfl := some.inj hstep
    rcases vfsUnlink_cases s path with h | ⟨id, node, dir, parent, hget, hparent, -, -, h⟩
    · rw [h]
      exact hinv
    · rw [h]
      exact treeInv_detach hinv hget hparent

/-- A node just created is found, whatever its name is. -/
theorem createdIsFound (s : Vfs) (op : VfsOp) (hinv : TreeInv s) : CreatedIsFound s op := by
  cases op with
  | unlink path => trivial
  | create path type alloc =>
    intro id hid
    rcases vfsCreate_cases s path type alloc with ⟨-, h⟩ | ⟨-, cs, c, dir, hform, hplace, h⟩
    · rw [h] at hid
      simp at hid
    · rw [h] at hid ⊢
      obtain rfl := some.inj hid
      rw [vfsLookup_eq, hform, bind_some, address_snoc]
      exact nodeAt_attach_new hinv hplace

theorem nameKept_iff (hform : normalForm pathMax path = some (cs ++ [c]))
    (hcreatable : Creatable s path alloc) : NameKept s (.create path type alloc) ↔ Kept cs c := by
  have hclean := (fits_of_normalForm hform).last.clean.2
  rw [NameKept, normalized_eq, hform]
  constructor
  · intro h
    have hkept := h _ hcreatable rfl
    rw [splitLast_render hclean] at hkept
    exact hkept
  · intro hkept out _ hout
    obtain rfl := some.inj hout
    rw [splitLast_render hclean]
    exact hkept

theorem names_step (s : Vfs) (op : VfsOp) (s' : Vfs) (hinv : TreeInv s)
    (hgood : NoDuplicateNames s ∧ NoAliases s) (hstep : vfsStep s op = some s') :
    (NoDuplicateNames s' ∧ NoAliases s') ↔ NameKept s op := by
  cases op with
  | create path type alloc =>
    obtain rfl := some.inj hstep
    rcases vfsCreate_cases s path type alloc with ⟨hnot, h⟩ |
      ⟨hcreatable, cs, c, dir, hform, hplace, h⟩
    · rw [h]
      exact iff_of_true hgood fun _ hcreatable => absurd hcreatable hnot
    · rw [nameKept_iff hform hcreatable, h]
      exact attach_names_iff hinv hgood.1 hgood.2 (fits_of_normalForm hform) hplace
  | unlink path =>
    obtain rfl := some.inj hstep
    refine ⟨fun _ => trivial, fun _ => ?_⟩
    rcases vfsUnlink_cases s path with h | ⟨id, node, dir, parent, -, -, -, -, h⟩
    · rw [h]
      exact hgood
    · rw [h]
      exact ⟨noDuplicateNames_detach hgood.1, noAliases_detach hgood.1 hgood.2⟩

theorem names_mountRoot : NoDuplicateNames mountRoot ∧ NoAliases mountRoot := by
  refine ⟨by decide, noAliases_iff.mpr ?_⟩
  intro cs ds n hcs hds hc hd
  have hroot (es : List (List UInt8)) (he : nodeAt mountRoot (address es) = some n) : es = [] := by
    rcases eq_nil_or_concat es with rfl | ⟨es, e, rfl⟩
    · rfl
    rw [concat_eq_append, address_snoc] at he
    obtain ⟨dir, -, hlookup⟩ := bind_eq_some_iff.mp he
    obtain ⟨hne, child, hchild, -⟩ := child_of_opsLookup treeInv_mountRoot hlookup
    have hlt := lt_of_get hchild
    exact absurd (Nat.lt_one_iff.mp hlt) hne
  rw [hroot cs hc, hroot ds hd]

/-- **Names over whole runs.**  From the mounted root, whatever is created and unlinked, a
node just created is found under its path; directories stay free of duplicate names and
paths with different normal forms lead to different nodes, in every state passed through,
exactly if every node was created with a name that is kept. -/
theorem names_ok_iff (ops : List VfsOp) :
    Along vfsStep CreatedIsFound mountRoot ops ∧
      (Throughout vfsStep (fun s => NoDuplicateNames s ∧ NoAliases s) mountRoot ops ↔
        Along vfsStep NameKept mountRoot ops) := by
  have hinv : Throughout vfsStep TreeInv mountRoot ops :=
    along_throughout (fun s op s' h _ hstep => treeInv_step s op s' h hstep) treeInv_mountRoot
      (along_true mountRoot ops)
  refine ⟨hinv.along createdIsFound, ?_⟩
  refine throughout_iff_along (fun s op s' hs _ _ hstep => treeInv_step s op s' hs hstep) ?_
    names_step
    treeInv_mountRoot names_mountRoot
  intro s op _ _ hnone
  cases op <;> simp [vfsStep] at hnone

/-- The path of 64 letters. -/
def longPath : List UInt8 := slash :: List.replicate 64 97

/-- The path of the 63 letters that are stored. -/
def storedPath : List UInt8 := slash :: List.replicate 63 97

/-- Creating a file with a name of 64 letters twice succeeds twice, and the directory then
holds two children of one name; the path with 63 letters leads to the same node. -/
theorem long_name_twice :
    ∃ s, run vfsStep mountRoot [.create longPath .file true, .create longPath .file true] = some s ∧
      ¬ NoDuplicateNames s ∧ vfsLookup s longPath = some 2 ∧ vfsLookup s storedPath = some 2 ∧
      normalized longPath = some longPath ∧ normalized storedPath = some storedPath := by
  decide +kernel

end Nv0ken.Fs
