/-
What the calls on the tree compute, in terms of components.

A node is found from the root by the names on the way to it, as the nodes store them.
`vfsLookup_eq` says that a lookup follows the stored names of the components of the
normal form; `vfsCreate_cases` and `vfsUnlink_cases` say what the two calls that change
the tree can do, so nothing above this file looks at paths as bytes again.
-/
import Nv0ken.Kernel.Fs.Vfs
import Nv0ken.Proofs.Fs.Path

namespace Nv0ken.Fs

open Pieces List Option

variable {s s' : Vfs} {path c name : List UInt8} {cs up : List (List UInt8)} {dir node id : NodeId}
  {fuel : Nat} {type : NodeType} {alloc : Bool}

/-- The node with this address: the stored names from its own up to the root. -/
def nodeAt (s : Vfs) : List (List UInt8) → Option NodeId
  | [] => s.rootNode
  | name :: up => (nodeAt s up).bind fun dir => opsLookup s dir name

/-- The address that a list of components leads to. -/
def address (cs : List (List UInt8)) : List (List UInt8) := (cs.map storedName).reverse

/-- The components of a path that `path_normalize` accepts. -/
structure Fits (cs : List (List UInt8)) : Prop where
  component : ∀ c ∈ cs, Component c
  length : (render cs).length < pathMax

theorem address_snoc (cs : List (List UInt8)) (c : List UInt8) :
    address (cs ++ [c]) = storedName c :: address cs := by
  simp [address]

theorem fits_of_normalForm (h : normalForm pathMax path = some cs) : Fits cs := by
  obtain ⟨hcomp, hlen⟩ := normalForm_spec (by decide) h
  exact ⟨hcomp, hlen⟩

theorem Fits.init (h : Fits (cs ++ [c])) : Fits cs :=
  ⟨fun d hd => h.component d (by simp [hd]),
    Nat.lt_of_le_of_lt (length_render_append cs [c]) h.length⟩

theorem Fits.last (h : Fits (cs ++ [c])) : Component c := h.component c (by simp)

theorem Fits.normalForm (h : Fits cs) : normalForm pathMax (render cs) = some cs :=
  normalForm_render h.component h.length

theorem normalized_eq (path : List UInt8) :
    normalized path = (normalForm pathMax path).map render := by
  unfold normalized
  rw [pathNormalize_eq (by decide)]

/-! ### Lookup -/

/-- Cutting a name does not make a special component out of it. -/
theorem storedName_ne_dots (hc : Component c) :
    storedName c ≠ [dot] ∧ storedName c ≠ [dot, dot] := by
  unfold storedName
  by_cases hlen : c.length ≤ nameMax - 1
  · rw [take_of_length_le hlen]
    exact ⟨hc.notDot, hc.notDotDot⟩
  · have hcut : (c.take (nameMax - 1)).length = 63 := by
      rw [length_take]
      unfold nameMax at *
      omega
    constructor
    all_goals
      intro h
      rw [h] at hcut
      simp at hcut

theorem pathNextComponent_join (hc : Component c) (cs : List (List UInt8)) :
    pathNextComponent (join slash (c :: cs)) nameMax = (c.length, storedName c, join slash cs) := by
  unfold pathNextComponent
  rw [splitComponent_eq, nextPiece_join hc.clean]
  rfl

theorem nodeAt_append_none (h : nodeAt s up = none) (names : List (List UInt8)) :
    nodeAt s (names ++ up) = none := by
  induction names with
  | nil => exact h
  | cons name names ih => rw [cons_append, nodeAt, ih, bind_none]

theorem lookupLoop_eq (hcs : ∀ c ∈ cs, Component c) (hfuel : cs.length < fuel)
    (hat : nodeAt s up = some node) :
    lookupLoop s fuel node (join slash cs) = nodeAt s (address cs ++ up) := by
  induction cs generalizing fuel node up with
  | nil =>
    cases fuel with
    | zero => simp at hfuel
    | succ fuel => exact hat.symm
  | cons c cs ih =>
    cases fuel with
    | zero => simp at hfuel
    | succ fuel =>
      have hc := hcs c (by simp)
      have hlen : c.length ≠ 0 := fun h => hc.clean.1 (length_eq_zero_iff.mp h)
      have haddr : address (c :: cs) ++ up = address cs ++ storedName c :: up := by
        simp [address]
      have hstep : nodeAt s (storedName c :: up) = opsLookup s node (storedName c) := by
        rw [nodeAt, hat, bind_some]
      obtain ⟨hdot, hdots⟩ := storedName_ne_dots hc
      rw [lookupLoop, pathNextComponent_join hc, haddr]
      simp only
      rw [if_neg hlen, if_neg hdot, if_neg hdots, ← hstep]
      cases hchild : nodeAt s (storedName c :: up) with
      | none => rw [nodeAt_append_none hchild, bind_none]
      | some child =>
        exact ih (fun d hd => hcs d (by simp [hd])) (by simpa using hfuel) hchild

/-- **What `vfs_lookup` computes.** -/
theorem vfsLookup_eq (s : Vfs) (path : List UInt8) :
    vfsLookup s path = (normalForm pathMax path).bind fun cs => nodeAt s (address cs) := by
  unfold vfsLookup
  rw [normalized_eq]
  cases hform : normalForm pathMax path with
  | none => cases s.rootNode <;> rfl
  | some cs =>
    have hfits := fits_of_normalForm hform
    rw [map_some, bind_some]
    cases hroot : s.rootNode with
    | none =>
      have := nodeAt_append_none (show nodeAt s [] = none from hroot) (address cs)
      rw [append_nil] at this
      rw [this, bind_none]
    | some root =>
      by_cases hnil : cs = []
      · subst hnil
        exact hroot.symm
      · have hlen := length_le_join slash cs
        have hloop : lookupLoop s ((join slash cs).length + 1) root (join slash cs) =
            nodeAt s (address cs ++ []) :=
          lookupLoop_eq hfits.component (by omega) hroot
        rw [append_nil] at hloop
        unfold render
        rw [if_neg hnil]
        exact hloop

theorem vfsLookup_render (h : Fits cs) : vfsLookup s (render cs) = nodeAt s (address cs) := by
  rw [vfsLookup_eq, h.normalForm, bind_some]

theorem opsLookup_eq_some :
    opsLookup s dir name = some id ↔
      ∃ node, s.get dir = some node ∧ node.ops = .tmpfs ∧ node.type = .dir ∧
        node.children.find? (s.named name) = some id := by
  unfold opsLookup tmpfsLookup
  cases s.get dir with
  | none => simp
  | some node =>
    by_cases hops : node.ops = .tmpfs
    · by_cases htype : node.type = .dir <;> simp [hops, htype]
    · simp [hops]

theorem named_iff : s.named name id = true ↔ ∃ node, s.get id = some node ∧ node.name = name := by
  unfold Vfs.named
  cases s.get id <;> simp

theorem lt_of_get {node : Node} (h : s.get id = some node) : id < s.nodes.length :=
  (List.getElem?_eq_some_iff.mp h).1

/-- Whether a node is the one sought depends on its stored name only. -/
theorem named_congr {k : NodeId} (h : (s'.get k).map Node.name = (s.get id).map Node.name)
    (name : List UInt8) : s'.named name k = s.named name id := by
  have hany := congrArg (Option.any fun stored => decide (stored = name)) h
  rw [Option.any_map, Option.any_map] at hany
  exact hany

theorem get_modify (s : Vfs) (id k : NodeId) (f : Node → Node) :
    (s.modify id f).get k = (s.get k).map fun node => if k = id then f node else node := by
  unfold Vfs.modify Vfs.get
  rw [getElem?_modify]
  cases s.nodes[k]? with
  | none => rfl
  | some node =>
    by_cases hk : k = id
    · simp [hk]
    · simp [hk, Ne.symm hk]

/-- What lookups see of a node. -/
def Node.shape (node : Node) : List UInt8 × NodeType × Ops × List NodeId :=
  (node.name, node.type, node.ops, node.children)

theorem opsLookup_of_shape (h : ∀ k, (s'.get k).map Node.shape = (s.get k).map Node.shape)
    (dir : NodeId) (name : List UInt8) : opsLookup s' dir name = opsLookup s dir name := by
  have hnamed : s'.named name = s.named name := by
    funext k
    have hk := congrArg (Option.map Prod.fst) (h k)
    rw [Option.map_map, Option.map_map] at hk
    exact named_congr hk name
  have hdir := h dir
  unfold opsLookup tmpfsLookup
  cases hs : s.get dir with
  | none =>
    rw [hs, map_none, map_eq_none_iff] at hdir
    rw [hdir]
  | some node =>
    rw [hs, map_some, map_eq_some_iff] at hdir
    obtain ⟨node', hnode', hshape⟩ := hdir
    unfold Node.shape at hshape
    simp only [Prod.mk.injEq] at hshape
    obtain ⟨-, htype, hops, hchildren⟩ := hshape
    rw [hnode']
    simp only [htype, hops, hchildren, hnamed]

section

variable (hroot : s'.rootNode = s.rootNode)
  (h : ∀ k, (s'.get k).map Node.shape = (s.get k).map Node.shape)
include hroot h

theorem nodeAt_of_shape (up : List (List UInt8)) : nodeAt s' up = nodeAt s up := by
  induction up with
  | nil => exact hroot
  | cons name up ih =>
    rw [nodeAt]
    congr 1
    funext dir
    exact opsLookup_of_shape h dir name

/-- Lookups see names, types, operations and children, and nothing else. -/
theorem vfsLookup_of_shape (path : List UInt8) : vfsLookup s' path = vfsLookup s path := by
  rw [vfsLookup_eq, vfsLookup_eq]
  congr 1
  funext cs
  exact nodeAt_of_shape hroot h (address cs)

end

/-! ### Create -/

/-- The node that `tmpfs_create_node` makes. -/
def newNode (c : List UInt8) (type : NodeType) : Node :=
  { name := storedName c, type := type, ops := .tmpfs }

/-- The tree with a new node in `dir`. -/
def attach (s : Vfs) (dir : NodeId) (c : List UInt8) (type : NodeType) : Vfs :=
  (vfsAttachChild s dir (newNode c type)).1

/-- Where a new node can go. -/
structure Place (s : Vfs) (up : List (List UInt8)) (c : List UInt8) (dir : NodeId) : Prop where
  found : nodeAt s up = some dir
  directory : ∃ parent, s.get dir = some parent ∧ parent.ops = .tmpfs ∧ parent.type = .dir
  fresh : opsLookup s dir c = none

theorem Place.lt (h : Place s up c dir) : dir < s.nodes.length := by
  obtain ⟨parent, hget, -⟩ := h.directory
  exact lt_of_get hget

theorem splitLast_render (hc : slash ∉ c) (cs : List (List UInt8)) :
    splitLast (render (cs ++ [c])) = (join slash cs, c) := by
  have hname : ((render (cs ++ [c])).reverse.takeWhile (· ≠ slash)).reverse = c := by
    rw [render_snoc, reverse_append, reverse_cons, append_assoc,
      takeWhile_append_of_pos (fun a ha => by
        have : a ≠ slash := fun h => hc (h ▸ mem_reverse.mp ha)
        simpa using this)]
    simp
  unfold splitLast
  simp only [hname]
  rw [render_snoc, length_append, length_cons,
    show (join slash cs).length + (c.length + 1) - c.length - 1 = (join slash cs).length by omega,
    take_left]

/-- The directory `vfs_create` goes to. -/
theorem parent_eq {root : NodeId} (hroot : s.rootNode = some root) (hfits : Fits cs) :
    (if join slash cs = [] then some root else vfsLookup s (join slash cs)) =
      nodeAt s (address cs) := by
  by_cases hnil : cs = []
  · subst hnil
    exact hroot.symm
  · have hrender : render cs = join slash cs := by
      unfold render
      rw [if_neg hnil]
    have hne : join slash cs ≠ [] := by
      intro h
      have := length_le_join slash cs
      rw [h] at this
      exact hnil (length_eq_zero_iff.mp (Nat.le_zero.mp this))
    rw [if_neg hne, ← hrender, vfsLookup_render hfits]

theorem tmpfsCreateNode_eq {parent : Node} (hparent : s.get dir = some parent)
    (hops : parent.ops = .tmpfs) :
    tmpfsCreateNode s dir c type alloc =
      if alloc = true ∧ parent.type = .dir ∧ opsLookup s dir c = none then
        (attach s dir c type, some s.nodes.length)
      else (s, none) := by
  unfold tmpfsCreateNode opsLookup
  rw [hparent]
  simp only [hops, if_true]
  by_cases htype : parent.type = .dir
  · cases hfound : tmpfsLookup s dir c with
    | some id => simp
    | none =>
      cases alloc with
      | false => simp
      | true => simp [htype, attach, newNode, vfsAttachChild]
  · simp [htype]

/-- A node can be created under this path: there is memory for it, and the components
before the last one lead to a directory in which the last one is not found. -/
def Creatable (s : Vfs) (path : List UInt8) (alloc : Bool) : Prop :=
  alloc = true ∧
    ∃ cs c dir, normalForm pathMax path = some (cs ++ [c]) ∧ Place s (address cs) c dir

theorem nodeAt_of_no_root (hroot : s.rootNode = none) (v : List (List UInt8)) :
    nodeAt s v = none := by
  simpa using nodeAt_append_none (show nodeAt s [] = none from hroot) v

/-- `vfs_create` goes to the directory that the components before the last one lead to. -/
theorem vfsCreate_eq (hform : normalForm pathMax path = some (cs ++ [c])) :
    vfsCreate s path type alloc =
      (nodeAt s (address cs)).elim (s, none) fun dir =>
        (s.get dir).elim (s, none) fun parent =>
          if parent.ops = .tmpfs then tmpfsCreateNode s dir c type alloc else (s, none) := by
  have hfits := fits_of_normalForm hform
  unfold vfsCreate
  rw [normalized_eq, hform]
  cases hroot : s.rootNode with
  | none =>
    rw [nodeAt_of_no_root hroot]
    rfl
  | some root =>
    simp only [map_some]
    rw [splitLast_render hfits.last.clean.2]
    rw [if_neg hfits.last.clean.1, parent_eq hroot hfits.init]
    cases nodeAt s (address cs) with
    | none => rfl
    | some dir => cases hget : s.get dir <;> simp [hget]

theorem vfsCreate_of_place (hform : normalForm pathMax path = some (cs ++ [c]))
    (hplace : Place s (address cs) c dir) :
    vfsCreate s path type true = (attach s dir c type, some s.nodes.length) := by
  obtain ⟨parent, hget, hops, htype⟩ := hplace.directory
  rw [vfsCreate_eq hform, hplace.found, elim_some, hget, elim_some, if_pos hops,
    tmpfsCreateNode_eq hget hops, if_pos ⟨rfl, htype, hplace.fresh⟩]

theorem vfsCreate_of_not_creatable (h : ¬ Creatable s path alloc) :
    vfsCreate s path type alloc = (s, none) := by
  cases hform : normalForm pathMax path with
  | none =>
    unfold vfsCreate
    rw [normalized_eq, hform]
    cases s.rootNode <;> rfl
  | some full =>
    rcases eq_nil_or_concat full with rfl | ⟨cs, c, rfl⟩
    · unfold vfsCreate
      rw [normalized_eq, hform]
      cases s.rootNode <;> rfl
    rw [concat_eq_append] at hform
    rw [vfsCreate_eq hform]
    cases hfound : nodeAt s (address cs) with
    | none => rfl
    | some dir =>
      rw [elim_some]
      cases hget : s.get dir with
      | none => rfl
      | some parent =>
        rw [elim_some]
        by_cases hops : parent.ops = .tmpfs
        · rw [if_pos hops, tmpfsCreateNode_eq hget hops, if_neg]
          rintro ⟨halloc, htype, hfresh⟩
          exact h ⟨halloc, cs, c, dir, hform, hfound, ⟨parent, hget, hops, htype⟩, hfresh⟩
        · rw [if_neg hops]

/-- **What `vfs_create` can do**: nothing, or attach a node to the directory that the
other components lead to. -/
theorem vfsCreate_cases (s : Vfs) (path : List UInt8) (type : NodeType) (alloc : Bool) :
    ¬ Creatable s path alloc ∧ vfsCreate s path type alloc = (s, none) ∨
      Creatable s path alloc ∧
        ∃ cs c dir, normalForm pathMax path = some (cs ++ [c]) ∧ Place s (address cs) c dir ∧
          vfsCreate s path type alloc = (attach s dir c type, some s.nodes.length) := by
  by_cases h : Creatable s path alloc
  · obtain ⟨rfl, cs, c, dir, hform, hplace⟩ := h
    exact Or.inr ⟨⟨rfl, cs, c, dir, hform, hplace⟩, cs, c, dir, hform, hplace,
      vfsCreate_of_place hform hplace⟩
  · exact Or.inl ⟨h, vfsCreate_of_not_creatable h⟩

theorem get_attach (s : Vfs) (dir : NodeId) (c : List UInt8) (type : NodeType) (id : NodeId) :
    (attach s dir c type).get id =
      if id = s.nodes.length then some { newNode c type with parent := some dir }
      else (s.get id).map fun node =>
        if id = dir then { node with children := s.nodes.length :: node.children } else node := by
  unfold attach vfsAttachChild Vfs.modify Vfs.get
  rw [getElem?_append, length_modify]
  by_cases hlt : id < s.nodes.length
  · rw [if_pos hlt, if_neg (Nat.ne_of_lt hlt), getElem?_modify]
    cases s.nodes[id]? with
    | none => rfl
    | some node =>
      by_cases hdir : id = dir
      · simp [hdir]
      · simp [hdir, Ne.symm hdir]
  · rw [if_neg hlt]
    by_cases heq : id = s.nodes.length
    · rw [if_pos heq, heq, Nat.sub_self]
      rfl
    · have hgt : s.nodes.length < id := Nat.lt_of_le_of_ne (Nat.le_of_not_lt hlt) (Ne.symm heq)
      rw [if_neg heq, getElem?_eq_none (Nat.le_of_lt hgt), getElem?_eq_none (Nat.sub_pos_of_lt hgt)]
      rfl

/-- A node is the new one, or one of before, with the link to it. -/
theorem attach_cases {node : Node} (hget : (attach s dir c type).get id = some node) :
    node = { newNode c type with parent := some dir } ∨ ∃ old, s.get id = some old ∧
      node = if id = dir then { old with children := s.nodes.length :: old.children } else old := by
  rw [get_attach] at hget
  by_cases hid : id = s.nodes.length
  · rw [if_pos hid] at hget
    exact Or.inl (some.inj hget).symm
  · rw [if_neg hid] at hget
    obtain ⟨old, hold, rfl⟩ := map_eq_some_iff.mp hget
    exact Or.inr ⟨old, hold, rfl⟩

theorem get_attach_new (s : Vfs) (dir : NodeId) (c : List UInt8) (type : NodeType) :
    (attach s dir c type).get s.nodes.length = some { newNode c type with parent := some dir } := by
  rw [get_attach, if_pos rfl]

theorem get_attach_old (hlt : id < s.nodes.length) :
    (attach s dir c type).get id = (s.get id).map fun node =>
      if id = dir then { node with children := s.nodes.length :: node.children } else node := by
  rw [get_attach, if_neg (Nat.ne_of_lt hlt)]

/-! ### Unlink -/

/-- The tree without the link from `dir` to `id`. -/
def detach (s : Vfs) (dir id : NodeId) : Vfs :=
  (s.modify dir fun node => { node with children := node.children.erase id }).modify id
    fun node => { node with parent := none }

theorem vfsUnlink_of_none (h : vfsLookup s path = none) : vfsUnlink s path = (s, false) := by
  unfold vfsUnlink
  rw [h]

/-- What `vfs_unlink` does with the node it finds. -/
theorem vfsUnlink_found (h : vfsLookup s path = some id) :
    vfsUnlink s path = (s, false) ∨
      ∃ node dir parent, s.get id = some node ∧ node.parent = some dir ∧
        s.get dir = some parent ∧ id ∈ parent.children ∧
        vfsUnlink s path = (detach s dir id, true) := by
  unfold vfsUnlink
  rw [h]
  simp only
  cases hget : s.get id with
  | none => exact Or.inl rfl
  | some node =>
    simp only
    cases hparent : node.parent with
    | none => exact Or.inl rfl
    | some dir =>
      simp only
      by_cases hroot : some id = s.rootNode
      · rw [if_pos hroot]
        exact Or.inl rfl
      rw [if_neg hroot]
      by_cases hfull : node.type = .dir ∧ node.children ≠ []
      · rw [if_pos hfull]
        exact Or.inl rfl
      rw [if_neg hfull]
      cases hdir : s.get dir with
      | none => exact Or.inl rfl
      | some parent =>
        simp only
        by_cases hmem : id ∈ parent.children
        · rw [if_pos hmem]
          exact Or.inr ⟨node, dir, parent, rfl, hparent, hdir, hmem, rfl⟩
        · rw [if_neg hmem]
          exact Or.inl rfl

/-- **What `vfs_unlink` can do**: nothing, or take a node out of its directory. -/
theorem vfsUnlink_cases (s : Vfs) (path : List UInt8) :
    (vfsUnlink s path).1 = s ∨
      ∃ id node dir parent, s.get id = some node ∧ node.parent = some dir ∧
        s.get dir = some parent ∧ id ∈ parent.children ∧
          (vfsUnlink s path).1 = detach s dir id := by
  cases hfound : vfsLookup s path with
  | none =>
    rw [vfsUnlink_of_none hfound]
    exact Or.inl rfl
  | some id =>
    rcases vfsUnlink_found hfound with hnone | ⟨node, dir, parent, hget, hparent, hdir, hmem, hdone⟩
    · rw [hnone]
      exact Or.inl rfl
    · rw [hdone]
      exact Or.inr ⟨id, node, dir, parent, hget, hparent, hdir, hmem, rfl⟩

theorem get_detach (s : Vfs) (dir id k : NodeId) :
    (detach s dir id).get k = (s.get k).map fun node =>
      { node with
        children := if k = dir then node.children.erase id else node.children
        parent := if k = id then none else node.parent } := by
  unfold detach Vfs.modify Vfs.get
  rw [getElem?_modify, getElem?_modify]
  cases s.nodes[k]? with
  | none => rfl
  | some node =>
    by_cases hdir : dir = k
    · by_cases hid : id = k
      · simp [hdir, hid]
      · simp [hdir, hid, Ne.symm hid]
    · by_cases hid : id = k
      · simp [hdir, hid, Ne.symm hdir]
      · simp [hdir, hid, Ne.symm hdir, Ne.symm hid]

end Nv0ken.Fs
