/-
The tree as a table of paths.

What the loader of the ramdisk does to the tree is easier to follow on a table: under each path, the
kind of the node, its size and its bytes.  `Shows s K` says that `K` is that table.  Each call the
loader makes is one entry of the table read or changed, as long as no component is cut, and a node
that is not a directory has nothing below it (`Shows.parent`).
-/
import Nv0ken.Proofs.Fs.Names
import Nv0ken.Proofs.Fs.Parents
import Nv0ken.Proofs.Fs.TmpfsFile

namespace Nv0ken.Fs

open Buffer Word List Option

variable {s : Vfs} {path c bytes : List UInt8} {F G up v : List (List UInt8)} {dir id n : NodeId}
  {type : NodeType} {heap : Heap} {node node' : Node}

/-- What the table holds of a node. -/
structure Item where
  type : NodeType
  size : Nat
  block : List UInt8

def Node.item (node : Node) : Item := { type := node.type, size := node.size, block := node.block }

/-- A node as it is made. -/
def Item.new (type : NodeType) : Item := { type := type, size := 0, block := [] }

abbrev Table := List (List UInt8) → Option Item

/-- The table with this item under a path. -/
def Table.set (K : Table) (F : List (List UInt8)) (item : Item) : Table :=
  Function.update K F (some item)

theorem Table.set_apply (K : Table) (F G : List (List UInt8)) (item : Item) :
    K.set F item G = if G = F then some item else K G := Function.update_apply ..

def itemAt (s : Vfs) (v : List (List UInt8)) : Option Item :=
  (nodeAt s v).bind fun id => (s.get id).map Node.item

/-- The tree holds these items under these paths, and no others. -/
structure Shows (s : Vfs) (K : Table) : Prop where
  inv : TreeInv s
  tmpfs : ∀ id node, s.get id = some node → node.ops = .tmpfs
  item : ∀ F, itemAt s F.reverse = K F

/-- No component is longer than what a node stores. -/
def Short (F : List (List UInt8)) : Prop := ∀ c ∈ F, c.length ≤ nameMax - 1

/-- There is memory for everything. -/
structure Heap.Succeeds (heap : Heap) : Prop where
  node : ∀ id, heap.node id = true
  calloc : ∀ index, (heap.write index).calloc = true
  realloc : ∀ index, (heap.write index).realloc.isSome

variable {K : Table} {item : Item}

theorem storedName_of_short (h : c.length ≤ nameMax - 1) : storedName c = c :=
  List.take_of_length_le h

theorem address_of_short (h : Short F) : address F = F.reverse := by
  have hmap : F.map storedName = F := by
    conv_rhs => rw [← map_id F]
    apply map_congr_left
    intro c hc
    exact storedName_of_short (h c hc)
  rw [address, hmap]

/-! ### Reading the table -/

section

variable (hs : Shows s K)
include hs

theorem Shows.found (h : K F = some item) :
    ∃ id node, nodeAt s F.reverse = some id ∧ s.get id = some node ∧ node.item = item := by
  rw [← hs.item F] at h
  obtain ⟨id, hat, hget⟩ := bind_eq_some_iff.mp h
  obtain ⟨node, hnode, hitem⟩ := map_eq_some_iff.mp hget
  exact ⟨id, node, hat, hnode, hitem⟩

theorem Shows.of_nodeAt (hat : nodeAt s F.reverse = some id)
    (hget : s.get id = some node) : K F = some node.item := by
  rw [← hs.item F, itemAt, hat, bind_some, hget]
  rfl

theorem Shows.absent (h : K F = none) : nodeAt s F.reverse = none := by
  cases hat : nodeAt s F.reverse with
  | none => rfl
  | some id =>
    obtain ⟨node, hget⟩ : ∃ node, s.get id = some node :=
      ⟨_, getElem?_eq_getElem (nodeAt_lt hs.inv hat)⟩
    rw [hs.of_nodeAt hat hget] at h
    exact absurd h (some_ne_none _)

/-- The root is there. -/
theorem Shows.root : (K []).isSome := by
  have hat : nodeAt s ([] : List (List UInt8)).reverse = some 0 := hs.inv.root
  obtain ⟨node, hget⟩ : ∃ node, s.get 0 = some node := ⟨_, getElem?_eq_getElem hs.inv.bound⟩
  rw [hs.of_nodeAt hat hget]
  rfl

/-- **Only directories have something below them.** -/
theorem Shows.parent (h : K (F ++ [c]) = some item) :
    ∃ parent, K F = some parent ∧ parent.type = .dir := by
  obtain ⟨id, node, hat, -, -⟩ := hs.found h
  rw [reverse_append] at hat
  obtain ⟨dir, hdir, hlookup⟩ := bind_eq_some_iff.mp hat
  obtain ⟨node, hget, -, htype, -⟩ := opsLookup_eq_some.mp hlookup
  exact ⟨node.item, hs.of_nodeAt hdir hget, htype⟩

end

theorem shows_mountRoot :
    Shows mountRoot fun F => if F = [] then some (Item.new .dir) else none where
  inv := treeInv_mountRoot
  tmpfs := by
    intro id node hget
    cases id with
    | zero =>
      obtain rfl := some.inj hget
      rfl
    | succ id => simp [Vfs.get, mountRoot] at hget
  item := by
    intro F
    rcases eq_nil_or_concat F with rfl | ⟨F, c, rfl⟩
    · rfl
    · rw [concat_eq_append, reverse_append, if_neg (by simp)]
      unfold itemAt
      rw [bind_eq_none_iff]
      intro id hat
      obtain ⟨dir, -, hlookup⟩ := bind_eq_some_iff.mp hat
      obtain ⟨hne, child, hchild, -⟩ := child_of_opsLookup treeInv_mountRoot hlookup
      have hlt := lt_of_get hchild
      simp [mountRoot] at hlt
      exact absurd hlt hne

/-! ### A new node -/

theorem nodeAt_attach_old (hinv : TreeInv s) (hplace : Place s up c dir) (hname : storedName c = c)
    (h : nodeAt s v = some n) : nodeAt (attach s dir c type) v = some n := by
  induction v generalizing n with
  | nil => exact h
  | cons name v ih =>
    obtain ⟨m, hm, hlookup⟩ := bind_eq_some_iff.mp h
    rw [nodeAt, ih hm, bind_some]
    by_cases hdir : m = dir
    · subst hdir
      have hother : name ≠ storedName c := by
        intro heq
        rw [heq, hname, hplace.fresh] at hlookup
        exact absurd hlookup (some_ne_none _).symm
      rw [opsLookup_attach_dir hinv hplace, if_neg hother, hlookup]
    · rw [opsLookup_attach_other hinv (nodeAt_lt hinv hm) hdir, hlookup]

theorem item_attach_old (hlt : id < s.nodes.length) :
    ((attach s dir c type).get id).map Node.item = (s.get id).map Node.item := by
  rw [get_attach_old hlt, Option.map_map]
  congr 1
  split_ifs with hdir <;> rfl

theorem itemAt_attach (hinv : TreeInv s) (hplace : Place s up c dir) (hname : storedName c = c)
    (v : List (List UInt8)) :
    itemAt (attach s dir c type) v = if v = c :: up then some (Item.new type) else itemAt s v := by
  unfold itemAt
  by_cases hnew : v = c :: up
  · have hat := @nodeAt_attach_new _ _ _ _ type hinv hplace
    rw [hname, ← hnew] at hat
    rw [if_pos hnew, hat, bind_some, get_attach_new]
    rfl
  · rw [if_neg hnew]
    cases hold : nodeAt s v with
    | some n =>
      rw [nodeAt_attach_old hinv hplace hname hold, bind_some, bind_some,
        item_attach_old (nodeAt_lt hinv hold)]
    | none =>
      cases hat : nodeAt (attach s dir c type) v with
      | none => rfl
      | some n =>
        rcases nodeAt_attach_cases hinv hplace hat with ⟨-, heq⟩ | ⟨-, hn⟩
        · rw [hname] at heq
          exact absurd heq hnew
        · rw [hold] at hn
          exact absurd hn (some_ne_none _).symm

theorem Shows.attach (hs : Shows s K) (hplace : Place s G.reverse c dir)
    (hname : storedName c = c) :
    Shows (attach s dir c type) (K.set (G ++ [c]) (Item.new type)) where
  inv := treeInv_attach hs.inv
  tmpfs := by
    intro k node hget
    rcases attach_cases hget with rfl | ⟨old, hold, rfl⟩
    · rfl
    · have hops := hs.tmpfs k old hold
      split_ifs with hdir <;> exact hops
  item := by
    intro F
    rw [itemAt_attach hs.inv hplace hname, hs.item, Table.set_apply]
    have hiff : F.reverse = c :: G.reverse ↔ F = G ++ [c] := by
      simp
    by_cases hF : F = G ++ [c]
    · rw [if_pos (hiff.mpr hF), if_pos hF]
    · rw [if_neg (fun h => hF (hiff.mp h)), if_neg hF]

/-! ### Finding a node or making it -/

theorem vfsLookup_short (hform : normalForm pathMax path = some F) (hshort : Short F) :
    vfsLookup s path = nodeAt s F.reverse := by
  rw [vfsLookup_eq, hform, bind_some, address_of_short hshort]

theorem lookupOrCreate_found (hs : Shows s K) (hform : normalForm pathMax path = some F)
    (hshort : Short F) (h : K F = some item) :
    ∃ id, lookupOrCreate heap s path type = (s, some id) ∧ nodeAt s F.reverse = some id := by
  obtain ⟨id, node, hat, -, -⟩ := hs.found h
  refine ⟨id, ?_, hat⟩
  unfold lookupOrCreate
  rw [vfsLookup_short hform hshort, hat]

theorem Short.init (h : Short (G ++ [c])) : Short G := fun d hd => h d (by simp [hd])

theorem lookupOrCreate_made (hheap : heap.Succeeds) (hs : Shows s K)
    (hform : normalForm pathMax path = some (G ++ [c])) (hshort : Short (G ++ [c]))
    (habsent : K (G ++ [c]) = none) (hparent : K G = some item) (htype : item.type = .dir) :
    ∃ s' id, lookupOrCreate heap s path type = (s', some id) ∧
      nodeAt s' (G ++ [c]).reverse = some id ∧
      Shows s' (K.set (G ++ [c]) (Item.new type)) := by
  have hname : storedName c = c := storedName_of_short (hshort c (by simp))
  have hat := hs.absent habsent
  obtain ⟨dir, node, hdir, hget, rfl⟩ := hs.found hparent
  have hplace : Place s G.reverse c dir := by
    refine ⟨hdir, ⟨node, hget, hs.tmpfs dir node hget, htype⟩, ?_⟩
    rw [reverse_append] at hat
    have hstep : nodeAt s (c :: G.reverse) = none := hat
    rwa [nodeAt, hdir, bind_some] at hstep
  refine ⟨Fs.attach s dir c type, s.nodes.length, ?_, ?_, hs.attach hplace hname⟩
  · unfold lookupOrCreate
    rw [vfsLookup_short hform hshort, hat, hheap.node]
    rw [← address_of_short hshort.init] at hplace
    exact vfsCreate_of_place hform hplace
  · have hnew := @nodeAt_attach_new _ _ _ _ type hs.inv hplace
    rw [hname] at hnew
    rw [reverse_append]
    exact hnew

theorem lookupOrCreate_refused (hs : Shows s K) (hform : normalForm pathMax path = some (G ++ [c]))
    (hshort : Short (G ++ [c])) (habsent : K (G ++ [c]) = none) (hparent : K G = some item)
    (htype : item.type ≠ .dir) : lookupOrCreate heap s path type = (s, none) := by
  obtain ⟨dir, node, hdir, hget, rfl⟩ := hs.found hparent
  unfold lookupOrCreate
  rw [vfsLookup_short hform hshort, hs.absent habsent]
  rw [vfsCreate_eq hform, address_of_short hshort.init, hdir, elim_some, hget, elim_some,
    if_pos (hs.tmpfs dir node hget), tmpfsCreateNode_eq hget (hs.tmpfs dir node hget),
    if_neg (fun h => htype h.2.1)]

/-! ### Writing a file -/

theorem get_replaced (hget : s.get id = some node) (k : NodeId) :
    (s.modify id fun _ => node').get k = if k = id then some node' else s.get k := by
  rw [get_modify]
  by_cases hk : k = id
  · rw [if_pos hk, hk, hget]
    simp
  · rw [if_neg hk]
    simp [hk]

theorem treeInv_replaced (hinv : TreeInv s) (hget : s.get id = some node)
    (hchildren : node'.children = node.children) (hparent : node'.parent = node.parent) :
    TreeInv (s.modify id fun _ => node') where
  root := hinv.root
  bound := by
    unfold Vfs.modify
    simpa using hinv.bound
  child := by
    intro k new hk x hx
    have hold : ∃ old, s.get k = some old ∧ x ∈ old.children := by
      rw [get_replaced hget] at hk
      split_ifs at hk with heq
      · obtain rfl := some.inj hk
        rw [hchildren] at hx
        exact ⟨node, heq ▸ hget, hx⟩
      · exact ⟨new, hk, hx⟩
    obtain ⟨old, hk, hx⟩ := hold
    obtain ⟨hne, child, hchild, hup⟩ := hinv.child k old hk x hx
    refine ⟨hne, ?_⟩
    rw [get_replaced hget]
    split_ifs with heq
    · subst heq
      obtain rfl := some.inj (hget.symm.trans hchild)
      exact ⟨node', rfl, hparent.trans hup⟩
    · exact ⟨child, hchild, hup⟩
  nodup := by
    intro k new hk
    rw [get_replaced hget] at hk
    split_ifs at hk with heq
    · obtain rfl := some.inj hk
      rw [hchildren]
      exact hinv.nodup id node hget
    · exact hinv.nodup k new hk

theorem Shows.replaced (hs : Shows s K) (hat : nodeAt s F.reverse = some id)
    (hget : s.get id = some node) (hshape : node'.shape = node.shape)
    (hparent : node'.parent = node.parent) :
    Shows (s.modify id fun _ => node') (K.set F node'.item) := by
  obtain ⟨-, -, hops, hchildren⟩ : node'.name = node.name ∧ node'.type = node.type ∧
      node'.ops = node.ops ∧ node'.children = node.children := by
    simpa [Node.shape] using hshape
  have hsame : nodeAt (s.modify id fun _ => node') = nodeAt s := by
    funext v
    apply nodeAt_of_shape
    · rfl
    · intro k
      rw [get_replaced hget]
      split_ifs with heq
      · rw [heq, hget, map_some, map_some, hshape]
      · rfl
  refine ⟨treeInv_replaced hs.inv hget hchildren hparent, ?_, ?_⟩
  · intro k new hk
    rw [get_replaced hget] at hk
    split_ifs at hk with heq
    · obtain rfl := some.inj hk
      exact hops.trans (hs.tmpfs id node hget)
    · exact hs.tmpfs k new hk
  · intro E
    rw [Table.set_apply, ← hs.item, itemAt, itemAt, hsame]
    by_cases hE : E = F
    · rw [if_pos hE, hE, hat, bind_some, get_replaced hget, if_pos rfl]
      rfl
    · rw [if_neg hE]
      cases hold : nodeAt s E.reverse with
      | none => rfl
      | some k =>
        have hk : k ≠ id := by
          intro heq
          rw [heq] at hold
          exact hE (reverse_injective (nodeAt_inj hs.inv hold hat))
        rw [bind_some, bind_some, get_replaced hget, if_neg hk]

theorem Heap.Succeeds.reply (h : heap.Succeeds) (index : Nat) :
    ∃ junk, heap.write index = ⟨true, some junk⟩ := by
  obtain ⟨junk, hjunk⟩ := isSome_iff_exists.mp (h.realloc index)
  refine ⟨junk, ?_⟩
  rw [← h.calloc index, ← hjunk]

/-- **A file is written from its start**: it holds the bytes in front, and is never made shorter. -/
theorem writeFile_file (hheap : heap.Succeeds) (index : Nat) (hs : Shows s K)
    (hat : nodeAt s F.reverse = some id) (h : K F = some item) (htype : item.type = .file)
    (hfits : item.size ≤ item.block.length) (hbytes : bytes.length < 2 ^ 31) :
    ∃ s' block, writeFile s (heap.write index) id bytes = some (s', true) ∧
      max item.size bytes.length ≤ block.length ∧ block.take bytes.length = bytes ∧
      Shows s' (K.set F ⟨.file, max item.size bytes.length, block⟩) := by
  obtain ⟨id', node, hat', hget, rfl⟩ := hs.found h
  obtain rfl := some.inj (hat'.symm.trans hat)
  obtain ⟨junk, hreply⟩ := hheap.reply index
  have hfile : node.type = .file := htype
  have hblock : node.size ≤ node.block.length := hfits
  obtain ⟨capacity, hroom, hwrite⟩ := @tmpfsWrite_eq node bytes 0 junk hfile (by omega)
  have hlen := length_overwrite hroom
  rw [Nat.zero_add] at hroom hwrite
  generalize hnode : node.withBlock (overwrite (zeroExtend node.block capacity) 0 bytes)
    (max node.size bytes.length) = node' at hwrite
  have hitem : node'.item
      = ⟨.file, max node.size bytes.length, overwrite (zeroExtend node.block capacity) 0
        bytes⟩ := by
    rw [← hnode, ← hfile]
    rfl
  refine ⟨s.modify id' fun _ => node', overwrite (zeroExtend node.block capacity) 0 bytes, ?_, ?_,
    ?_, ?_⟩
  · unfold writeFile vfsWrite
    rw [hget]
    dsimp only
    rw [hs.tmpfs _ node hget, hreply]
    rw [hwrite]
    simp [Except.toOption, toInt32_of_lt hbytes]
  · rw [hlen]
    rw [length_zeroExtend] at hroom ⊢
    show max node.size bytes.length ≤ _
    omega
  · unfold overwrite
    simp
  · have hshows : Shows (s.modify id' fun _ => node') (K.set F node'.item) := by
      refine hs.replaced hat hget ?_ ?_
      all_goals
        rw [← hnode]
        rfl
    rwa [hitem] at hshows

/-- What is no file cannot be written. -/
theorem writeFile_other {reply : Reply} (hs : Shows s K) (hat : nodeAt s F.reverse = some id)
    (h : K F = some item) (htype : item.type ≠ .file) (hbytes : bytes.length < 2 ^ 31) :
    ∃ s', writeFile s reply id bytes = some (s', false) := by
  obtain ⟨id', node, hat', hget, rfl⟩ := hs.found h
  obtain rfl := some.inj (hat'.symm.trans hat)
  have hfile : node.type ≠ .file := htype
  unfold writeFile vfsWrite tmpfsWrite
  rw [hget]
  dsimp only
  rw [hs.tmpfs _ node hget]
  rw [if_pos hfile]
  simp [Except.toOption, toInt32_of_lt hbytes]

end Nv0ken.Fs
