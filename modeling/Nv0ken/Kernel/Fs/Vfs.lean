/-
The tree of nodes: `kernel/fs/vfs.c`, with the directory operations of
`kernel/fs/tmpfs.c`.

A node keeps at most 63 bytes of its name.  Looking up a path cuts every component to
that length as well; creating a node searches its directory for the whole name first and
cuts it afterwards.
-/
import Nv0ken.Kernel.Fs.Path
import Nv0ken.Kernel.Fs.PipeFs
import Nv0ken.Kernel.Fs.TmpfsFile

namespace Nv0ken.Fs

open Buffer

/-- The nodes made so far and `root_node`. -/
structure Vfs where
  nodes : List Node
  rootNode : Option NodeId
  deriving DecidableEq, Repr

def Vfs.get (s : Vfs) (id : NodeId) : Option Node := s.nodes[id]?

/-- The node with changed fields. -/
def Vfs.modify (s : Vfs) (id : NodeId) (f : Node → Node) : Vfs :=
  { s with nodes := s.nodes.modify id f }

/-- Whether a node carries this name. -/
def Vfs.named (s : Vfs) (name : List UInt8) (id : NodeId) : Bool :=
  (s.get id).any fun node => node.name = name

/-- `path_normalize` into a buffer of `VFS_PATH_MAX` bytes, which is never overrun. -/
def normalized (path : List UInt8) : Option (List UInt8) :=
  match pathNormalize path pathMax with
  | .ok out => out
  | .error _ => none

def tmpfsLookup (s : Vfs) (dir : NodeId) (name : List UInt8) : Option NodeId :=
  match s.get dir with
  | none => none
  | some node => if node.type ≠ .dir then none else node.children.find? (s.named name)

/-- `node->ops->lookup`, which only one of the tables has. -/
def opsLookup (s : Vfs) (dir : NodeId) (name : List UInt8) : Option NodeId :=
  match s.get dir with
  | none => none
  | some node => if node.ops = .tmpfs then tmpfsLookup s dir name else none

/-- The loop of `vfs_lookup`. -/
def lookupLoop (s : Vfs) : Nat → NodeId → List UInt8 → Option NodeId
  | 0, _, _ => none
  | fuel + 1, node, cursor =>
    let (length, component, rest) := pathNextComponent cursor nameMax
    if length = 0 then some node
    else if component = [dot] then lookupLoop s fuel node rest
    else if component = [dot, dot] then
      lookupLoop s fuel (((s.get node).bind Node.parent).getD node) rest
    else (opsLookup s node component).bind fun child => lookupLoop s fuel child rest

def vfsLookup (s : Vfs) (path : List UInt8) : Option NodeId :=
  s.rootNode.bind fun root =>
    (normalized path).bind fun cursor => lookupLoop s (cursor.length + 1) root cursor

/-- A new node as the first child of `dir`; its number is that of the next place. -/
def vfsAttachChild (s : Vfs) (dir : NodeId) (node : Node) : Vfs × NodeId :=
  let id := s.nodes.length
  let s := s.modify dir fun parent => { parent with children := id :: parent.children }
  ({ s with nodes := s.nodes ++ [{ node with parent := some dir }] }, id)

/-- `alloc` says whether there is memory for the node. -/
def tmpfsCreateNode (s : Vfs) (dir : NodeId) (name : List UInt8) (type : NodeType) (alloc : Bool) :
    Vfs × Option NodeId :=
  match s.get dir with
  | none => (s, none)
  | some parent =>
    if parent.type ≠ .dir ∨ (tmpfsLookup s dir name).isSome then (s, none)
    else if !alloc then (s, none)
    else
      let r := vfsAttachChild s dir { name := storedName name, type := type, ops := .tmpfs }
      (r.1, some r.2)

/-- The part of a normalised path before its last slash, and the part behind it. -/
def splitLast (path : List UInt8) : List UInt8 × List UInt8 :=
  let name := (path.reverse.takeWhile (· ≠ slash)).reverse
  (path.take (path.length - name.length - 1), name)

/-- The node created, `none` when the call returns `-1`. -/
def vfsCreate (s : Vfs) (path : List UInt8) (type : NodeType) (alloc : Bool) :
    Vfs × Option NodeId :=
  match s.rootNode, normalized path with
  | some root, some path =>
    let (before, name) := splitLast path
    if name = [] then (s, none)
    else
      match (if before = [] then some root else vfsLookup s before) with
      | none => (s, none)
      | some parent =>
        match s.get parent with
        | none => (s, none)
        | some node =>
          if node.ops = .tmpfs then tmpfsCreateNode s parent name type alloc else (s, none)
  | _, _ => (s, none)

/-- Whether the call returned `0`. -/
def vfsUnlink (s : Vfs) (path : List UInt8) : Vfs × Bool :=
  match vfsLookup s path with
  | none => (s, false)
  | some id =>
    match s.get id with
    | none => (s, false)
    | some node =>
      match node.parent with
      | none => (s, false)
      | some parent =>
        if some id = s.rootNode then (s, false)
        else if node.type = .dir ∧ node.children ≠ [] then (s, false)
        else
          match s.get parent with
          | none => (s, false)
          | some dir =>
            if id ∈ dir.children then
              let s := s.modify parent fun dir => { dir with children := dir.children.erase id }
              (s.modify id fun node => { node with parent := none }, true)
            else (s, false)

/-- The node, the value returned and the bytes put into the buffer. -/
def vfsRead (node : Node) (offset : Nat) (buffer : Bool) (count : Nat) :
    Except Fault (Node × Int × List UInt8) :=
  match node.ops with
  | .tmpfs => (tmpfsRead node offset buffer count).map fun r => (node, r.1, r.2)
  | .pipefs => .ok (pipefsRead node buffer count)

def vfsWrite (node : Node) (reply : Reply) (offset : Nat) (buffer : Option (List UInt8)) :
    Except Fault (Node × Int) :=
  match node.ops with
  | .tmpfs => tmpfsWrite node reply offset buffer
  | .pipefs => .ok (pipefsWrite node buffer)

/-- `tmpfs_create_root` and `vfs_mount_root`: the root is its own parent. -/
def mountRoot : Vfs :=
  { nodes := [{ name := [slash], type := .dir, ops := .tmpfs, parent := some 0 }],
    rootNode := some 0 }

end Nv0ken.Fs
