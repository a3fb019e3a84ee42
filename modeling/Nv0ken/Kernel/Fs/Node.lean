/-
Nodes of the virtual filesystem: `kernel/fs/vfs_types.h`.

Nodes are never freed once they are attached, so a pointer to a node is its number in
the list of nodes made so far.  The singly linked list of a directory's children,
through `next`, is kept as the list of their numbers.  There are two tables of
operations in the kernel, and `private_data` holds what the operations of the table
expect there: a `tmpfs_file_t`, of which the bytes of `data` are kept (`capacity` is
their number), or an `ipc_pipe_t`.  The field `mode` is read by nothing below.
-/
import Nv0ken.Kernel.Ipc.Pipe

namespace Nv0ken.Fs

/-- `VFS_NAME_MAX`. -/
def nameMax : Nat := 64

/-- `VFS_PATH_MAX`. -/
def pathMax : Nat := 256

/-- `vfs_node_type_t`. -/
inductive NodeType
  | file
  | dir
  | device
  | pipe
  deriving DecidableEq, Repr

/-- The two operation tables, `tmpfs_ops` and `pipefs_ops`. -/
inductive Ops
  | tmpfs
  | pipefs
  deriving DecidableEq, Repr

abbrev NodeId := Nat

/-- `struct vfs_node`. -/
structure Node where
  name : List UInt8
  type : NodeType
  size : Nat := 0
  ops : Ops
  file : Option (List UInt8) := none
  pipe : Option Ipc.Pipe := none
  parent : Option NodeId := none
  children : List NodeId := []
  deriving DecidableEq, Repr

/-- What can be read out of a node of type file. -/
def Node.contents (node : Node) : List UInt8 := (node.file.getD []).take node.size

/-- `memcpy(node->name, name, min(strlen(name), VFS_NAME_MAX - 1))`. -/
def storedName (name : List UInt8) : List UInt8 := name.take (nameMax - 1)

end Nv0ken.Fs
