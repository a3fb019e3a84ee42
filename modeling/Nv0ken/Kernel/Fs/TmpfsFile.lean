/-
Files of tmpfs: `tmpfs_read`, `tmpfs_write` and `tmpfs_truncate` of `kernel/fs/tmpfs.c`.

A file owns a block of memory that is usually longer than the file: `capacity` is the
length of the block, `size` that of the file.  The answers of the allocator are
arguments, and where it hands out memory the bytes of that memory are arbitrary.  A block is
taken to be as long as it was asked for; `krealloc` keeps to that up to `2 ^ 32 - 16` bytes.
-/
import Nv0ken.Kernel.Fs.Node
import Nv0ken.Lib.Buffer
import Nv0ken.Lib.Word

namespace Nv0ken.Fs

open Buffer Word

/-- What the allocator answers during one call: whether `kcalloc` has room, and the bytes
that `krealloc` adds to a block, `none` when it has no room. -/
structure Reply where
  calloc : Bool
  realloc : Option (Nat → UInt8)

/-- `private_data`, allocated when there is none yet. -/
def fileOf (node : Node) (reply : Reply) : Option (List UInt8) :=
  match node.file with
  | some data => some data
  | none => if reply.calloc then some [] else none

/-- The block after `krealloc` made it `capacity` bytes long and the new part was cleared. -/
def enlarge (data : List UInt8) (capacity : Nat) (junk : Nat → UInt8) : List UInt8 :=
  let block := data ++ (List.range (capacity - data.length)).map junk
  overwrite block data.length (List.replicate (capacity - data.length) 0)

/-- `while (capacity < required) capacity *= 2`.  Sixty-four doublings make any capacity
zero, and zero stays zero. -/
def growCapacity (required : Nat) : Nat → Nat → Option Nat
  | 0, _ => none
  | fuel + 1, capacity =>
    if capacity < required then growCapacity required fuel (u64 (capacity * 2))
    else some capacity

/-- The value returned and the bytes put into the buffer; `buffer` says whether there
is one. -/
def tmpfsRead (node : Node) (offset : Nat) (buffer : Bool) (count : Nat) :
    Except Fault (Int × List UInt8) :=
  if !buffer || node.type ≠ .file then .ok (-1, [])
  else
    match node.file with
    | none => .ok (0, [])
    | some data =>
      if offset ≥ node.size then .ok (0, [])
      else
        let count := if u64 (offset + count) > node.size then node.size - offset else count
        (copyOut data offset count).map fun bytes => (toInt32 count, bytes)

/-- The last part of `tmpfs_write`, once the block is long enough. -/
def storeBytes (node : Node) (data : List UInt8) (offset : Nat) (bytes : List UInt8) :
    Except Fault (Node × Int) :=
  let required := u64 (offset + bytes.length)
  (copyInto data offset bytes).map fun data =>
    ({ node with file := some data, size := if required > node.size then required else node.size },
      toInt32 bytes.length)

def tmpfsWrite (node : Node) (reply : Reply) (offset : Nat) (buffer : Option (List UInt8)) :
    Except Fault (Node × Int) :=
  match buffer with
  | none => .ok (node, -1)
  | some bytes =>
    if node.type ≠ .file then .ok (node, -1)
    else
      match fileOf node reply with
      | none => .ok (node, -1)
      | some data =>
        let node := { node with file := some data }
        let required := u64 (offset + bytes.length)
        if required > data.length then
          match growCapacity required 65 (if data.length ≠ 0 then data.length else 128) with
          | none => .error .diverges
          | some capacity =>
            match reply.realloc with
            | none => .ok (node, -1)
            | some junk => storeBytes node (enlarge data capacity junk) offset bytes
        else storeBytes node data offset bytes

def tmpfsTruncate (node : Node) (reply : Reply) (size : Nat) : Node × Int :=
  if node.type ≠ .file then (node, -1)
  else
    match fileOf node reply with
    | none => (node, -1)
    | some data =>
      let node := { node with file := some data }
      if size > data.length then
        match reply.realloc with
        | none => (node, -1)
        | some junk => ({ node with file := some (enlarge data size junk), size := size }, 0)
      else ({ node with size := size }, 0)

end Nv0ken.Fs
