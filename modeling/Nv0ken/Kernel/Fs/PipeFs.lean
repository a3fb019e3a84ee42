/-
Pipes as nodes: `kernel/fs/pipe_fs.c`.  The offset is ignored by both operations.
-/
import Nv0ken.Kernel.Fs.Node
import Nv0ken.Lib.Word

namespace Nv0ken.Fs

open Word

/-- The node, the value returned and the bytes put into the buffer. -/
def pipefsRead (node : Node) (buffer : Bool) (count : Nat) : Node × Int × List UInt8 :=
  match node.pipe with
  | none => (node, 0, [])
  | some pipe =>
    let r := Ipc.pipeRead pipe buffer count
    ({ node with pipe := some r.1 }, toInt32 r.2.length, r.2)

def pipefsWrite (node : Node) (buffer : Option (List UInt8)) : Node × Int :=
  match node.pipe with
  | none => (node, 0)
  | some pipe =>
    let r := Ipc.pipeWrite pipe buffer
    ({ node with pipe := some r.1 }, toInt32 r.2)

/-- The answers to the three allocations: the node, the pipe, and the pipe's buffer with
the bytes it happens to hold. -/
structure PipeReply where
  node : Bool
  pipe : Bool
  buffer : Option (Nat → UInt8)

/-- A node that hangs in no directory. -/
def pipefsCreateNode (name : List UInt8) (reply : PipeReply) : Option Node :=
  if !reply.node || !reply.pipe then none
  else
    (Ipc.pipeInit 0 reply.buffer).map fun pipe =>
      { name := storedName name, type := .pipe, ops := .pipefs, pipe := some pipe }

end Nv0ken.Fs
