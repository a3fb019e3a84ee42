/-
Pipes: `kernel/ipc/pipe.c`.

A pipe is a ring of bytes with a read and a write index.  The lock around the two copy
loops is always free when a call takes it, since nothing in here blocks while holding
it, so it is left out.  `kmalloc` gives a buffer of as many bytes as it is asked for up to
`2 ^ 32 - 16` of them; the capacity is taken to be no larger.
-/
import Mathlib.Data.List.Basic

namespace Nv0ken.Ipc

/-- `IPC_PIPE_DEFAULT_CAPACITY`. -/
def pipeDefaultCapacity : Nat := 4096

/-- `ipc_pipe_t`; the buffer has as many bytes as the capacity. -/
structure Pipe where
  buffer : List UInt8
  readIndex : Nat
  writeIndex : Nat
  size : Nat
  readerClosed : Bool
  writerClosed : Bool
  deriving DecidableEq, Repr

def Pipe.capacity (p : Pipe) : Nat := p.buffer.length

/-- A capacity of 0 stands for the default one; `fresh` are the bytes `kmalloc` hands out,
`none` when it has none left. -/
def pipeInit (capacity : Nat) (fresh : Option (Nat → UInt8)) : Option Pipe :=
  fresh.map fun junk =>
    { buffer := (List.range (if capacity = 0 then pipeDefaultCapacity else capacity)).map junk
      readIndex := 0, writeIndex := 0, size := 0, readerClosed := false, writerClosed := false }

/-- The loop of `pipe_read`: at most `count` bytes, as long as the pipe holds any. -/
def pipeReadLoop (p : Pipe) : Nat → Pipe × List UInt8
  | 0 => (p, [])
  | count + 1 =>
    if p.size > 0 then
      let b := p.buffer[p.readIndex]?.getD 0
      let p' := { p with readIndex := (p.readIndex + 1) % p.capacity, size := p.size - 1 }
      let r := pipeReadLoop p' count
      (r.1, b :: r.2)
    else (p, [])

def pipeRead (p : Pipe) (buffer : Bool) (count : Nat) : Pipe × List UInt8 :=
  if !buffer || count = 0 then (p, []) else pipeReadLoop p count

/-- The loop of `pipe_write`: how many of the bytes fit. -/
def pipeWriteLoop (p : Pipe) : List UInt8 → Pipe × Nat
  | [] => (p, 0)
  | b :: rest =>
    if p.size < p.capacity then
      let p' :=
        { p with
          buffer := p.buffer.set p.writeIndex b
          writeIndex := (p.writeIndex + 1) % p.capacity
          size := p.size + 1 }
      let r := pipeWriteLoop p' rest
      (r.1, r.2 + 1)
    else (p, 0)

def pipeWrite (p : Pipe) (buffer : Option (List UInt8)) : Pipe × Nat :=
  match buffer with
  | none => (p, 0)
  | some bytes => if bytes = [] || p.readerClosed then (p, 0) else pipeWriteLoop p bytes

def pipeCloseReader (p : Pipe) : Pipe := { p with readerClosed := true }

def pipeCloseWriter (p : Pipe) : Pipe := { p with writerClosed := true }

end Nv0ken.Ipc
