/-
The scheduler, `kernel/proc/scheduler.c`, and `exec_image` of `exec.c`, which feeds it.

The run queue is a list of threads linked through the threads themselves, so walking
along it reads every thread it passes.  A function has no result when it reads a thread
that was freed.  What the loader says about an image is an argument.
-/
import Nv0ken.Kernel.Proc.Process

namespace Nv0ken.Proc

/-- The thread at the end of the queue.  The only caller adds a thread it has just created; one
that is in the queue already would make a cycle of the list in the source. -/
def schedulerAdd (s : Procs) (t : ThreadId) : Option Procs :=
  if s.runQueue.all fun k => (s.thread k).isSome then
    some { s.setThread t ((s.thread t).map fun thread => { thread with state := .ready }) with
      runQueue := s.runQueue ++ [t] }
  else none

/-- The walk reads the threads up to the one that goes. -/
def schedulerRemove (s : Procs) (t : ThreadId) : Option Procs :=
  if (s.runQueue.take (s.runQueue.idxOf t + 1)).all fun k => (s.thread k).isSome then
    some { s with
      runQueue := s.runQueue.erase t
      currentThread :=
        if t ∈ s.runQueue ∧ s.currentThread = some t then none else s.currentThread }
  else none

/-- The candidates in the order of the loop: those behind the current thread first, then
from the head of the queue round to the current thread. -/
def candidates (s : Procs) : List ThreadId :=
  match s.currentThread with
  | none => s.runQueue
  | some t =>
    let behind := s.runQueue.idxOf t + 1
    s.runQueue.drop behind ++ s.runQueue.take behind

/-- The loop of `scheduler_pick_next`. -/
def pickLoop (s : Procs) : List ThreadId → Option (Procs × Option ThreadId)
  | [] => some (s, none)
  | t :: rest =>
    match s.thread t with
    | none => none
    | some thread =>
      if threadIsRunnable thread then
        some ({ s.setThread t (some { thread with state := .running }) with
          currentThread := some t }, some t)
      else pickLoop s rest

/-- The thread selected. -/
def schedulerPickNext (s : Procs) : Option (Procs × Option ThreadId) :=
  if s.runQueue = [] then some ({ s with currentThread := none }, none)
  else if s.currentThread.any fun t => (s.thread t).isNone then none
  else pickLoop s (candidates s)

def schedulerYield (s : Procs) : Option (Procs × Option ThreadId) :=
  match s.currentThread with
  | none => schedulerPickNext s
  | some t =>
    match s.thread t with
    | none => none
    | some thread =>
      schedulerPickNext
        (if thread.state = .running then s.setThread t (some { thread with state := .ready })
        else s)

def schedulerRunnableCount (s : Procs) : Option Nat :=
  if s.runQueue.all fun k => (s.thread k).isSome then
    some (s.runQueue.countP fun k => (s.thread k).any threadIsRunnable)
  else none

/-- The name a process gets with its image. -/
def execRename (s : Procs) (pid : Nat) (name : Option (List UInt8)) : Procs :=
  match name with
  | none => s
  | some name => s.modifyProcess pid fun p => { p with name := storedProcessName name }

/-- The last part of `exec_image`: a first thread goes into the run queue, one that is
there is sent to the new entry point. -/
def execStart (s : Procs) (process : Process) (entry : Nat) (alloc : Bool) : Option (Procs × Int) :=
  match process.mainThread with
  | some t =>
    let s := s.setThread t ((s.thread t).map fun thread =>
      { thread with instructionPointer := entry })
    some (s.modifyProcess process.pid fun p => { p with state := .ready }, 0)
  | none =>
    match threadCreate s process.pid entry 0 alloc with
    | (s, none) => some (s, -1)
    | (s, some t) =>
      (schedulerAdd s t).map fun s =>
        (s.modifyProcess process.pid fun p =>
          { p with mainThread := some t, state := .ready }, 0)

/-- `loaded` is the entry point of the image, `none` when the loader refuses it. -/
def execImage (s : Procs) (pid : Nat) (name : Option (List UInt8)) (loaded : Option Nat)
    (alloc : Bool) : Option (Procs × Int) :=
  match processFind s pid, loaded with
  | some process, some entry => execStart (execRename s pid name) process entry alloc
  | _, _ => some (s, -1)

end Nv0ken.Proc
