/-
Processes and their threads: `kernel/proc/thread.c`, `process.c` and `wait.c`.

A pointer to a thread is its number among the threads made so far; a thread that was
freed leaves an empty place behind, so a pointer that is still around leads nowhere.  A
process is known by its pid, which the counter never hands out twice.  Address space,
signals and wake-up time are read by nothing below and left out.
-/
import Mathlib.Data.List.Basic

namespace Nv0ken.Proc

/-- `thread_state_t`. -/
inductive ThreadState
  | new
  | ready
  | running
  | blocked
  | sleeping
  | exited
  deriving DecidableEq, Repr

abbrev ThreadId := Nat

/-- `thread_t`; the links of the run queue are kept with the queue. -/
structure Thread where
  tid : Nat
  processId : Nat
  state : ThreadState := .new
  stackTop : Nat
  instructionPointer : Nat
  exitCode : Int := 0
  deriving DecidableEq, Repr

/-- `process_state_t`. -/
inductive ProcessState
  | new
  | ready
  | running
  | waiting
  | zombie
  deriving DecidableEq, Repr

/-- `PROCESS_NAME_MAX`. -/
def processNameMax : Nat := 32

/-- `process_t`. -/
structure Process where
  pid : Nat
  parentPid : Nat
  name : List UInt8 := []
  state : ProcessState := .new
  exitCode : Int := 0
  mainThread : Option ThreadId := none
  deriving DecidableEq, Repr

/-- The variables of the process, thread and scheduler modules, and the threads. -/
structure Procs where
  processList : List Process := []
  currentProcess : Option Nat := none
  nextPid : Nat := 1
  threads : List (Option Thread) := []
  nextTid : Nat := 1
  runQueue : List ThreadId := []
  currentThread : Option ThreadId := none
  deriving DecidableEq, Repr

/-- The thread a pointer leads to. -/
def Procs.thread (s : Procs) (t : ThreadId) : Option Thread := s.threads[t]?.join

def Procs.setThread (s : Procs) (t : ThreadId) (thread : Option Thread) : Procs :=
  { s with threads := s.threads.set t thread }

/-! ### Threads -/

/-- `alloc` is the answer of the allocator. -/
def threadCreate (s : Procs) (processId entry stackTop : Nat) (alloc : Bool) :
    Procs × Option ThreadId :=
  if !alloc then (s, none)
  else
    let thread :=
      { tid := s.nextTid, processId := processId, stackTop := stackTop,
        instructionPointer := entry }
    ({ s with threads := s.threads ++ [some thread], nextTid := s.nextTid + 1 },
      some s.threads.length)

def threadDestroy (s : Procs) (thread : Option ThreadId) : Procs :=
  match thread with
  | none => s
  | some t => s.setThread t none

def threadSetState (s : Procs) (t : ThreadId) (state : ThreadState) : Procs :=
  s.setThread t ((s.thread t).map fun thread => { thread with state := state })

def threadIsRunnable (thread : Thread) : Bool := thread.state = .ready ∨ thread.state = .running

/-! ### Processes -/

def storedProcessName (name : List UInt8) : List UInt8 := name.take (processNameMax - 1)

def processCreate (s : Procs) (name : Option (List UInt8)) (parentPid : Nat) (alloc : Bool) :
    Procs × Option Nat :=
  if !alloc then (s, none)
  else
    let process : Process :=
      { pid := s.nextPid, parentPid := parentPid, name := (name.map storedProcessName).getD [] }
    ({ s with
        processList := process :: s.processList
        nextPid := s.nextPid + 1
        currentProcess := some (s.currentProcess.getD process.pid) }, some process.pid)

def processFind (s : Procs) (pid : Nat) : Option Process :=
  s.processList.find? fun process => process.pid = pid

/-- The process with changed fields. -/
def Procs.modifyProcess (s : Procs) (pid : Nat) (f : Process → Process) : Procs :=
  { s with processList := s.processList.map fun p => if p.pid = pid then f p else p }

/-- The thread of the process is freed; the run queue is not told. -/
def processDestroy (s : Procs) (process : Process) : Procs :=
  let list := s.processList.eraseP fun p => p.pid = process.pid
  let current :=
    if s.currentProcess = some process.pid then list.head?.map Process.pid else s.currentProcess
  threadDestroy { s with processList := list, currentProcess := current } process.mainThread

/-- `none` stands for the current process. -/
def processExit (s : Procs) (pid : Option Nat) (code : Int) : Procs :=
  match (pid.orElse fun _ => s.currentProcess).bind (processFind s) with
  | none => s
  | some process =>
    let s := s.modifyProcess process.pid fun p => { p with exitCode := code, state := .zombie }
    match process.mainThread with
    | none => s
    | some t =>
      s.setThread t ((s.thread t).map fun thread =>
        { thread with exitCode := code, state := .exited })

/-! ### Waiting -/

/-- The pid and exit code of the process reaped. -/
def waitForPid (s : Procs) (pid : Nat) : Procs × Option (Nat × Int) :=
  match processFind s pid with
  | none => (s, none)
  | some process =>
    if process.state ≠ .zombie then (s, none)
    else (processDestroy s process, some (process.pid, process.exitCode))

def waitAnyChild (s : Procs) (parentPid : Nat) : Procs × Option (Nat × Int) :=
  match s.processList.find? fun p => p.parentPid = parentPid ∧ p.state = .zombie with
  | none => (s, none)
  | some process => waitForPid s process.pid

end Nv0ken.Proc
