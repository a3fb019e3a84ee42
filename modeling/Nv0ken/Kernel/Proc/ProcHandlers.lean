/-
The system calls that wait for a process: `kernel/proc/syscall_handlers.c`.

`sys_wait` asks for any child of the current process.  `sys_waitpid` passes its pid on as
it is.
-/
import Nv0ken.Kernel.Proc.Process
import Nv0ken.Kernel.Proc.SyscallHandlers

namespace Nv0ken.Proc

/-- `current ? current->pid : 0`. -/
def currentPid (s : Procs) : Nat := s.currentProcess.getD 0

/-- The value returned, and the exit code that is stored where the caller wants it. -/
def waitReply (r : Procs × Option (Nat × Int)) : Procs × Int × Option Int :=
  match r with
  | (s, none) => (s, -eNoEnt, none)
  | (s, some (pid, exitCode)) => (s, pid, some exitCode)

def sysWait (s : Procs) : Procs × Int × Option Int := waitReply (waitAnyChild s (currentPid s))

def sysWaitpid (s : Procs) (pid : Nat) : Procs × Int × Option Int := waitReply (waitForPid s pid)

/-- `process_set_current`, with a process that is there. -/
def processSetCurrent (s : Procs) (pid : Nat) : Procs :=
  if (processFind s pid).isSome then { s with currentProcess := some pid } else s

end Nv0ken.Proc
