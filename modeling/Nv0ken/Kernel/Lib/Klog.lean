/-
The kernel's log: `kernel/lib/klog.c`, a ring of 16 KiB that `kputchar` writes to.  The
serial line and the screen, which get every character as well, are left out.
-/
import Mathlib.Data.List.Basic

namespace Nv0ken

/-- `KLOG_CAPACITY`. -/
def klogCapacity : Nat := 16 * 1024

/-- `storage`, `start` and `length`. -/
structure Klog where
  storage : List UInt8 := List.replicate klogCapacity 0
  start : Nat := 0
  length : Nat := 0

def klogPutc (log : Klog) (ch : UInt8) : Klog :=
  if log.length < klogCapacity then
    { log with
      storage := log.storage.set ((log.start + log.length) % klogCapacity) ch
      length := log.length + 1 }
  else
    { log with
      storage := log.storage.set log.start ch
      start := (log.start + 1) % klogCapacity }

/-- The bytes copied; `buffer` says whether there is somewhere to copy them to. -/
def klogRead (log : Klog) (offset : Nat) (buffer : Bool) (count : Nat) : List UInt8 :=
  if !buffer || offset ≥ log.length then []
  else
    let count := if count > log.length - offset then log.length - offset else count
    (List.range count).map fun index =>
      log.storage[(log.start + offset + index) % klogCapacity]?.getD 0

end Nv0ken
