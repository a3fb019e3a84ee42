/-
The console: `kernel/drivers/console.c`, and its reader in `kernel/monitor.c`.

Keys reach the console in two ways.  The interrupt puts them into a ring of 512 bytes, and
a blocking read that finds the ring empty polls the keyboard itself.  A read is modelled
one pass of its loop at a time, so that keys can arrive between any two passes; `polled` is
what the keyboard answers if the pass asks it.  The echo is left out, and so is what a
command of the monitor does.
-/
import Mathlib.Data.List.Basic

namespace Nv0ken.Drivers

/-- `CONSOLE_INPUT_CAPACITY`. -/
def consoleInputCapacity : Nat := 512

def newline : UInt8 := 10

def backspace : UInt8 := 8

/-- The ring, with the positions of the next write and the next read. -/
structure Console where
  inputBuffer : List UInt8
  inputHead : Nat
  inputTail : Nat
  size : inputBuffer.length = consoleInputCapacity
  head_lt : inputHead < consoleInputCapacity
  tail_lt : inputTail < consoleInputCapacity

def nextIndex (index : Nat) : Nat := (index + 1) % consoleInputCapacity

theorem nextIndex_lt (index : Nat) : nextIndex index < consoleInputCapacity :=
  Nat.mod_lt _ (by decide)

def consoleInit : Console where
  inputBuffer := List.replicate consoleInputCapacity 0
  inputHead := 0
  inputTail := 0
  size := List.length_replicate
  head_lt := by decide
  tail_lt := by decide

def Console.setHead (c : Console) (head : Nat) (h : head < consoleInputCapacity) : Console :=
  { c with inputHead := head, head_lt := h }

/-- A backspace takes back the last byte that was not read yet; other keys go into the ring
unless it is full. -/
def consoleKeyboardEvent (c : Console) (ch : UInt8) (pressed : Bool) : Console :=
  if !pressed || ch = 0 then c
  else if ch = backspace then
    if c.inputHead ≠ c.inputTail then
      c.setHead (if c.inputHead = 0 then consoleInputCapacity - 1 else c.inputHead - 1)
        (by have := c.head_lt; split <;> omega)
    else c
  else if nextIndex c.inputHead = c.inputTail then c
  else
    { c with
      inputBuffer := c.inputBuffer.set c.inputHead ch
      inputHead := nextIndex c.inputHead
      size := by rw [List.length_set, c.size]
      head_lt := nextIndex_lt c.inputHead }

def consolePending (c : Console) : Nat :=
  if c.inputHead ≥ c.inputTail then c.inputHead - c.inputTail
  else consoleInputCapacity - c.inputTail + c.inputHead

/-- How a pass of the loop of `console_read` ends: with what was read so far. -/
inductive ReadPass
  | returns (out : List UInt8)
  | goesOn (out : List UInt8)

/-- `if (ch == '\n' || read == count)` after a byte was stored. -/
def stored (count : Nat) (out : List UInt8) (ch : UInt8) : ReadPass :=
  if ch = newline ∨ (out ++ [ch]).length = count then .returns (out ++ [ch])
  else .goesOn (out ++ [ch])

/-- One pass of `console_read(buffer, count, blocking)` with less than `count` bytes read. -/
def consoleReadPass (c : Console) (out : List UInt8) (count : Nat) (blocking : Bool)
    (polled : Option UInt8) : Console × ReadPass :=
  if c.inputTail = c.inputHead then
    if !blocking || out ≠ [] then (c, .returns out)
    else
      match polled with
      | some ch => (c, stored count out ch)
      | none => (c, .goesOn out)
  else
    ({ c with inputTail := nextIndex c.inputTail, tail_lt := nextIndex_lt c.inputTail },
      stored count out (c.inputBuffer.getD c.inputTail 0))

/-- `MONITOR_LINE_MAX`. -/
def monitorLineMax : Nat := 160

/-- The monitor in its read: the console, what was read of the line, and the commands that
were executed. -/
structure Monitor where
  console : Console
  line : List UInt8 := []
  executed : List (List UInt8) := []

/-- `if (length > 0 && line[length - 1] == '\n') --length;` -/
def commandOf (line : List UInt8) : List UInt8 :=
  if line.getLast? = some newline then line.dropLast else line

/-- One pass of the read in `monitor_run`, and the command if the read returns. -/
def monitorPass (m : Monitor) (polled : Option UInt8) : Monitor :=
  match consoleReadPass m.console m.line (monitorLineMax - 1) true polled with
  | (console, .goesOn out) => { m with console := console, line := out }
  | (console, .returns out) =>
    { console := console, line := [], executed := m.executed ++ [commandOf out] }

end Nv0ken.Drivers
