/-
Paths: `kernel/fs/path.c`.

A string is the list of its bytes without the terminating zero.  `path_normalize` fills
a buffer from the front; the bytes written so far are kept in reverse, last one first,
and every write is checked against the size of the buffer.
-/
import Nv0ken.Lib.Buffer

namespace Nv0ken.Fs

open Buffer

/-- The byte `/`. -/
def slash : UInt8 := 47

/-- The byte `.`. -/
def dot : UInt8 := 46

/-- The next component of a string and what follows it; leading slashes are skipped. -/
def splitComponent (input : List UInt8) : List UInt8 × List UInt8 :=
  let rest := input.dropWhile (· = slash)
  (rest.takeWhile (· ≠ slash), rest.dropWhile (· ≠ slash))

/-- `while (out > 1 && output[out - 1] != '/') --out;` -/
def dropName : List UInt8 → List UInt8
  | c :: c' :: rest => if c ≠ slash then dropName (c' :: rest) else c :: c' :: rest
  | out => out

/-- Taking back the last component: the name and, if there is one, the slash before it. -/
def popComponent (out : List UInt8) : List UInt8 :=
  match dropName out with
  | _ :: c' :: rest => c' :: rest
  | out => out

/-- Writing some bytes behind those written so far. -/
def emit (size : Nat) (out bytes : List UInt8) : Except Fault (List UInt8) :=
  if out.length + bytes.length ≤ size then .ok (bytes.reverse ++ out) else .error .outOfBounds

/-- The loop of `path_normalize`.  Every round consumes a byte, so as many rounds as the
input has bytes are enough. -/
def normalizeLoop (size : Nat) : Nat → List UInt8 → List UInt8 → Except Fault (Option (List UInt8))
  | 0, _, out => .ok (some out)
  | _ + 1, [], out => .ok (some out)
  | fuel + 1, c :: input, out =>
    let (component, rest) := splitComponent (c :: input)
    if component = [] ∨ component = [dot] then normalizeLoop size fuel rest out
    else if component = [dot, dot] then normalizeLoop size fuel rest (popComponent out)
    else
      let separator := if out.length > 1 then [slash] else []
      if out.length + separator.length ≥ size ∨
          component.length > size - out.length - separator.length - 1 then .ok none
      else (emit size out (separator ++ component)).bind (normalizeLoop size fuel rest)

/-- The normalised path, `none` when the call returns `-1`. -/
def pathNormalize (input : List UInt8) (size : Nat) : Except Fault (Option (List UInt8)) :=
  if size = 0 then .ok none
  else
    (normalizeLoop size input.length input [slash]).bind fun
      | none => .ok none
      | some out => (emit size out [0]).map fun _ => some out.reverse

/-- The length of the next component, as much of it as fits into a buffer of `size` bytes,
and the new position. -/
def pathNextComponent (cursor : List UInt8) (size : Nat) : Nat × List UInt8 × List UInt8 :=
  let (component, rest) := splitComponent cursor
  (component.length, component.take (size - 1), rest)

end Nv0ken.Fs
