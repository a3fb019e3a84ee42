/-
`decode_chunked` of the browser's HTTP client, with the `strstr` and `strtoul` it calls.

A string is given by its bytes; behind the last of them is a NUL.
-/
import Nv0ken.Lib.Word

namespace Nv0ken.Browser

open Word

/-! ### The C library -/

/-- Where the needle begins, which is not empty and has no NUL. -/
def strstr (needle : List UInt8) : List UInt8 → Option Nat
  | [] => none
  | c :: s =>
    if c = 0 then none else if needle <+: c :: s then some 0 else (strstr needle s).map (· + 1)

def digit (c : UInt8) : Option Nat :=
  if 48 ≤ c ∧ c ≤ 57 then some (c.toNat - 48)
  else if 97 ≤ c ∧ c ≤ 122 then some (c.toNat - 97 + 10)
  else if 65 ≤ c ∧ c ≤ 90 then some (c.toNat - 65 + 10)
  else none

/-- The loop of `strtol` over the digits, in arithmetic that wraps. -/
def digitsLoop (base : Nat) (val : BitVec 64) : List UInt8 → BitVec 64
  | [] => val
  | c :: s =>
    match digit c with
    | some d => if d < base then digitsLoop base (val * base + d) s else val
    | none => val

/-- The base that is used, and where the digits begin. -/
def strtolBase (base : Nat) (s : List UInt8) : Nat × List UInt8 :=
  if (base = 0 ∨ base = 16) ∧ s.head? = some 48 ∧
      (s[1]? = some 120 ∨ s[1]? = some 88) then (16, s.drop 2)
  else if base = 0 then if s.head? = some 48 then (8, s.tail) else (10, s)
  else (base, s)

def strtol (s : List UInt8) (base : Nat) : BitVec 64 :=
  let s := s.dropWhile fun c => c = 32 ∨ c = 9
  let (base, digits) :=
    strtolBase base (if s.head? = some 45 ∨ s.head? = some 43 then s.tail else s)
  let val := digitsLoop base 0 digits
  if s.head? = some 45 then -val else val

def strtoul (s : List UInt8) (base : Nat) : Nat := (strtol s base).toNat

/-! ### Chunked transfer encoding -/

def crlf : List UInt8 := [13, 10]

/-- The size in the line that begins at `pos`. -/
def chunkSize (body : List UInt8) (pos : Nat) : Nat := strtoul (body.drop pos) 16

/-- The loop from a position on, with what has been written.  `none` is a `memcpy` that leaves the
body, or the `body_len + 1` bytes for the result. -/
def decodeLoop (body : List UInt8) (pos : Nat) (out : List UInt8) : Option (List UInt8) :=
  if pos < body.length then
    match strstr crlf (body.drop pos) with
    | none => some out
    | some line =>
      if chunkSize body pos = 0 ∨ u64 (pos + line + 2 + chunkSize body pos) > body.length then
        some out
      else if pos + line + 2 + chunkSize body pos ≤ body.length ∧
          out.length + chunkSize body pos ≤ body.length + 1 then
        decodeLoop body (pos + line + 2 + chunkSize body pos + 2)
          (out ++ (body.drop (pos + line + 2)).take (chunkSize body pos))
      else none
  else some out
termination_by body.length - pos

/-- The result, which is null if there is no memory for it. -/
def decodeChunked (memory : Bool) (body : List UInt8) : Option (Option (List UInt8)) :=
  if memory then (decodeLoop body 0 []).map some else some none

end Nv0ken.Browser
