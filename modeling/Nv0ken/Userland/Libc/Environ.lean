/-
The environment of a process, `userland/libc/src/stdlib.c`.

A C string is the list of its bytes without the final 0, and `environ` is the list of its
entries, or there is none.
-/
import Mathlib.Data.List.Basic

namespace Nv0ken.Libc

abbrev Environ := Option (List (List UInt8))

/-- The byte between a name and its value. -/
def equals : UInt8 := 61

/-- `strncmp(entry, name, nlen) == 0 && entry[nlen] == '='`. -/
def isEntry (name entry : List UInt8) : Bool :=
  entry.take name.length = name ∧ entry[name.length]? = some equals

def getenv (env : Environ) (name : List UInt8) : Option (List UInt8) :=
  (env.getD []).find? (isEntry name) |>.map fun entry => entry.drop (name.length + 1)

/-- The loop of `putenv`. -/
def replaceEntry (name string : List UInt8) : List (List UInt8) → List (List UInt8)
  | [] => []
  | entry :: rest =>
    if isEntry name entry then string :: rest else entry :: replaceEntry name string rest

/-- The environment afterwards and the value returned. -/
def putenv (env : Environ) (string : List UInt8) : Environ × Int :=
  if equals ∉ string then (env, -1)
  else (env.map (replaceEntry (string.takeWhile (· ≠ equals)) string), 0)

/-- `alloc` is the answer of `malloc`. -/
def setenv (env : Environ) (name value : List UInt8) (overwrite alloc : Bool) : Environ × Int :=
  if name = [] ∨ equals ∈ name then (env, -1)
  else if !overwrite ∧ (getenv env name).isSome then (env, 0)
  else if !alloc then (env, -1)
  else putenv env (name ++ equals :: value)

end Nv0ken.Libc
