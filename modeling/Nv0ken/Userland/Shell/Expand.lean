/-
Word expansion of the shell, `userland/shell/expand.c`.

`expand_vars` is one loop over the text that copies or replaces a piece of it at a time into a
buffer of fixed size.  What the next piece is depends on the text alone (`scan`), what is written
for it on the environment (`Piece.text`).

The directories are given by what `opendir` and `readdir` find; a name in them is not empty and
has no `/`.
-/
import Mathlib.Data.List.Basic

namespace Nv0ken.Shell

/-- The length of the text `EXPAND_BUF` holds, without its final 0. -/
def expandMax : Nat := 8191

/-- What the expansion reads of the process: its variables, `g_last_status` and its pid. -/
structure Env where
  getenv : List Char → Option (List Char)
  lastStatus : Int
  pid : Nat

structure FileName where
  name : List Char
  nonempty : name ≠ []
  noSlash : '/' ∉ name

/-- What is in the directories that can be opened. -/
abbrev Directories := List Char → Option (List FileName)

/-! ### Tilde -/

def expandTilde (env : Env) (path : List Char) : List Char :=
  match path with
  | '~' :: rest =>
    match env.getenv ['H', 'O', 'M', 'E'] with
    | none => path
    | some home => (home ++ rest).take expandMax
  | _ => path

/-! ### Variables -/

inductive Piece
  | char (c : Char)
  | var (name : List Char)
  | status
  | pid
  | shellName
  deriving DecidableEq, Repr

def isNameStart (c : Char) : Bool :=
  ('A' ≤ c && c ≤ 'Z') || ('a' ≤ c && c ≤ 'z') || c = '_'

def isNameChar (c : Char) : Bool := isNameStart c || ('0' ≤ c && c ≤ '9')

/-- The length of a variable's name without its final 0. -/
def nameMax : Nat := 255

/-- A name in braces, of which the closing one may be missing, and what follows it. -/
def scanBraces (s : List Char) : Piece × List Char :=
  let name := (s.takeWhile (· ≠ '}')).take nameMax
  let rest := s.drop name.length
  (.var name, if rest.head? = some '}' then rest.tail else rest)

/-- The piece behind a `$`. -/
def scanDollar : List Char → Piece × List Char
  | [] => (.char '$', [])
  | c :: s =>
    if c = '{' then scanBraces s
    else if c = '?' then (.status, s)
    else if c = '$' then (.pid, s)
    else if c = '0' then (.shellName, s)
    else if c = '#' then (.char '0', s)
    else if isNameStart c then
      let name := ((c :: s).takeWhile isNameChar).take nameMax
      (.var name, (c :: s).drop name.length)
    else (.char '$', c :: s)

/-- The piece that begins with `c`, and what follows it. -/
def scan (c : Char) (s : List Char) : Piece × List Char :=
  if c = '\\' then
    match s with
    | [] => (.char '\\', [])
    | d :: s => (.char d, s)
  else if c = '$' then scanDollar s
  else (.char c, s)

/-- The `%d` of a number. -/
def decimal (n : Int) : List Char := (toString n).toList

/-- What is written for a piece. -/
def Piece.text (env : Env) : Piece → List Char
  | .char c => [c]
  | .var name => (env.getenv name).getD []
  | .status => (decimal env.lastStatus).take 7
  | .pid => (decimal env.pid).take 15
  | .shellName => (env.getenv ['0']).getD ['n', 'v', '0', 's', 'h']

/-- Whether the text of a piece still goes into the buffer behind `op` characters. -/
def Piece.fits (op : Nat) (text : List Char) : Piece → Bool
  | .char _ => true
  | _ => op + text.length < expandMax

/-- The loop of `expand_vars`. -/
def expandLoop (env : Env) : Nat → Nat → List Char → List Char
  | fuel + 1, op, c :: s =>
    if op < expandMax then
      let (piece, rest) := scan c s
      let text := piece.text env
      if piece.fits op text then text ++ expandLoop env fuel (op + text.length) rest
      else expandLoop env fuel op rest
    else []
  | _, _, _ => []

/-- Every turn of the loop takes a character. -/
def expandVars (env : Env) (input : List Char) : List Char := expandLoop env input.length 0 input

/-! ### Globs -/

def globMatch : List Char → List Char → Bool
  | [], str => str.isEmpty
  | p :: pat, [] => (p :: pat).all (· = '*')
  | p :: pat, c :: str =>
    if p = '*' then pat.isEmpty || ((c :: str).tails.dropLast.any fun t => globMatch pat t)
    else if p = '?' then globMatch pat str
    else p = c && globMatch pat str

/-- What stands behind the last `/`. -/
def patPart (word : List Char) : List Char := (word.reverse.takeWhile (· ≠ '/')).reverse

def dirPart (word : List Char) : List Char :=
  if '/' ∈ word then word.take (word.length - (patPart word).length - 1) else ['.']

/-- A name that starts with a dot is matched only by a pattern that does. -/
def listed (pat name : List Char) : Bool :=
  !(name.head? = some '.' && pat.head? ≠ some '.') && globMatch pat name

def fullName (dir name : List Char) : List Char :=
  if dir = ['.'] then name.take expandMax else (dir ++ '/' :: name).take expandMax

def globExpand (dirs : Directories) (word : List Char) : List (List Char) :=
  match dirs (dirPart word) with
  | none => []
  | some names =>
    ((names.map FileName.name).filter (listed (patPart word))).map (fullName (dirPart word))

/-! ### Words -/

/-- The body of `expand_argv`'s loop: the first match takes the place of the word. -/
def expandWord (env : Env) (dirs : Directories) (word : List Char) : List Char :=
  let expanded := expandVars env (expandTilde env word)
  if '*' ∈ expanded ∨ '?' ∈ expanded then (globExpand dirs expanded).head?.getD expanded
  else expanded

def expandArgv (env : Env) (dirs : Directories) (argv : List (List Char)) : List (List Char) :=
  argv.map (expandWord env dirs)

end Nv0ken.Shell
