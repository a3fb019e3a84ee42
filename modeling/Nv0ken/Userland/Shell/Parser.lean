/-
The shell's parser, `userland/shell/parser.c`.

A C string is the list of its characters.  What the lexer returns next does not depend on the
parser, so the parser is given the tokens of the line as a list: `lex_peek` is its head, the
end of the list is `TOK_EOF`, and `lex_consume` takes the head off.  Allocation is taken to
succeed.

The loops of the pipeline and of the expression are given fuel; `parse` gives them more than
they can use.
-/
import Mathlib.Data.List.Basic

namespace Nv0ken.Shell

/-- `MAX_ARGS`. -/
def maxArgs : Nat := 128

/-- `MAX_REDIRS`. -/
def maxRedirs : Nat := 16

/-- `MAX_CMDS`. -/
def maxCmds : Nat := 64

inductive RedirType
  | redirIn
  | redirOut
  | redirAppend
  | redirErr
  | redirErrAppend
  | redirErrOut
  deriving DecidableEq, Repr

structure Redirect where
  type : RedirType
  file : Option (List Char)
  deriving DecidableEq, Repr

structure SimpleCmd where
  argv : List (List Char) := []
  redirs : List Redirect := []
  deriving DecidableEq, Repr

structure Pipeline where
  cmds : List SimpleCmd
  background : Bool := false
  deriving DecidableEq, Repr

/-- `ASTNode`, with a constructor for each `NodeType`. -/
inductive AstNode
  | pipeline (pl : Pipeline)
  | and (left right : AstNode)
  | or (left right : AstNode)
  | seq (left right : AstNode)
  | subshell (left : AstNode)
  deriving DecidableEq, Repr

/-! ### Tokenizer -/

inductive Token
  | word (str : List Char)
  | pipe
  | and
  | or
  | semi
  | amp
  | lparen
  | rparen
  | redir (type : RedirType)
  | newline
  deriving DecidableEq, Repr

def isBlank (c : Char) : Bool := c = ' ' || c = '\t'

/-- The characters that end a word outside of quotes. -/
def endsWord (c : Char) : Bool :=
  isBlank c || c = '\n' || c = '|' || c = '&' || c = ';' || c = '(' || c = ')'

/-- Which of the loops over a word is running. -/
inductive Quoting
  | plain
  | double
  | single
  deriving DecidableEq, Repr

/-- The length of a word without its final 0. -/
def wordMax : Nat := 4095

/-- A word and what follows it; `room` is how much more the buffer takes. -/
def lexWord : Quoting → Nat → List Char → List Char × List Char
  | _, _, [] => ([], [])
  | .plain, 0, c :: s => ([], c :: s)
  | .double, 0, c :: s => ([], if c = '"' then s else c :: s)
  | .single, 0, c :: s => ([], if c = '\'' then s else c :: s)
  | .plain, room + 1, c :: s =>
    if endsWord c then ([], c :: s)
    else if c = '\\' then
      match s with
      | [] => (['\\'], [])
      | d :: s =>
        let r := lexWord .plain room s
        (d :: r.1, r.2)
    else if c = '"' then lexWord .double (room + 1) s
    else if c = '\'' then lexWord .single (room + 1) s
    else
      let r := lexWord .plain room s
      (c :: r.1, r.2)
  | .double, room + 1, c :: s =>
    if c = '"' then lexWord .plain (room + 1) s
    else if c = '\\' then
      match s with
      | [] => (['\\'], [])
      | d :: s =>
        let r := lexWord .double room s
        (d :: r.1, r.2)
    else
      let r := lexWord .double room s
      (c :: r.1, r.2)
  | .single, room + 1, c :: s =>
    if c = '\'' then lexWord .plain (room + 1) s
    else
      let r := lexWord .single room s
      (c :: r.1, r.2)

/-- The redirection of the error output that begins with `2>`. -/
def lexErr (s : List Char) : Token × List Char :=
  match s with
  | '>' :: s => (.redir .redirErrAppend, s)
  | '&' :: '1' :: s => (.redir .redirErrOut, s)
  | s => (.redir .redirErr, s)

/-- The operator that begins with `c`, if one does. -/
def lexOp (c : Char) (s : List Char) : Option (Token × List Char) :=
  if c = '\n' then some (.newline, s)
  else if c = ';' then some (.semi, s)
  else if c = '(' then some (.lparen, s)
  else if c = ')' then some (.rparen, s)
  else if c = '|' then some (if s.head? = some '|' then (.or, s.tail) else (.pipe, s))
  else if c = '&' then some (if s.head? = some '&' then (.and, s.tail) else (.amp, s))
  else if c = '2' ∧ s.head? = some '>' then some (lexErr s.tail)
  else if c = '>' then
    some (if s.head? = some '>' then (.redir .redirAppend, s.tail) else (.redir .redirOut, s))
  else if c = '<' then some (.redir .redirIn, s)
  else none

/-- The next token and what follows it, or `none` at the end. -/
def lexNext (s : List Char) : Option (Token × List Char) :=
  match s.dropWhile isBlank with
  | [] => none
  | c :: s =>
    match lexOp c s with
    | some r => some r
    | none =>
      let r := lexWord .plain wordMax (c :: s)
      some (.word r.1, r.2)

/-- The tokens up to the end, or the first `fuel` of them. -/
def lexAll : Nat → List Char → List Token
  | 0, _ => []
  | fuel + 1, s =>
    match lexNext s with
    | none => []
    | some (t, s) => t :: lexAll fuel s

/-- The tokens of a line: there are no more of them than characters. -/
def tokens (s : List Char) : List Token := lexAll s.length s

/-! ### Parser -/

/-- The text of a token that is taken for a file name. -/
def Token.str : Token → List Char
  | .word str => str
  | _ => []

def SimpleCmd.addArg (cmd : SimpleCmd) (arg : List Char) : SimpleCmd :=
  { cmd with argv := cmd.argv ++ [arg] }

def SimpleCmd.addRedir (cmd : SimpleCmd) (type : RedirType) (file : Option (List Char)) :
    SimpleCmd :=
  { cmd with redirs := cmd.redirs ++ [{ type, file }] }

/-- The loop of `parse_simple_cmd`, with the command as it is so far. -/
def parseSimpleCmd (cmd : SimpleCmd) : List Token → SimpleCmd × List Token
  | .word str :: ts =>
    if cmd.argv.length < maxArgs - 1 then parseSimpleCmd (cmd.addArg str) ts
    else (cmd, .word str :: ts)
  | .redir .redirErrOut :: ts =>
    if cmd.redirs.length < maxRedirs then parseSimpleCmd (cmd.addRedir .redirErrOut none) ts
    else parseSimpleCmd cmd ts
  | .redir rt :: ts =>
    if cmd.redirs.length < maxRedirs then
      match ts with
      | [] => (cmd.addRedir rt (some []), [])
      | f :: ts => parseSimpleCmd (cmd.addRedir rt (some f.str)) ts
    else parseSimpleCmd cmd ts
  | ts => (cmd, ts)

/-- The loop of `parse_pipeline`: further commands behind `|`. -/
def parseStages : Nat → List SimpleCmd → List Token → List SimpleCmd × List Token
  | fuel + 1, cmds, .pipe :: ts =>
    if cmds.length < maxCmds then
      let (cmd, ts) := parseSimpleCmd {} ts
      parseStages fuel (cmds ++ [cmd]) ts
    else parseStages fuel cmds ts
  | _, cmds, ts => (cmds, ts)

def parsePipeline (ts : List Token) : Pipeline × List Token :=
  let (cmd, ts) := parseSimpleCmd {} ts
  let (cmds, ts) := parseStages ts.length [cmd] ts
  match ts with
  | .amp :: ts => ({ cmds, background := true }, ts)
  | ts => ({ cmds }, ts)

/-- The node an operator makes of what stands on its two sides. -/
def opNode : Token → Option (AstNode → AstNode → AstNode)
  | .and => some .and
  | .or => some .or
  | .semi => some .seq
  | .newline => some .seq
  | _ => none

mutual

def parseExpr : Nat → List Token → AstNode × List Token
  | 0, ts => (.pipeline { cmds := [] }, ts)
  | fuel + 1, ts =>
    match ts with
    | .lparen :: ts =>
      let (inner, ts) := parseExpr fuel ts
      match ts with
      | .rparen :: ts => parseOps fuel (.subshell inner) ts
      | ts => parseOps fuel (.subshell inner) ts
    | ts =>
      let (pl, ts) := parsePipeline ts
      parseOps fuel (.pipeline pl) ts

/-- The loop of `parse_expr`, with what has been read so far. -/
def parseOps : Nat → AstNode → List Token → AstNode × List Token
  | 0, left, ts => (left, ts)
  | fuel + 1, left, ts =>
    match ts with
    | [] => (left, [])
    | t :: rest =>
      match opNode t with
      | none => (left, t :: rest)
      | some node =>
        match rest with
        | [] => (left, [])
        | .rparen :: rest => (left, .rparen :: rest)
        | rest =>
          let (right, ts) := parseExpr fuel rest
          parseOps fuel (node left right) ts

end

/-- Each level of the recursion takes a token, and there are two of them for one. -/
def parseTokens (ts : List Token) : AstNode × List Token := parseExpr (2 * ts.length + 2) ts

def parse (input : List Char) : Option AstNode :=
  if input = [] then none else some (parseTokens (tokens input)).1

end Nv0ken.Shell
