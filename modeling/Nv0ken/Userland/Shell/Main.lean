/-
Running a parsed line, `userland/shell/main.c` and the table of `userland/shell/builtins.c`.

`exec_node` walks the tree; what it does at a pipeline and at a subshell is given to it as a
`Runner`, so that the walk can be followed with any of them.  `runner` is the shell's own.

The shell is one process of a system that answers its calls (`Answers`): whether `fork` succeeds
and with which pid, which files can be opened, how a child ends.  `fork` copies the table of
descriptors, which are handed out as the kernel does it, the first free one from 3 on.  `waitpid`
stores the status word of a child of the caller that `wait.h` decodes, and fails for any other
pid.  Process groups, the terminal and the list of jobs are left out.

`source` runs the lines of a file while the builtin runs.  What a line does is a part of the
`System`; `System.closed` ties the knot, with a bound on how deep files source files.
-/
import Nv0ken.Kernel.Fs.FdTable
import Nv0ken.Userland.Shell.Expand
import Nv0ken.Userland.Shell.Parser

namespace Nv0ken.Shell

/-! ### The tree -/

/-- What the walk over a tree calls: `exec_pipeline`, the fork of a subshell that runs `body`, and
`g_last_status`. -/
structure Runner (σ : Type) where
  execPipeline : Pipeline → σ → Int × σ
  execSubshell : (σ → Int × σ) → σ → Int × σ
  lastStatus : σ → Int

variable {σ : Type}

/-- `exec_node`. -/
def execNode (r : Runner σ) : AstNode → σ → Int × σ
  | .pipeline pl, s => r.execPipeline pl s
  | .and left right, s =>
    let (status, s) := execNode r left s
    if status = 0 then execNode r right s else (r.lastStatus s, s)
  | .or left right, s =>
    let (status, s) := execNode r left s
    if status ≠ 0 then execNode r right s else (r.lastStatus s, s)
  | .seq left right, s =>
    let (_, s) := execNode r left s
    execNode r right s
  | .subshell left, s => r.execSubshell (execNode r left) s

/-! ### Descriptors -/

/-- What a descriptor is open on; the pipes are numbered as they are made. -/
inductive File
  | inherited (id : Nat)
  | named (name : List Char)
  | readEnd (pipe : Nat)
  | writeEnd (pipe : Nat)
  deriving DecidableEq, Repr

abbrev Fds := Slots File Fs.fdTableMax

def openFd (t : Fds) (file : File) : Option (Nat × Fds) :=
  (t.firstFree 3).map fun fd => (fd, t.set fd (some file))

def dup (t : Fds) (fd : Nat) : Option Nat × Fds :=
  match (t.get fd).bind (openFd t) with
  | none => (none, t)
  | some (newfd, t) => (some newfd, t)

def dup2 (t : Fds) (oldfd newfd : Nat) : Fds :=
  match t.get oldfd with
  | none => t
  | some file => t.set newfd (some file)

def close (t : Fds) (fd : Nat) : Fds := t.set fd none

/-- `dup2` and `close` of a descriptor that may be -1. -/
def dup2? (t : Fds) (oldfd : Option Nat) (newfd : Nat) : Fds := oldfd.elim t (dup2 t · newfd)

def close? (t : Fds) (fd : Option Nat) : Fds := fd.elim t (close t)

/-- The two ends of a new pipe; without room for the second the first stays open. -/
def pipe (t : Fds) (id : Nat) : Option (Nat × Nat) × Fds :=
  match openFd t (.readEnd id) with
  | none => (none, t)
  | some (r, t) =>
    match openFd t (.writeEnd id) with
    | none => (none, t)
    | some (w, t) => (some (r, w), t)

/-- The descriptor a redirection replaces; that of `2>&1` is not opened. -/
def RedirType.target : RedirType → Option Nat
  | .redirIn => some 0
  | .redirOut => some 1
  | .redirAppend => some 1
  | .redirErr => some 2
  | .redirErrAppend => some 2
  | .redirErrOut => none

/-- `setup_redirects`: whether all files could be opened, and the table. -/
def setupRedirects (opens : List Char → Bool) : List Redirect → Fds → Bool × Fds
  | [], t => (true, t)
  | r :: redirs, t =>
    match r.type.target with
    | none => setupRedirects opens redirs (dup2 t 1 2)
    | some target =>
      let file := r.file.getD []
      match if opens file then openFd t (.named file) else none with
      | none => (false, t)
      | some (fd, t) => setupRedirects opens redirs (close (dup2 t fd target) fd)

/-! ### Processes -/

/-- The pid of a child: 0 is what the child itself gets, and 1 is the first process. -/
abbrev Pid := { pid : Nat // 1 < pid }

instance neZeroCodes : NeZero 256 := ⟨by decide⟩

inductive Ending
  | exited (code : Fin 256)
  | signaled (sig : Fin 126)
  | stopped (sig : Fin 256)
  deriving DecidableEq, Repr

/-- The status word. -/
def Ending.word : Ending → Int
  | .exited code => code.val * 256
  | .signaled sig => sig.val + 1
  | .stopped sig => sig.val * 256 + 127

/-- `WIFEXITED`. -/
def wifexited (status : Int) : Bool := status % 128 = 0

/-- `WEXITSTATUS`. -/
def wexitstatus (status : Int) : Int := status / 256 % 256

/-- `WIFSTOPPED`. -/
def wifstopped (status : Int) : Bool := status % 256 = 127

/-- `WIFEXITED(status) ? WEXITSTATUS(status) : 1`. -/
def decode (status : Int) : Int := if wifexited status then wexitstatus status else 1

/-- What the system answers while one command is started or one pipe is made. -/
structure Answers where
  getenv : List Char → Option (List Char)
  pid : Nat
  dirs : Directories
  /-- What a builtin asks for fails. -/
  fails : Bool
  /-- The lines of a file that can be opened, without their newlines. -/
  lines : List Char → Option (List (List Char))
  pipe : Bool
  fork : Option Pid
  opens : List Char → Bool
  /-- How the program ends, 127 if there is none. -/
  ending : Ending
  /-- What is in a variable `status` that nothing has been stored in. -/
  status : Int

/-- The shell's process.  `children` has those it has created, the latest first and with how
they end, `waited` the pids `waitpid` was called with, `executed` the tables children had when
they executed their program, and `handed` the commands that were run, by the shell or by a
subshell of it, with the arguments they were handed. -/
structure Proc where
  lastStatus : Int := 0
  fds : Fds
  pipes : Nat := 0
  clock : Nat := 0
  children : List (Pid × Ending) := []
  waited : List Int := []
  executed : List Fds := []
  handed : List (SimpleCmd × List (List Char)) := []
  exited : Option Int := none

/-- The answers in the order they are asked for, and what `execute` makes of a line that
`source` reads. -/
structure System where
  answers : Nat → Answers
  run : List Char → Proc → Proc

instance : CoeFun System fun _ => Nat → Answers := ⟨System.answers⟩

/-- `waitpid(pid, &status, ..)`: the status word, which a call that fails leaves alone. -/
def Proc.waitpid (s : Proc) (pid status : Int) : Int × Proc :=
  (((s.children.find? fun c => (c.1.val : Int) = pid).map fun c => c.2.word).getD status,
    { s with waited := s.waited ++ [pid] })

/-! ### Builtins -/

/-- What a builtin returns: 0, 1, or 1 if what it asks for fails.  `source` fails without a file. -/
inductive Builtin
  | succeeds
  | fails
  | mayFail
  | sources
  | exits
  deriving DecidableEq, Repr

/-- `table`. -/
def builtins : List (List Char × Builtin) :=
  [("cd".toList, .mayFail), ("echo".toList, .succeeds), ("pwd".toList, .mayFail),
    ("exit".toList, .exits), ("export".toList, .succeeds), ("unset".toList, .succeeds),
    ("alias".toList, .succeeds), ("unalias".toList, .succeeds), ("history".toList, .succeeds),
    ("source".toList, .sources), (".".toList, .sources), ("type".toList, .succeeds),
    ("true".toList, .succeeds), ("false".toList, .fails), (":".toList, .succeeds),
    ("read".toList, .mayFail), ("shift".toList, .succeeds), ("set".toList, .succeeds)]

/-- The digits of `strtol` in base 10. -/
def digits : Int → List Char → Int
  | val, c :: s => if '0' ≤ c ∧ c ≤ '9' then digits (val * 10 + (c.toNat - 48)) s else val
  | val, [] => val

def atoi (s : List Char) : Int :=
  match s.dropWhile fun c => c = ' ' || c = '\t' with
  | '-' :: s => - digits 0 s
  | '+' :: s => digits 0 s
  | s => digits 0 s

/-- The status `exit` ends the shell with; `last_exit` is never set. -/
def exitCode (args : List (List Char)) : Int := (args.head?.map atoi).getD 0

/-! ### A command -/

def Answers.env (a : Answers) (lastStatus : Int) : Env where
  getenv := a.getenv
  lastStatus := lastStatus
  pid := a.pid

/-- The lines of the file `source` is given. -/
def sourced (a : Answers) (args : List (List Char)) : Option (List (List Char)) :=
  args.head?.bind a.lines

/-- What `run_builtin` returns, or `none` when it does not. -/
def Builtin.ret (a : Answers) (args : List (List Char)) : Builtin → Option Int
  | .succeeds => some 0
  | .fails => some 1
  | .mayFail => some (if a.fails then 1 else 0)
  | .sources => some (if (sourced a args).isSome then 0 else 1)
  | .exits => none

/-- The lines a builtin runs. -/
def Builtin.lines (a : Answers) (args : List (List Char)) : Builtin → List (List Char)
  | .sources => (sourced a args).getD []
  | _ => []

/-- The loop over the lines of a file, without the empty ones and the comments. -/
def runLines (run : List Char → Proc → Proc) (lines : List (List Char)) (s : Proc) : Proc :=
  lines.foldl (fun s line =>
    if s.exited.isSome ∨ line.head?.getD '#' = '#' then s else run line s) s

/-- The three descriptors are put back. -/
def restoreFds (savedIn savedOut savedErr : Option Nat) (t : Fds) : Fds :=
  let t := dup2? (dup2? (dup2? t savedIn 0) savedOut 1) savedErr 2
  close? (close? (close? t savedIn) savedOut) savedErr

/-- A builtin is run by the shell itself between `dup` and `dup2` of its descriptors. -/
def execBuiltin (sys : System) (a : Answers) (b : Builtin) (args : List (List Char))
    (redirs : List Redirect) (inFd outFd : Nat) (s : Proc) : Int × Proc :=
  let (savedIn, t) := dup s.fds 0
  let (savedOut, t) := dup t 1
  let (savedErr, t) := dup t 2
  let t := if inFd ≠ 0 then dup2 t inFd 0 else t
  let t := if outFd ≠ 1 then dup2 t outFd 1 else t
  let (_, t) := setupRedirects a.opens redirs t
  match b.ret a args, b.lines a args with
  | none, _ => (0, { s with fds := t, exited := some (exitCode args) })
  | some ret, [] =>
    (ret, { s with fds := restoreFds savedIn savedOut savedErr t, lastStatus := ret })
  | some ret, lines =>
    let s := runLines sys.run lines { s with fds := t }
    if s.exited.isSome then (0, s)
    else (ret, { s with fds := restoreFds savedIn savedOut savedErr s.fds, lastStatus := ret })

/-- The child's table in front of its redirections. -/
def childFds (inFd outFd : Nat) (t : Fds) : Fds :=
  let t := if inFd ≠ 0 then close (dup2 t inFd 0) inFd else t
  if outFd ≠ 1 then close (dup2 t outFd 1) outFd else t

/-- The child: `_exit(1)`, or `execve` with its table. -/
def execChild (a : Answers) (pid : Pid) (redirs : List Redirect) (t : Fds) (s : Proc) : Proc :=
  match setupRedirects a.opens redirs t with
  | (false, _) => { s with children := (pid, .exited 1) :: s.children }
  | (true, t) =>
    { s with children := (pid, a.ending) :: s.children, executed := s.executed ++ [t] }

/-- `exec_simple`: the pid of a child, or what a builtin returns. -/
def execSimple (sys : System) (cmd : SimpleCmd) (inFd outFd : Nat) (s : Proc) : Int × Proc :=
  let a := sys s.clock
  match expandArgv (a.env s.lastStatus) a.dirs cmd.argv with
  | [] => (0, s)
  | name :: args =>
    let s := { s with clock := s.clock + 1, handed := s.handed ++ [(cmd, name :: args)] }
    match builtins.lookup name with
    | some b => execBuiltin sys a b args cmd.redirs inFd outFd s
    | none =>
      match a.fork with
      | none => (1, s)
      | some pid => (pid.val, execChild a pid cmd.redirs (childFds inFd outFd s.fds) s)

/-! ### A pipeline -/

/-- The pipes between `k + 1` commands, or `none` when one cannot be made. -/
def openPipes (sys : System) : Nat → Proc → Option (List (Nat × Nat)) × Proc
  | 0, s => (some [], s)
  | k + 1, s =>
    let a := sys s.clock
    let s := { s with clock := s.clock + 1 }
    if a.pipe then
      match pipe s.fds s.pipes with
      | (none, t) => (none, { s with fds := t })
      | (some p, t) =>
        let (ps, s) := openPipes sys k { s with fds := t, pipes := s.pipes + 1 }
        (ps.map (p :: ·), s)
    else (none, s)

/-- The commands are started one after the other, each between its two pipes. -/
def spawn (sys : System) (inFd : Nat) : List SimpleCmd → List (Nat × Nat) → Proc →
    List Int × Proc
  | [], _, s => ([], s)
  | cmd :: cmds, pipes, s =>
    let outFd := (pipes.head?.map Prod.snd).getD 1
    let (pid, s) := execSimple sys cmd inFd outFd s
    if s.exited.isSome then ([], s)
    else
      let (pids, s) := spawn sys ((pipes.head?.map Prod.fst).getD 0) cmds pipes.tail s
      (pid :: pids, s)

def closePipes (t : Fds) (pipes : List (Nat × Nat)) : Fds :=
  pipes.foldl (fun t p => close (close t p.1) p.2) t

/-- The loop of `waitpid`, with the status as it is so far. -/
def waitAll : List Int → Int → Proc → Int × Proc
  | [], status, s => (status, s)
  | pid :: pids, status, s =>
    if pid > 0 then
      let (status, s) := s.waitpid pid status
      waitAll pids status s
    else waitAll pids status s

def execPipeline (sys : System) (pl : Pipeline) (s : Proc) : Int × Proc :=
  match pl.cmds with
  | [] => (0, s)
  | [cmd] =>
    let junk := (sys s.clock).status
    let (pid, s) := execSimple sys cmd 0 1 s
    if s.exited.isSome then (0, s)
    else if pl.background then (0, s)
    else if pid > 0 then
      let (status, s) := s.waitpid pid junk
      if wifstopped status then (0, s)
      else (decode status, { s with lastStatus := decode status })
    else (pid, { s with lastStatus := pid })
  | cmds =>
    match openPipes sys (cmds.length - 1) s with
    | (none, s) => (1, s)
    | (some pipes, s) =>
      let (pids, s) := spawn sys 0 cmds pipes s
      if s.exited.isSome then (0, s)
      else
        let s := { s with fds := closePipes s.fds pipes }
        if pl.background then (0, s)
        else
          let (status, s) := waitAll pids 0 s
          (decode status, { s with lastStatus := decode status })

/-! ### A subshell -/

/-- The child of a subshell: a copy of the shell without children of its own. -/
def Proc.forked (s : Proc) : Proc :=
  { s with clock := s.clock + 1, children := [], waited := [], executed := [] }

/-- How the child ends that has run `body`: killed, by `exit`, or by `_exit(g_last_status)`. -/
def subshellEnding (a : Answers) (s : Proc) : Ending :=
  match a.ending with
  | .signaled sig => .signaled sig
  | _ => .exited (Fin.ofNat 256 ((s.exited.getD s.lastStatus) % 256).toNat)

/-- The fork of `NODE_SUBSHELL`.  Behind it the shell takes further answers than the child. -/
def execSubshell (sys : System) (body : Proc → Int × Proc) (s : Proc) : Int × Proc :=
  let a := sys s.clock
  match a.fork with
  | none =>
    let (status, s) := { s with clock := s.clock + 1 }.waitpid (-1) a.status
    (decode status, s)
  | some pid =>
    let (_, child) := body s.forked
    let s := { s with
      clock := child.clock
      handed := child.handed
      children := (pid, subshellEnding a child) :: s.children }
    let (status, s) := s.waitpid pid.val a.status
    (decode status, s)

/-! ### A line -/

/-- A shell that has exited does nothing more. -/
def whileAlive (f : Proc → Int × Proc) (s : Proc) : Int × Proc :=
  if s.exited.isSome then (0, s) else f s

def runner (sys : System) : Runner Proc where
  execPipeline pl := whileAlive (execPipeline sys pl)
  execSubshell body := whileAlive (execSubshell sys body)
  lastStatus := Proc.lastStatus

def execute (sys : System) (input : List Char) (s : Proc) : Int × Proc :=
  let a := sys s.clock
  match parse (expandVars (a.env s.lastStatus) input) with
  | none => (0, s)
  | some ast => execNode (runner sys) ast { s with clock := s.clock + 1 }

/-- The system of a shell whose files source files up to `depth` deep. -/
def System.closed (answers : Nat → Answers) : Nat → System
  | 0 => ⟨answers, fun _ s => s⟩
  | depth + 1 => ⟨answers, fun line s => (execute (System.closed answers depth) line s).2⟩

end Nv0ken.Shell
