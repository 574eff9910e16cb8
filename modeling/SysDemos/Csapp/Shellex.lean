import SysDemos.Lib.CString
import SysDemos.Csapp.Rio

/-!
# SysDemos.Csapp.Shellex

The shell of `csapp/exceptional_control_flow/shellex.c`: `parseline`,
`builtin_command`, `eval` and the loop of `main`.

`parseline` works in place on the array `buf` of `eval`, which is at address 0
here; the array `argv` is a function from indices to pointers, so that an index
beyond its end is an entry like any other.  What `eval` finds in the arrays and
in `pid` before it has written to them is part of its environment, with the
results of the system calls.

Standard input is shared with the processes that are started.  They may read from
it; and a child whose `execve` fails sets the offset of a file back, when it exits,
to the place that its copy of the buffer has been read to.
-/

namespace SysDemos.Shellex

open CString Rio

/-- `MAXARGS`. -/
def maxargs : Nat := 128

/-- The character `' '`. -/
def space : UInt8 := 32

/-- The character `'&'`. -/
def ampersand : UInt8 := 38

/-- The string `"quit"`. -/
def quit : List UInt8 := [113, 117, 105, 116]

/-- An array of pointers. -/
abbrev Argv := Nat → Option Int

/-! ## parseline -/

/-- `while (*buf && (*buf == ' ')) buf++`. -/
def skipSpaces (mem : Mem) : Nat → Int → Option Int
  | 0, _ => none
  | k + 1, buf => if mem buf ≠ 0 ∧ mem buf = space then skipSpaces mem k (buf + 1) else some buf

/-- The state of `parseline`. -/
structure Parse where
  mem : Mem
  argv : Argv
  argc : Nat

/-- The loop that builds `argv`, for at most `fuel` words.  The scans of the buffer end within
`size` bytes. -/
def parseLoop (size : Nat) : Nat → Parse → Int → Option Parse
  | 0, _, _ => none
  | fuel + 1, s, buf =>
    match strchr s.mem space size buf with
    | none => none
    | some none => some s
    | some (some delim) =>
      let mem := Function.update s.mem delim 0
      match skipSpaces mem size (delim + 1) with
      | none => none
      | some buf' =>
        parseLoop size fuel
          { mem, argv := Function.update s.argv s.argc (some buf), argc := s.argc + 1 } buf'

/-- What `parseline` leaves: the arrays, the number of words it has found, and its result. -/
structure Parsed extends Parse where
  ret : Int

/-- The end of `parseline`, from `argv[argc] = NULL` on. -/
def parseEnd (s : Parse) : Option Parsed :=
  let argv := Function.update s.argv s.argc none
  if s.argc = 0 then some { s with argv, ret := 1 }
  else
    match argv (s.argc - 1) with
    | none => none
    | some arg =>
      if s.mem arg = ampersand then
        some { s with argv := Function.update argv (s.argc - 1) none, ret := 1 }
      else some { s with argv, ret := 0 }

/-- `parseline` on the buffer at address 0.  For an empty string `strlen(buf) - 1` wraps around, and
the byte in front of the buffer is overwritten. -/
def parseline (size : Nat) (mem : Mem) (argv : Argv) : Option Parsed :=
  match strlen mem size 0 with
  | none => none
  | some n =>
    let mem := Function.update mem (n - 1) space
    match skipSpaces mem size 0 with
    | none => none
    | some buf =>
      match parseLoop size size { mem, argv, argc := 0 } buf with
      | none => none
      | some s => parseEnd s

/-! ## eval -/

/-- What the variables of `eval` hold before it writes to them, and what its system calls
return. -/
structure Env where
  buf : Mem
  argv : Argv
  pid : Int
  /-- the process id of the child, 0 in the child, negative if there is none -/
  fork : Int
  execve : Int
  waitpid : Int

/-- What `eval` does with processes. -/
inductive Event where
  | fork (pid : Int)
  | waitpid (pid : Int)
  | report (pid : Int)
  deriving DecidableEq

/-- How a call of `eval` ends: it returns to `main`, the process exits, or `execve` has replaced
its program. -/
inductive Ending where
  | returned
  | exited
  | replaced
  deriving DecidableEq

/-- A call of `eval`: the words it finds in `argv`, whether the job is to run in the background,
what is done and how it ends. -/
structure Eval where
  args : List (List UInt8)
  bg : Bool
  events : List Event
  ending : Ending
  deriving DecidableEq

/-- `builtin_command`: `none` if it exits. -/
def builtinCommand (arg : List UInt8) : Option Bool :=
  if arg = quit then none else some (arg = [ampersand])

/-- The end of `eval`: wait for a job in the foreground, report one in the background. -/
def evalWait (env : Env) (bg : Bool) (pid : Int) : List Event × Ending :=
  if bg then ([.report pid], .returned)
  else ([.waitpid pid], if env.waitpid < 0 then .exited else .returned)

/-- `eval` after `parseline`. -/
def evalArgs (env : Env) (args : List (List UInt8)) (bg : Bool) : Eval :=
  match args with
  | [] => { args, bg, events := [], ending := .returned }
  | arg :: _ =>
    match builtinCommand arg with
    | none => { args, bg, events := [], ending := .exited }
    | some true =>
      let (events, ending) := evalWait env bg env.pid
      { args, bg, events, ending }
    | some false =>
      if env.fork = 0 then
        { args, bg, events := [.fork env.fork]
          ending := if env.execve < 0 then .exited else .replaced }
      else
        let (events, ending) := evalWait env bg env.fork
        { args, bg, events := .fork env.fork :: events, ending }

/-- The strings in `argv` from entry `k` up to the first `NULL`. -/
def argStrings (mem : Mem) (argv : Argv) : Nat → Nat → Option (List (List UInt8))
  | 0, _ => none
  | fuel + 1, k =>
    match argv k with
    | none => some []
    | some arg =>
      match cstring mem maxline arg with
      | none => none
      | some w => (argStrings mem argv fuel (k + 1)).map (w :: ·)

/-- `eval`.  With more words than fit, `argv` has been overrun and what follows is not defined. -/
def eval (env : Env) (cmdline : List UInt8) : Option Eval :=
  match parseline maxline (strcpy env.buf 0 cmdline) env.argv with
  | none => none
  | some p =>
    if p.argc < maxargs then
      (argStrings p.mem p.argv maxargs 0).map fun args => evalArgs env args (p.ret ≠ 0)
    else none

/-! ## main -/

/-- `fgets` for at most `k` characters: what it stores, what is left of the stream, and whether
it has met the end of the stream. -/
def fgetsLoop : Nat → List UInt8 → List UInt8 × List UInt8 × Bool
  | 0, stream => ([], stream, false)
  | _ + 1, [] => ([], [], true)
  | k + 1, c :: stream =>
    if c = newline then ([c], stream, false)
    else
      let (line, rest, eof) := fgetsLoop k stream
      (c :: line, rest, eof)

/-- `fgets` into an array of `size` characters. -/
def fgets (size : Nat) (stream : List UInt8) : List UInt8 × List UInt8 × Bool :=
  fgetsLoop (size - 1) stream

/-- The loop of `main`, for at most `fuel` iterations, with the environments of the calls of `eval`
from the `k`-th on: the command lines and what `eval` does with them.  If `rest` is there to be read
at the `k`-th call, then at the next `fgets` it is `left k rest`. -/
def mainLoop (env : Nat → Env) (left : Nat → List UInt8 → List UInt8) :
    Nat → Nat → List UInt8 → List (List UInt8 × Option Eval)
  | 0, _, _ => []
  | fuel + 1, k, stream =>
    match fgets maxline stream with
    | (cmdline, rest, eof) =>
      if eof then []
      else
        (cmdline, eval (env k) cmdline) ::
          match eval (env k) cmdline with
          | none => []
          | some e =>
            if e.ending = .returned then mainLoop env left fuel (k + 1) (left k rest) else []

/-- `main`, for at most `fuel` iterations.  Lines that are read again and again would make it go on
for ever. -/
def main (env : Nat → Env) (left : Nat → List UInt8 → List UInt8) (fuel : Nat)
    (stream : List UInt8) : List (List UInt8 × Option Eval) :=
  mainLoop env left fuel 0 stream

end SysDemos.Shellex
