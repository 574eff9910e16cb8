import SysDemos.Lib.Children
import SysDemos.Lib.Lts

/-!
# SysDemos.Csapp.EchoServerp

The process-per-connection echo server of
`csapp/concurrent_program/echo_serverp.cc`: `main` accepts a connection and
forks a child for it, and `sigchld_handler` reaps the children that have
terminated.

The model begins after `signal` has installed the handler.  A step is a system
call of `main` or of the handler, the delivery of a signal, or the termination of
a child, which may come at any time.  While the handler runs `main` does not, and
`SIGCHLD` is blocked.

* `no_child_forgotten` — with the handler not running and no signal pending,
  every child that has terminated has been reaped.
-/

namespace SysDemos.EchoServerp

open Posix Lts

/-- Where `main` stands: its next system call. -/
inductive MainPc where
  | accept
  | fork
  | close
  deriving DecidableEq, Repr

/-- Where `sigchld_handler` stands: at the `waitpid` of its loop, or behind the
loop. -/
inductive HandlerPc where
  | waitpid
  | ret
  deriving DecidableEq, Repr

/-- The server with its children. -/
structure Server where
  pc : MainPc
  connfd : Int
  /-- the handler, if it runs -/
  handler : Option HandlerPc
  children : Children
  deriving DecidableEq

/-- What happens next. -/
inductive Event where
  /-- `accept` returns `connfd`, which the code does not check -/
  | accept (connfd : Int)
  /-- `fork` in the parent, where `none` is a failure -/
  | fork (pid : Option Int)
  | close
  /-- a child terminates -/
  | exit (pid : Int)
  /-- `sigchld_handler` is called -/
  | deliver
  /-- `waitpid` with `WNOHANG`: the child reaped, or a result that is not positive -/
  | waitpid (pid : Option Int)
  | sigreturn
  deriving DecidableEq, Repr

/-- `main` behind the call of `signal`. -/
def start : Server :=
  { pc := .accept, connfd := 0, handler := none, children := .childless }

/-- One step. -/
def step (s : Server) : Event → Option Server
  | .accept connfd =>
    if s.handler = none ∧ s.pc = .accept then some { s with pc := .fork, connfd := connfd }
    else none
  | .fork pid =>
    if s.handler = none ∧ s.pc = .fork then
      match pid with
      | some pid => (s.children.fork pid).map fun k => { s with pc := .close, children := k }
      | none => some { s with pc := .close }
    else none
  | .close =>
    if s.handler = none ∧ s.pc = .close then some { s with pc := .accept } else none
  | .exit pid => (s.children.exit pid).map fun k => { s with children := k }
  | .deliver =>
    if s.handler = none then
      s.children.deliver.map fun k => { s with handler := some .waitpid, children := k }
    else none
  | .waitpid pid =>
    if s.handler = some .waitpid then
      match pid with
      -- the loop goes on
      | some pid => (s.children.reap pid).map fun k => { s with children := k }
      | none =>
        if s.children.zombies = ∅ then some { s with handler := some .ret } else none
    else none
  | .sigreturn => if s.handler = some .ret then some { s with handler := none } else none

/-- A child that has terminated is remembered by the pending signal or by a handler
that will call `waitpid` again. -/
def Remembered (s : Server) : Prop :=
  s.children.zombies ≠ ∅ → s.children.pending = true ∨ s.handler = some .waitpid

theorem Remembered.step {s s' : Server} {e : Event} (h : Remembered s)
    (hs : step s e = some s') : Remembered s' := by
  cases e with
  | accept connfd =>
      obtain ⟨-, ⟨⟩⟩ := Option.ite_none_right_eq_some.mp hs
      exact h
  | fork pid =>
      simp only [EchoServerp.step] at hs
      split at hs
      · cases pid with
        | none =>
            cases hs
            exact h
        | some pid =>
            obtain ⟨k, hk, rfl⟩ := Option.map_eq_some_iff.mp hs
            obtain ⟨-, -, -, hzombies, hpending⟩ := Children.fork_spec hk
            intro hne
            rw [hzombies] at hne
            rw [hpending]
            exact h hne
      · contradiction
  | close =>
      obtain ⟨-, ⟨⟩⟩ := Option.ite_none_right_eq_some.mp hs
      exact h
  | exit pid =>
      obtain ⟨k, hk, rfl⟩ := Option.map_eq_some_iff.mp hs
      exact fun _ => .inl (Children.exit_spec hk).2
  | deliver =>
      simp only [EchoServerp.step] at hs
      split at hs
      · obtain ⟨k, -, rfl⟩ := Option.map_eq_some_iff.mp hs
        exact fun _ => .inr rfl
      · contradiction
  | waitpid pid =>
      simp only [EchoServerp.step] at hs
      split at hs
      · next hpc =>
          cases pid with
          | some pid =>
              obtain ⟨k, -, rfl⟩ := Option.map_eq_some_iff.mp hs
              exact fun _ => .inr hpc
          | none =>
              obtain ⟨hempty, ⟨⟩⟩ := Option.ite_none_right_eq_some.mp hs
              exact fun hne => absurd hempty hne
      · contradiction
  | sigreturn =>
      obtain ⟨hpc, ⟨⟩⟩ := Option.ite_none_right_eq_some.mp hs
      -- a child that terminated behind the loop has made the signal pending again
      refine fun hne => .inl ((h hne).resolve_right ?_)
      rw [hpc]
      simp

/-- **No child is forgotten**: whenever the handler does not run and no `SIGCHLD`
is pending, no child is a zombie. -/
theorem no_child_forgotten (events : List Event) (s : Server) (hrun : Run step any start events s)
    (hhandler : s.handler = none) (hpending : s.children.pending = false) :
    s.children.zombies = ∅ := by
  have hinv : Remembered s :=
    Run.inv (I := Remembered) (fun hne => absurd rfl hne) (fun _ _ _ h _ => h.step) hrun
  by_contra hne
  obtain hpend | hwait := hinv hne
  · simp [hpending] at hpend
  · simp [hhandler] at hwait

/-- Two children terminate and leave one signal; a third terminates behind the loop
of the handler. -/
def coalescedRun : List Event :=
  [.accept 4, .fork (some 100), .close, .accept 4, .fork (some 101), .close, .accept 4,
    .fork (some 102), .close, .exit 100, .exit 101, .deliver, .waitpid (some 101),
    .waitpid (some 100), .waitpid none, .exit 102, .sigreturn, .deliver, .waitpid (some 102),
    .waitpid none, .sigreturn]

theorem no_child_forgotten_coalesced : ∃ s : Server, Run step any start coalescedRun s ∧
    s.children.running = ∅ ∧ s.handler = none ∧ s.children.zombies = ∅ := by
  have hexec : (exec step (fun _ _ => true) start coalescedRun).map
      (fun s => (s.children.running, s.handler, s.children.pending)) = some (∅, none, false) := by
    decide +kernel
  obtain ⟨s, hrun, hobs⟩ := exists_run_of_exec _ _ hexec
  obtain ⟨hrunning, hobs⟩ := Prod.mk.inj hobs
  obtain ⟨hhandler, hpending⟩ := Prod.mk.inj hobs
  exact ⟨s, hrun.toAny, hrunning, hhandler,
    no_child_forgotten _ s hrun.toAny hhandler hpending⟩

end SysDemos.EchoServerp
