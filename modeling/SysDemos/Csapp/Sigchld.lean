import SysDemos.Lib.Children
import SysDemos.Lib.Measure
import SysDemos.Lib.Refinement
import SysDemos.Sys

/-!
# SysDemos.Csapp.Sigchld

`signal1.c` to `signal4.c` of `csapp/exceptional_control_flow`: a process that forks
three children, reaps them in a handler for `SIGCHLD` and reads its standard input.

The four programs are one transition system with three switches (`Program`).  A step
is a call of `main` or of the handler, the delivery of the signal, or the termination
of a child.  While the handler runs `main` does not, and `SIGCHLD` is blocked; other
signals do not occur.  What happens to a `read` that the handler has interrupted
depends on how the handler was installed; a `read` may also fail for another reason.

* `zombies_card_eq_lost` — `signal1.c` leaves a zombie for each child that terminated
  while a signal was pending already;
* `draining_outcome` — the other three leave none, and which of them survive an
  interrupted `read`; none of them survives another error.
-/

namespace SysDemos.Sigchld

open Posix Lts

/-- What distinguishes the programs. -/
structure Program where
  /-- the handler calls `waitpid` until that fails (`handler2`) and not only once (`handler1`) -/
  drains : Bool
  /-- `main` calls `read` again when that has been interrupted -/
  retries : Bool
  /-- a `read` that has been interrupted goes on when the handler has returned -/
  restarts : Bool
  deriving DecidableEq, Repr

/-- `signal1.c`.  The standard leaves it open whether a handler that `signal` has installed makes
`read` fail. -/
def signal1 (restarts : Bool) : Program := { drains := false, retries := false, restarts }

/-- `signal2.c`. -/
def signal2 (restarts : Bool) : Program := { drains := true, retries := false, restarts }

/-- `signal3.c`. -/
def signal3 (restarts : Bool) : Program := { drains := true, retries := true, restarts }

/-- `signal4.c`, where `Signal` asks for `SA_RESTART`. -/
def signal4 : Program := { drains := true, retries := false, restarts := true }

/-- Where `main` stands. -/
inductive MainPc where
  /-- in its loop -/
  | fork (i : Nat)
  | read
  /-- blocked in `read` -/
  | reading
  /-- `read` fails with `EINTR` when the handler has returned -/
  | interrupted
  /-- the last loop -/
  | processing
  /-- `unix_error` has called `exit` -/
  | exited
  deriving DecidableEq, Repr

/-- Where the handler stands: at `waitpid`, or at the `sleep` before its end. -/
inductive HandlerPc where
  | waitpid
  | sleep
  deriving DecidableEq, Repr

/-- The process with its children. -/
structure State where
  pc : MainPc
  /-- the handler, if it runs -/
  handler : Option HandlerPc
  children : Children
  deriving DecidableEq

/-- What happens next. -/
inductive Event where
  /-- `fork` in the parent, where `none` is a failure -/
  | fork (pid : Option Int)
  | read
  /-- there is input, or it has ended -/
  | input
  /-- `read` fails with another error than `EINTR`: the descriptor is closed, say -/
  | error
  /-- `main` looks at the `EINTR` -/
  | eintr
  /-- a child terminates -/
  | exit (pid : Int)
  /-- the handler is called -/
  | deliver
  /-- `waitpid`: the child reaped, or `ECHILD` -/
  | waitpid (pid : Option Int)
  | sigreturn
  deriving DecidableEq, Repr

/-- `main` behind the installation of the handler. -/
def start : State := { pc := .fork 0, handler := none, children := .childless }

/-- `main` behind the `fork` of round `i`. -/
def next (i : Nat) : MainPc := if i + 1 < 3 then .fork (i + 1) else .read

/-- `main` when the signal is delivered. -/
def Program.interrupt (p : Program) : MainPc → MainPc
  | .reading => if p.restarts then .reading else .interrupted
  | pc => pc

/-- One step.  `waitpid` blocks while there are children and none has terminated. -/
def step (p : Program) (s : State) : Event → Option State
  | .fork pid =>
    match s.pc with
    | .fork i =>
      if s.handler = none then
        match pid with
        | some pid => (s.children.fork pid).map fun k => { s with pc := next i, children := k }
        | none => some { s with pc := next i }
      else none
    | _ => none
  | .read => if s.handler = none ∧ s.pc = .read then some { s with pc := .reading } else none
  | .input => if s.handler = none ∧ s.pc = .reading then some { s with pc := .processing } else none
  | .error => if s.handler = none ∧ s.pc = .reading then some { s with pc := .exited } else none
  | .eintr =>
    if s.handler = none ∧ s.pc = .interrupted then
      some { s with pc := if p.retries then .read else .exited }
    else none
  | .exit pid => (s.children.exit pid).map fun k => { s with children := k }
  | .deliver =>
    if s.handler = none ∧ s.pc ≠ .exited then
      s.children.deliver.map fun k =>
        { pc := p.interrupt s.pc, handler := some .waitpid, children := k }
    else none
  | .waitpid pid =>
    if s.handler = some .waitpid then
      match pid with
      | some pid =>
        (s.children.reap pid).map fun k =>
          { s with handler := some (if p.drains then .waitpid else .sleep), children := k }
      | none =>
        if s.children.unreaped = ∅ then
          -- `errno` is `ECHILD`, which `handler1` does not expect
          if p.drains then some { s with handler := some .sleep }
          else some { s with pc := .exited, handler := none }
        else none
    else none
  | .sigreturn => if s.handler = some .sleep then some { s with handler := none } else none

/-! ## what a step can do -/

variable {p : Program} {s s' : State} {e : Event}

/-- The steps, with what enables each of them. -/
inductive Step (p : Program) (s : State) : Event → State → Prop
  | fork {i : Nat} {pid : Int} {k : Children} : s.handler = none → s.pc = .fork i →
      s.children.fork pid = some k →
      Step p s (.fork (some pid)) { s with pc := next i, children := k }
  | forkFail {i : Nat} : s.handler = none → s.pc = .fork i →
      Step p s (.fork none) { s with pc := next i }
  | read : s.handler = none → s.pc = .read → Step p s .read { s with pc := .reading }
  | input : s.handler = none → s.pc = .reading → Step p s .input { s with pc := .processing }
  | error : s.handler = none → s.pc = .reading → Step p s .error { s with pc := .exited }
  | eintr : s.handler = none → s.pc = .interrupted →
      Step p s .eintr { s with pc := if p.retries then .read else .exited }
  | exit {pid : Int} {k : Children} : s.children.exit pid = some k →
      Step p s (.exit pid) { s with children := k }
  | deliver {k : Children} : s.handler = none → s.pc ≠ .exited → s.children.deliver = some k →
      Step p s .deliver { pc := p.interrupt s.pc, handler := some .waitpid, children := k }
  | waitpid {pid : Int} {k : Children} : s.handler = some .waitpid → s.children.reap pid = some k →
      Step p s (.waitpid (some pid))
        { s with handler := some (if p.drains then .waitpid else .sleep), children := k }
  | drained : s.handler = some .waitpid → s.children.unreaped = ∅ → p.drains = true →
      Step p s (.waitpid none) { s with handler := some .sleep }
  | waitpidFail : s.handler = some .waitpid → s.children.unreaped = ∅ → p.drains = false →
      Step p s (.waitpid none) { s with pc := .exited, handler := none }
  | sigreturn : s.handler = some .sleep → Step p s .sigreturn { s with handler := none }

theorem step_cases (hs : step p s e = some s') : Step p s e s' := by
  cases e with
  | fork pid =>
      simp only [step] at hs
      split at hs
      · next i hpc =>
          obtain ⟨hh, hs⟩ := Option.ite_none_right_eq_some.mp hs
          cases pid with
          | none =>
              cases hs
              exact .forkFail hh hpc
          | some pid =>
              obtain ⟨k, hk, rfl⟩ := Option.map_eq_some_iff.mp hs
              exact .fork hh hpc hk
      · contradiction
  | read =>
      obtain ⟨⟨hh, hpc⟩, ⟨⟩⟩ := Option.ite_none_right_eq_some.mp hs
      exact .read hh hpc
  | input =>
      obtain ⟨⟨hh, hpc⟩, ⟨⟩⟩ := Option.ite_none_right_eq_some.mp hs
      exact .input hh hpc
  | error =>
      obtain ⟨⟨hh, hpc⟩, ⟨⟩⟩ := Option.ite_none_right_eq_some.mp hs
      exact .error hh hpc
  | eintr =>
      obtain ⟨⟨hh, hpc⟩, ⟨⟩⟩ := Option.ite_none_right_eq_some.mp hs
      exact .eintr hh hpc
  | exit pid =>
      obtain ⟨k, hk, rfl⟩ := Option.map_eq_some_iff.mp hs
      exact .exit hk
  | deliver =>
      obtain ⟨⟨hh, hpc⟩, hs⟩ := Option.ite_none_right_eq_some.mp hs
      obtain ⟨k, hk, rfl⟩ := Option.map_eq_some_iff.mp hs
      exact .deliver hh hpc hk
  | waitpid pid =>
      obtain ⟨hh, hs⟩ := Option.ite_none_right_eq_some.mp hs
      cases pid with
      | some pid =>
          obtain ⟨k, hk, rfl⟩ := Option.map_eq_some_iff.mp hs
          exact .waitpid hh hk
      | none =>
          obtain ⟨hempty, hs⟩ := Option.ite_none_right_eq_some.mp hs
          cases hdrains : p.drains with
          | true =>
              rw [hdrains, if_pos rfl] at hs
              cases hs
              exact .drained hh hempty hdrains
          | false =>
              rw [hdrains, if_neg (by simp)] at hs
              cases hs
              exact .waitpidFail hh hempty hdrains
  | sigreturn =>
      obtain ⟨hh, ⟨⟩⟩ := Option.ite_none_right_eq_some.mp hs
      exact .sigreturn hh

/-! ## how long a run is -/

/-- The calls that `main` has before it, with those that its children will cause. -/
def MainPc.work : MainPc → Nat
  | .fork i => 9 * (3 - i) + 2
  | .interrupted => 3
  | .read => 2
  | .reading => 1
  | .processing => 0
  | .exited => 0

/-- The calls that the handler makes before it returns, children to reap apart. -/
def handlerWork : Option HandlerPc → Nat
  | none => 0
  | some .waitpid => 2
  | some .sleep => 1

/-- A bound on the steps to come.  A signal may cost `main` a further round with its `read`. -/
def State.work (s : State) : Nat :=
  s.pc.work + 8 * s.children.running.card + s.children.zombies.card +
    (if s.children.pending then 6 else 0) + handlerWork s.handler

/-- The loop counter stays below its bound. -/
def InLoop (s : State) : Prop := ∀ i, s.pc = .fork i → i < 3

theorem interrupt_eq_fork {pc : MainPc} {i : Nat} (h : p.interrupt pc = .fork i) :
    pc = .fork i := by
  cases pc with
  | reading =>
      simp only [Program.interrupt] at h
      split at h <;> contradiction
  | fork | read | interrupted | processing | exited => exact h

theorem InLoop.step (h : InLoop s) (hs : Step p s e s') : InLoop s' := by
  have hnext : ∀ i j, next i = .fork j → j < 3 := fun i j hj => by
    unfold next at hj
    split at hj
    · cases hj
      assumption
    · contradiction
  cases hs with
  | fork hh hpc hk => exact fun j hj => hnext _ j hj
  | forkFail hh hpc => exact fun j hj => hnext _ j hj
  | read hh hpc => exact fun j hj => by contradiction
  | input hh hpc => exact fun j hj => by contradiction
  | error hh hpc => exact fun j hj => by contradiction
  | eintr hh hpc =>
      intro j hj
      simp only at hj
      split at hj <;> contradiction
  | exit hk => exact h
  | deliver hh hpc hk => exact fun j hj => h j (interrupt_eq_fork hj)
  | waitpid hh hk => exact h
  | drained hh hempty hd => exact h
  | waitpidFail hh hempty hd => exact fun j hj => by contradiction
  | sigreturn hh => exact h

theorem work_next {i : Nat} (hi : i < 3) : (next i).work + 9 ≤ (MainPc.fork i).work := by
  unfold next
  split
  · simp only [MainPc.work]
    omega
  · simp only [MainPc.work]
    omega

theorem work_interrupt (p : Program) (pc : MainPc) : (p.interrupt pc).work ≤ pc.work + 2 := by
  cases pc with
  | reading =>
      simp only [Program.interrupt]
      split <;> simp [MainPc.work]
  | fork | read | interrupted | processing | exited => exact Nat.le_add_right _ _

/-- Every step brings the process forward. -/
theorem work_step (h : InLoop s) (hs : Step p s e s') : s'.work < s.work := by
  cases hs with
  | fork hh hpc hk =>
      obtain ⟨hnot, hrunning, hzombies⟩ := Children.fork_sets hk
      obtain ⟨-, -, -, -, hpending⟩ := Children.fork_spec hk
      have hnext := work_next (h _ hpc)
      simp only [State.work, hpc, hrunning, hzombies, hpending, Finset.card_insert_of_notMem hnot]
      omega
  | forkFail hh hpc =>
      have hnext := work_next (h _ hpc)
      simp only [State.work, hpc]
      omega
  | read hh hpc =>
      simp only [State.work, hpc, MainPc.work]
      omega
  | input hh hpc =>
      simp only [State.work, hpc, MainPc.work]
      omega
  | error hh hpc =>
      simp only [State.work, hpc, MainPc.work]
      omega
  | eintr hh hpc =>
      have hle : (if p.retries then MainPc.read else MainPc.exited).work ≤ 2 := by
        split <;> simp [MainPc.work]
      simp only [State.work, hpc, show MainPc.interrupted.work = 3 from rfl]
      omega
  | exit hk =>
      obtain ⟨hin, hnot, hrunning, hzombies⟩ := Children.exit_sets hk
      obtain ⟨-, hpending⟩ := Children.exit_spec hk
      have hcard := Finset.card_erase_add_one hin
      simp only [State.work, hrunning, hzombies, hpending, Finset.card_insert_of_notMem hnot,
        if_true]
      omega
  | deliver hh hpc hk =>
      obtain ⟨hrunning, hzombies⟩ := Children.deliver_sets hk
      obtain ⟨hold, -, hnew⟩ := Children.deliver_spec hk
      have hle := work_interrupt p s.pc
      simp only [State.work, hrunning, hzombies, hold, hnew, hh, handlerWork, if_true,
        Bool.false_eq_true, if_false]
      omega
  | waitpid hh hk =>
      obtain ⟨hin, hrunning, hzombies⟩ := Children.reap_sets hk
      obtain ⟨-, -, hpending⟩ := Children.reap_spec hk
      have hcard := Finset.card_erase_add_one hin
      have hle : handlerWork (some (if p.drains then .waitpid else .sleep)) ≤ 2 := by
        split <;> simp [handlerWork]
      simp only [State.work, hrunning, hzombies, hpending, hh, show handlerWork (some .waitpid) = 2
        from rfl]
      omega
  | drained hh hempty hd =>
      simp only [State.work, hh, handlerWork]
      omega
  | waitpidFail hh hempty hd =>
      simp only [State.work, hh, handlerWork, MainPc.work]
      omega
  | sigreturn hh =>
      simp only [State.work, hh, handlerWork]
      omega

/-- No run has more than 29 steps. -/
theorem length_le {es : List Event} (h : Run (step p) any start es s) : es.length ≤ 29 := by
  have hbound := h.length_add_le (I := InLoop) State.work (fun i hi => by cases hi; decide)
    (fun _ _ _ hI _ hs => ⟨hI.step (step_cases hs), work_step hI (step_cases hs)⟩)
  have hstart : start.work = 29 := rfl
  omega

/-! ## one child for each signal -/

/-- A child terminates while a signal is pending, and another one is not remembered. -/
def lost (s : State) : Event → List Int
  | .exit pid => if s.children.pending then [pid] else []
  | _ => []

/-- The handler is about to call `waitpid`. -/
def State.waits (s : State) : Nat := if s.handler = some .waitpid then 1 else 0

/-- Every signal that is pending or being handled stands for a child that has terminated, and the
others are lost. -/
def Counted (lostPids : List Int) (s : State) : Prop :=
  s.children.zombies.card =
    lostPids.length + (if s.children.pending then 1 else 0) + s.waits

theorem Counted.step {restarts : Bool} {lostPids : List Int} (h : Counted lostPids s)
    (hs : Step (signal1 restarts) s e s') : Counted (lostPids ++ lost s e) s' := by
  unfold Counted State.waits at h ⊢
  cases hs with
  | fork hh hpc hk =>
      obtain ⟨-, -, hzombies⟩ := Children.fork_sets hk
      obtain ⟨-, -, -, -, hpending⟩ := Children.fork_spec hk
      simpa [lost, hzombies, hpending] using h
  | forkFail hh hpc => simpa [lost] using h
  | read hh hpc => simpa [lost] using h
  | input hh hpc => simpa [lost] using h
  | error hh hpc => simpa [lost] using h
  | eintr hh hpc => simpa [lost] using h
  | exit hk =>
      obtain ⟨-, hnot, -, hzombies⟩ := Children.exit_sets hk
      obtain ⟨-, hpending⟩ := Children.exit_spec hk
      simp only [lost, hzombies, hpending, Finset.card_insert_of_notMem hnot, if_true,
        List.length_append]
      split <;> simp_all <;> omega
  | deliver hh hpc hk =>
      obtain ⟨-, hzombies⟩ := Children.deliver_sets hk
      obtain ⟨hold, -, hnew⟩ := Children.deliver_spec hk
      simp only [hold, hh, if_true, reduceCtorEq, if_false] at h
      simp only [lost, hzombies, hnew, List.append_nil, if_true, Bool.false_eq_true, if_false]
      exact h
  | waitpid hh hk =>
      obtain ⟨hin, -, hzombies⟩ := Children.reap_sets hk
      obtain ⟨-, -, hpending⟩ := Children.reap_spec hk
      have hcard := Finset.card_erase_add_one hin
      simp only [hh, if_true] at h
      simp only [lost, hzombies, hpending, List.append_nil, signal1, Bool.false_eq_true, if_false,
        Option.some.injEq, reduceCtorEq]
      omega
  | drained hh hempty hd => contradiction
  | waitpidFail hh hempty hd =>
      -- there is a child for the handler to reap
      have hzombies : s.children.zombies = ∅ := (Finset.union_eq_empty.mp hempty).2
      simp [hzombies, hh] at h
  | sigreturn hh => simpa [lost, hh] using h

/-- **`signal1.c` loses signals.**  At any time the children that have terminated and not been
reaped are as many as the signals that are pending or being handled and the signals that were lost,
a signal being lost if it arrives while another one is pending.  So `waitpid` in `handler1` neither
blocks nor fails, and when the handler has returned and no signal is pending there is a zombie for
each signal that was lost. -/
theorem zombies_card_eq_lost (restarts : Bool) (es : List Event) (s : State)
    (hrun : Run (step (signal1 restarts)) any start es s) :
    (s.handler = some .waitpid → s.children.zombies ≠ ∅) ∧
      (s.handler ≠ some .waitpid → s.children.pending = false →
        s.children.zombies.card = (outputs (step (signal1 restarts)) lost start es).length) := by
  have hcounted : Counted (outputs (step (signal1 restarts)) lost start es) s :=
    hrun.inv_outputs (show Counted [] start from rfl) fun _ _ _ _ h _ hs => h.step (step_cases hs)
  unfold Counted State.waits at hcounted
  refine ⟨fun hh hempty => ?_, fun hh hpending => ?_⟩
  · simp [hempty, hh] at hcounted
  · simpa [hh, hpending] using hcounted

/-- Two of three children terminate while the handler is at work for the first. -/
def lossyRun : List Event :=
  [.fork (some 10), .fork (some 11), .fork (some 12), .read, .exit 10, .deliver,
    .waitpid (some 10), .exit 11, .exit 12, .sigreturn, .deliver, .waitpid (some 12), .sigreturn]

theorem zombies_card_eq_lost_one : ∃ s, Run (step (signal1 true)) any start lossyRun s ∧
    s.handler = none ∧ s.children.running = ∅ ∧ s.children.zombies.card = 1 := by
  have hexec : (exec (step (signal1 true)) (fun _ _ => true) start lossyRun).map
      (fun s => (s.handler, s.children.running, s.children.pending)) = some (none, ∅, false) := by
    decide +kernel
  obtain ⟨s, hrun, hobs⟩ := exists_run_of_exec _ _ hexec
  simp only [Prod.mk.injEq] at hobs
  obtain ⟨hhandler, hrunning, hpending⟩ := hobs
  have hlost : (outputs (step (signal1 true)) lost start lossyRun).length = 1 := by decide +kernel
  have hcard := (zombies_card_eq_lost true _ s hrun.toAny).2 (by simp [hhandler]) hpending
  exact ⟨s, hrun.toAny, hhandler, hrunning, hcard.trans hlost⟩

/-! ## all children for one signal -/

/-- What happens to a `read` that `main` is blocked in: the signal is delivered, or it fails. -/
def fault (s : State) : Event → List Errno
  | .deliver => if s.pc = .reading then [.EINTR] else []
  | .error => [.other]
  | _ => []

/-- What is true of a process whose handler drains. -/
structure Drained (p : Program) (faults : List Errno) (s : State) : Prop where
  /-- a child that has terminated is remembered -/
  remembered : s.children.zombies ≠ ∅ → s.children.pending = true ∨ s.handler = some .waitpid
  /-- the handler does not stop before there are no children -/
  sleep : s.handler = some .sleep → s.children.unreaped = ∅
  /-- `main` is behind a `read` that was interrupted -/
  interrupted : s.pc = .interrupted → p.restarts = false ∧ .EINTR ∈ faults
  /-- what `main` does not survive -/
  exited : s.pc = .exited →
    .other ∈ faults ∨ (p.restarts = false ∧ p.retries = false ∧ .EINTR ∈ faults)
  fatal : .other ∈ faults → s.pc = .exited
  unharmed : p.restarts = false → p.retries = false → .EINTR ∈ faults →
    s.pc = .interrupted ∨ s.pc = .exited

theorem drained_start (p : Program) : Drained p [] start where
  remembered hne := absurd rfl hne
  sleep hh := by contradiction
  interrupted hpc := by contradiction
  exited hpc := by contradiction
  fatal hmem := by contradiction
  unharmed _ _ hmem := by contradiction

/-- A step after which `main` is neither in the middle of nor behind a `read` that fails. -/
theorem Drained.main {faults : List Errno} {pc : MainPc} {k : Children} (h : Drained p faults s)
    (hh : s.handler = none) (hzombies : k.zombies = s.children.zombies)
    (hpending : k.pending = s.children.pending) (hold : s.pc ≠ .interrupted ∧ s.pc ≠ .exited)
    (hnew : pc ≠ .interrupted ∧ pc ≠ .exited) :
    Drained p faults { s with pc := pc, children := k } where
  remembered hne := by
    rw [show Children.zombies _ = _ from hzombies] at hne
    rw [show Children.pending _ = _ from hpending]
    exact h.remembered hne
  sleep hsleep := by
    rw [show s.handler = some _ from hsleep] at hh
    contradiction
  interrupted hpc := absurd hpc hnew.1
  exited hpc := absurd hpc hnew.2
  fatal hmem := absurd (h.fatal hmem) hold.2
  unharmed hr hp hmem := absurd (h.unharmed hr hp hmem) (not_or.mpr hold)

theorem next_ne (i : Nat) : next i ≠ .interrupted ∧ next i ≠ .exited := by
  unfold next
  split <;> simp

/-- The delivery of the signal matters to `main` only if it is blocked in `read`. -/
theorem interrupt_of_ne {pc : MainPc} (hpc : pc ≠ .reading) : p.interrupt pc = pc := by
  unfold Program.interrupt
  split
  · contradiction
  · rfl

theorem Drained.deliver {faults : List Errno} {k : Children} (h : Drained p faults s)
    (hpc : s.pc ≠ .exited) : Drained p (faults ++ fault s .deliver)
      { pc := p.interrupt s.pc, handler := some .waitpid, children := k } := by
  by_cases hreading : s.pc = .reading
  · have hother : Errno.other ∉ faults := fun hmem => hpc (h.fatal hmem)
    simp only [fault, hreading, if_true, Program.interrupt]
    cases hrestarts : p.restarts <;> exact
      ⟨fun _ => .inr rfl, by simp, by simp [hrestarts], by simp, by simp [hother],
        by simp [hrestarts]⟩
  · simp only [fault, if_neg hreading, List.append_nil, interrupt_of_ne hreading]
    exact ⟨fun _ => .inr rfl, by simp, h.interrupted, h.exited, h.fatal, h.unharmed⟩

theorem Drained.step {faults : List Errno} (hdrains : p.drains = true) (h : Drained p faults s)
    (hs : Step p s e s') : Drained p (faults ++ fault s e) s' := by
  cases hs with
  | fork hh hpc hk =>
      obtain ⟨-, -, hzombies⟩ := Children.fork_sets hk
      obtain ⟨-, -, -, -, hpending⟩ := Children.fork_spec hk
      simp only [fault, List.append_nil]
      exact h.main hh hzombies hpending (by simp [hpc]) (next_ne _)
  | forkFail hh hpc =>
      simp only [fault, List.append_nil]
      exact h.main hh rfl rfl (by simp [hpc]) (next_ne _)
  | read hh hpc =>
      simp only [fault, List.append_nil]
      exact h.main hh rfl rfl (by simp [hpc]) (by simp)
  | input hh hpc =>
      simp only [fault, List.append_nil]
      exact h.main hh rfl rfl (by simp [hpc]) (by simp)
  | error hh hpc =>
      exact ⟨h.remembered, by simp [hh], by simp, by simp [fault], by simp, by simp⟩
  | eintr hh hpc =>
      obtain ⟨hrestarts, hmem⟩ := h.interrupted hpc
      have hother : Errno.other ∉ faults := fun hmem' => by
        rw [h.fatal hmem'] at hpc
        contradiction
      simp only [fault, List.append_nil]
      cases hretries : p.retries with
      | true => exact ⟨h.remembered, by simp [hh], by simp, by simp, by simp [hother],
          by simp [hretries]⟩
      | false => exact ⟨h.remembered, by simp [hh], by simp,
          fun _ => .inr ⟨hrestarts, hretries, hmem⟩, by simp, by simp⟩
  | exit hk =>
      obtain ⟨hun, hpending⟩ := Children.exit_spec hk
      simp only [fault, List.append_nil]
      refine ⟨fun _ => .inl hpending, fun hsleep => ?_, h.interrupted, h.exited, h.fatal,
        h.unharmed⟩
      rw [show Children.unreaped _ = _ from hun]
      exact h.sleep hsleep
  | deliver hh hpc hk => exact h.deliver hpc
  | waitpid hh hk =>
      simp only [fault, List.append_nil, hdrains, if_true]
      exact ⟨fun _ => .inr rfl, by simp, h.interrupted, h.exited, h.fatal, h.unharmed⟩
  | drained hh hempty =>
      simp only [fault, List.append_nil]
      refine ⟨fun hne => ?_, fun _ => hempty, h.interrupted, h.exited, h.fatal, h.unharmed⟩
      exact absurd (Finset.union_eq_empty.mp hempty).2 hne
  | waitpidFail hh hempty hd => simp [hdrains] at hd
  | sigreturn hh =>
      simp only [fault, List.append_nil]
      refine ⟨fun hne => ?_, by simp, h.interrupted, h.exited, h.fatal, h.unharmed⟩
      exact absurd (Finset.union_eq_empty.mp (h.sleep hh)).2 hne

/-- Nothing happens any more unless a `read` comes to its end. -/
def Quiescent (p : Program) (s : State) : Prop :=
  ∀ e, e ≠ .input → e ≠ .error → step p s e = none

/-- At rest, a process that has not failed has no children and waits for its input or has got it. -/
theorem Quiescent.rest {faults : List Errno} (hq : Quiescent p s) (h : Drained p faults s)
    (hpc : s.pc ≠ .exited) :
    s.handler = none ∧ s.children.unreaped = ∅ ∧ (s.pc = .reading ∨ s.pc = .processing) := by
  have hrunning : s.children.running = ∅ := by
    by_contra hne
    obtain ⟨pid, hpid⟩ := Finset.nonempty_iff_ne_empty.mpr hne
    obtain ⟨k, hk⟩ := Children.exists_exit hpid
    have hnone := hq (.exit pid) (by simp) (by simp)
    simp [step, hk] at hnone
  have hhandler : s.handler = none := by
    cases hh : s.handler with
    | none => rfl
    | some pc =>
        cases pc with
        | sleep =>
            have hnone := hq .sigreturn (by simp) (by simp)
            simp [step, hh] at hnone
        | waitpid =>
            by_cases hempty : s.children.zombies = ∅
            · have hnone := hq (.waitpid none) (by simp) (by simp)
              simp [step, hh, Children.unreaped, hrunning, hempty] at hnone
              split at hnone <;> contradiction
            · obtain ⟨pid, hpid⟩ := Finset.nonempty_iff_ne_empty.mpr hempty
              obtain ⟨k, hk⟩ := Children.exists_reap hpid
              have hnone := hq (.waitpid (some pid)) (by simp) (by simp)
              simp [step, hh, hk] at hnone
  have hzombies : s.children.zombies = ∅ := by
    by_contra hne
    obtain hpending | hwait := h.remembered hne
    · obtain ⟨k, hk⟩ := Children.exists_deliver hpending
      have hnone := hq .deliver (by simp) (by simp)
      simp [step, hhandler, hpc, hk] at hnone
    · simp [hhandler] at hwait
  refine ⟨hhandler, by simp [Children.unreaped, hrunning, hzombies], ?_⟩
  cases hmain : s.pc with
  | fork i =>
      have hnone := hq (.fork none) (by simp) (by simp)
      simp [step, hmain, hhandler] at hnone
  | read =>
      have hnone := hq .read (by simp) (by simp)
      simp [step, hmain, hhandler] at hnone
  | interrupted =>
      have hnone := hq .eintr (by simp) (by simp)
      simp [step, hmain, hhandler] at hnone
  | reading => exact .inl rfl
  | processing => exact .inr rfl
  | exited => exact absurd hmain hpc

/-- One of the three programs with `handler2`. -/
def Draining (p : Program) : Prop :=
  p = signal4 ∨ ∃ restarts, p = signal2 restarts ∨ p = signal3 restarts

theorem Draining.drains (h : Draining p) : p.drains = true := by
  obtain rfl | ⟨restarts, rfl | rfl⟩ := h <;> rfl

theorem Draining.robust (h : Draining p) (hne : p ≠ signal2 false) :
    p.retries = true ∨ p.restarts = true := by
  obtain rfl | ⟨restarts, rfl | rfl⟩ := h
  · exact .inr rfl
  · cases restarts with
    | true => exact .inr rfl
    | false => exact absurd rfl hne
  · exact .inl rfl

/-- **`signal2.c`, `signal3.c` and `signal4.c`.**  The handler never returns while there are
children.  `main` fails just if its `read` has failed with another error than `EINTR`; only
`signal2.c`, where `signal` does not restart a `read`, fails also if its `read` has been
interrupted.  No run has more than 29 steps; and when nothing happens any more but that a `read`
comes to its end, a process that has not failed has reaped all children and waits for its input or
has got it. -/
theorem draining_outcome (p : Program) (hp : Draining p) (es : List Event) (s : State)
    (hrun : Run (step p) any start es s) :
    es.length ≤ 29 ∧
      (s.handler = some .sleep → s.children.unreaped = ∅) ∧
      (p ≠ signal2 false → (s.pc = .exited ↔ .other ∈ outputs (step p) fault start es)) ∧
      (p = signal2 false → ((s.pc = .interrupted ∨ s.pc = .exited) ↔
        .EINTR ∈ outputs (step p) fault start es ∨ .other ∈ outputs (step p) fault start es)) ∧
      (Quiescent p s → s.pc ≠ .exited →
        s.handler = none ∧ s.children.unreaped = ∅ ∧ (s.pc = .reading ∨ s.pc = .processing)) := by
  have hdrained : Drained p (outputs (step p) fault start es) s :=
    hrun.inv_outputs (drained_start p) fun _ _ _ _ h _ hs => h.step hp.drains (step_cases hs)
  refine ⟨length_le hrun, hdrained.sleep, fun hne => ⟨fun hpc => ?_, hdrained.fatal⟩, ?_,
    fun hq hpc => hq.rest hdrained hpc⟩
  · obtain hother | ⟨hrestarts, hretries, -⟩ := hdrained.exited hpc
    · exact hother
    · have hrobust := hp.robust hne
      simp [hrestarts, hretries] at hrobust
  · rintro rfl
    constructor
    · rintro (hpc | hpc)
      · exact .inl (hdrained.interrupted hpc).2
      · exact (hdrained.exited hpc).symm.imp_left fun hfaults => hfaults.2.2
    · rintro (hmem | hmem)
      · exact hdrained.unharmed rfl rfl hmem
      · exact .inr (hdrained.fatal hmem)

/-- The handler interrupts the `read` of `signal3.c` and reaps all three children. -/
def drainingRun : List Event :=
  [.fork (some 10), .fork (some 11), .fork (some 12), .read, .exit 10, .deliver,
    .waitpid (some 10), .exit 11, .exit 12, .waitpid (some 12), .waitpid (some 11), .waitpid none,
    .sigreturn, .deliver, .waitpid none, .sigreturn, .eintr, .read]

theorem draining_outcome_interrupted : ∃ s, Run (step (signal3 false)) any start drainingRun s ∧
    outputs (step (signal3 false)) fault start drainingRun = [.EINTR] ∧ s.pc = .reading ∧
    s.children.unreaped = ∅ ∧ s.pc ≠ .exited := by
  have hexec : (exec (step (signal3 false)) (fun _ _ => true) start drainingRun).map
      (fun s => (s.pc, s.children.unreaped)) = some (.reading, ∅) := by
    decide +kernel
  obtain ⟨s, hrun, hobs⟩ := exists_run_of_exec _ _ hexec
  simp only [Prod.mk.injEq] at hobs
  have hfaults : outputs (step (signal3 false)) fault start drainingRun = [.EINTR] := by
    decide +kernel
  have houtcome := draining_outcome (signal3 false) (.inr ⟨false, .inr rfl⟩) _ s hrun.toAny
  refine ⟨s, hrun.toAny, hfaults, hobs.1, hobs.2, fun hexit => ?_⟩
  have hother := (houtcome.2.2.1 (by decide)).mp hexit
  rw [hfaults] at hother
  contradiction

/-- With its standard input closed `signal3.c` fails and leaves its children behind. -/
example : (exec (step (signal3 false)) (fun _ _ => true) start
    [.fork (some 10), .fork (some 11), .fork (some 12), .read, .error]).map (fun s => s.pc) =
      some .exited := by decide +kernel

end SysDemos.Sigchld
