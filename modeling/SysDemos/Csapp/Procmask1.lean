import SysDemos.Csapp.Procmask2
import SysDemos.Lib.Refinement

/-!
# SysDemos.Csapp.Procmask1

`csapp/exceptional_control_flow/procmask1.c`: the loop of `procmask2.c` without the
masking.  `pid` gets what `fork` returns, but the handler may reap a child before
`main` has added its job.  `addjob` and `deletejob`, which are not in the repository,
are taken to insert a number in a set and to remove it, the `-1` of a `fork` that
fails like any other.

* `jobs_eq_unreaped_or_raced` — between two rounds the job list is that of the children
  with, besides, exactly the jobs of children that were reaped too early.
-/

namespace SysDemos.Procmask1

open Posix Lts
open Procmask2 (State Event MainPc HandlerPc JobCall)

/-- `main` behind `initjobs`. -/
def start : State := { Procmask2.start with pc := .fork }

/-- One step.  `handler` is that of `procmask2.c`, and `SIGCHLD` is never blocked. -/
def step (s : State) : Event → Option State
  | .block => none
  | .unblock => none
  | .addjob =>
    match s.pc with
    | .addjob pid =>
      if s.handler = none then
        some { s with pc := .fork, jobs := insert pid s.jobs, calls := s.calls ++ [.addjob pid] }
      else none
    | _ => none
  | e => Procmask2.step id s e

variable {s s' : State} {e : Event}

/-- The steps, with what enables each of them. -/
inductive Step (s : State) : Event → State → Prop
  | addjob {pid : Int} : s.handler = none → s.pc = .addjob pid →
      Step s .addjob
        { s with pc := .fork, jobs := insert pid s.jobs, calls := s.calls ++ [.addjob pid] }
  | other {e : Event} {s' : State} : e ≠ .block → e ≠ .unblock → e ≠ .addjob →
      Procmask2.Step id s e s' → Step s e s'

theorem step_cases (hs : step s e = some s') : Step s e s' := by
  cases e with
  | block => contradiction
  | unblock => contradiction
  | addjob =>
      simp only [step] at hs
      split at hs
      · next pid hpc =>
          obtain ⟨hh, ⟨⟩⟩ := Option.ite_none_right_eq_some.mp hs
          exact .addjob hh hpc
      · contradiction
  | fork | exit | deliver | waitpid | deletejob | sigreturn =>
      exact .other (by simp) (by simp) (by simp) (Procmask2.step_cases hs)

/-! ## children that are reaped too early -/

/-- What a step says of the job of a process id: that no child has it any more, and whether `main`
will still add it.  A `fork` that fails is recorded as a job, too. -/
def mark (s : State) : Event → List (Int × Bool)
  | .waitpid (some pid) => [(pid, s.pc = .addjob pid)]
  | .fork ret => if ret = -1 then [(-1, true)] else []
  | _ => []

/-- The last that has been said of a process id. -/
def lastMark (marks : List (Int × Bool)) (pid : Int) : Option Bool := marks.reverse.lookup pid

@[simp] theorem lastMark_nil (pid : Int) : lastMark [] pid = none := rfl

@[simp] theorem lastMark_snoc_self (marks : List (Int × Bool)) (pid : Int) (raced : Bool) :
    lastMark (marks ++ [(pid, raced)]) pid = some raced := by
  simp [lastMark]

theorem lastMark_snoc_of_ne (marks : List (Int × Bool)) {pid q : Int} (raced : Bool)
    (h : q ≠ pid) : lastMark (marks ++ [(pid, raced)]) q = lastMark marks q := by
  simp [lastMark, List.lookup_cons, beq_eq_false_iff_ne.mpr h]

/-- The jobs there will be when the calls that are due have been made: those of the handler come
first. -/
def Settled (s : State) (pid : Int) : Prop :=
  (pid ∈ s.jobs ∧ pid ∉ s.toDelete) ∨ pid ∈ s.pc.toAdd

/-- The jobs there will be are those of the children, and those that have been added too late. -/
def Tracked (marks : List (Int × Bool)) (s : State) : Prop :=
  ∀ pid, Settled s pid ↔ pid ∈ s.children.unreaped ∨ lastMark marks pid = some true

theorem tracked_start : Tracked [] start := fun pid => by
  simp [Settled, start, Procmask2.start, Children.unreaped, Children.childless, MainPc.toAdd]

theorem Tracked.step {marks : List (Int × Bool)} (h : Tracked marks s) (hs : step s e = some s') :
    Tracked (marks ++ mark s e) s' := by
  intro q
  have hq := h q
  cases step_cases hs with
  | @addjob pid hh hpc =>
      have hsame : Settled { s with
          pc := .fork, jobs := insert pid s.jobs, calls := s.calls ++ [.addjob pid] } q ↔
          Settled s q := by
        simp only [Settled, State.toDelete, hh, hpc, MainPc.toAdd, Option.elim_none,
          Finset.notMem_empty, not_false_eq_true, and_true, or_false, Finset.mem_insert,
          Finset.mem_singleton]
        exact or_comm
      rw [hsame, hq]
      simp [mark]
  | other hblock hunblock hadd hstep =>
      cases hstep with
      | block => exact absurd rfl hblock
      | unblock => exact absurd rfl hunblock
      | addjob => exact absurd rfl hadd
      | forkFail hh hpc =>
          simp only [mark, if_true]
          by_cases hne : q = -1
          · subst hne
            simp [Settled, MainPc.toAdd]
          · rw [lastMark_snoc_of_ne _ _ hne, ← hq]
            simp [Settled, MainPc.toAdd, hpc, hne, State.toDelete]
      | @fork pid k hh hpc hk =>
          obtain ⟨hpos, -, hun, -, -⟩ := Children.fork_spec hk
          simp only [mark, if_neg (show pid ≠ -1 by omega), List.append_nil, hun,
            Finset.mem_insert, or_assoc]
          rw [← hq]
          simp only [Settled, MainPc.toAdd, hpc, State.toDelete, id, Finset.notMem_empty, or_false,
            Finset.mem_singleton]
          exact or_comm
      | exit hk =>
          obtain ⟨hun, -⟩ := Children.exit_spec hk
          simp only [mark, List.append_nil, hun]
          exact hq
      | deliver hh hb hk =>
          obtain ⟨-, hun, -⟩ := Children.deliver_spec hk
          simp only [mark, List.append_nil, hun]
          rw [← hq]
          simp [Settled, State.toDelete, hh, HandlerPc.toDelete]
      | @waitpid pid k hh hk =>
          obtain ⟨-, hun, -⟩ := Children.reap_spec hk
          simp only [mark, hun]
          by_cases hne : q = pid
          · -- the job stays if `main` has not added it yet
            subst hne
            simp only [lastMark_snoc_self, Settled, State.toDelete, HandlerPc.toDelete,
              Option.elim_some, Finset.mem_singleton, not_true_eq_false, and_false, false_or,
              Finset.mem_erase, ne_eq, false_and, Option.some.injEq, decide_eq_true_eq]
            cases s.pc <;> simp [MainPc.toAdd, eq_comm]
          · rw [lastMark_snoc_of_ne _ _ hne, Finset.mem_erase, and_iff_right hne, ← hq]
            simp [Settled, State.toDelete, hh, HandlerPc.toDelete, hne]
      | waitpidFail hh hempty =>
          simp only [mark, List.append_nil]
          rw [← hq]
          simp [Settled, State.toDelete, hh, HandlerPc.toDelete]
      | @deletejob pid hh =>
          simp only [mark, List.append_nil]
          rw [← hq]
          simp [Settled, State.toDelete, hh, HandlerPc.toDelete, and_comm]
      | sigreturn hh =>
          simp only [mark, List.append_nil]
          rw [← hq]
          simp [Settled, State.toDelete, hh, HandlerPc.toDelete]

/-- **The race**: between two rounds of the loop, with the handler not running, there is a job for
each child and, besides, one for each process id whose last child was reaped between its `fork` and
its `addjob` (and one for `-1` if a `fork` has failed).  So the list agrees with the children just
if every such process id belongs to a child again. -/
theorem jobs_eq_unreaped_or_raced (events : List Event) (s : State)
    (hrun : Run step any start events s) (hpc : s.pc = .fork) (hhandler : s.handler = none) :
    (∀ pid, pid ∈ s.jobs ↔ pid ∈ s.children.unreaped ∨
        lastMark (outputs step mark start events) pid = some true) ∧
      (s.jobs = s.children.unreaped ↔
        ∀ pid, lastMark (outputs step mark start events) pid = some true →
          pid ∈ s.children.unreaped) := by
  have htracked : Tracked (outputs step mark start events) s :=
    hrun.inv_outputs tracked_start fun _ _ _ _ h _ hs => h.step hs
  have hjobs : ∀ pid, pid ∈ s.jobs ↔ pid ∈ s.children.unreaped ∨
      lastMark (outputs step mark start events) pid = some true := fun pid => by
    rw [← htracked pid]
    simp [Settled, hpc, hhandler, State.toDelete, MainPc.toAdd]
  refine ⟨hjobs, fun heq pid hlast => ?_, fun hagain => ?_⟩
  · rw [← heq]
    exact (hjobs pid).mpr (.inr hlast)
  · ext pid
    rw [hjobs pid]
    exact or_iff_left_of_imp (hagain pid)

/-- A child terminates and is reaped before its job has been added; the second one is not. -/
def racedRun : List Event :=
  [.fork 100, .exit 100, .deliver, .waitpid (some 100), .deletejob, .waitpid none, .sigreturn,
    .addjob, .fork 101, .addjob, .exit 101, .deliver, .waitpid (some 101), .deletejob,
    .waitpid none, .sigreturn]

/-- A job without a child. -/
theorem jobs_eq_unreaped_or_raced_early : ∃ s, Run step any start racedRun s ∧
    s.children.unreaped = ∅ ∧ 100 ∈ s.jobs ∧ 101 ∉ s.jobs := by
  have hexec : (exec step (fun _ _ => true) start racedRun).map
      (fun s => (s.pc, s.handler, s.children.unreaped)) = some (.fork, none, ∅) := by
    decide +kernel
  obtain ⟨s, hrun, hobs⟩ := exists_run_of_exec _ _ hexec
  simp only [Prod.mk.injEq] at hobs
  obtain ⟨hpc, hhandler, hun⟩ := hobs
  have hjobs := (jobs_eq_unreaped_or_raced _ s hrun.toAny hpc hhandler).1
  have hlast : lastMark (outputs step mark start racedRun) 100 = some true ∧
      lastMark (outputs step mark start racedRun) 101 = some false := by
    decide +kernel
  refine ⟨s, hrun.toAny, hun, (hjobs 100).mpr (.inr hlast.1), fun hin => ?_⟩
  simpa [hun, hlast.2] using (hjobs 101).mp hin

end SysDemos.Procmask1
