import SysDemos.Lib.Children
import SysDemos.Lib.Lts
import SysDemos.Lib.Stream

/-!
# SysDemos.Csapp.Procmask2

`csapp/exceptional_control_flow/procmask2.c`: a loop that forks children and keeps
a list of jobs, with `SIGCHLD` blocked from before the `fork` until the job has
been added, and a handler that reaps every child and deletes its job.

The condition of the loop body is `pid = fork() == 0`, and `==` binds tighter than
`=`: in the parent `pid` is 0 whatever `fork` returns.  The steps take the value
that is assigned as a parameter, so that what the masking achieves can be told from
what the assignment spoils.  `addjob` and `deletejob` are not in the repository; they
are taken to insert a number in a set and to remove it.

* `jobs_agree_of_id` — if the parent recorded what `fork` returns, the job list would
  agree with the children whenever the handler may run and does not;
* `jobs_agree_iff` — as it is, the list agrees until the first job has been added, and
  no job that is deleted has been added before.
-/

namespace SysDemos.Procmask2

open Posix Lts

/-- Where `main` stands: its next call.  `addjob` comes with the value of `pid`. -/
inductive MainPc where
  | block
  | fork
  | addjob (pid : Int)
  | unblock
  deriving DecidableEq, Repr

/-- Where `handler` stands: at `waitpid`, at `deletejob`, or behind its loop. -/
inductive HandlerPc where
  | waitpid
  | deletejob (pid : Int)
  | ret
  deriving DecidableEq, Repr

/-- A call that changes the job list. -/
inductive JobCall where
  | addjob (pid : Int)
  | deletejob (pid : Int)
  deriving DecidableEq, Repr

/-- The process with its children. -/
structure State where
  pc : MainPc
  /-- `SIGCHLD` is blocked by `main` -/
  blocked : Bool
  /-- the handler, if it runs -/
  handler : Option HandlerPc
  jobs : Finset Int
  children : Children
  /-- the calls of `addjob` and `deletejob` so far -/
  calls : List JobCall
  deriving DecidableEq

/-- What happens next. -/
inductive Event where
  | block
  /-- `fork` returns in the parent, with `-1` if it fails -/
  | fork (ret : Int)
  | addjob
  | unblock
  /-- a child terminates -/
  | exit (pid : Int)
  /-- `handler` is called -/
  | deliver
  /-- `waitpid`: the child reaped, or `-1` as there are no children -/
  | waitpid (pid : Option Int)
  | deletejob
  | sigreturn
  deriving DecidableEq, Repr

/-- `main` behind `initjobs`. -/
def start : State :=
  { pc := .block, blocked := false, handler := none, jobs := ∅, children := .childless
    calls := [] }

/-- One step, where `record` gives the value that `pid` gets from the result of
`fork`.  `waitpid` blocks while there are children and none has terminated. -/
def step (record : Int → Int) (s : State) : Event → Option State
  | .block =>
    if s.handler = none ∧ s.pc = .block then some { s with pc := .fork, blocked := true } else none
  | .fork ret =>
    if s.handler = none ∧ s.pc = .fork then
      if ret = -1 then some { s with pc := .addjob (record ret) }
      else (s.children.fork ret).map fun k => { s with pc := .addjob (record ret), children := k }
    else none
  | .addjob =>
    match s.pc with
    | .addjob pid =>
      if s.handler = none then
        some { s with pc := .unblock, jobs := insert pid s.jobs, calls := s.calls ++ [.addjob pid] }
      else none
    | _ => none
  | .unblock =>
    if s.handler = none ∧ s.pc = .unblock then some { s with pc := .block, blocked := false }
    else none
  | .exit pid => (s.children.exit pid).map fun k => { s with children := k }
  | .deliver =>
    if s.handler = none ∧ s.blocked = false then
      s.children.deliver.map fun k => { s with handler := some .waitpid, children := k }
    else none
  | .waitpid pid =>
    if s.handler = some .waitpid then
      match pid with
      | some pid =>
        (s.children.reap pid).map fun k =>
          { s with handler := some (.deletejob pid), children := k }
      | none => if s.children.unreaped = ∅ then some { s with handler := some .ret } else none
    else none
  | .deletejob =>
    match s.handler with
    | some (.deletejob pid) =>
      some { s with handler := some .waitpid, jobs := s.jobs.erase pid
                    calls := s.calls ++ [.deletejob pid] }
    | _ => none
  | .sigreturn => if s.handler = some .ret then some { s with handler := none } else none

/-- The value of `pid = fork() == 0`. -/
def assigned (ret : Int) : Int := if ret = 0 then 1 else 0

/-! ## what a step can do -/

variable {record : Int → Int} {s s' : State} {e : Event}

/-- The steps, with what enables each of them. -/
inductive Step (record : Int → Int) (s : State) : Event → State → Prop
  | block : s.handler = none → s.pc = .block →
      Step record s .block { s with pc := .fork, blocked := true }
  | forkFail : s.handler = none → s.pc = .fork →
      Step record s (.fork (-1)) { s with pc := .addjob (record (-1)) }
  | fork {pid : Int} {k : Children} : s.handler = none → s.pc = .fork →
      s.children.fork pid = some k →
      Step record s (.fork pid) { s with pc := .addjob (record pid), children := k }
  | addjob {pid : Int} : s.handler = none → s.pc = .addjob pid →
      Step record s .addjob
        { s with pc := .unblock, jobs := insert pid s.jobs, calls := s.calls ++ [.addjob pid] }
  | unblock : s.handler = none → s.pc = .unblock →
      Step record s .unblock { s with pc := .block, blocked := false }
  | exit {pid : Int} {k : Children} : s.children.exit pid = some k →
      Step record s (.exit pid) { s with children := k }
  | deliver {k : Children} : s.handler = none → s.blocked = false →
      s.children.deliver = some k →
      Step record s .deliver { s with handler := some .waitpid, children := k }
  | waitpid {pid : Int} {k : Children} : s.handler = some .waitpid → s.children.reap pid = some k →
      Step record s (.waitpid (some pid)) { s with handler := some (.deletejob pid), children := k }
  | waitpidFail : s.handler = some .waitpid → s.children.unreaped = ∅ →
      Step record s (.waitpid none) { s with handler := some .ret }
  | deletejob {pid : Int} : s.handler = some (.deletejob pid) →
      Step record s .deletejob
        { s with handler := some .waitpid, jobs := s.jobs.erase pid
                 calls := s.calls ++ [.deletejob pid] }
  | sigreturn : s.handler = some .ret → Step record s .sigreturn { s with handler := none }

theorem step_cases (hs : step record s e = some s') : Step record s e s' := by
  cases e with
  | block =>
      obtain ⟨⟨hh, hpc⟩, ⟨⟩⟩ := Option.ite_none_right_eq_some.mp hs
      exact .block hh hpc
  | fork ret =>
      simp only [step] at hs
      split at hs
      · next hmain =>
          split at hs
          · next hfail =>
              cases hs
              rw [hfail]
              exact .forkFail hmain.1 hmain.2
          · obtain ⟨k, hk, rfl⟩ := Option.map_eq_some_iff.mp hs
            exact .fork hmain.1 hmain.2 hk
      · contradiction
  | addjob =>
      simp only [step] at hs
      split at hs
      · next pid hpc =>
          obtain ⟨hh, ⟨⟩⟩ := Option.ite_none_right_eq_some.mp hs
          exact .addjob hh hpc
      · contradiction
  | unblock =>
      obtain ⟨⟨hh, hpc⟩, ⟨⟩⟩ := Option.ite_none_right_eq_some.mp hs
      exact .unblock hh hpc
  | exit pid =>
      obtain ⟨k, hk, rfl⟩ := Option.map_eq_some_iff.mp hs
      exact .exit hk
  | deliver =>
      simp only [step] at hs
      split at hs
      · next hfree =>
          obtain ⟨k, hk, rfl⟩ := Option.map_eq_some_iff.mp hs
          exact .deliver hfree.1 hfree.2 hk
      · contradiction
  | waitpid pid =>
      simp only [step] at hs
      split at hs
      · next hh =>
          cases pid with
          | some pid =>
              obtain ⟨k, hk, rfl⟩ := Option.map_eq_some_iff.mp hs
              exact .waitpid hh hk
          | none =>
              obtain ⟨hempty, ⟨⟩⟩ := Option.ite_none_right_eq_some.mp hs
              exact .waitpidFail hh hempty
      · contradiction
  | deletejob =>
      simp only [step] at hs
      split at hs
      · next pid hh =>
          cases hs
          exact .deletejob hh
      · contradiction
  | sigreturn =>
      obtain ⟨hh, ⟨⟩⟩ := Option.ite_none_right_eq_some.mp hs
      exact .sigreturn hh

/-! ## the mask -/

/-- `SIGCHLD` is unblocked only between two rounds of the loop, and only there the
handler runs. -/
structure Masked (s : State) : Prop where
  unblocked : s.blocked = false → s.pc = .block
  handler : s.handler ≠ none → s.pc = .block

theorem Masked.step (h : Masked s) (hs : Step record s e s') : Masked s' := by
  cases hs with
  | block hh => exact ⟨nofun, fun hne => absurd hh hne⟩
  | forkFail hh hpc => exact ⟨fun hb => by simp [h.unblocked hb] at hpc, fun hne => absurd hh hne⟩
  | fork hh hpc => exact ⟨fun hb => by simp [h.unblocked hb] at hpc, fun hne => absurd hh hne⟩
  | addjob hh hpc => exact ⟨fun hb => by simp [h.unblocked hb] at hpc, fun hne => absurd hh hne⟩
  | unblock hh => exact ⟨fun _ => rfl, fun _ => rfl⟩
  | exit => exact ⟨h.unblocked, h.handler⟩
  | deliver _ hb => exact ⟨h.unblocked, fun _ => h.unblocked hb⟩
  | waitpid hh => exact ⟨h.unblocked, fun _ => h.handler (by simp [hh])⟩
  | waitpidFail hh => exact ⟨h.unblocked, fun _ => h.handler (by simp [hh])⟩
  | deletejob hh => exact ⟨h.unblocked, fun _ => h.handler (by simp [hh])⟩
  | sigreturn => exact ⟨h.unblocked, nofun⟩

theorem masked_start : Masked start := ⟨fun _ => rfl, fun _ => rfl⟩

/-! ## the law -/

/-- Every job that is deleted has been added before. -/
def DeletesAdded (calls : List JobCall) : Prop :=
  ∀ i pid, calls[i]? = some (.deletejob pid) → .addjob pid ∈ calls.take i

/-- The handler may run and does not. -/
def Quiet (s : State) : Prop := s.blocked = false ∧ s.handler = none

theorem DeletesAdded.snoc {calls : List JobCall} {c : JobCall} (h : DeletesAdded calls)
    (hc : ∀ pid, c = .deletejob pid → .addjob pid ∈ calls) : DeletesAdded (calls ++ [c]) := by
  intro i pid hi
  obtain ⟨hlt, hold⟩ | ⟨rfl, hnew⟩ := Stream.getElem?_snoc hi
  · rw [List.take_append_of_le_length (Nat.le_of_lt hlt)]
    exact h i pid hold
  · rw [List.take_left]
    exact hc pid hnew.symm

/-- The job that `main` is about to add. -/
def MainPc.toAdd : MainPc → Finset Int
  | .addjob pid => {pid}
  | _ => ∅

/-- The job that the handler is about to delete. -/
def HandlerPc.toDelete : HandlerPc → Finset Int
  | .deletejob pid => {pid}
  | _ => ∅

/-- The jobs the list is behind by, on either side. -/
def State.toDelete (s : State) : Finset Int := s.handler.elim ∅ HandlerPc.toDelete

/-- The list and the children, with the value of `fork` recorded: the list may lack
the job that is about to be added and have the one that is about to be deleted. -/
structure Recorded (s : State) : Prop extends Masked s where
  agree : s.jobs ∪ s.pc.toAdd = s.children.unreaped ∪ s.toDelete
  gone : ∀ pid ∈ s.toDelete, pid ∉ s.children.unreaped
  added : ∀ pid ∈ s.jobs, .addjob pid ∈ s.calls
  deleted : DeletesAdded s.calls

/-- `fork` does not fail. -/
def Forks (_ : State) (e : Event) : Prop := e ≠ .fork (-1)

theorem Recorded.step (h : Recorded s) (hok : Forks s e) (hs : Step id s e s') : Recorded s' := by
  have hmasked := h.toMasked.step hs
  have hagree := h.agree
  cases hs with
  | block hh hpc =>
      exact ⟨hmasked, by simpa [hpc, MainPc.toAdd, State.toDelete] using hagree, h.gone, h.added,
        h.deleted⟩
  | forkFail => exact absurd rfl hok
  | fork hh hpc hk =>
      obtain ⟨-, -, hun, -, -⟩ := Children.fork_spec hk
      have hjobs : s.jobs = s.children.unreaped := by
        simpa [hpc, hh, MainPc.toAdd, State.toDelete] using hagree
      refine ⟨hmasked, ?_, by simp [State.toDelete, hh], h.added, h.deleted⟩
      simp [MainPc.toAdd, State.toDelete, hh, hun, hjobs]
  | addjob hh hpc =>
      refine ⟨hmasked, ?_, h.gone, fun pid hpid => ?_, h.deleted.snoc nofun⟩
      · simpa [hpc, MainPc.toAdd, State.toDelete] using hagree
      · obtain rfl | hold := Finset.mem_insert.mp hpid
        · simp
        · exact List.mem_append_left _ (h.added pid hold)
  | unblock hh hpc =>
      exact ⟨hmasked, by simpa [hpc, MainPc.toAdd, State.toDelete] using hagree, h.gone, h.added,
        h.deleted⟩
  | exit hk =>
      obtain ⟨hun, -⟩ := Children.exit_spec hk
      refine ⟨hmasked, ?_, ?_, h.added, h.deleted⟩
      · rw [hun]
        exact hagree
      · rw [hun]
        exact h.gone
  | deliver hh hb hk =>
      obtain ⟨-, hun, -⟩ := Children.deliver_spec hk
      refine ⟨hmasked, ?_, by simp [State.toDelete, HandlerPc.toDelete], h.added, h.deleted⟩
      simpa [hh, hun, State.toDelete, HandlerPc.toDelete] using hagree
  | waitpid hh hk =>
      obtain ⟨hin, hun, -⟩ := Children.reap_spec hk
      refine ⟨hmasked, ?_, ?_, h.added, h.deleted⟩
      · simpa [hh, hun, State.toDelete, HandlerPc.toDelete, Finset.insert_erase hin] using hagree
      · simp [hun, State.toDelete, HandlerPc.toDelete]
  | waitpidFail hh =>
      refine ⟨hmasked, ?_, by simp [State.toDelete, HandlerPc.toDelete], h.added, h.deleted⟩
      simpa [hh, State.toDelete, HandlerPc.toDelete] using hagree
  | @deletejob pid hh =>
      -- `main` is between two rounds, so the job to delete is all the list is behind by
      have hjobs : s.jobs = insert pid s.children.unreaped := by
        simpa [hh, h.handler (by simp [hh]), MainPc.toAdd, State.toDelete, HandlerPc.toDelete]
          using hagree
      have hgone : pid ∉ s.children.unreaped :=
        h.gone pid (by simp [hh, State.toDelete, HandlerPc.toDelete])
      refine ⟨hmasked, ?_, by simp [State.toDelete, HandlerPc.toDelete], fun p hp => ?_,
        h.deleted.snoc fun p hp => ?_⟩
      · simp [h.handler (by simp [hh]), MainPc.toAdd, State.toDelete, HandlerPc.toDelete, hjobs,
          Finset.erase_insert hgone]
      · exact List.mem_append_left _ (h.added p (Finset.mem_of_mem_erase hp))
      · cases hp
        exact h.added pid (by simp [hjobs])
  | sigreturn hh =>
      refine ⟨hmasked, ?_, by simp [State.toDelete], h.added, h.deleted⟩
      simpa [hh, State.toDelete, HandlerPc.toDelete] using hagree

/-- **The masking**: if the parent recorded what `fork` returns, every job that is
deleted would have been added, and with the handler not running and `SIGCHLD` not
blocked the job list would be that of the children not reaped. -/
theorem jobs_agree_of_id {events : List Event} (hrun : Run (step id) Forks start events s) :
    DeletesAdded s.calls ∧ (Quiet s → s.jobs = s.children.unreaped) := by
  have hstart : Recorded start :=
    ⟨masked_start, by decide, by decide, by decide, by simp [DeletesAdded, start]⟩
  have hinv : Recorded s :=
    Run.inv (I := Recorded) hstart (fun _ _ _ h hok hs => h.step hok (step_cases hs)) hrun
  refine ⟨hinv.deleted, fun ⟨hb, hh⟩ => ?_⟩
  simpa [hinv.unblocked hb, hh, MainPc.toAdd, State.toDelete] using hinv.agree

/-! ## the value that is recorded -/

/-- With 0 recorded for every child, the list is empty or has the job 0, which is not
that of a child. -/
structure Zeroed (s : State) : Prop extends Masked s where
  toAdd : ∀ pid, s.pc = .addjob pid → pid = 0
  toDelete : ∀ pid, s.handler = some (.deletejob pid) → 0 < pid
  added : ∀ pid, .addjob pid ∈ s.calls → pid = 0
  deleted : ∀ pid, .deletejob pid ∈ s.calls → 0 < pid
  jobs : s.jobs = if .addjob 0 ∈ s.calls then {0} else ∅
  children : s.children.unreaped ≠ ∅ → s.pc = .addjob 0 ∨ .addjob 0 ∈ s.calls

theorem Zeroed.step (h : Zeroed s) (hs : Step assigned s e s') : Zeroed s' := by
  have hmasked := h.toMasked.step hs
  cases hs with
  | block hh hpc =>
      refine ⟨hmasked, nofun, h.toDelete, h.added, h.deleted, h.jobs, fun hne => .inr ?_⟩
      exact (h.children hne).resolve_left (by simp [hpc])
  | forkFail hh hpc =>
      exact ⟨hmasked, fun pid heq => by cases heq; rfl, h.toDelete, h.added, h.deleted, h.jobs,
        fun _ => .inl rfl⟩
  | fork hh hpc hk =>
      have hzero : assigned _ = 0 := if_neg (Children.fork_spec hk).1.ne'
      refine ⟨hmasked, fun pid heq => ?_, h.toDelete, h.added, h.deleted, h.jobs,
        fun _ => .inl (by rw [hzero])⟩
      cases heq
      exact hzero
  | @addjob pid hh hpc =>
      obtain rfl := h.toAdd pid hpc
      refine ⟨hmasked, nofun, h.toDelete, fun pid hpid => ?_, fun pid hpid => ?_, ?_,
        fun _ => .inr (by simp)⟩
      · simpa using (List.mem_append.mp hpid).elim (h.added pid) (by simp)
      · exact h.deleted pid (by simpa using hpid)
      · dsimp only
        rw [h.jobs]
        split <;> simp
  | unblock hh hpc =>
      refine ⟨hmasked, nofun, h.toDelete, h.added, h.deleted, h.jobs, fun hne => .inr ?_⟩
      exact (h.children hne).resolve_left (by simp [hpc])
  | exit hk =>
      obtain ⟨hun, -⟩ := Children.exit_spec hk
      exact ⟨hmasked, h.toAdd, h.toDelete, h.added, h.deleted, h.jobs,
        fun hne => h.children (hun ▸ hne)⟩
  | deliver hh hb hk =>
      obtain ⟨-, hun, -⟩ := Children.deliver_spec hk
      exact ⟨hmasked, h.toAdd, nofun, h.added, h.deleted, h.jobs,
        fun hne => h.children (hun ▸ hne)⟩
  | waitpid hh hk =>
      obtain ⟨hin, hun, -⟩ := Children.reap_spec hk
      refine ⟨hmasked, h.toAdd, fun pid heq => ?_, h.added, h.deleted, h.jobs, fun _ => ?_⟩
      · cases heq
        exact Children.pos_of_unreaped hin
      · exact h.children (Finset.ne_empty_of_mem hin)
  | waitpidFail hh =>
      exact ⟨hmasked, h.toAdd, nofun, h.added, h.deleted, h.jobs, h.children⟩
  | @deletejob pid hh =>
      have hpos := h.toDelete pid hh
      refine ⟨hmasked, h.toAdd, nofun, fun p hp => h.added p (by simpa using hp), fun p hp => ?_,
        ?_, fun hne => (h.children hne).imp_right (List.mem_append_left _)⟩
      · obtain hold | hnew := List.mem_append.mp hp
        · exact h.deleted p hold
        · cases List.mem_singleton.mp hnew
          exact hpos
      · -- the job 0 is not deleted
        have hnot : pid ∉ s.jobs := by
          rw [h.jobs]
          split <;> simp [hpos.ne']
        simpa [Finset.erase_eq_of_notMem hnot] using h.jobs
  | sigreturn hh =>
      exact ⟨hmasked, h.toAdd, nofun, h.added, h.deleted, h.jobs, h.children⟩

/-- **The job list**: a job that is deleted has never been added, and with the handler
not running and `SIGCHLD` not blocked the list agrees with the children exactly until
the first job has been added. -/
theorem jobs_agree_iff (events : List Event) (s : State)
    (hrun : Run (step assigned) Forks start events s) :
    (DeletesAdded s.calls ↔ ∀ pid, .deletejob pid ∉ s.calls) ∧
      (Quiet s → (s.jobs = s.children.unreaped ↔ ∀ pid, .addjob pid ∉ s.calls)) := by
  have hstart : Zeroed start :=
    ⟨masked_start, nofun, nofun, nofun, nofun, rfl, fun hne => absurd rfl hne⟩
  have hinv : Zeroed s :=
    Run.inv (I := Zeroed) hstart (fun _ _ _ h _ hs => h.step (step_cases hs)) hrun
  constructor
  · constructor
    · intro hadded pid hmem
      obtain ⟨i, hi⟩ := List.getElem?_of_mem hmem
      have hzero := hinv.added pid (List.mem_of_mem_take (hadded i pid hi))
      exact absurd hzero (hinv.deleted pid hmem).ne'
    · exact fun hnone i pid hi => absurd (List.mem_of_getElem? hi) (hnone pid)
  · rintro ⟨hb, -⟩
    have hjobs := hinv.jobs
    constructor
    · intro hagree pid hmem
      obtain rfl := hinv.added pid hmem
      rw [if_pos hmem, hagree] at hjobs
      have hpos : (0 : Int) < 0 := Children.pos_of_unreaped (by rw [hjobs]; simp)
      exact absurd hpos (by decide)
    · intro hnone
      rw [if_neg (hnone 0)] at hjobs
      rw [hjobs]
      by_contra hne
      obtain hpc | hmem := hinv.children (Ne.symm hne)
      · simp [hinv.unblocked hb] at hpc
      · exact hnone 0 hmem

/-- One round of the loop, with the child 100. -/
def oneRound : List Event := [.block, .fork 100, .addjob, .unblock]

theorem exec_oneRound : (exec (step assigned) (fun _ e => decide (e ≠ .fork (-1))) start
    oneRound).map (fun s => (s.blocked, s.handler, s.jobs, s.children.unreaped)) =
      some (false, none, {0}, {100}) := by
  decide +kernel

theorem run_oneRound : ∃ s, Run (step assigned) Forks start oneRound s ∧ Quiet s ∧
    s.jobs = {0} ∧ s.children.unreaped = {100} := by
  obtain ⟨s, hrun, hobs⟩ := exists_run_of_exec _ _ exec_oneRound
  simp only [Prod.mk.injEq] at hobs
  obtain ⟨hb, hh, hjobs, hun⟩ := hobs
  exact ⟨s, hrun.mono fun _ _ => of_decide_eq_true, ⟨hb, hh⟩, hjobs, hun⟩

/-- After one round the list has the job 0 and not the child. -/
theorem not_jobs_agree_one_round : ¬ ∀ events s, Run (step assigned) Forks start events s →
    DeletesAdded s.calls ∧ (Quiet s → s.jobs = s.children.unreaped) := by
  intro hall
  obtain ⟨s, hrun, hquiet, hjobs, hun⟩ := run_oneRound
  have hagree := (hall _ s hrun).2 hquiet
  rw [hjobs, hun] at hagree
  exact absurd hagree (by decide)

/-- Before the first round the list and the children agree; after it they do not. -/
theorem jobs_agree_iff_one_round : start.jobs = start.children.unreaped ∧
    ∃ s, Run (step assigned) Forks start oneRound s ∧ ∃ pid, .addjob pid ∈ s.calls := by
  obtain ⟨s, hrun, hquiet, hjobs, hun⟩ := run_oneRound
  refine ⟨((jobs_agree_iff [] start .nil).2 ⟨rfl, rfl⟩).mpr nofun, s, hrun, ?_⟩
  by_contra hnone
  have hagree := ((jobs_agree_iff _ s hrun).2 hquiet).mpr fun pid hmem => hnone ⟨pid, hmem⟩
  rw [hjobs, hun] at hagree
  exact absurd hagree (by decide)

end SysDemos.Procmask2
