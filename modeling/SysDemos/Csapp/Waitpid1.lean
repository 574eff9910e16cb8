import SysDemos.Lib.Children
import SysDemos.Lib.Measure
import SysDemos.Lib.Refinement

/-!
# SysDemos.Csapp.Waitpid1

`csapp/exceptional_control_flow/waitpid1.cc`: a process forks ten children, which
exit with different statuses, and reports each of them once it has reaped it.

A child has the value of `i` at its `fork`.  It exits with `100 + i`, or a signal
kills it.  A step is a call of `main` or the termination of a child.

* `waitpid1_outcome` — the process ends, and has then reported every child once,
  with its own status.
-/

namespace SysDemos.Waitpid1

open Posix Lts

/-! ## the status of a child -/

/-- What `waitpid` stores for a child that has called `exit(code)`. -/
def exitStatus (code : Nat) : Nat := code % 256 * 256

/-- What `waitpid` stores for a child that a signal has killed. -/
def killStatus (sig : Nat) : Nat := sig

/-- `WIFEXITED`: the low seven bits are zero. -/
def wifexited (status : Nat) : Bool := status % 128 = 0

/-- `WEXITSTATUS`: the next byte. -/
def wexitstatus (status : Nat) : Nat := status / 256 % 256

theorem wifexited_exitStatus (code : Nat) : wifexited (exitStatus code) = true := by
  unfold wifexited exitStatus
  exact decide_eq_true (by omega)

theorem wexitstatus_exitStatus {code : Nat} (h : code < 256) :
    wexitstatus (exitStatus code) = code := by
  simp only [wexitstatus, exitStatus]
  omega

theorem wifexited_killStatus {sig : Nat} (h : 0 < sig ∧ sig < 127) :
    wifexited (killStatus sig) = false := by
  unfold wifexited killStatus
  exact decide_eq_false (by omega)

/-! ## the program -/

/-- `N`. -/
def numChildren : Nat := 10

/-- Where `main` stands. -/
inductive MainPc where
  | fork (i : Nat)
  | waitpid
  | exited
  deriving DecidableEq, Repr

/-- A line that is printed. -/
inductive Line where
  | normally (pid : Int) (code : Nat)
  | abnormally (pid : Int)
  deriving DecidableEq, Repr

/-- The process with its children. -/
structure State where
  pc : MainPc
  children : Children
  /-- the value of `i` in each child -/
  index : Int → Nat
  /-- the status of each child that has terminated -/
  status : Int → Nat
  printed : List Line

/-- What happens next. -/
inductive Event where
  /-- `fork` in the parent, where `none` is a failure -/
  | fork (pid : Option Int)
  /-- a child calls `exit(100 + i)` -/
  | exit (pid : Int)
  /-- a signal kills a child -/
  | kill (pid : Int) (sig : Nat)
  /-- `waitpid`: the child reaped, or `ECHILD` -/
  | waitpid (pid : Option Int)
  deriving DecidableEq, Repr

def start : State :=
  { pc := .fork 0, children := .childless, index := fun _ => 0, status := fun _ => 0
    printed := [] }

/-- `main` behind the `fork` of round `i`. -/
def next (i : Nat) : MainPc := if i + 1 < numChildren then .fork (i + 1) else .waitpid

/-- The line for a child with the given status. -/
def report (pid : Int) (status : Nat) : Line :=
  if wifexited status then .normally pid (wexitstatus status) else .abnormally pid

/-- A child terminates. -/
def ended (s : State) (pid : Int) (status : Nat) : Option State :=
  (s.children.exit pid).map fun k =>
    { s with children := k, status := Function.update s.status pid status }

/-- One step.  `waitpid` blocks while there are children and none has terminated. -/
def step (s : State) : Event → Option State
  | .fork pid =>
    match s.pc with
    | .fork i =>
      match pid with
      | some pid =>
        (s.children.fork pid).map fun k =>
          { s with pc := next i, children := k, index := Function.update s.index pid i }
      | none => some { s with pc := next i }
    | _ => none
  | .exit pid => ended s pid (exitStatus (100 + s.index pid))
  | .kill pid sig => if 0 < sig ∧ sig < 127 then ended s pid (killStatus sig) else none
  | .waitpid pid =>
    if s.pc = .waitpid then
      match pid with
      | some pid =>
        (s.children.reap pid).map fun k =>
          { s with children := k, printed := s.printed ++ [report pid (s.status pid)] }
      -- `errno` is `ECHILD`
      | none => if s.children.unreaped = ∅ then some { s with pc := .exited } else none
    else none

/-! ## what a step can do -/

variable {s s' : State} {e : Event}

/-- The steps, with what enables each of them. -/
inductive Step (s : State) : Event → State → Prop
  | fork {i : Nat} {pid : Int} {k : Children} : s.pc = .fork i → s.children.fork pid = some k →
      Step s (.fork (some pid))
        { s with pc := next i, children := k, index := Function.update s.index pid i }
  | forkFail {i : Nat} : s.pc = .fork i → Step s (.fork none) { s with pc := next i }
  | exit {pid : Int} {k : Children} : s.children.exit pid = some k →
      Step s (.exit pid) { s with
        children := k, status := Function.update s.status pid (exitStatus (100 + s.index pid)) }
  | kill {pid : Int} {sig : Nat} {k : Children} : 0 < sig ∧ sig < 127 →
      s.children.exit pid = some k →
      Step s (.kill pid sig) { s with
        children := k, status := Function.update s.status pid (killStatus sig) }
  | waitpid {pid : Int} {k : Children} : s.pc = .waitpid → s.children.reap pid = some k →
      Step s (.waitpid (some pid))
        { s with children := k, printed := s.printed ++ [report pid (s.status pid)] }
  | done : s.pc = .waitpid → s.children.unreaped = ∅ →
      Step s (.waitpid none) { s with pc := .exited }

theorem step_cases (hs : step s e = some s') : Step s e s' := by
  cases e with
  | fork pid =>
      simp only [step] at hs
      split at hs
      · next i hpc =>
          cases pid with
          | none =>
              cases hs
              exact .forkFail hpc
          | some pid =>
              obtain ⟨k, hk, rfl⟩ := Option.map_eq_some_iff.mp hs
              exact .fork hpc hk
      · contradiction
  | exit pid =>
      obtain ⟨k, hk, rfl⟩ := Option.map_eq_some_iff.mp hs
      exact .exit hk
  | kill pid sig =>
      obtain ⟨hsig, hs⟩ := Option.ite_none_right_eq_some.mp hs
      obtain ⟨k, hk, rfl⟩ := Option.map_eq_some_iff.mp hs
      exact .kill hsig hk
  | waitpid pid =>
      obtain ⟨hpc, hs⟩ := Option.ite_none_right_eq_some.mp hs
      cases pid with
      | some pid =>
          obtain ⟨k, hk, rfl⟩ := Option.map_eq_some_iff.mp hs
          exact .waitpid hpc hk
      | none =>
          obtain ⟨hempty, ⟨⟩⟩ := Option.ite_none_right_eq_some.mp hs
          exact .done hpc hempty

/-! ## what has to be reported -/

/-- What becomes known of the children: that one has been forked in round `i`, or that one has been
killed. -/
inductive Fact where
  | forked (pid : Int) (i : Nat)
  | killed (pid : Int)
  deriving DecidableEq, Repr

def fact (s : State) : Event → List Fact
  | .fork (some pid) =>
    match s.pc with
    | .fork i => [.forked pid i]
    | _ => []
  | .kill pid _ => [.killed pid]
  | _ => []

/-- The line that a child should get. -/
def lineOf (facts : List Fact) (pid : Int) (i : Nat) : Line :=
  if .killed pid ∈ facts then .abnormally pid else .normally pid (100 + i)

/-- The lines that all children should get, in the order of their `fork`s. -/
def expected (facts : List Fact) : List Line :=
  facts.filterMap fun
    | .forked pid i => some (lineOf facts pid i)
    | .killed _ => none

theorem mem_expected {facts : List Fact} {l : Line} :
    l ∈ expected facts ↔ ∃ pid i, .forked pid i ∈ facts ∧ lineOf facts pid i = l := by
  simp only [expected, List.mem_filterMap]
  constructor
  · rintro ⟨f, hf, hl⟩
    cases f with
    | forked pid i => exact ⟨pid, i, hf, Option.some.inj hl⟩
    | killed pid => contradiction
  · rintro ⟨pid, i, hf, hl⟩
    exact ⟨_, hf, congrArg some hl⟩

/-- The child that a line is about. -/
def Line.pid : Line → Int
  | .normally pid _ => pid
  | .abnormally pid => pid

@[simp] theorem pid_lineOf (facts : List Fact) (pid : Int) (i : Nat) :
    (lineOf facts pid i).pid = pid := by
  unfold lineOf
  split <;> rfl

/-- The process ids of the children. -/
def pids (facts : List Fact) : List Int :=
  facts.filterMap fun
    | .forked pid _ => some pid
    | .killed _ => none

theorem mem_pids {facts : List Fact} {pid : Int} :
    pid ∈ pids facts ↔ ∃ i, .forked pid i ∈ facts := by
  simp only [pids, List.mem_filterMap]
  constructor
  · rintro ⟨f, hf, hpid⟩
    cases f with
    | forked q i =>
        cases hpid
        exact ⟨i, hf⟩
    | killed q => contradiction
  · rintro ⟨i, hf⟩
    exact ⟨_, hf, rfl⟩

theorem map_pid_expected (facts : List Fact) : (expected facts).map Line.pid = pids facts := by
  simp only [expected, pids, List.map_filterMap]
  congr 1
  funext f
  cases f <;> simp

theorem pids_forked (facts : List Fact) (pid : Int) (i : Nat) :
    pids (facts ++ [.forked pid i]) = pids facts ++ [pid] := by
  simp [pids]

theorem pids_killed (facts : List Fact) (pid : Int) :
    pids (facts ++ [.killed pid]) = pids facts := by
  simp [pids]

/-! ## what has been reported -/

/-- What is known of the children and what has been printed. -/
structure Reported (facts : List Fact) (s : State) : Prop where
  nodup : (pids facts).Nodup
  /-- the children -/
  child : ∀ pid ∈ s.children.unreaped, pid ∈ pids facts
  index : ∀ pid i, .forked pid i ∈ facts → s.index pid = i ∧ i < numChildren
  killed : ∀ pid, .killed pid ∈ facts → pid ∈ pids facts ∧ pid ∉ s.children.running
  status : ∀ pid ∈ s.children.zombies, report pid (s.status pid) = lineOf facts pid (s.index pid)
  /-- those that are no children any more have been reported -/
  printed : ∀ l, l ∈ s.printed ↔
    ∃ pid i, .forked pid i ∈ facts ∧ pid ∉ s.children.unreaped ∧ lineOf facts pid i = l
  once : (s.printed.map Line.pid).Nodup
  /-- nothing is reaped before the last `fork` -/
  loop : ∀ i, s.pc = .fork i → i < numChildren ∧ s.printed = []
  exited : s.pc = .exited → s.children.unreaped = ∅

theorem reported_start : Reported [] start where
  nodup := List.nodup_nil
  child pid hpid := absurd hpid (Finset.notMem_empty pid)
  index pid i h := absurd h List.not_mem_nil
  killed pid h := absurd h List.not_mem_nil
  status pid hpid := absurd hpid (Finset.notMem_empty pid)
  printed l := by simp [start]
  once := List.nodup_nil
  loop i hi := by
    cases hi
    exact ⟨by decide, rfl⟩
  exited _ := rfl

theorem next_eq_fork {i j : Nat} (h : next i = .fork j) : j < numChildren := by
  unfold next at h
  split at h
  · cases h
    assumption
  · contradiction

theorem next_ne_exited (i : Nat) : next i ≠ .exited := by
  unfold next
  split <;> simp

variable {facts : List Fact}

/-- In the loop every child that was ever forked is still there. -/
theorem Reported.all_unreaped (h : Reported facts s) {i : Nat} (hpc : s.pc = .fork i) {pid : Int}
    (hpid : pid ∈ pids facts) : pid ∈ s.children.unreaped := by
  obtain ⟨j, hj⟩ := mem_pids.mp hpid
  by_contra hnot
  have hmem := (h.printed (lineOf facts pid j)).mpr ⟨pid, j, hj, hnot, rfl⟩
  rw [(h.loop i hpc).2] at hmem
  exact absurd hmem List.not_mem_nil

theorem Reported.fork (h : Reported facts s) {i : Nat} {pid : Int} {k : Children}
    (hpc : s.pc = .fork i) (hk : s.children.fork pid = some k) :
    Reported (facts ++ [.forked pid i])
      { s with pc := next i, children := k, index := Function.update s.index pid i } := by
  obtain ⟨-, hnew, hun, -, -⟩ := Children.fork_spec hk
  obtain ⟨-, hrunning, hzombies⟩ := Children.fork_sets hk
  obtain ⟨hi, hprinted⟩ := h.loop i hpc
  have hfresh : pid ∉ pids facts := fun hmem => hnew (h.all_unreaped hpc hmem)
  have hne : ∀ q ∈ pids facts, q ≠ pid := by
    rintro q hq rfl
    exact hfresh hq
  have hindex : ∀ q, q ≠ pid → Function.update s.index pid i q = s.index q := fun q hq =>
    Function.update_of_ne hq ..
  refine ⟨?_, ?_, ?_, ?_, ?_, ?_, h.once, fun j hj => ⟨next_eq_fork hj, hprinted⟩,
    fun hexit => absurd hexit (next_ne_exited i)⟩
  · rw [pids_forked]
    refine List.nodup_append.mpr ⟨h.nodup, by simp, fun a ha b hb => ?_⟩
    rw [List.mem_singleton.mp hb]
    exact hne a ha
  · dsimp only
    rw [hun, pids_forked]
    intro q hq
    obtain rfl | hq := Finset.mem_insert.mp hq
    · simp
    · exact List.mem_append_left _ (h.child q hq)
  · intro q j hq
    dsimp only
    obtain hq | hq := List.mem_append.mp hq
    · rw [hindex q (hne q (mem_pids.mpr ⟨j, hq⟩))]
      exact h.index q j hq
    · cases List.mem_singleton.mp hq
      exact ⟨Function.update_self .., hi⟩
  · intro q hq
    obtain ⟨hin, hnot⟩ := h.killed q ((List.mem_append.mp hq).resolve_right (by simp))
    dsimp only
    rw [hrunning, pids_forked]
    refine ⟨List.mem_append_left _ hin, fun hmem => ?_⟩
    exact (Finset.mem_insert.mp hmem).elim (hne q hin) hnot
  · dsimp only
    rw [hzombies]
    intro q hq
    have hq' : q ≠ pid := by
      rintro rfl
      exact hnew (Finset.mem_union_right _ hq)
    rw [hindex q hq', h.status q hq]
    simp [lineOf]
  · intro l
    dsimp only
    rw [hprinted, hun]
    refine ⟨fun hl => absurd hl List.not_mem_nil, ?_⟩
    rintro ⟨q, j, hq, hgone, -⟩
    rw [Finset.mem_insert, not_or] at hgone
    obtain hq | hq := List.mem_append.mp hq
    · exact absurd (h.all_unreaped hpc (mem_pids.mpr ⟨j, hq⟩)) hgone.2
    · cases List.mem_singleton.mp hq
      exact absurd rfl hgone.1

/-- A child terminates, and its status is that of the line it should get. -/
theorem Reported.ended {facts' : List Fact} {pid : Int} {w : Nat} {k : Children}
    (h : Reported facts s) (hk : s.children.exit pid = some k)
    (hforked : ∀ q j, .forked q j ∈ facts' ↔ .forked q j ∈ facts) (hpids : pids facts' = pids facts)
    (hkilled : ∀ q, q ≠ pid → (.killed q ∈ facts' ↔ .killed q ∈ facts))
    (hw : report pid w = lineOf facts' pid (s.index pid)) :
    Reported facts' { s with children := k, status := Function.update s.status pid w } := by
  obtain ⟨hun, -⟩ := Children.exit_spec hk
  obtain ⟨hin, -, hrunning, hzombies⟩ := Children.exit_sets hk
  have hline : ∀ q j, q ≠ pid → lineOf facts' q j = lineOf facts q j := fun q j hq => by
    simp only [lineOf, hkilled q hq]
  refine ⟨?_, ?_, fun q j hq => h.index q j ((hforked q j).mp hq), ?_, ?_, ?_, h.once, h.loop,
    fun hexit => hun.trans (h.exited hexit)⟩
  · rw [hpids]
    exact h.nodup
  · dsimp only
    rw [hun, hpids]
    exact h.child
  · dsimp only
    rw [hrunning, hpids]
    intro q hq
    by_cases hqp : q = pid
    · rw [hqp]
      exact ⟨h.child pid (Finset.mem_union_left _ hin), Finset.notMem_erase _ _⟩
    · obtain ⟨hmem, hnot⟩ := h.killed q ((hkilled q hqp).mp hq)
      exact ⟨hmem, fun hr => hnot (Finset.mem_of_mem_erase hr)⟩
  · dsimp only
    rw [hzombies]
    intro q hq
    by_cases hqp : q = pid
    · rw [hqp, Function.update_self]
      exact hw
    · rw [Function.update_of_ne hqp, hline q _ hqp]
      exact h.status q (Finset.mem_of_mem_insert_of_ne hq hqp)
  · intro l
    dsimp only
    rw [h.printed l, hun]
    have hne : ∀ q, q ∉ s.children.unreaped → q ≠ pid := by
      rintro q hq rfl
      exact hq (Finset.mem_union_left _ hin)
    constructor
    · rintro ⟨q, j, hq, hgone, hl⟩
      exact ⟨q, j, (hforked q j).mpr hq, hgone, (hline q j (hne q hgone)).trans hl⟩
    · rintro ⟨q, j, hq, hgone, hl⟩
      exact ⟨q, j, (hforked q j).mp hq, hgone, (hline q j (hne q hgone)).symm.trans hl⟩

/-- A child is reaped and reported. -/
theorem Reported.reaped {pid : Int} {k : Children} (h : Reported facts s) (hpc : s.pc = .waitpid)
    (hk : s.children.reap pid = some k) :
    Reported facts
      { s with children := k, printed := s.printed ++ [report pid (s.status pid)] } := by
  obtain ⟨hin, hun, -⟩ := Children.reap_spec hk
  obtain ⟨hzombie, hrunning, hzombies⟩ := Children.reap_sets hk
  obtain ⟨i, hi⟩ := mem_pids.mp (h.child pid hin)
  obtain ⟨hindex, -⟩ := h.index pid i hi
  have hreport : report pid (s.status pid) = lineOf facts pid i := by
    rw [h.status pid hzombie, hindex]
  refine ⟨h.nodup, ?_, h.index, ?_, ?_, ?_, ?_, fun j hj => ?_, fun hexit => ?_⟩
  · dsimp only
    rw [hun]
    exact fun q hq => h.child q (Finset.mem_of_mem_erase hq)
  · dsimp only
    rw [hrunning]
    exact h.killed
  · dsimp only
    rw [hzombies]
    exact fun q hq => h.status q (Finset.mem_of_mem_erase hq)
  · intro l
    dsimp only
    rw [List.mem_append, List.mem_singleton, h.printed l, hreport, hun]
    constructor
    · rintro (⟨q, j, hq, hgone, hl⟩ | rfl)
      · exact ⟨q, j, hq, fun hmem => hgone (Finset.mem_of_mem_erase hmem), hl⟩
      · exact ⟨pid, i, hi, Finset.notMem_erase _ _, rfl⟩
    · rintro ⟨q, j, hq, hgone, hl⟩
      by_cases hqp : q = pid
      · subst hqp
        rw [← hl, ← (h.index q j hq).1, hindex]
        exact .inr rfl
      · exact .inl ⟨q, j, hq, fun hmem => hgone (Finset.mem_erase.mpr ⟨hqp, hmem⟩), hl⟩
  · dsimp only
    rw [List.map_append, hreport]
    refine List.nodup_append.mpr ⟨h.once, by simp, ?_⟩
    -- the lines so far are about children that are gone
    rintro a ha b hb rfl
    obtain ⟨l, hl, hla⟩ := List.mem_map.mp ha
    obtain ⟨q, j, -, hgone, rfl⟩ := (h.printed l).mp hl
    rw [pid_lineOf] at hla
    simp only [List.map_cons, List.map_nil, pid_lineOf, List.mem_singleton] at hb
    rw [hla, hb] at hgone
    exact hgone hin
  · rw [show s.pc = _ from hj] at hpc
    contradiction
  · rw [show s.pc = _ from hexit] at hpc
    contradiction

theorem Reported.step (h : Reported facts s) (hs : Step s e s') :
    Reported (facts ++ fact s e) s' := by
  cases hs with
  | fork hpc hk =>
      simp only [fact, hpc]
      exact h.fork hpc hk
  | forkFail hpc =>
      simp only [fact, List.append_nil]
      exact { h with
        loop := fun j hj => ⟨next_eq_fork hj, (h.loop _ hpc).2⟩
        exited := fun hexit => absurd hexit (next_ne_exited _) }
  | @exit pid k hk =>
      obtain ⟨hin, -⟩ := Children.exit_sets hk
      obtain ⟨i, hi⟩ := mem_pids.mp (h.child pid (Finset.mem_union_left _ hin))
      obtain ⟨hindex, hlt⟩ := h.index pid i hi
      have halive : .killed pid ∉ facts := fun hdead => (h.killed pid hdead).2 hin
      have hcode : 100 + i < 256 := by
        have hten : numChildren = 10 := rfl
        omega
      simp only [fact, List.append_nil]
      refine h.ended hk (fun _ _ => .rfl) rfl (fun _ _ => .rfl) ?_
      rw [report, if_pos (wifexited_exitStatus _), lineOf, if_neg halive, hindex,
        wexitstatus_exitStatus hcode]
  | @kill pid sig k hsig hk =>
      simp only [fact]
      refine h.ended hk (fun q j => by simp) (pids_killed facts pid)
        (fun q hq => by simp [hq]) ?_
      simp [report, wifexited_killStatus hsig, lineOf]
  | waitpid hpc hk =>
      simp only [fact, List.append_nil]
      exact h.reaped hpc hk
  | done hpc hempty =>
      simp only [fact, List.append_nil]
      exact { h with loop := fun j hj => by contradiction, exited := fun _ => hempty }

/-! ## how long a run is -/

/-- The calls that `main` has before it, with the terminations that they will cause. -/
def MainPc.work : MainPc → Nat
  | .fork i => 3 * (numChildren - i) + 1
  | .waitpid => 1
  | .exited => 0

/-- A bound on the steps to come. -/
def State.work (s : State) : Nat :=
  s.pc.work + 2 * s.children.running.card + s.children.zombies.card

theorem work_next {i : Nat} (hi : i < numChildren) :
    (next i).work + 3 ≤ (MainPc.fork i).work := by
  unfold next
  split
  · simp only [MainPc.work]
    omega
  · simp only [MainPc.work]
    omega

theorem work_ended {pid : Int} {k : Children} (hk : s.children.exit pid = some k) :
    2 * k.running.card + k.zombies.card <
      2 * s.children.running.card + s.children.zombies.card := by
  obtain ⟨hin, hnot, hrunning, hzombies⟩ := Children.exit_sets hk
  have hcard := Finset.card_erase_add_one hin
  rw [hrunning, hzombies, Finset.card_insert_of_notMem hnot]
  omega

/-- Every step brings the process forward. -/
theorem work_step (h : Reported facts s) (hs : Step s e s') : s'.work < s.work := by
  cases hs with
  | fork hpc hk =>
      obtain ⟨hnot, hrunning, hzombies⟩ := Children.fork_sets hk
      have hnext := work_next (h.loop _ hpc).1
      simp only [State.work, hpc, hrunning, hzombies, Finset.card_insert_of_notMem hnot]
      omega
  | forkFail hpc =>
      have hnext := work_next (h.loop _ hpc).1
      simp only [State.work, hpc]
      omega
  | exit hk =>
      have hended := work_ended hk
      simp only [State.work]
      omega
  | kill hsig hk =>
      have hended := work_ended hk
      simp only [State.work]
      omega
  | waitpid hpc hk =>
      obtain ⟨hin, hrunning, hzombies⟩ := Children.reap_sets hk
      have hcard := Finset.card_erase_add_one hin
      simp only [State.work, hrunning, hzombies]
      omega
  | done hpc hempty =>
      simp only [State.work, hpc, MainPc.work]
      omega

/-- A process at which nothing more happens has come to its end. -/
theorem exited_of_stuck (hq : ∀ e, step s e = none) : s.pc = .exited := by
  cases hpc : s.pc with
  | exited => rfl
  | fork i =>
      have hnone := hq (.fork none)
      simp [step, hpc] at hnone
  | waitpid =>
      by_cases hempty : s.children.unreaped = ∅
      · have hnone := hq (.waitpid none)
        simp [step, hpc, hempty] at hnone
      · obtain ⟨pid, hpid⟩ := Finset.nonempty_iff_ne_empty.mpr hempty
        obtain hrunning | hzombie := Finset.mem_union.mp hpid
        · obtain ⟨k, hk⟩ := Children.exists_exit hrunning
          have hnone := hq (.exit pid)
          simp [step, ended, hk] at hnone
        · obtain ⟨k, hk⟩ := Children.exists_reap hzombie
          have hnone := hq (.waitpid (some pid))
          simp [step, hpc, hk] at hnone

/-- **The outcome of `waitpid1.cc`**, whatever `fork`s fail, in whatever order the children
terminate and are reaped: no run has more than 31 steps, none stops before the process has exited,
and then there is exactly one line for each child that was forked, which says that it terminated
normally with `100 + i` if it was forked in round `i`, or abnormally if it was killed. -/
theorem waitpid1_outcome (es : List Event) (s : State) (hrun : Run step any start es s) :
    es.length ≤ 31 ∧ ((∀ e, step s e = none) → s.pc = .exited) ∧
      (s.pc = .exited → s.children.unreaped = ∅ ∧
        s.printed.Perm (expected (outputs step fact start es))) := by
  have hreported : Reported (outputs step fact start es) s :=
    hrun.inv_outputs reported_start fun _ _ _ _ h _ hs => h.step (step_cases hs)
  refine ⟨?_, exited_of_stuck, fun hexit => ⟨hreported.exited hexit, ?_⟩⟩
  · have hbound := hrun.length_add_le (I := fun s => ∃ facts, Reported facts s) State.work
      ⟨[], reported_start⟩ (fun _ _ _ hI _ hs => by
        obtain ⟨facts, h⟩ := hI
        exact ⟨⟨_, h.step (step_cases hs)⟩, work_step h (step_cases hs)⟩)
    have hstart : start.work = 31 := rfl
    omega
  · have hexpected : (expected (outputs step fact start es)).Nodup :=
      .of_map Line.pid (by rw [map_pid_expected]; exact hreported.nodup)
    refine (List.perm_ext_iff_of_nodup (.of_map Line.pid hreported.once) hexpected).mpr fun l => ?_
    rw [hreported.printed l, mem_expected, hreported.exited hexit]
    simp

/-- All but two `fork`s fail; one child exits, the other one is killed. -/
def shortRun : List Event :=
  [.fork (some 10), .fork none, .fork (some 11), .exit 11, .fork none, .fork none, .fork none,
    .fork none, .fork none, .fork none, .fork none, .waitpid (some 11), .kill 10 9,
    .waitpid (some 10), .waitpid none]

theorem waitpid1_outcome_two : ∃ s, Run step any start shortRun s ∧ s.pc = .exited ∧
    s.printed.Perm [.abnormally 10, .normally 11 102] := by
  have hexec : (exec step (fun _ _ => true) start shortRun).map State.pc = some .exited := by
    decide +kernel
  obtain ⟨s, hrun, hpc⟩ := exists_run_of_exec _ _ hexec
  have hlines : expected (outputs step fact start shortRun) =
      [.abnormally 10, .normally 11 102] := by
    decide +kernel
  exact ⟨s, hrun.toAny, hpc, hlines ▸ ((waitpid1_outcome _ s hrun.toAny).2.2 hpc).2⟩

end SysDemos.Waitpid1
