import SysDemos.Csapp.Sbuf.Balance
import SysDemos.Lib.Refinement

/-!
# SysDemos.Csapp.Sbuf.OneSlot

A buffer of one slot needs no mutex (exercise 12.9 of
`csapp/concurrent_program/concurrent_program_practice.cc`).

`stepNoMutex` is the buffer without `P(&sp->mutex)` and `V(&sp->mutex)`.  With one slot, the
permits of `slots` and `items` and the threads between a `P` and its `V` are one altogether, so
these threads exclude each other already.  A run without the mutex is then a run of the original
code in which each thread locks right after its `P` and unlocks right after its access
(`locked`).

* `mutex_redundant` — exclusion, and the same observations as the original code.
-/

namespace SysDemos.Sbuf

open Lts Threads

variable {ι : Type*} [DecidableEq ι]

/-- `step` without the operations on `mutex`: the positions before them do not exist. -/
def stepNoMutex (s : State ι) (i : ι) : Option (State ι) :=
  let sp := s.sp
  match (s.threads i).pc with
  | .insSlots item =>
    if 0 < sp.slots then
      some { s.goto i (.insLoad item) with sp := { sp with slots := sp.slots - 1 } }
    else none
  | .insStore item x =>
    some { s.goto i .insItems with
           sp := { sp with buf := Function.update sp.buf (x.tmod sp.n) item }
           stored := s.stored ++ [⟨i, item, x.tmod sp.n⟩] }
  | .remItems =>
    if 0 < sp.items then
      some { s.goto i .remLoad with sp := { sp with items := sp.items - 1 } }
    else none
  | .remTake x =>
    some { s.goto i (.remSlots (sp.buf (x.tmod sp.n))) with
           taken := s.taken ++ [⟨i, sp.buf (x.tmod sp.n), x.tmod sp.n⟩] }
  | .insLock _ | .insUnlock | .remLock | .remUnlock _ => none
  | _ => step s i

/-- What an observer sees: the values stored and taken, and by whom. -/
inductive Observation (ι : Type*) where
  | stores (i : ι) (value : Int)
  | takes (i : ι) (value : Int)
  deriving DecidableEq, Repr

omit [DecidableEq ι] in
/-- The observation of a step of thread `i`. -/
def observe (s : State ι) (i : ι) : List (Observation ι) :=
  match (s.threads i).pc with
  | .insStore item _ => [.stores i item]
  | .remTake x => [.takes i (s.sp.buf (x.tmod s.sp.n))]
  | _ => []

/-- Between the `P` of a call and its matching `V`. -/
def between : Pc → Nat
  | .idle | .insSlots _ | .remItems => 0
  | _ => 1

/-- A position of the operations on `mutex`. -/
def usesMutex : Pc → Bool
  | .insLock _ | .insUnlock | .remLock | .remUnlock _ => true
  | _ => false

variable [Fintype ι] {s s' : State ι} {i : ι}

/-- One permit for all. -/
structure Single (s : State ι) : Prop where
  permit : s.sp.slots + s.sp.items + total between s.threads = 1
  pcs : ∀ i, usesMutex (s.threads i).pc = false

/-- The same state in the original code, where a thread at the accesses has locked `mutex`. -/
def locked (s : State ι) : State ι :=
  { s with sp := { s.sp with mutex := 1 - total inCs s.threads } }

theorem Single.alone (h : Single s) {j : ι} (hi : between (s.threads i).pc = 1)
    (hj : between (s.threads j).pc = 1) : i = j := by
  by_contra hne
  have htwo := two_le_count (fun x : Thread => between x.pc) s.threads hne (by omega) (by omega)
  have hone := h.permit
  simp only [total] at hone
  omega

omit [DecidableEq ι] in
theorem single_init (progs : ι → List Op) : Single (init 1 progs) := by
  refine ⟨?_, fun _ => rfl⟩
  rw [total_init progs rfl]
  rfl

/-- Thread `i` goes on as `x`, with its permit. -/
theorem Single.update {x : Thread} (h : Single s)
    (hthreads : s'.threads = Function.update s.threads i x)
    (hpermit : s'.sp.slots + s'.sp.items + between x.pc =
      s.sp.slots + s.sp.items + between (s.threads i).pc)
    (hx : usesMutex x.pc = false) : Single s' := by
  have hupdate : total between (Function.update s.threads i x) + between (s.threads i).pc =
      total between s.threads + between x.pc := count_update _ s.threads i x
  have hone := h.permit
  refine ⟨by rw [hthreads]; omega, fun j => ?_⟩
  rw [hthreads]
  by_cases hj : j = i
  · rw [hj, Function.update_self]
    exact hx
  · rw [Function.update_of_ne hj]
    exact h.pcs j

theorem single_step (h : Single s) (hs : stepNoMutex s i = some s') : Single s' := by
  cases hpc : (s.threads i).pc with
  | idle =>
      simp only [stepNoMutex, step, hpc] at hs
      split at hs
      · contradiction
      · next op prog _ =>
          cases hs
          cases op with
          | insert item => exact h.update rfl (by rw [hpc]; rfl) rfl
          | remove => exact h.update rfl (by rw [hpc]; rfl) rfl
  | insSlots item =>
      simp only [stepNoMutex, hpc] at hs
      obtain ⟨hpos, ⟨⟩⟩ := Option.ite_none_right_eq_some.mp hs
      exact h.update rfl (by simp only [hpc, between]; omega) rfl
  | remItems =>
      simp only [stepNoMutex, hpc] at hs
      obtain ⟨hpos, ⟨⟩⟩ := Option.ite_none_right_eq_some.mp hs
      exact h.update rfl (by simp only [hpc, between]; omega) rfl
  | insItems =>
      simp only [stepNoMutex, step, hpc, Option.some.injEq] at hs
      subst hs
      exact h.update rfl (by simp only [hpc, between]; omega) rfl
  | remSlots item =>
      simp only [stepNoMutex, step, hpc, Option.some.injEq] at hs
      subst hs
      exact h.update rfl (by simp only [hpc, between]; omega) rfl
  | _ =>
      -- the accesses keep the permit; the positions of the mutex are not reached
      simp only [stepNoMutex, step, hpc, Option.some.injEq, reduceCtorEq] at hs
      all_goals
        subst hs
        exact h.update rfl (by rw [hpc]; rfl) rfl

/-! ## the same run with the mutex -/

/-- A move of thread `i` that neither enters nor leaves the accesses. -/
theorem locked_of_same {x : Thread} (hthreads : s'.threads = Function.update s.threads i x)
    (hx : inCs x.pc = inCs (s.threads i).pc)
    (hstep : step (locked s) i =
      some { s' with sp := { s'.sp with mutex := (locked s).sp.mutex } }) :
    step (locked s) i = some (locked s') := by
  have hupdate : total inCs (Function.update s.threads i x) + inCs (s.threads i).pc =
      total inCs s.threads + inCs x.pc := count_update _ s.threads i x
  have hsame : total inCs s'.threads = total inCs s.threads := by rw [hthreads]; omega
  rw [hstep]
  simp only [locked, hsame]

/-- Such a move is one of the original code. -/
theorem locked_step (hs : stepNoMutex s i = some s') (hpc : usesMutex (s.threads i).pc = false)
    (hstay : ∀ item x, (s.threads i).pc ≠ .insSlots item ∧ (s.threads i).pc ≠ .insStore item x ∧
      (s.threads i).pc ≠ .remItems ∧ (s.threads i).pc ≠ .remTake x) :
    step (locked s) i = some (locked s') := by
  cases h : (s.threads i).pc with
  | idle =>
      simp only [stepNoMutex, step, h] at hs
      split at hs
      · contradiction
      · next op prog hprog =>
          cases hs
          cases op with
          | insert item =>
              exact locked_of_same rfl (by rw [h]; rfl)
                (by simp only [step, locked, h, hprog, State.call])
          | remove =>
              exact locked_of_same rfl (by rw [h]; rfl)
                (by simp only [step, locked, h, hprog, State.call])
  | insSlots item => exact absurd h (hstay item 0).1
  | insStore item x => exact absurd h (hstay item x).2.1
  | remItems => exact absurd h (hstay 0 0).2.2.1
  | remTake x => exact absurd h (hstay 0 x).2.2.2
  | insLock item => rw [h] at hpc; contradiction
  | insUnlock => rw [h] at hpc; contradiction
  | remLock => rw [h] at hpc; contradiction
  | remUnlock item => rw [h] at hpc; contradiction
  | _ =>
      simp only [stepNoMutex, step, h, Option.some.injEq] at hs
      all_goals
        subst hs
        exact locked_of_same rfl (by rw [h]; rfl) (by simp only [step, locked, h, State.goto])

/-- A thread at the accesses is between its `P` and its `V`. -/
theorem inCs_le_between (pc : Pc) : inCs pc ≤ between pc := by
  cases pc <;> simp [inCs, between]

omit [DecidableEq ι] in
/-- With a permit available nobody is at the accesses. -/
theorem Single.mutex_free (h : Single s) (hpermit : 0 < s.sp.slots + s.sp.items) :
    total inCs s.threads = 0 := by
  have hle := total_le_total inCs_le_between s.threads
  have hone := h.permit
  omega

omit [DecidableEq ι] in
/-- A thread at the accesses is there alone. -/
theorem Single.mutex_taken (h : Single s) (hi : inCs (s.threads i).pc = 1) :
    total inCs s.threads = 1 := by
  have hle := total_le_total inCs_le_between s.threads
  have hone := h.permit
  have hpos := le_total inCs s.threads i
  omega

/-- The number of threads at the accesses after thread `i` has moved. -/
theorem total_inCs_update (t : ι → Thread) (i : ι) (prog : List Op) (pc : Pc) :
    total inCs (Function.update t i ⟨prog, pc⟩) + inCs (t i).pc = total inCs t + inCs pc :=
  count_update _ t i ⟨prog, pc⟩

/-- Every step without the mutex is answered by one or two steps of the original code. -/
theorem refines_step (h : Single s) (hs : stepNoMutex s i = some s') :
    ∃ ls, Run step any (locked s) ls (locked s') ∧
      outputs step observe (locked s) ls = observe s i := by
  have htwo : ∀ t, step (locked s) i = some t → step t i = some (locked s') →
      observe (locked s) i = observe s i → observe t i = [] →
      ∃ ls, Run step any (locked s) ls (locked s') ∧
        outputs step observe (locked s) ls = observe s i := by
    intro t h₁ h₂ hobs hobs'
    refine ⟨[i, i], (Run.snoc .nil trivial h₂).cons trivial h₁, ?_⟩
    simp only [outputs, h₁, h₂, hobs, hobs', List.append_nil]
  cases hpc : (s.threads i).pc with
  -- `P(&sp->mutex)` follows at once: nobody else is at the accesses
  | insSlots item =>
      simp only [stepNoMutex, hpc] at hs
      obtain ⟨hpos, ⟨⟩⟩ := Option.ite_none_right_eq_some.mp hs
      have hfree := h.mutex_free (by omega)
      have hupdate := total_inCs_update s.threads i (s.threads i).prog (.insLoad item)
      simp only [hpc, hfree, inCs, Nat.add_zero, Nat.zero_add] at hupdate
      refine htwo { s.goto i (.insLock item) with
        sp := { s.sp with slots := s.sp.slots - 1, mutex := 1 } } ?_ ?_ rfl ?_
      · simp [step, locked, hpc, hpos, hfree, State.goto]
      · simp [step, locked, State.goto, hupdate]
      · simp [observe, State.goto]
  | remItems =>
      simp only [stepNoMutex, hpc] at hs
      obtain ⟨hpos, ⟨⟩⟩ := Option.ite_none_right_eq_some.mp hs
      have hfree := h.mutex_free (by omega)
      have hupdate := total_inCs_update s.threads i (s.threads i).prog .remLoad
      simp only [hpc, hfree, inCs, Nat.add_zero, Nat.zero_add] at hupdate
      refine htwo { s.goto i .remLock with
        sp := { s.sp with items := s.sp.items - 1, mutex := 1 } } ?_ ?_ rfl ?_
      · simp [step, locked, hpc, hpos, hfree, State.goto]
      · simp [step, locked, State.goto, hupdate]
      · simp [observe, State.goto]
  -- `V(&sp->mutex)` follows at once
  | insStore item x =>
      simp only [stepNoMutex, hpc, Option.some.injEq] at hs
      subst hs
      have htaken := h.mutex_taken (i := i) (by rw [hpc]; rfl)
      have hupdate := total_inCs_update s.threads i (s.threads i).prog .insItems
      simp only [hpc, htaken, inCs, Nat.add_eq_right] at hupdate
      refine htwo { s.goto i .insUnlock with
        sp := { s.sp with buf := Function.update s.sp.buf (x.tmod s.sp.n) item, mutex := 0 }
        stored := s.stored ++ [⟨i, item, x.tmod s.sp.n⟩] } ?_ ?_ rfl ?_
      · simp [step, locked, hpc, htaken, State.goto]
      · simp [step, locked, State.goto, hupdate]
      · simp [observe, State.goto]
  | remTake x =>
      simp only [stepNoMutex, hpc, Option.some.injEq] at hs
      subst hs
      have htaken := h.mutex_taken (i := i) (by rw [hpc]; rfl)
      have hupdate := total_inCs_update s.threads i (s.threads i).prog
        (.remSlots (s.sp.buf (x.tmod s.sp.n)))
      simp only [hpc, htaken, inCs, Nat.add_eq_right] at hupdate
      refine htwo { s.goto i (.remUnlock (s.sp.buf (x.tmod s.sp.n))) with
        sp := { s.sp with mutex := 0 }
        taken := s.taken ++ [⟨i, s.sp.buf (x.tmod s.sp.n), x.tmod s.sp.n⟩] } ?_ ?_ rfl ?_
      · simp [step, locked, hpc, htaken, State.goto]
      · simp [step, locked, State.goto, hupdate]
      · simp [observe, State.goto]
  | _ =>
      have hone : step (locked s) i = some (locked s') :=
        locked_step hs (h.pcs i) (by simp [hpc])
      exact ⟨[i], Run.snoc .nil trivial hone, outputs_singleton hone⟩

omit [DecidableEq ι] in
/-- Before the first call the mutex is free. -/
theorem locked_init (progs : ι → List Op) : locked (init 1 progs) = init 1 progs := by
  have hzero : total inCs (init 1 progs).threads = 0 := Finset.sum_eq_zero fun _ _ => rfl
  simp only [locked, hzero]
  rfl

/-- **With one slot the mutex is redundant**: without it, under every interleaving, at most one
thread is between a `P` and its matching `V`, and the values stored and taken are those of a run
of the original code. -/
theorem mutex_redundant (progs : ι → List Op) (ls : List ι) (s : State ι)
    (h : Run stepNoMutex any (init 1 progs) ls s) :
    (∀ i j, between (s.threads i).pc = 1 → between (s.threads j).pc = 1 → i = j) ∧
      ∃ ls' s', Run step any (init 1 progs) ls' s' ∧
        outputs step observe (init 1 progs) ls' = outputs stepNoMutex observe (init 1 progs) ls ∧
        s'.insStarted = s.insStarted ∧ s'.remStarted = s.remStarted := by
  have hsingle : Single s :=
    Run.inv (I := Single) (single_init progs) (fun _ _ _ ih _ hs => single_step ih hs) h
  refine ⟨fun i j => hsingle.alone, ?_⟩
  have hsim : ∀ (s : State ι) (i : ι) (s' t : State ι), Single s ∧ t = locked s →
      any s i → stepNoMutex s i = some s' →
        ∃ ls t', Run step any t ls t' ∧ outputs step observe t ls = observe s i ∧
          Single s' ∧ t' = locked s' := by
    rintro s i s' t ⟨hs₁, rfl⟩ - hs
    obtain ⟨ls, hrun, hout⟩ := refines_step hs₁ hs
    exact ⟨ls, locked s', hrun, hout, single_step hs₁ hs, rfl⟩
  obtain ⟨ls', t, hrun, hout, -, rfl⟩ := Run.refines ⟨single_init progs, rfl⟩ hsim h
  rw [locked_init] at hrun hout
  exact ⟨ls', locked s, hrun, hout, rfl, rfl⟩

/-- The second producer comes first, and the consumer makes room for the first. -/
theorem mutex_redundant_three_threads :
    ∃ ls s, Run step any (init 1 producersAndConsumer) ls s ∧
      outputs step observe (init 1 producersAndConsumer) ls =
        [.stores 1 6, .takes 2 6, .stores 0 5] := by
  have hexec : (exec stepNoMutex (fun _ _ => true) (init 1 producersAndConsumer)
      [0, 1, 1, 2, 1, 1, 1, 1, 2, 2, 2, 2, 2, 0, 0, 0, 0]).map (fun s => s.stored.length) =
        some 2 := by decide
  obtain ⟨s, hrun, -⟩ := exists_run_of_exec _ _ hexec
  obtain ⟨-, ls, s', hrun', hout, -⟩ := mutex_redundant _ _ s hrun.toAny
  exact ⟨ls, s', hrun', hout.trans (by decide)⟩

end SysDemos.Sbuf
