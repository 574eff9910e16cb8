import SysDemos.Csapp.Sbuf
import SysDemos.Lib.Threads

/-!
# SysDemos.Csapp.Sbuf.Balance

The permits of the three semaphores of the buffer, in runs of any length.

The permits of `slots` and `items`, the threads in mid-operation and the numbers of stored and
taken items always balance, and the permit of `mutex` together with the threads in the critical
section is one (`Balance`).  Mutual exclusion (`Balance.alone`) makes the loaded counter values
current.  What the counters are is left to the invariants built on this one.
-/

namespace SysDemos.Sbuf

open Lts Threads

variable {ι : Type*} [Fintype ι]

/-! ## weights of a program position -/

/-- In `sbuf_insert`, past `P(&sp->slots)` and before the store. -/
def holdsSlot : Pc → Nat
  | .insLock _ | .insLoad _ | .insBump _ _ | .insStore _ _ => 1
  | _ => 0

/-- In `sbuf_insert`, before the store. -/
def insOpen : Pc → Nat
  | .insSlots _ | .insLock _ | .insLoad _ | .insBump _ _ | .insStore _ _ => 1
  | _ => 0

/-- In `sbuf_insert`, past the store and before `V(&sp->items)`. -/
def storedItem : Pc → Nat
  | .insUnlock | .insItems => 1
  | _ => 0

/-- In `sbuf_remove`, past `P(&sp->items)` and before the read. -/
def holdsItem : Pc → Nat
  | .remLock | .remLoad | .remBump _ | .remTake _ => 1
  | _ => 0

/-- In `sbuf_remove`, before the read. -/
def remOpen : Pc → Nat
  | .remItems | .remLock | .remLoad | .remBump _ | .remTake _ => 1
  | _ => 0

/-- In `sbuf_remove`, past the read and before `V(&sp->slots)`. -/
def tookItem : Pc → Nat
  | .remUnlock _ | .remSlots _ => 1
  | _ => 0

/-- Between `P(&sp->mutex)` and `V(&sp->mutex)`. -/
def inCs : Pc → Nat
  | .insLoad _ | .insBump _ _ | .insStore _ _ | .insUnlock => 1
  | .remLoad | .remBump _ | .remTake _ | .remUnlock _ => 1
  | _ => 0

/-- Past the increment of `rear` and before the store. -/
def atStore : Pc → Nat
  | .insStore _ _ => 1
  | _ => 0

/-- Past the increment of `front` and before the read. -/
def atTake : Pc → Nat
  | .remTake _ => 1
  | _ => 0

/-- The weight of all threads together. -/
def total (f : Pc → Nat) (t : ι → Thread) : Nat := count (fun x => f x.pc) t

/-- A step of thread `i` exchanges its old weight for its new one, for all
the weights of the invariant at once. -/
theorem totals_update [DecidableEq ι] (t : ι → Thread) (i : ι) (x : Thread) :
    total holdsSlot (Function.update t i x) + holdsSlot (t i).pc =
      total holdsSlot t + holdsSlot x.pc ∧
    total insOpen (Function.update t i x) + insOpen (t i).pc = total insOpen t + insOpen x.pc ∧
    total storedItem (Function.update t i x) + storedItem (t i).pc =
      total storedItem t + storedItem x.pc ∧
    total holdsItem (Function.update t i x) + holdsItem (t i).pc =
      total holdsItem t + holdsItem x.pc ∧
    total remOpen (Function.update t i x) + remOpen (t i).pc = total remOpen t + remOpen x.pc ∧
    total tookItem (Function.update t i x) + tookItem (t i).pc =
      total tookItem t + tookItem x.pc ∧
    total inCs (Function.update t i x) + inCs (t i).pc = total inCs t + inCs x.pc ∧
    total atStore (Function.update t i x) + atStore (t i).pc = total atStore t + atStore x.pc ∧
    total atTake (Function.update t i x) + atTake (t i).pc = total atTake t + atTake x.pc := by
  refine ⟨?_, ?_, ?_, ?_, ?_, ?_, ?_, ?_, ?_⟩ <;> exact count_update _ t i x

/-- A thread's weight is part of the total. -/
theorem le_total (f : Pc → Nat) (t : ι → Thread) (i : ι) : f (t i).pc ≤ total f t :=
  le_count (fun x => f x.pc) t i

/-- A pointwise larger weight has a larger total. -/
theorem total_le_total {f g : Pc → Nat} (h : ∀ pc, f pc ≤ g pc) (t : ι → Thread) :
    total f t ≤ total g t :=
  count_le_count (f := fun x : Thread => f x.pc) (g := fun x : Thread => g x.pc) (fun x => h x.pc) t

/-! ## the balances -/

/-- A counter value a thread has loaded or written is the current one. -/
def Current (sp : SbufT) : Pc → Prop
  | .insBump _ r => r = sp.rear
  | .insStore _ x => x = sp.rear
  | .remBump r => r = sp.front
  | .remTake x => x = sp.front
  | _ => True

/-- The balances of the permits, and the counter values in use. -/
structure Balance (n : Int) (s : State ι) : Prop where
  cap : s.sp.n = n
  slots : s.sp.slots + s.stored.length + total holdsSlot s.threads + total tookItem s.threads =
    n.toNat + s.taken.length
  items : s.sp.items + total storedItem s.threads + s.taken.length +
    total holdsItem s.threads = s.stored.length
  mutex : s.sp.mutex + total inCs s.threads = 1
  current : ∀ i, Current s.sp (s.threads i).pc

variable [DecidableEq ι] {n : Int} {s s' : State ι} {i : ι}

omit [DecidableEq ι] in
theorem total_init (progs : ι → List Op) {f : Pc → Nat} (hf : f .idle = 0) :
    total f (init n progs).threads = 0 :=
  Finset.sum_eq_zero fun _ _ => hf

omit [DecidableEq ι] in
theorem balance_init (progs : ι → List Op) : Balance n (init n progs) where
  cap := rfl
  slots := by
    rw [total_init progs rfl, total_init progs rfl]
    rfl
  items := by
    rw [total_init progs rfl, total_init progs rfl]
    rfl
  mutex := by
    rw [total_init progs rfl]
    rfl
  current _ := trivial

/-- **Mutual exclusion**: while thread `i` is in the critical section no
other thread is. -/
theorem Balance.alone (h : Balance n s) (hi : inCs (s.threads i).pc = 1) {j : ι} (hj : j ≠ i) :
    inCs (s.threads j).pc = 0 := by
  by_contra hne
  have htwo := two_le_count (fun x : Thread => inCs x.pc) s.threads hj (by omega) (by omega)
  have hmutex := h.mutex
  simp only [total] at hmutex
  omega

/-- What only threads in the critical section can weigh is weighed by the
one thread there. -/
theorem Balance.total_eq (h : Balance n s) (hi : inCs (s.threads i).pc = 1) (f : Pc → Nat)
    (hf : ∀ pc, inCs pc = 0 → f pc = 0) : total f s.threads = f (s.threads i).pc :=
  count_eq_single _ _ i fun _ hj => hf _ (h.alone hi hj)

theorem atStore_of_inCs (pc : Pc) (h : inCs pc = 0) : atStore pc = 0 := by
  cases pc <;> simp_all [inCs, atStore]

theorem atTake_of_inCs (pc : Pc) (h : inCs pc = 0) : atTake pc = 0 := by
  cases pc <;> simp_all [inCs, atTake]

theorem current_of_inCs (sp : SbufT) (pc : Pc) (h : inCs pc = 0) : Current sp pc := by
  cases pc <;> simp_all [inCs, Current]

/-! ## what a step can do -/

/-- Steps that touch neither the counters nor the ring: thread `i` goes on as `x`, and permits
are exchanged for its weights. -/
structure Quiet (s s' : State ι) (i : ι) (x : Thread) : Prop where
  threads : s'.threads = Function.update s.threads i x
  sp : s'.sp.n = s.sp.n ∧ s'.sp.buf = s.sp.buf ∧ s'.sp.rear = s.sp.rear ∧
    s'.sp.front = s.sp.front
  log : s'.stored = s.stored ∧ s'.taken = s.taken ∧ s'.rearOrder = s.rearOrder ∧
    s'.frontOrder = s.frontOrder
  old : atStore (s.threads i).pc = 0 ∧ atTake (s.threads i).pc = 0
  new : atStore x.pc = 0 ∧ atTake x.pc = 0
  current : Current s.sp x.pc
  slots : s'.sp.slots + holdsSlot x.pc + tookItem x.pc =
    s.sp.slots + holdsSlot (s.threads i).pc + tookItem (s.threads i).pc
  items : s'.sp.items + storedItem x.pc + holdsItem x.pc =
    s.sp.items + storedItem (s.threads i).pc + holdsItem (s.threads i).pc
  mutex : s'.sp.mutex + inCs x.pc = s.sp.mutex + inCs (s.threads i).pc
  ins : s.insStarted + insOpen x.pc ≤ s'.insStarted + insOpen (s.threads i).pc
  rem : s.remStarted + remOpen x.pc ≤ s'.remStarted + remOpen (s.threads i).pc

/-- An access of the critical section: thread `i` goes on as `x`, still there; the permits stay,
and an item that is stored or taken changes the weights of the thread. -/
structure Accesses (s s' : State ι) (i : ι) (x : Thread) : Prop where
  threads : s'.threads = Function.update s.threads i x
  sp : s'.sp.n = s.sp.n ∧ s'.sp.slots = s.sp.slots ∧ s'.sp.items = s.sp.items ∧
    s'.sp.mutex = s.sp.mutex
  inside : inCs (s.threads i).pc = 1 ∧ inCs x.pc = 1
  current : Current s'.sp x.pc
  ins : s'.stored.length + holdsSlot x.pc = s.stored.length + holdsSlot (s.threads i).pc ∧
    s'.stored.length + storedItem (s.threads i).pc = s.stored.length + storedItem x.pc
  rem : s'.taken.length + holdsItem x.pc = s.taken.length + holdsItem (s.threads i).pc ∧
    s'.taken.length + tookItem (s.threads i).pc = s.taken.length + tookItem x.pc

/-- The steps: the quiet ones, and the four accesses of the critical section. -/
inductive Step (s : State ι) (i : ι) : State ι → Prop
  | quiet {s' : State ι} {x : Thread} : Quiet s s' i x → Step s i s'
  | insBump {item r : Int} : (s.threads i).pc = .insBump item r →
      Step s i { s.goto i (.insStore item (incr r)) with
        sp := { s.sp with rear := incr r }, rearOrder := s.rearOrder ++ [i] }
  | insStore {item x : Int} : (s.threads i).pc = .insStore item x →
      Step s i { s.goto i .insUnlock with
        sp := { s.sp with buf := Function.update s.sp.buf (x.tmod s.sp.n) item }
        stored := s.stored ++ [⟨i, item, x.tmod s.sp.n⟩] }
  | remBump {r : Int} : (s.threads i).pc = .remBump r →
      Step s i { s.goto i (.remTake (incr r)) with
        sp := { s.sp with front := incr r }, frontOrder := s.frontOrder ++ [i] }
  | remTake {x : Int} : (s.threads i).pc = .remTake x →
      Step s i { s.goto i (.remUnlock (s.sp.buf (x.tmod s.sp.n))) with
        taken := s.taken ++ [⟨i, s.sp.buf (x.tmod s.sp.n), x.tmod s.sp.n⟩] }

omit [Fintype ι] in
theorem step_cases (hs : step s i = some s') : Step s i s' := by
  cases hpc : (s.threads i).pc with
  | insBump item r =>
      simp only [step, hpc, Option.some.injEq] at hs
      subst hs
      exact .insBump hpc
  | insStore item x =>
      simp only [step, hpc, Option.some.injEq] at hs
      subst hs
      exact .insStore hpc
  | remBump r =>
      simp only [step, hpc, Option.some.injEq] at hs
      subst hs
      exact .remBump hpc
  | remTake x =>
      simp only [step, hpc, Option.some.injEq] at hs
      subst hs
      exact .remTake hpc
  | idle =>
      simp only [step, hpc] at hs
      split at hs
      · contradiction
      · next op prog _ =>
          rw [Option.some.injEq] at hs
          subst hs
          cases op <;>
            exact .quiet ⟨rfl, ⟨rfl, rfl, rfl, rfl⟩, ⟨rfl, rfl, rfl, rfl⟩,
              by rw [hpc]; exact ⟨rfl, rfl⟩, ⟨rfl, rfl⟩, trivial, by rw [hpc]; rfl,
              by rw [hpc]; rfl, by rw [hpc]; rfl, by rw [hpc]; exact Nat.le_refl _,
              by rw [hpc]; exact Nat.le_refl _⟩
  | insLoad item =>
      simp only [step, hpc, Option.some.injEq] at hs
      subst hs
      exact .quiet ⟨rfl, ⟨rfl, rfl, rfl, rfl⟩, ⟨rfl, rfl, rfl, rfl⟩,
        by rw [hpc]; exact ⟨rfl, rfl⟩, ⟨rfl, rfl⟩, rfl, by rw [hpc]; rfl, by rw [hpc]; rfl,
        by rw [hpc]; rfl, by rw [hpc]; exact Nat.le_refl _, by rw [hpc]; exact Nat.le_refl _⟩
  | remLoad =>
      simp only [step, hpc, Option.some.injEq] at hs
      subst hs
      exact .quiet ⟨rfl, ⟨rfl, rfl, rfl, rfl⟩, ⟨rfl, rfl, rfl, rfl⟩,
        by rw [hpc]; exact ⟨rfl, rfl⟩, ⟨rfl, rfl⟩, rfl, by rw [hpc]; rfl, by rw [hpc]; rfl,
        by rw [hpc]; rfl, by rw [hpc]; exact Nat.le_refl _, by rw [hpc]; exact Nat.le_refl _⟩
  | _ =>
      -- a `P` or a `V`: one permit against one thread
      simp only [step, hpc] at hs
      try split at hs
      all_goals first
        | contradiction
        | (rw [Option.some.injEq] at hs
           subst hs
           exact .quiet ⟨rfl, ⟨rfl, rfl, rfl, rfl⟩, ⟨rfl, rfl, rfl, rfl⟩,
             by rw [hpc]; exact ⟨rfl, rfl⟩, ⟨rfl, rfl⟩, trivial,
             by rw [hpc]; grind [holdsSlot, tookItem, State.goto],
             by rw [hpc]; grind [storedItem, holdsItem, State.goto],
             by rw [hpc]; grind [inCs, State.goto],
             by rw [hpc]; grind [insOpen, State.goto], by rw [hpc]; grind [remOpen, State.goto]⟩)

omit [Fintype ι] in
/-- A thread after a quiet step is the one that has moved, or as it was. -/
theorem Quiet.thread {x : Thread} (h : Quiet s s' i x) (j : ι) :
    s'.threads j = x ∧ j = i ∨ s'.threads j = s.threads j := by
  by_cases hj : j = i
  · subst hj
    left
    rw [h.threads, Function.update_self]
    exact ⟨rfl, rfl⟩
  · right
    rw [h.threads, Function.update_of_ne hj]

omit [Fintype ι] in
/-- The loaded counter values stay current in a quiet step. -/
theorem Quiet.all_current {x : Thread} (h : Quiet s s' i x)
    (hcur : ∀ j, Current s.sp (s.threads j).pc) (j : ι) : Current s'.sp (s'.threads j).pc := by
  obtain ⟨-, -, hrear, hfront⟩ := h.sp
  have hsame : Current s'.sp (s'.threads j).pc = Current s.sp (s'.threads j).pc := by
    cases (s'.threads j).pc <;> simp only [Current, hrear, hfront]
  rw [hsame]
  rcases h.thread j with ⟨hj, -⟩ | hj
  · rw [hj]
    exact h.current
  · rw [hj]
    exact hcur j

/-- The balances are kept one by one. -/
theorem Balance.quiet {x : Thread} (h : Balance n s) (hq : Quiet s s' i x) : Balance n s' := by
  obtain ⟨hthreads, ⟨hn, -⟩, ⟨hst, htk, -, -⟩, -, -, -, hslots, hitems, hmutex, -, -⟩ := id hq
  obtain ⟨uslot, -, ust, uhold, -, utook, ucs, -, -⟩ := totals_update s.threads i x
  obtain ⟨hcap, h₁, h₂, h₃, hcur⟩ := h
  exact
    { cap := by rw [hn, hcap], slots := by rw [hst, htk, hthreads]; omega
      items := by rw [hst, htk, hthreads]; omega, mutex := by rw [hthreads]; omega
      current := hq.all_current hcur }

omit [Fintype ι] in
/-- With all other threads outside the critical section only the moving
thread has to be checked for a current counter value. -/
theorem current_update {t : ι → Thread} {x : Thread} {sp : SbufT}
    (hother : ∀ j, j ≠ i → inCs (t j).pc = 0) (hx : Current sp x.pc) (j : ι) :
    Current sp (Function.update t i x j).pc := by
  by_cases hji : j = i
  · subst hji; rw [Function.update_self]; exact hx
  · rw [Function.update_of_ne hji]
    exact current_of_inCs _ _ (hother j hji)

theorem Balance.access {x : Thread} (h : Balance n s) (ha : Accesses s s' i x) : Balance n s' := by
  obtain ⟨hthreads, ⟨hn, hslots, hitems, hmutex⟩, ⟨hi, hx⟩, hcur, hins, hrem⟩ := ha
  obtain ⟨uslot, -, ust, uhold, -, utook, ucs, -, -⟩ := totals_update s.threads i x
  have hother : ∀ j, j ≠ i → inCs (s.threads j).pc = 0 := fun j hj => h.alone hi hj
  obtain ⟨hcap, h₁, h₂, h₃, -⟩ := h
  exact
    { cap := by rw [hn, hcap], slots := by rw [hthreads]; omega
      items := by rw [hthreads]; omega, mutex := by rw [hthreads]; omega
      current := by rw [hthreads]; exact current_update hother hcur }

theorem Balance.step (h : Balance n s) (hs : Step s i s') : Balance n s' := by
  cases hs with
  | quiet hq => exact h.quiet hq
  | insBump hpc =>
      exact h.access ⟨rfl, ⟨rfl, rfl, rfl, rfl⟩, by rw [hpc]; exact ⟨rfl, rfl⟩, rfl,
        by rw [hpc]; exact ⟨rfl, rfl⟩, by rw [hpc]; exact ⟨rfl, rfl⟩⟩
  | insStore hpc =>
      exact h.access ⟨rfl, ⟨rfl, rfl, rfl, rfl⟩, by rw [hpc]; exact ⟨rfl, rfl⟩, trivial,
        by rw [hpc]; simp [holdsSlot, storedItem], by rw [hpc]; exact ⟨rfl, rfl⟩⟩
  | remBump hpc =>
      exact h.access ⟨rfl, ⟨rfl, rfl, rfl, rfl⟩, by rw [hpc]; exact ⟨rfl, rfl⟩, rfl,
        by rw [hpc]; exact ⟨rfl, rfl⟩, by rw [hpc]; exact ⟨rfl, rfl⟩⟩
  | remTake hpc =>
      exact h.access ⟨rfl, ⟨rfl, rfl, rfl, rfl⟩, by rw [hpc]; exact ⟨rfl, rfl⟩, trivial,
        by rw [hpc]; exact ⟨rfl, rfl⟩, by rw [hpc]; simp [holdsItem, tookItem]⟩

/-- The permits balance in every reachable state, however many calls have been made. -/
theorem balance_of_run {progs : ι → List Op} {ls : List ι}
    (h : Run Sbuf.step any (init n progs) ls s) : Balance n s :=
  Run.inv (I := Balance n) (balance_init progs) (fun _ _ _ ih _ hs => ih.step (step_cases hs)) h

end SysDemos.Sbuf
