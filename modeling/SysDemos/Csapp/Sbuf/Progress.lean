import SysDemos.Csapp.Sbuf.Balance

/-!
# SysDemos.Csapp.Sbuf.Progress

The three semaphores of the buffer cannot deadlock.

A thread that waits for `mutex` waits for a thread in the critical section, which never waits.
With nobody inside, the permits of `slots` and `items` that are not available are held by
items in the buffer and by free slots, so that only one of the two can be used up.

* `stuck_only_full_or_empty` — threads are stuck only if all of them want to insert into a full
  buffer, or all of them want to remove from an empty one.
-/

namespace SysDemos.Sbuf

open Lts Threads

/-- The number of items in the buffer. -/
def State.held {ι : Type*} (s : State ι) : Int := s.stored.length - s.taken.length

/-- Thread `i` has made all its calls. -/
def State.Finished {ι : Type*} (s : State ι) (i : ι) : Prop :=
  (s.threads i).pc = .idle ∧ (s.threads i).prog = []

/-- Waiting at `P(&sp->mutex)`. -/
def atMutex : Pc → Bool
  | .insLock _ | .remLock => true
  | _ => false

variable {ι : Type*} [DecidableEq ι] {n : Int} {s : State ι} {i : ι}

/-- A thread in the critical section can go on. -/
theorem step_of_inCs (h : inCs (s.threads i).pc = 1) : step s i ≠ none := by
  cases hpc : (s.threads i).pc <;> simp_all [step, inCs]

/-- Where a thread is that cannot go on. -/
theorem blocked_cases (h : step s i = none) :
    s.Finished i ∨ ((∃ item, (s.threads i).pc = .insSlots item) ∧ s.sp.slots = 0) ∨
      ((s.threads i).pc = .remItems ∧ s.sp.items = 0) ∨
      (atMutex (s.threads i).pc = true ∧ s.sp.mutex = 0) := by
  cases hpc : (s.threads i).pc with
  | idle =>
      simp only [step, hpc] at h
      split at h
      · next hprog => exact .inl ⟨hpc, hprog⟩
      · contradiction
  | insSlots item => exact .inr (.inl ⟨⟨item, rfl⟩, by simpa [step, hpc] using h⟩)
  | remItems => exact .inr (.inr (.inl ⟨rfl, by simpa [step, hpc] using h⟩))
  | insLock item => exact .inr (.inr (.inr ⟨rfl, by simpa [step, hpc] using h⟩))
  | remLock => exact .inr (.inr (.inr ⟨rfl, by simpa [step, hpc] using h⟩))
  | _ => simp [step, hpc] at h

/-- A thread that cannot go on at `P(&sp->mutex)` finds no permit there. -/
theorem mutex_of_blocked (h : step s i = none) (hi : atMutex (s.threads i).pc = true) :
    s.sp.mutex = 0 := by
  obtain ⟨hpc, -⟩ | ⟨⟨item, hpc⟩, -⟩ | ⟨hpc, -⟩ | ⟨-, hzero⟩ := blocked_cases h
  · rw [hpc] at hi; contradiction
  · rw [hpc] at hi; contradiction
  · rw [hpc] at hi; contradiction
  · exact hzero

variable [Fintype ι]

omit [DecidableEq ι] in
/-- Without a permit of `mutex` a thread is in the critical section. -/
theorem Balance.exists_inCs (h : Balance n s) (hmutex : s.sp.mutex = 0) :
    ∃ j, inCs (s.threads j).pc = 1 := by
  have hone := h.mutex
  obtain ⟨j, -, hj⟩ := Finset.exists_ne_zero_of_sum_ne_zero (show total inCs s.threads ≠ 0 by omega)
  have hle := le_total inCs s.threads j
  have hpos : 0 < inCs (s.threads j).pc := Nat.pos_of_ne_zero hj
  exact ⟨j, by omega⟩

/-- If no thread can go on, none waits for `mutex`, and `slots` and `items` count the free and
the used slots. -/
theorem Balance.of_stuck (h : Balance n s) (hn : 1 ≤ n) (hstuck : ∀ i, Sbuf.step s i = none) :
    0 < s.sp.mutex ∧ (s.sp.slots : Int) + s.held = n ∧ s.held = s.sp.items := by
  have hmutex : 0 < s.sp.mutex := by
    refine Nat.pos_of_ne_zero fun hzero => ?_
    obtain ⟨j, hj⟩ := h.exists_inCs hzero
    exact step_of_inCs hj (hstuck j)
  -- a blocked thread holds no permit of `slots` or `items`
  have hfree : ∀ f : Pc → Nat, (∀ pc, f pc ≠ 0 → pc ≠ .idle ∧ (∀ item, pc ≠ .insSlots item) ∧
      pc ≠ .remItems) → total f s.threads = 0 := by
    intro f hf
    refine Finset.sum_eq_zero fun j _ => ?_
    by_contra hne
    obtain ⟨hidle, hslots, hitems⟩ := hf _ hne
    obtain ⟨hpc, -⟩ | ⟨⟨item, hpc⟩, -⟩ | ⟨hpc, -⟩ | ⟨-, hzero⟩ := blocked_cases (hstuck j)
    · exact hidle hpc
    · exact hslots item hpc
    · exact hitems hpc
    · omega
  have h₁ := hfree holdsSlot fun pc => by cases pc <;> simp [holdsSlot]
  have h₂ := hfree tookItem fun pc => by cases pc <;> simp [tookItem]
  have h₃ := hfree storedItem fun pc => by cases pc <;> simp [storedItem]
  have h₄ := hfree holdsItem fun pc => by cases pc <;> simp [holdsItem]
  have hslots := h.slots
  have hitems := h.items
  unfold State.held
  exact ⟨hmutex, by omega, by omega⟩

/-- **No deadlock**: in every reachable state a thread that waits for `mutex` can have it, or
the thread that has it can go on; and if no thread can go on, the unfinished ones all wait to
insert into a full buffer, or all wait to remove from an empty one. -/
theorem stuck_only_full_or_empty (n : Int) (hn : 1 ≤ n) (progs : ι → List Op) (ls : List ι)
    (s : State ι) (h : Run step any (init n progs) ls s) :
    (∀ i, atMutex (s.threads i).pc = true →
      step s i ≠ none ∨ ∃ j, inCs (s.threads j).pc = 1 ∧ step s j ≠ none) ∧
    ((∀ i, step s i = none) → (∃ i, ¬ s.Finished i) →
      (∀ i, atMutex (s.threads i).pc = false) ∧
      ((∀ i, ¬ s.Finished i → ∃ item, (s.threads i).pc = .insSlots item) ∧ s.held = n ∨
        (∀ i, ¬ s.Finished i → (s.threads i).pc = .remItems) ∧ s.held = 0)) := by
  have hbal := balance_of_run h
  constructor
  · intro i hi
    by_cases hblocked : step s i = none
    · right
      obtain ⟨j, hj⟩ := hbal.exists_inCs (mutex_of_blocked hblocked hi)
      exact ⟨j, hj, step_of_inCs hj⟩
    · exact .inl hblocked
  · rintro hstuck ⟨i, hi⟩
    obtain ⟨hmutex, hfull, hempty⟩ := hbal.of_stuck hn hstuck
    have hwaits : ∀ j, ¬ s.Finished j →
        ((∃ item, (s.threads j).pc = .insSlots item) ∧ s.sp.slots = 0) ∨
          ((s.threads j).pc = .remItems ∧ s.sp.items = 0) := by
      intro j hj
      obtain hdone | hins | hrem | ⟨-, hzero⟩ := blocked_cases (hstuck j)
      · exact absurd hdone hj
      · exact .inl hins
      · exact .inr hrem
      · omega
    refine ⟨fun j => ?_, ?_⟩
    · rw [← Bool.not_eq_true]
      intro hj
      have hzero := mutex_of_blocked (hstuck j) hj
      omega
    -- the first unfinished thread decides which of the two permits is used up
    · obtain ⟨-, hslots⟩ | ⟨-, hitems⟩ := hwaits i hi
      · left
        refine ⟨fun j hj => ?_, by omega⟩
        obtain ⟨hpc, -⟩ | ⟨-, hitems⟩ := hwaits j hj
        · exact hpc
        · omega
      · right
        refine ⟨fun j hj => ?_, by omega⟩
        obtain ⟨-, hslots⟩ | ⟨hpc, -⟩ := hwaits j hj
        · omega
        · exact hpc

/-- A second item for a buffer of one slot that nobody empties. -/
def twoItems (producer : Bool) : List Op := if producer then [.insert 5, .insert 6] else []

theorem stuck_at_full_buffer : ∃ s : State Bool,
    Run step any (init 1 twoItems) (List.replicate 9 true) s ∧
      (s.threads true).pc = .insSlots 6 ∧ (∀ i, step s i = none) ∧ s.held = 1 := by
  have hexec : (exec step (fun _ _ => true) (init 1 twoItems) (List.replicate 9 true)).map
      (fun s => ((step s true).isNone, (step s false).isNone, (s.threads true).pc)) =
        some (true, true, .insSlots 6) := by decide
  obtain ⟨s, hrun, hobs⟩ := exists_run_of_exec _ _ hexec
  simp only [Prod.mk.injEq, Option.isNone_iff_eq_none] at hobs
  obtain ⟨hproducer, hother, hpc⟩ := hobs
  have hstuck : ∀ i, step s i = none := by
    intro i
    cases i with
    | false => exact hother
    | true => exact hproducer
  have hunfinished : ¬ s.Finished true := fun hdone => by
    rw [hdone.1] at hpc
    contradiction
  obtain ⟨-, ⟨-, hheld⟩ | ⟨hempty, -⟩⟩ :=
    (stuck_only_full_or_empty 1 (by decide) _ _ s hrun.toAny).2 hstuck ⟨true, hunfinished⟩
  · exact ⟨s, hrun.toAny, hpc, hstuck, hheld⟩
  · rw [hempty true hunfinished] at hpc
    contradiction

end SysDemos.Sbuf
