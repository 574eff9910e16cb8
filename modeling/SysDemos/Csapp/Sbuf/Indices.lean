import SysDemos.Csapp.Sbuf.Balance
import SysDemos.Lib.Stream

/-!
# SysDemos.Csapp.Sbuf.Indices

The indices of the ring in runs of any length.

`front` and `rear` are never reduced.  After `2 ^ 31` increments an `int` is negative, and so
is then the remainder `% n`, unless `n` divides it.  The invariant `Turns` therefore speaks of
the wrapped counters (`counterAt`), and needs no bound on the number of calls.

* `indices_valid_iff` — up to which number of accesses the indices are those of a ring.
-/

namespace SysDemos.Sbuf

open Lts Threads

variable {ι : Type*}

/-! ## counters that wrap -/

/-- `rear` or `front` after `k` increments. -/
def counterAt (k : Nat) : Int := Int.bmod k (2 ^ 32)

/-- The index of the `k`-th access, counted from zero. -/
def indexAt (n : Int) (k : Nat) : Int := (counterAt (k + 1)).tmod n

theorem incr_counterAt (k : Nat) : incr (counterAt k) = counterAt (k + 1) := by
  unfold incr counterAt
  rw [Int.bmod_add_bmod]
  rfl

/-- Below the limit of an `int` nothing wraps. -/
theorem counterAt_of_lt {k : Nat} (h : k < 2 ^ 31) : counterAt k = k := by
  unfold counterAt
  rw [Int.bmod_eq_of_le] <;> omega

theorem counterAt_limit : counterAt (2 ^ 31) = -2 ^ 31 := by decide

theorem counterAt_past_limit : counterAt (2 ^ 31 + 1) = -2 ^ 31 + 1 := by decide

/-- A buffer of `n` slots can have been accessed `m` times with all indices those of a ring:
the counter has not left the range of an `int`, or the first value past it is a multiple of
`n`; with one slot every value is. -/
def WithinRange (n : Int) (m : Nat) : Prop := n = 1 ∨ m < 2 ^ 31 ∨ m = 2 ^ 31 ∧ n ∣ 2 ^ 31

/-- All indices are inside the array. -/
def Inside (n : Int) (as : List (Access ι)) : Prop := ∀ a ∈ as, 0 ≤ a.slot ∧ a.slot < n

/-- Consecutive accesses are of cyclically consecutive slots. -/
def Cyclic (n : Int) (as : List (Access ι)) : Prop :=
  ∀ k a b, as[k]? = some a → as[k + 1]? = some b → b.slot = (a.slot + 1) % n

/-- Within the range an index is the remainder that is meant. -/
theorem indexAt_of_withinRange {n : Int} {m k : Nat} (h : WithinRange n m) (hk : k < m) :
    indexAt n k = ((k : Int) + 1) % n := by
  unfold indexAt
  by_cases hlt : k + 1 < 2 ^ 31
  · rw [counterAt_of_lt hlt, Int.tmod_eq_emod_of_nonneg (by omega)]
    rfl
  · obtain rfl | hm | ⟨hm, hdvd⟩ := h
    · rw [Int.tmod_one, Int.emod_one]
    · omega
    · obtain rfl : k = 2 ^ 31 - 1 := by omega
      rw [show 2 ^ 31 - 1 + 1 = 2 ^ 31 from rfl, counterAt_limit, Int.neg_tmod,
        Int.tmod_eq_zero_of_dvd hdvd]
      exact (Int.emod_eq_zero_of_dvd hdvd).symm

/-- Accesses with the indices of the counter, as many as its range allows. -/
theorem inside_and_cyclic {n : Int} (hn : 1 ≤ n) {as : List (Access ι)}
    (has : ∀ k a, as[k]? = some a → a.slot = indexAt n k) (h : WithinRange n as.length) :
    Inside n as ∧ Cyclic n as := by
  have hslot : ∀ (k : Nat) a, as[k]? = some a → a.slot = ((k : Int) + 1) % n := fun k a hk => by
    rw [has k a hk, indexAt_of_withinRange h (List.getElem?_eq_some_iff.mp hk).1]
  constructor
  · intro a ha
    obtain ⟨k, hk⟩ := List.mem_iff_getElem?.mp ha
    rw [hslot k a hk]
    exact ⟨Int.emod_nonneg _ (by omega), Int.emod_lt_of_pos _ (by omega)⟩
  · intro k a b ha hb
    rw [hslot k a ha, hslot (k + 1) b hb, Int.emod_add_emod]
    push_cast
    rfl

/-- A remainder of a negative counter that is inside the array is zero. -/
theorem dvd_of_inside {n x : Int} (hx : 0 ≤ x) (h : 0 ≤ (-x).tmod n) : n ∣ x := by
  rw [Int.neg_tmod] at h
  have hpos := Int.tmod_nonneg n hx
  exact Int.dvd_of_tmod_eq_zero (by omega)

/-- Past the range an index is outside the array. -/
theorem withinRange_of_inside {n : Int} (hn : 1 ≤ n) {as : List (Access ι)}
    (has : ∀ k a, as[k]? = some a → a.slot = indexAt n k) (h : Inside n as) :
    WithinRange n as.length := by
  have hslot : ∀ k, k < as.length → 0 ≤ indexAt n k := fun k hk => by
    rw [← has k _ (List.getElem?_eq_getElem hk)]
    exact (h _ (List.getElem_mem hk)).1
  by_cases hlt : as.length < 2 ^ 31
  · exact .inr (.inl hlt)
  · have hfirst := hslot (2 ^ 31 - 1) (by omega)
    rw [indexAt, show 2 ^ 31 - 1 + 1 = 2 ^ 31 from rfl, counterAt_limit] at hfirst
    have hdvd : n ∣ 2 ^ 31 := dvd_of_inside (by decide) hfirst
    by_cases heq : as.length = 2 ^ 31
    · exact .inr (.inr ⟨heq, hdvd⟩)
    · -- two neighbouring values are multiples of `n`
      have hsecond := hslot (2 ^ 31) (by omega)
      rw [indexAt, counterAt_past_limit, show (-2 ^ 31 + 1 : Int) = -(2 ^ 31 - 1) from rfl]
        at hsecond
      have hdvd' : n ∣ 2 ^ 31 - 1 := dvd_of_inside (by decide) hsecond
      have hone : n ∣ 1 := by simpa using Int.dvd_sub hdvd hdvd'
      exact .inl (Int.eq_one_of_dvd_one (by omega) hone)

/-! ## the invariant -/

section
variable [Fintype ι]

/-- The balances of the permits and the wrapped counters. -/
structure Turns (n : Int) (s : State ι) : Prop extends Balance n s where
  rear : s.sp.rear = counterAt (s.stored.length + total atStore s.threads)
  front : s.sp.front = counterAt (s.taken.length + total atTake s.threads)
  stored : ∀ k a, s.stored[k]? = some a → a.slot = indexAt n k
  taken : ∀ k a, s.taken[k]? = some a → a.slot = indexAt n k

variable {n : Int} {s s' : State ι} {i : ι}

theorem turns_init (progs : ι → List Op) : Turns n (init n progs) := by
  have hzero : (0 : Int) = counterAt 0 := (counterAt_of_lt (by decide)).symm
  refine ⟨balance_init progs, ?_, ?_, by simp [init], by simp [init]⟩
  · rw [total_init progs rfl]
    exact hzero
  · rw [total_init progs rfl]
    exact hzero

variable [DecidableEq ι]

theorem Turns.quiet {x : Thread} (h : Turns n s) (hq : Quiet s s' i x) : Turns n s' := by
  obtain ⟨hthreads, ⟨-, -, hrear, hfront⟩, ⟨hst, htk, -, -⟩, hold, hnew, -⟩ := id hq
  obtain ⟨-, -, -, -, -, -, -, ustore, utake⟩ := totals_update s.threads i x
  have hstore : total atStore s'.threads = total atStore s.threads := by rw [hthreads]; omega
  have htake : total atTake s'.threads = total atTake s.threads := by rw [hthreads]; omega
  refine ⟨h.toBalance.quiet hq, ?_, ?_, ?_, ?_⟩
  · rw [hrear, hst, hstore]
    exact h.rear
  · rw [hfront, htk, htake]
    exact h.front
  · rw [hst]
    exact h.stored
  · rw [htk]
    exact h.taken

/-- The counters while thread `i` is at `pc` in the critical section. -/
theorem Turns.counters {pc : Pc} (h : Turns n s) (hpc : (s.threads i).pc = pc) (hi : inCs pc = 1) :
    s.sp.rear = counterAt (s.stored.length + atStore pc) ∧
      s.sp.front = counterAt (s.taken.length + atTake pc) := by
  subst hpc
  rw [← h.total_eq hi atStore atStore_of_inCs, ← h.total_eq hi atTake atTake_of_inCs]
  exact ⟨h.rear, h.front⟩

/-- An access of thread `i` that leaves it in the critical section. -/
theorem turns_of_access {x : Thread} (hbal : Balance n s')
    (hthreads : s'.threads = Function.update s.threads i x) (hx : inCs x.pc = 1)
    (hrear : s'.sp.rear = counterAt (s'.stored.length + atStore x.pc))
    (hfront : s'.sp.front = counterAt (s'.taken.length + atTake x.pc))
    (hst : ∀ k a, s'.stored[k]? = some a → a.slot = indexAt n k)
    (htk : ∀ k a, s'.taken[k]? = some a → a.slot = indexAt n k) : Turns n s' := by
  have hpc : (s'.threads i).pc = x.pc := by rw [hthreads, Function.update_self]
  have hcs : inCs (s'.threads i).pc = 1 := by rw [hpc, hx]
  refine ⟨hbal, ?_, ?_, hst, htk⟩
  · rw [hbal.total_eq hcs atStore atStore_of_inCs, hpc]
    exact hrear
  · rw [hbal.total_eq hcs atTake atTake_of_inCs, hpc]
    exact hfront

omit [Fintype ι] [DecidableEq ι] in
/-- One more access, with the index of the counter. -/
theorem slot_snoc {as : List (Access ι)} {b : Access ι}
    (h : ∀ k a, as[k]? = some a → a.slot = indexAt n k) (hb : b.slot = indexAt n as.length)
    (k : Nat) (a : Access ι) (hk : (as ++ [b])[k]? = some a) : a.slot = indexAt n k := by
  rcases Stream.getElem?_snoc hk with ⟨-, hold⟩ | ⟨rfl, rfl⟩
  · exact h k a hold
  · exact hb

theorem Turns.step (h : Turns n s) (hs : Step s i s') : Turns n s' := by
  have hbal := h.toBalance.step hs
  have hcur := h.current i
  cases hs with
  | quiet hq => exact h.quiet hq
  | @insBump item r hpc =>
      obtain ⟨hrear, hfront⟩ := h.counters hpc rfl
      rw [hpc] at hcur
      have hr : r = s.sp.rear := hcur
      refine turns_of_access hbal rfl rfl ?_ hfront h.stored h.taken
      simp only [atStore, State.goto, Nat.add_zero] at hrear ⊢
      rw [hr, hrear, incr_counterAt]
  | @insStore item x hpc =>
      obtain ⟨hrear, hfront⟩ := h.counters hpc rfl
      rw [hpc] at hcur
      have hx : x = s.sp.rear := hcur
      refine turns_of_access hbal rfl rfl ?_ hfront (slot_snoc h.stored ?_) h.taken
      · rw [List.length_append]
        exact hrear
      · simp only [hx, hrear, h.cap, atStore, indexAt]
  | @remBump r hpc =>
      obtain ⟨hrear, hfront⟩ := h.counters hpc rfl
      rw [hpc] at hcur
      have hr : r = s.sp.front := hcur
      refine turns_of_access hbal rfl rfl hrear ?_ h.stored h.taken
      simp only [atTake, State.goto, Nat.add_zero] at hfront ⊢
      rw [hr, hfront, incr_counterAt]
  | @remTake x hpc =>
      obtain ⟨hrear, hfront⟩ := h.counters hpc rfl
      rw [hpc] at hcur
      have hx : x = s.sp.front := hcur
      refine turns_of_access hbal rfl rfl hrear ?_ h.stored (slot_snoc h.taken ?_)
      · rw [List.length_append]
        exact hfront
      · simp only [hx, hfront, h.cap, atTake, indexAt]

/-- The invariant holds in every reachable state, however many calls have been made. -/
theorem turns_of_run {progs : ι → List Op} {ls : List ι}
    (h : Run Sbuf.step any (init n progs) ls s) : Turns n s :=
  Run.inv (I := Turns n) (turns_init progs) (fun _ _ _ ih _ hs => ih.step (step_cases hs)) h

/-- **The indices of the ring**: in a run of any length all indices are inside the array and
consecutive ones cyclically consecutive if and only if neither counter has left the range in
which its remainders are meant. -/
theorem indices_valid_iff (n : Int) (hn : 1 ≤ n) (progs : ι → List Op) (ls : List ι)
    (s : State ι) (h : Run Sbuf.step any (init n progs) ls s) :
    (Inside n s.stored ∧ Cyclic n s.stored) ∧ (Inside n s.taken ∧ Cyclic n s.taken) ↔
      WithinRange n s.stored.length ∧ WithinRange n s.taken.length := by
  have hturns := turns_of_run h
  constructor
  · rintro ⟨⟨hstored, -⟩, htaken, -⟩
    exact ⟨withinRange_of_inside hn hturns.stored hstored,
      withinRange_of_inside hn hturns.taken htaken⟩
  · rintro ⟨hstored, htaken⟩
    exact ⟨inside_and_cyclic hn hturns.stored hstored, inside_and_cyclic hn hturns.taken htaken⟩

/-- Two items through a buffer of two slots. -/
theorem indices_valid_two_slots : ∃ s : State Unit,
    Run Sbuf.step any (init 2 fun _ => [.insert 5, .insert 6]) (List.replicate 16 ()) s ∧
    s.stored.map Access.slot = [1, 0] ∧ Inside 2 s.stored ∧ Cyclic 2 s.stored := by
  have hexec : (exec Sbuf.step (fun _ _ => true)
      (init 2 (fun _ : Unit => [.insert 5, .insert 6])) (List.replicate 16 ())).map
      (fun s => (s.stored.map Access.slot, s.stored.length, s.taken.length)) =
        some ([1, 0], 2, 0) := by decide
  obtain ⟨s, hrun, hobs⟩ := exists_run_of_exec _ _ hexec
  simp only [Prod.mk.injEq] at hobs
  obtain ⟨hslots, hst, htk⟩ := hobs
  have hvalid := (indices_valid_iff 2 (by decide) _ _ s hrun.toAny).mpr
    ⟨.inr (.inl (by omega)), .inr (.inl (by omega))⟩
  exact ⟨s, hrun.toAny, hslots, hvalid.1⟩

end

/-! ## one thread that goes on long enough -/

/-- A call of each kind, `k` times over. -/
def rounds (k : Nat) : List Op := (List.replicate k [Op.insert 0, Op.remove]).flatten

/-- The only thread is between calls, with `prog` to do, after `k` calls of each kind. -/
structure Rested (prog : List Op) (k : Nat) (s : State Unit) : Prop where
  thread : s.threads () = ⟨prog, .idle⟩
  mutex : s.sp.mutex = 1
  slots : 0 < s.sp.slots
  stored : s.stored.length = k
  taken : s.taken.length = k

/-- One item in and out again. -/
theorem Rested.round {prog : List Op} {k : Nat} {s : State Unit}
    (h : Rested (.insert 0 :: .remove :: prog) k s) :
    ∃ ls s', Run step any s ls s' ∧ Rested prog (k + 1) s' := by
  have hslots := h.slots
  have hexec : (exec step (fun _ _ => true) s (List.replicate 16 ())).map
      (fun s => (s.threads (), s.sp.mutex, s.sp.slots, s.stored.length, s.taken.length)) =
        some (⟨prog, .idle⟩, 1, s.sp.slots, k + 1, k + 1) := by
    simp [exec, List.replicate, step, State.call, State.goto, h.thread, h.mutex, h.stored, h.taken,
      hslots, Nat.sub_add_cancel hslots]
  obtain ⟨s', hrun, hobs⟩ := exists_run_of_exec _ _ hexec
  simp only [Prod.mk.injEq] at hobs
  obtain ⟨hthread, hmutex, hslots', hstored, htaken⟩ := hobs
  exact ⟨_, s', hrun.toAny, hthread, hmutex, by omega, hstored, htaken⟩

theorem Rested.rounds {k m : Nat} {s : State Unit} (h : Rested (rounds k) m s) :
    ∃ ls s', Run step any s ls s' ∧ Rested [] (m + k) s' := by
  induction k generalizing m s with
  | zero => exact ⟨[], s, .nil, h⟩
  | succ k ih =>
      obtain ⟨ls, s₁, hrun, h₁⟩ := Rested.round h
      obtain ⟨ls', s', hrun', h'⟩ := ih h₁
      exact ⟨ls ++ ls', s', hrun.append hrun', by rwa [Nat.add_assoc, Nat.add_comm 1 k] at h'⟩

/-- With three slots the `2 ^ 31`-th item is stored outside the array. -/
theorem indices_leave_ring : ¬ ∀ (n : Int), 1 ≤ n → ∀ (progs : Unit → List Op) (ls : List Unit)
    (s : State Unit), Run step any (init n progs) ls s →
      (Inside n s.stored ∧ Cyclic n s.stored) ∧ (Inside n s.taken ∧ Cyclic n s.taken) := by
  intro hall
  have hstart : Rested (Sbuf.rounds (2 ^ 31)) 0 (init 3 fun _ => Sbuf.rounds (2 ^ 31)) :=
    ⟨rfl, rfl, by decide, rfl, rfl⟩
  obtain ⟨ls, s, hrun, hs⟩ := hstart.rounds
  have hinside := (hall 3 (by decide) _ ls s hrun).1.1
  have hrange := withinRange_of_inside (by decide) (turns_of_run hrun).stored hinside
  rw [hs.stored] at hrange
  obtain hone | hlt | ⟨-, hdvd⟩ := hrange
  · omega
  · omega
  · omega

end SysDemos.Sbuf
