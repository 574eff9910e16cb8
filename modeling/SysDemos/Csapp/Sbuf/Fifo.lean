import SysDemos.Csapp.Sbuf.Balance
import SysDemos.Lib.Stream

/-!
# SysDemos.Csapp.Sbuf.Fifo

The bounded buffer is a FIFO under every interleaving of its threads.

The proof is one counting invariant (`Inv`): to the balances of the permits
(`Balance`) it adds the counters and the histories, as long as the counters
do not wrap.  Mutual exclusion makes the loaded counter values current; the
balances keep an insertion away from the slots that are still to be read.
-/

namespace SysDemos.Sbuf

open Lts Threads

variable {ι : Type*} [Fintype ι]

/-! ## slots of the ring -/

/-- The slot of the `k`-th item, counted from zero. -/
def slotOf (n : Int) (k : Nat) : Int := ((k : Int) + 1).tmod n

/-- Two items less than `n` apart are in different slots. -/
theorem slotOf_ne {n : Int} {k l : Nat} (hkl : k < l) (hn : (l : Int) - k < n) :
    slotOf n k ≠ slotOf n l := by
  intro heq
  simp only [slotOf] at heq
  rw [Int.tmod_eq_emod_of_nonneg (by omega), Int.tmod_eq_emod_of_nonneg (by omega)] at heq
  have hdvd : n ∣ ((l : Int) + 1) - (k + 1) := Int.ModEq.dvd heq
  have hle := Int.le_of_dvd (by omega) hdvd
  omega

/-- Below the limit of a 32-bit `int` the increment does not wrap. -/
theorem incr_eq {x : Int} (h₀ : 0 ≤ x) (h : x + 1 < 2 ^ 31) : incr x = x + 1 := by
  unfold incr
  rw [Int.bmod_eq_of_le] <;> omega

/-! ## the invariant -/

/-- The counting invariant. -/
structure Inv (n : Int) (s : State ι) : Prop extends Balance n s where
  rear : s.sp.rear = s.stored.length + total atStore s.threads
  front : s.sp.front = s.taken.length + total atTake s.threads
  slot : ∀ k a, s.stored[k]? = some a → a.slot = slotOf n k
  ring : ∀ k a, s.stored[k]? = some a → s.taken.length ≤ k → s.sp.buf (slotOf n k) = a.value
  fifo : s.taken.map Access.value = (s.stored.map Access.value).take s.taken.length
  rearDone : total atStore s.threads = 0 → s.rearOrder = s.stored.map Access.thread
  rearOpen : ∀ i, atStore (s.threads i).pc = 1 → s.rearOrder = s.stored.map Access.thread ++ [i]
  frontDone : total atTake s.threads = 0 → s.frontOrder = s.taken.map Access.thread
  frontOpen : ∀ i, atTake (s.threads i).pc = 1 → s.frontOrder = s.taken.map Access.thread ++ [i]
  insStarted : s.stored.length + total insOpen s.threads ≤ s.insStarted
  remStarted : s.taken.length + total remOpen s.threads ≤ s.remStarted

variable [DecidableEq ι] {n : Int} {s s' : State ι} {i : ι}

omit [DecidableEq ι] in
theorem inv_init (progs : ι → List Op) : Inv n (init n progs) :=
  { balance_init progs with
    rear := by rw [total_init progs rfl]; rfl
    front := by rw [total_init progs rfl]; rfl
    slot := by simp [init]
    ring := by simp [init]
    fifo := rfl
    rearDone := fun _ => rfl
    rearOpen := fun _ hi => absurd hi (by simp [init, atStore])
    frontDone := fun _ => rfl
    frontOpen := fun _ hi => absurd hi (by simp [init, atTake])
    insStarted := by rw [total_init progs rfl]; exact Nat.le_refl _
    remStarted := by rw [total_init progs rfl]; exact Nat.le_refl _ }

/-- A quiet step changes no counter and none of the histories. -/
theorem Inv.quiet {x : Thread} (h : Inv n s) (hq : Quiet s s' i x) : Inv n s' := by
  have hbal := h.toBalance.quiet hq
  obtain ⟨hthreads, hsp, hlog, hold, hnew, -, -, -, -, hins, hrem⟩ := id hq
  obtain ⟨-, hbuf, hrear, hfront⟩ := hsp
  obtain ⟨hst, htk, hro, hfo⟩ := hlog
  obtain ⟨-, uins, -, -, urem, -, -, ustore, utake⟩ := totals_update s.threads i x
  have h₄ := h.insStarted
  have h₅ := h.remStarted
  have hstore : total atStore s'.threads = total atStore s.threads := by rw [hthreads]; omega
  have htake : total atTake s'.threads = total atTake s.threads := by rw [hthreads]; omega
  refine
    { hbal with
      rear := by rw [hrear, hst, hstore]; exact h.rear
      front := by rw [hfront, htk, htake]; exact h.front
      slot := by rw [hst]; exact h.slot
      ring := by rw [hst, htk, hbuf]; exact h.ring, fifo := by rw [hst, htk]; exact h.fifo
      rearDone := by rw [hst, hro, hstore]; exact h.rearDone, rearOpen := ?_
      frontDone := by rw [htk, hfo, htake]; exact h.frontDone, frontOpen := ?_
      insStarted := by rw [hst, hthreads]; omega, remStarted := by rw [htk, hthreads]; omega }
  · intro j hj
    rcases hq.thread j with ⟨hx, -⟩ | hx
    · rw [hx] at hj; omega
    · rw [hx] at hj; rw [hst, hro]; exact h.rearOpen j hj
  · intro j hj
    rcases hq.thread j with ⟨hx, -⟩ | hx
    · rw [hx] at hj; omega
    · rw [hx] at hj; rw [htk, hfo]; exact h.frontOpen j hj

omit [DecidableEq ι] in
/-- A thread past the increment of `rear` still holds its permit. -/
theorem Inv.store_le (h : Inv n s) :
    total atStore s.threads ≤ total holdsSlot s.threads ∧ total atStore s.threads ≤ 1 := by
  have hpc : ∀ pc, atStore pc ≤ holdsSlot pc ∧ atStore pc ≤ inCs pc := fun pc => by
    cases pc <;> simp [atStore, holdsSlot, inCs]
  have hcs : total atStore s.threads ≤ total inCs s.threads :=
    total_le_total (fun pc => (hpc pc).2) s.threads
  have hone := h.mutex
  exact ⟨total_le_total (fun pc => (hpc pc).1) s.threads, by omega⟩

omit [DecidableEq ι] in
/-- A thread past the increment of `front` still holds its permit. -/
theorem Inv.take_le (h : Inv n s) :
    total atTake s.threads ≤ total holdsItem s.threads ∧ total atTake s.threads ≤ 1 := by
  have hpc : ∀ pc, atTake pc ≤ holdsItem pc ∧ atTake pc ≤ inCs pc := fun pc => by
    cases pc <;> simp [atTake, holdsItem, inCs]
  have hcs : total atTake s.threads ≤ total inCs s.threads :=
    total_le_total (fun pc => (hpc pc).2) s.threads
  have hone := h.mutex
  exact ⟨total_le_total (fun pc => (hpc pc).1) s.threads, by omega⟩

/-! ## the four steps of the critical section that change something -/

/-- A thread with a weight of the critical section is the one that is there. -/
theorem Balance.eq_of_weight (h : Balance n s) (hi : inCs (s.threads i).pc = 1) {f : Pc → Nat}
    (hf : ∀ pc, inCs pc = 0 → f pc = 0) {j : ι} (hj : f (s.threads j).pc = 1) : j = i := by
  by_contra hne
  rw [hf _ (h.alone hi hne)] at hj
  contradiction

/-- What the counters and the histories are while thread `i` is at `pc` in the critical section:
it has incremented `rear` or `front` if it is before its access, and nobody else has. -/
structure AtWork (s : State ι) (i : ι) (pc : Pc) : Prop where
  rear : s.sp.rear = s.stored.length + atStore pc
  front : s.sp.front = s.taken.length + atTake pc
  rearOrder : s.rearOrder = s.stored.map Access.thread ++ List.replicate (atStore pc) i
  frontOrder : s.frontOrder = s.taken.map Access.thread ++ List.replicate (atTake pc) i

theorem Inv.atWork {pc : Pc} (h : Inv n s) (hpc : (s.threads i).pc = pc) (hi : inCs pc = 1) :
    AtWork s i pc := by
  subst hpc
  have hst := h.toBalance.total_eq hi atStore atStore_of_inCs
  have htk := h.toBalance.total_eq hi atTake atTake_of_inCs
  have hle := h.store_le.2
  have hle' := h.take_le.2
  refine ⟨by rw [h.rear, hst], by rw [h.front, htk], ?_, ?_⟩
  · obtain hzero | hone := Nat.le_one_iff_eq_zero_or_eq_one.mp (hst ▸ hle)
    · rw [h.rearDone (hst.trans hzero), hzero]
      simp
    · rw [h.rearOpen i hone, hone]
      rfl
  · obtain hzero | hone := Nat.le_one_iff_eq_zero_or_eq_one.mp (htk ▸ hle')
    · rw [h.frontDone (htk.trans hzero), hzero]
      simp
    · rw [h.frontOpen i hone, hone]
      rfl

/-- An access of thread `i` that leaves it in the critical section. -/
theorem Inv.access {x : Thread} (h : Inv n s) (hbal : Balance n s')
    (hthreads : s'.threads = Function.update s.threads i x) (hx : inCs x.pc = 1)
    (hwork : AtWork s' i x.pc) (hslot : ∀ k a, s'.stored[k]? = some a → a.slot = slotOf n k)
    (hring : ∀ k a, s'.stored[k]? = some a → s'.taken.length ≤ k →
      s'.sp.buf (slotOf n k) = a.value)
    (hfifo : s'.taken.map Access.value = (s'.stored.map Access.value).take s'.taken.length)
    (hins : s'.stored.length + insOpen x.pc = s.stored.length + insOpen (s.threads i).pc ∧
      s'.insStarted = s.insStarted)
    (hrem : s'.taken.length + remOpen x.pc = s.taken.length + remOpen (s.threads i).pc ∧
      s'.remStarted = s.remStarted) : Inv n s' := by
  have hpc : (s'.threads i).pc = x.pc := by rw [hthreads, Function.update_self]
  have hcs : inCs (s'.threads i).pc = 1 := by rw [hpc, hx]
  have hst : total atStore s'.threads = atStore x.pc := by
    rw [hbal.total_eq hcs atStore atStore_of_inCs, hpc]
  have htk : total atTake s'.threads = atTake x.pc := by
    rw [hbal.total_eq hcs atTake atTake_of_inCs, hpc]
  obtain ⟨-, uins, -, -, urem, -, -, -, -⟩ := totals_update s.threads i x
  rw [← hthreads] at uins urem
  have h₁ := h.insStarted
  have h₂ := h.remStarted
  refine
    { hbal with
      rear := by rw [hst]; exact hwork.rear, front := by rw [htk]; exact hwork.front
      slot := hslot, ring := hring, fifo := hfifo
      rearDone := fun hzero => ?_, rearOpen := fun j hj => ?_
      frontDone := fun hzero => ?_, frontOpen := fun j hj => ?_
      insStarted := by omega, remStarted := by omega }
  · rw [hwork.rearOrder, ← hst, hzero]
    simp
  · obtain rfl := hbal.eq_of_weight hcs atStore_of_inCs hj
    rw [hwork.rearOrder, ← hpc, hj]
    rfl
  · rw [hwork.frontOrder, ← htk, hzero]
    simp
  · obtain rfl := hbal.eq_of_weight hcs atTake_of_inCs hj
    rw [hwork.frontOrder, ← hpc, hj]
    rfl

/-- `++sp->rear`, with the value just loaded. -/
theorem inv_insBump {item r : Int} (h : Inv n s) (hpc : (s.threads i).pc = .insBump item r)
    (hs : step s i = some s') (hbal : Balance n s') (hb : s.insStarted < 2 ^ 31) : Inv n s' := by
  obtain ⟨hrear, hfront, hro, hfo⟩ := h.atWork hpc rfl
  have hcur := h.current i
  have hopen := le_total insOpen s.threads i
  have hins := h.insStarted
  simp only [hpc, Current, atStore, atTake, insOpen] at hcur hopen hrear hfront hro hfo
  have hincr : incr r = s.stored.length + 1 := by
    rw [incr_eq (by omega) (by omega), hcur, hrear]
    simp
  simp only [step, hpc, Option.some.injEq] at hs
  subst hs
  refine h.access hbal rfl rfl ⟨hincr, hfront, ?_, hfo⟩ h.slot h.ring h.fifo
    (by rw [hpc]; exact ⟨rfl, rfl⟩) (by rw [hpc]; exact ⟨rfl, rfl⟩)
  rw [hro]
  simp [State.goto, atStore]

/-- The store into the slot: all items still to be read are in other
slots, because the thread holds a permit of `slots`. -/
theorem inv_insStore {item x : Int} (h : Inv n s) (hpc : (s.threads i).pc = .insStore item x)
    (hs : step s i = some s') (hbal : Balance n s') : Inv n s' := by
  obtain ⟨hrear, hfront, hro, hfo⟩ := h.atWork hpc rfl
  have hcur := h.current i
  have hhold := le_total holdsSlot s.threads i
  have hslots := h.slots
  have hitems := h.items
  simp only [hpc, Current, atStore, atTake, holdsSlot] at hcur hhold hrear hfront hro hfo
  have hslot : x.tmod s.sp.n = slotOf n s.stored.length := by
    rw [h.cap, slotOf, hcur, hrear]
    rfl
  simp only [step, hpc, Option.some.injEq] at hs
  subst hs
  refine h.access hbal rfl rfl ⟨?_, hfront, ?_, hfo⟩ ?_ ?_ ?_
    (by rw [hpc]; simp [State.goto, insOpen]) (by rw [hpc]; exact ⟨rfl, rfl⟩)
  · rw [List.length_append]
    exact hrear
  · rw [List.map_append]
    simpa [State.goto, atStore] using hro
  · intro k a hk
    rcases Stream.getElem?_snoc hk with ⟨-, hold⟩ | ⟨rfl, rfl⟩
    · exact h.slot k a hold
    · exact hslot
  · intro k a hk htk
    rcases Stream.getElem?_snoc hk with ⟨hlt, hold⟩ | ⟨rfl, rfl⟩
    · have hne : slotOf n k ≠ slotOf n s.stored.length := slotOf_ne hlt (by
        simp only [State.goto] at htk
        omega)
      simp only [hslot, Function.update_of_ne hne]
      exact h.ring k a hold htk
    · simp only [hslot, Function.update_self]
  · simp only [List.map_append, State.goto]
    rw [List.take_append_of_le_length (by rw [List.length_map]; omega)]
    exact h.fifo

/-- `++sp->front`, with the value just loaded. -/
theorem inv_remBump {r : Int} (h : Inv n s) (hpc : (s.threads i).pc = .remBump r)
    (hs : step s i = some s') (hbal : Balance n s') (hb : s.remStarted < 2 ^ 31) : Inv n s' := by
  obtain ⟨hrear, hfront, hro, hfo⟩ := h.atWork hpc rfl
  have hcur := h.current i
  have hopen := le_total remOpen s.threads i
  have hrem := h.remStarted
  simp only [hpc, Current, atStore, atTake, remOpen] at hcur hopen hrear hfront hro hfo
  have hincr : incr r = s.taken.length + 1 := by
    rw [incr_eq (by omega) (by omega), hcur, hfront]
    simp
  simp only [step, hpc, Option.some.injEq] at hs
  subst hs
  refine h.access hbal rfl rfl ⟨hrear, hincr, hro, ?_⟩ h.slot h.ring h.fifo
    (by rw [hpc]; exact ⟨rfl, rfl⟩) (by rw [hpc]; exact ⟨rfl, rfl⟩)
  rw [hfo]
  simp [State.goto, atTake]

/-- The read of the slot gives the oldest item not yet taken, which is
there because the thread holds a permit of `items`. -/
theorem inv_remTake {x : Int} (h : Inv n s) (hpc : (s.threads i).pc = .remTake x)
    (hs : step s i = some s') (hbal : Balance n s') : Inv n s' := by
  obtain ⟨hrear, hfront, hro, hfo⟩ := h.atWork hpc rfl
  have hcur := h.current i
  have hhold := le_total holdsItem s.threads i
  have hitems := h.items
  simp only [hpc, Current, atStore, atTake, holdsItem] at hcur hhold hrear hfront hro hfo
  have hslot : x.tmod s.sp.n = slotOf n s.taken.length := by
    rw [h.cap, slotOf, hcur, hfront]
    rfl
  have hlt : s.taken.length < s.stored.length := by omega
  have hvalue : s.sp.buf (x.tmod s.sp.n) = s.stored[s.taken.length].value := by
    rw [hslot]
    exact h.ring _ _ (List.getElem?_eq_getElem hlt) (Nat.le_refl _)
  simp only [step, hpc, Option.some.injEq] at hs
  subst hs
  refine h.access hbal rfl rfl ⟨hrear, ?_, hro, ?_⟩ h.slot ?_ ?_
    (by rw [hpc]; exact ⟨rfl, rfl⟩) (by rw [hpc]; simp [State.goto, remOpen])
  · rw [List.length_append]
    exact hfront
  · rw [List.map_append]
    simpa [State.goto, atTake] using hfo
  · intro k a hk hle
    simp only [List.length_append, List.length_singleton] at hle
    exact h.ring k a hk (by omega)
  · simp only [List.map_append, List.map_cons, List.map_nil, List.length_append,
      List.length_singleton, State.goto]
    rw [List.take_add_one, ← h.fifo, List.getElem?_map, List.getElem?_eq_getElem hlt, hvalue]
    rfl

/-! ## runs -/

omit [Fintype ι] in
/-- The counters of started calls never decrease. -/
theorem started_mono (hs : step s i = some s') :
    s.insStarted ≤ s'.insStarted ∧ s.remStarted ≤ s'.remStarted := by
  cases hpc : (s.threads i).pc with
  | idle =>
      simp only [step, hpc] at hs
      split at hs
      · contradiction
      · next op prog _ =>
          rw [Option.some.injEq] at hs
          subst hs
          cases op <;> simp [State.call]
  | _ =>
      simp only [step, hpc, State.goto] at hs
      try split at hs
      all_goals first
        | contradiction
        | (rw [Option.some.injEq] at hs; subst hs; exact ⟨Nat.le_refl _, Nat.le_refl _⟩)

/-- Every step keeps the invariant while the calls started stay below the
limit of the `int` counters. -/
theorem inv_step (h : Inv n s) (hs : step s i = some s') (hi : s'.insStarted < 2 ^ 31)
    (hr : s'.remStarted < 2 ^ 31) : Inv n s' := by
  obtain ⟨himono, hrmono⟩ := started_mono hs
  have hi' : s.insStarted < 2 ^ 31 := by omega
  have hr' : s.remStarted < 2 ^ 31 := by omega
  have hbal := h.toBalance.step (step_cases hs)
  cases step_cases hs with
  | quiet hq => exact h.quiet hq
  | insBump hpc => exact inv_insBump h hpc hs hbal hi'
  | insStore hpc => exact inv_insStore h hpc hs hbal
  | remBump hpc => exact inv_remBump h hpc hs hbal hr'
  | remTake hpc => exact inv_remTake h hpc hs hbal

/-- The invariant holds in every state reached before either kind of call
has been started `2 ^ 31` times. -/
theorem run_inv {progs : ι → List Op} {ls : List ι} (h : Run step any (init n progs) ls s)
    (hi : s.insStarted < 2 ^ 31) (hr : s.remStarted < 2 ^ 31) : Inv n s := by
  refine Run.inv (I := fun s => s.insStarted < 2 ^ 31 → s.remStarted < 2 ^ 31 → Inv n s)
    (fun _ _ => inv_init progs) ?_ h hi hr
  intro s l s' ih _ hs hi hr
  obtain ⟨himono, hrmono⟩ := started_mono hs
  exact inv_step (ih (by omega) (by omega)) hs hi hr

/-- The slot a thread is about to write holds no item still to be taken. -/
theorem Inv.store_free (h : Inv n s) {item x : Int} (hpc : (s.threads i).pc = .insStore item x)
    {k : Nat} {a : Access ι} (hk : s.stored[k]? = some a) (hle : s.taken.length ≤ k) :
    a.slot ≠ x.tmod s.sp.n := by
  have hcs : inCs (s.threads i).pc = 1 := by rw [hpc]; rfl
  have hst := h.toBalance.total_eq hcs atStore atStore_of_inCs
  have hhold := le_total holdsSlot s.threads i
  have hx : x = s.sp.rear := by have := h.current i; rw [hpc] at this; exact this
  rw [hpc] at hst hhold
  simp only [atStore, holdsSlot] at hst hhold
  have hslots := h.slots
  have hrear := h.rear
  have hklt := (List.getElem?_eq_some_iff.mp hk).1
  have hslot : x.tmod s.sp.n = slotOf n s.stored.length := by
    rw [h.cap, slotOf]; congr 1; omega
  rw [hslot, h.slot k a hk]
  exact slotOf_ne hklt (by omega)

omit [DecidableEq ι] in
/-- The stores happen in the order of the increments of `rear`, each
before the next increment. -/
theorem Inv.rear_prefix (h : Inv n s) :
    s.stored.map Access.thread <+: s.rearOrder ∧ s.rearOrder.length ≤ s.stored.length + 1 := by
  by_cases hz : total atStore s.threads = 0
  · rw [h.rearDone hz, List.length_map]
    exact ⟨List.prefix_refl _, by omega⟩
  · obtain ⟨i, -, hi⟩ := Finset.exists_ne_zero_of_sum_ne_zero hz
    have hle := le_total atStore s.threads i
    have hone := h.store_le.2
    simp only at hi
    rw [h.rearOpen i (by omega)]
    exact ⟨List.prefix_append _ _, by simp⟩

omit [DecidableEq ι] in
/-- The reads happen in the order of the increments of `front`, each
before the next increment. -/
theorem Inv.front_prefix (h : Inv n s) :
    s.taken.map Access.thread <+: s.frontOrder ∧ s.frontOrder.length ≤ s.taken.length + 1 := by
  by_cases hz : total atTake s.threads = 0
  · rw [h.frontDone hz, List.length_map]
    exact ⟨List.prefix_refl _, by omega⟩
  · obtain ⟨i, -, hi⟩ := Finset.exists_ne_zero_of_sum_ne_zero hz
    have hle := le_total atTake s.threads i
    have hone := h.take_le.2
    simp only at hi
    rw [h.frontOpen i (by omega)]
    exact ⟨List.prefix_append _ _, by simp⟩

/-- **The shared bounded buffer is a FIFO.**  For every number of threads,
every programs and every interleaving, as long as fewer than `2 ^ 31` calls
of each kind have started: the counters stay within `n` of each other, an
insertion about to write a slot finds no item there that is still to be
taken, the accesses of the slots follow the order of the increments of the
counters, and the values taken are a prefix of the values stored. -/
theorem sbuf_fifo (n : Int) (hn : 1 ≤ n) (progs : ι → List Op) (ls : List ι) (s : State ι)
    (h : Run step any (init n progs) ls s) (hi : s.insStarted < 2 ^ 31)
    (hr : s.remStarted < 2 ^ 31) :
    (0 ≤ s.sp.rear - s.sp.front ∧ s.sp.rear - s.sp.front ≤ n) ∧
    (∀ i item x, (s.threads i).pc = .insStore item x →
      ∀ a ∈ s.stored.drop s.taken.length, a.slot ≠ x.tmod s.sp.n) ∧
    (s.stored.map Access.thread <+: s.rearOrder ∧ s.rearOrder.length ≤ s.stored.length + 1) ∧
    (s.taken.map Access.thread <+: s.frontOrder ∧ s.frontOrder.length ≤ s.taken.length + 1) ∧
    s.taken.map Access.value <+: s.stored.map Access.value := by
  have hinv := run_inv h hi hr
  have hslots := hinv.slots
  have hitems := hinv.items
  have hrear := hinv.rear
  have hfront := hinv.front
  have hstore := hinv.store_le
  have htake := hinv.take_le
  have hlen : s.taken.length ≤ s.stored.length := by omega
  refine ⟨⟨by omega, by omega⟩, ?_, hinv.rear_prefix, hinv.front_prefix, ?_⟩
  · intro i item x hpc a ha
    obtain ⟨k, hk⟩ := List.mem_iff_getElem?.mp ha
    rw [List.getElem?_drop] at hk
    have hklt := (List.getElem?_eq_some_iff.mp hk).1
    exact hinv.store_free hpc hk (by omega)
  · rw [hinv.fifo]
    exact List.take_prefix _ _

/-- The second producer comes between the steps of the first; on a buffer of one slot the consumer
takes the first item. -/
theorem sbuf_fifo_three_threads : ∃ s : State (Fin 3),
    Run step any (init 1 producersAndConsumer)
        [0, 1, 0, 0, 0, 2, 0, 0, 0, 0, 2, 2, 2, 2, 2, 2, 2, 1] s ∧
      s.taken.map Access.value = [5] ∧
      s.taken.map Access.value <+: s.stored.map Access.value := by
  have hexec : (exec step (fun _ _ => true) (init 1 producersAndConsumer)
      [0, 1, 0, 0, 0, 2, 0, 0, 0, 0, 2, 2, 2, 2, 2, 2, 2, 1]).map
      (fun s => (s.insStarted, s.remStarted, s.taken.map Access.value)) = some (2, 1, [5]) := by
    decide
  obtain ⟨s, hrun, hobs⟩ := exists_run_of_exec _ _ hexec
  simp only [Prod.mk.injEq] at hobs
  obtain ⟨hi, hr, hv⟩ := hobs
  have h := sbuf_fifo 1 (by decide) _ _ s hrun.toAny (by omega) (by omega)
  exact ⟨s, hrun.toAny, hv, h.2.2.2.2⟩

end SysDemos.Sbuf
