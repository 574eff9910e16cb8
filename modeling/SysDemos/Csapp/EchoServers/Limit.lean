import SysDemos.Csapp.EchoServers.Pool
import SysDemos.Lib.Refinement

/-!
# SysDemos.Csapp.EchoServers.Limit

The limit on the number of clients, and the size of the descriptor sets.

`add_client` refuses a connection when all `FD_SETSIZE` slots are taken, but the
descriptor sets are indexed by descriptor numbers.  Descriptors 0, 1, 2 and the
listener's are taken from the start, so the descriptor numbers run out of the
sets while four slots are still free.

* `lowestFd_lt_iff` — the kernel returns a descriptor below `FD_SETSIZE` exactly
  while the pool has fewer than `FD_SETSIZE - 4` clients;
* `fdsets_in_range_iff` — the same for everything that a run does to the sets.
-/

namespace SysDemos.EchoServers

open Rio Lts Slots

/-! ## operations on the descriptor sets -/

/-- The `FD_SET` of `add_client`. -/
def addOps (connfd : Int) (p : Pool) : List Int :=
  match p.freeSlot with
  | none => []
  | some _ => [connfd]

/-- The `FD_ISSET` and, for a connection at its end, the `FD_CLR` of `check_clients` in
slot `i`. -/
def slotOps (s : Server) (i : Nat) : List Int :=
  let connfd := s.pool.clientfd i
  if connfd > 0 then
    match checkClient s i with
    | none => [connfd]
    | some s' => if s'.pool.clientfd i < 0 then [connfd, connfd] else [connfd]
  else []

/-- The operations of the loop of `check_clients`, up to a call that blocks. -/
def checkOps : Nat → Nat → Server → List Int
  | 0, _, _ => []
  | k + 1, i, s =>
    if (i : Int) ≤ s.pool.maxi ∧ s.pool.nready > 0 then
      slotOps s i ++
        match checkClient s i with
        | none => []
        | some s' => checkOps k (i + 1) s'
    else []

/-- `accept` is called in this round. -/
def Accepts (s : Server) (r : Round) : Prop := s.listenfd ∈ (s.select r.ready).pool.readySet

instance (s : Server) (r : Round) : Decidable (Accepts s r) :=
  inferInstanceAs (Decidable (_ ∈ _))

/-- The descriptors that `add_client` and `check_clients` use with the sets in a round. -/
def roundOps (s : Server) (r : Round) : List Int :=
  (if Accepts s r then addOps r.connfd (s.select r.ready).pool else []) ++
    checkOps ((s.welcome r).pool.maxi + 1).toNat 0 (s.welcome r)

theorem eq_of_mem_slotOps {s : Server} {i : Nat} {fd : Int} (h : fd ∈ slotOps s i) :
    0 < fd ∧ fd = s.pool.clientfd i := by
  simp only [slotOps] at h
  split at h
  · next hpos =>
      have hfd : fd = s.pool.clientfd i := by
        split at h
        · simpa using h
        · split at h <;> simpa using h
      exact ⟨by omega, hfd⟩
  · contradiction

/-- `check_clients` adds nothing to the pool. -/
theorem holds_of_checked {s s' : Server} {i : Nat} {fd : Int} (h : Linked s) (hgoes : s.Goes i)
    (hs : Checked s i s') (hfd : s'.pool.Holds fd) : s.pool.Holds fd := by
  cases hs with
  | idle => exact hfd
  | served c ret client hready hc hserve =>
      exact ((holds_served h.pool.distinct (h.slot_lt hgoes) fd).mp hfd).2

/-- `check_clients` uses the descriptors of the pool only. -/
theorem holds_of_mem_checkOps {k i : Nat} {s : Server} {fd : Int} (h : Linked s)
    (hfd : fd ∈ checkOps k i s) : s.pool.Holds fd := by
  induction k generalizing i s with
  | zero => contradiction
  | succ k ih =>
      simp only [checkOps] at hfd
      split at hfd
      · next hgoes =>
          rcases List.mem_append.mp hfd with hfd | hfd
          · obtain ⟨hpos, heq⟩ := eq_of_mem_slotOps hfd
            exact ⟨by omega, i, h.slot_lt hgoes, heq.symm⟩
          · cases hc : checkClient s i with
            | none => simp only [hc] at hfd; contradiction
            | some s' =>
                simp only [hc] at hfd
                have hs' := checkClient_cases hc
                exact holds_of_checked h hgoes hs' (ih (linked_checked h hgoes hs') hfd)
      · contradiction

/-! ## descriptors -/

/-- Descriptor `fd` is open: one of the three standard ones, the listener's, or that of a
connection, in the pool or refused. -/
def InUse (s : Server) (fd : Int) : Prop :=
  fd = 0 ∨ fd = 1 ∨ fd = 2 ∨ fd = s.listenfd ∨ s.conn fd ≠ none

/-- The descriptor that the kernel assigns. -/
def LowestFd (s : Server) (connfd : Int) : Prop :=
  0 ≤ connfd ∧ ¬ InUse s connfd ∧ ∀ fd, 0 ≤ fd → fd < connfd → InUse s fd

/-- A round in which `select` reports only watched descriptors and `accept` returns the
lowest descriptor that is not open. -/
def Allocated (s : Server) (r : Round) : Prop :=
  (∀ set, r.ready = some set → set ⊆ s.pool.readSet) ∧ (Accepts s r → LowestFd s r.connfd)

/-- The number of clients in the pool. -/
def Pool.size (p : Pool) : Nat := {i ∈ Finset.range fdSetsize | 0 ≤ p.clientfd i}.card

/-- The descriptors in the pool. -/
def Pool.fds (p : Pool) : Finset Int :=
  {i ∈ Finset.range fdSetsize | 0 ≤ p.clientfd i}.image p.clientfd

theorem Pool.mem_fds {p : Pool} {fd : Int} : fd ∈ p.fds ↔ p.Holds fd := by
  simp only [Pool.fds, Finset.mem_image, Finset.mem_filter, Finset.mem_range, Pool.Holds,
    Slots.Holds]
  constructor
  · rintro ⟨i, ⟨hi, hlive⟩, rfl⟩
    exact ⟨hlive, i, hi, rfl⟩
  · rintro ⟨hlive, i, hi, rfl⟩
    exact ⟨i, ⟨hi, hlive⟩, rfl⟩

theorem Linked.card_fds {s : Server} (h : Linked s) : s.pool.fds.card = s.pool.size := by
  refine (h.pool.distinct.card_slots (fun i => ?_) fun fd hfd => Pool.mem_fds.mp hfd).symm
  simp only [Finset.mem_filter, Finset.mem_range, Pool.mem_fds]
  exact and_congr_right fun hi => ⟨fun hlive => ⟨hlive, i, hi, rfl⟩, fun hfd => hfd.1⟩

/-- So far nothing was refused, and all descriptors of the pool fit into the sets. -/
structure InRange (s : Server) : Prop where
  linked : Linked s
  listener : 2 < s.listenfd ∧ s.listenfd < fdSetsize
  conn : ∀ fd, s.conn fd ≠ none → s.pool.Holds fd
  held : ∀ fd, s.pool.Holds fd → 2 < fd ∧ fd < fdSetsize

/-- The open descriptors. -/
def opened (s : Server) : Finset Int :=
  insert 0 (insert 1 (insert 2 (insert s.listenfd s.pool.fds)))

theorem InRange.mem_opened {s : Server} (h : InRange s) (fd : Int) :
    fd ∈ opened s ↔ InUse s fd := by
  have hconn : s.conn fd ≠ none ↔ s.pool.Holds fd := ⟨h.conn fd, fun hfd => by
    obtain ⟨c, hc⟩ := h.linked.conn fd hfd
    simp [hc]⟩
  simp only [opened, InUse, Finset.mem_insert, Pool.mem_fds, hconn]

/-- Four descriptors are open besides those of the clients. -/
theorem InRange.card_opened {s : Server} (h : InRange s) :
    (opened s).card = s.pool.size + 4 := by
  have hl := h.listener
  have hfd : ∀ fd ∈ s.pool.fds, 2 < fd ∧ fd ≠ s.listenfd := fun fd hfd =>
    ⟨(h.held fd (Pool.mem_fds.mp hfd)).1, (h.linked.pool.client fd (Pool.mem_fds.mp hfd)).2⟩
  have hlow : ∀ k ≤ 2, k ∉ s.pool.fds ∧ k ≠ s.listenfd := fun k hk =>
    ⟨fun hmem => by have := (hfd k hmem).1; omega, by omega⟩
  have h0 := hlow 0 (by decide)
  have h1 := hlow 1 (by decide)
  have h2 := hlow 2 (by decide)
  rw [opened, Finset.card_insert_of_notMem (by simp [h0]),
    Finset.card_insert_of_notMem (by simp [h1]), Finset.card_insert_of_notMem (by simp [h2]),
    Finset.card_insert_of_notMem fun hmem => (hfd _ hmem).2 rfl, h.linked.card_fds]

theorem InRange.opened_subset {s : Server} (h : InRange s) :
    opened s ⊆ Finset.Ico 0 (fdSetsize : Int) := by
  intro fd hfd
  have hl := h.listener
  simp only [opened, Finset.mem_insert, Pool.mem_fds] at hfd
  rw [Finset.mem_Ico]
  rcases hfd with rfl | rfl | rfl | rfl | hfd
  · decide
  · decide
  · decide
  · omega
  · have := h.held fd hfd
    omega

theorem InRange.size_le {s : Server} (h : InRange s) : s.pool.size + 4 ≤ fdSetsize := by
  have hle := Finset.card_le_card h.opened_subset
  rwa [h.card_opened, Int.card_Ico, sub_zero, Int.toNat_natCast] at hle

/-- As long as all is in range, four slots are free. -/
theorem InRange.not_full {s : Server} (h : InRange s) : ¬ s.pool.Full := by
  intro hfull
  have hsize : s.pool.size = fdSetsize := by
    rw [Pool.size, Finset.filter_true_of_mem fun i hi => hfull i (Finset.mem_range.mp hi),
      Finset.card_range]
  have := h.size_le
  omega

/-- **The descriptor that `accept` returns** is in range exactly while the pool has fewer
than `FD_SETSIZE - 4` clients: below it all descriptors are open. -/
theorem lowestFd_lt_iff {s : Server} {connfd : Int} (h : InRange s) (hfd : LowestFd s connfd) :
    connfd < fdSetsize ↔ s.pool.size < fdSetsize - 4 := by
  obtain ⟨hpos, hfree, hlow⟩ := hfd
  rw [← h.mem_opened] at hfree
  constructor
  · intro hlt
    -- with that many clients every descriptor in range is open
    by_contra hge
    have hall : opened s = Finset.Ico 0 (fdSetsize : Int) := by
      refine Finset.eq_of_subset_of_card_le h.opened_subset ?_
      rw [Int.card_Ico, sub_zero, Int.toNat_natCast, h.card_opened]
      omega
    exact hfree (hall ▸ Finset.mem_Ico.mpr ⟨hpos, hlt⟩)
  · intro hlt
    have hsub : Finset.Ico 0 connfd ⊆ opened s := fun fd hmem => by
      rw [Finset.mem_Ico] at hmem
      exact (h.mem_opened fd).mpr (hlow fd hmem.1 hmem.2)
    have hle := Finset.card_le_card hsub
    rw [Int.card_Ico, sub_zero, h.card_opened] at hle
    omega

/-! ## one round -/

theorem LowestFd.not_holds {s : Server} {connfd : Int} (h : LowestFd s connfd) (hs : Linked s) :
    ¬ s.pool.Holds connfd := fun hfd => by
  obtain ⟨c, hc⟩ := hs.conn connfd hfd
  exact h.2.1 (.inr (.inr (.inr (.inr (by simp [hc])))))

theorem LowestFd.two_lt {s : Server} {connfd : Int} (h : LowestFd s connfd) :
    2 < connfd ∧ connfd ≠ s.listenfd := by
  obtain ⟨hpos, hfree, -⟩ := h
  unfold InUse at hfree
  push Not at hfree
  exact ⟨by omega, hfree.2.2.2.1⟩

/-- `select` has no part in what is open. -/
theorem inRange_select {s : Server} (h : InRange s) (ready : Option (Finset Int)) :
    InRange (s.select ready) := by
  unfold Server.select
  split <;> exact ⟨h.linked.ready _ _, h.listener, h.conn, h.held⟩

/-- A connection that fits. -/
theorem inRange_accept {s : Server} {r : Round} (h : InRange s) (hfd : LowestFd s r.connfd)
    (hlt : r.connfd < fdSetsize) : InRange (s.accept r) := by
  obtain ⟨htwo, hne⟩ := hfd.two_lt
  rcases addClient_cases r.connfd s.pool with ⟨hfull, -⟩ | ⟨j, hj, hfree, -, heq⟩
  · exact absurd hfull h.not_full
  · have hholds : ∀ fd, (s.accept r).pool.Holds fd ↔ fd = r.connfd ∨ s.pool.Holds fd := by
      simp only [Server.accept, heq]
      exact Pool.holds_added hj hfree (by omega)
    refine ⟨linked_accept h.linked (by omega) hne (hfd.not_holds h.linked), h.listener,
      fun fd hconn => ?_, fun fd hheld => ?_⟩
    · rw [hholds]
      by_cases hcon : fd = r.connfd
      · exact .inl hcon
      · simp only [Server.accept, Function.update_of_ne hcon] at hconn
        exact .inr (h.conn fd hconn)
    · rcases (hholds fd).mp hheld with rfl | hheld
      · exact ⟨htwo, hlt⟩
      · exact h.held fd hheld

theorem inRange_checked {s s' : Server} {i : Nat} (h : InRange s) (hgoes : s.Goes i)
    (hs : Checked s i s') : InRange s' := by
  refine ⟨linked_checked h.linked hgoes hs, ?_, ?_, fun fd hfd =>
    h.held fd (holds_of_checked h.linked hgoes hs hfd)⟩
  · cases hs <;> exact h.listener
  · cases hs with
    | idle => exact h.conn
    | served c ret client hready hc hserve =>
        intro fd hconn
        obtain ⟨c', hc'⟩ := Option.ne_none_iff_exists'.mp hconn
        obtain ⟨hne, hc'⟩ := conn_of_served hc'
        exact (holds_served h.linked.pool.distinct (h.linked.slot_lt hgoes) fd).mpr
          ⟨hne, h.conn fd (by simp [hc'])⟩

theorem inRange_checkClients {s s' : Server} (h : InRange s) (hs : checkClients s = some s') :
    InRange s' := by
  obtain ⟨-, -, hinv, -⟩ := checkLoop_inv (I := fun _ => InRange)
    (fun _ _ _ hi hgoes hc => inRange_checked hi hgoes hc) h hs
  exact hinv

/-- The clients in the pool when `accept` is called. -/
def crowd (s : Server) (r : Round) : List Nat := if Accepts s r then [s.pool.size] else []

theorem select_frame (s : Server) (ready : Option (Finset Int)) :
    (s.select ready).listenfd = s.listenfd ∧ (s.select ready).conn = s.conn ∧
      (s.select ready).pool.clientfd = s.pool.clientfd := by
  unfold Server.select
  split <;> exact ⟨rfl, rfl, rfl⟩

theorem welcome_of_accepts {s : Server} {r : Round} (h : Accepts s r) :
    s.welcome r = (s.select r.ready).accept r :=
  if_pos ((select_frame s r.ready).1.symm ▸ h)

theorem welcome_of_not_accepts {s : Server} {r : Round} (h : ¬ Accepts s r) :
    s.welcome r = s.select r.ready :=
  if_neg ((select_frame s r.ready).1.symm ▸ h)

theorem lowestFd_select {s : Server} {connfd : Int} (ready : Option (Finset Int))
    (h : LowestFd s connfd) : LowestFd (s.select ready) connfd := by
  obtain ⟨hl, hc, -⟩ := select_frame s ready
  unfold LowestFd InUse at h ⊢
  rwa [hl, hc]

/-- **One round**, with all in range before: the operations on the sets stay in range exactly
if the pool has room for a connection that is accepted, and then all is in range after it. -/
theorem round_in_range {s : Server} {r : Round} (h : InRange s) (hr : Allocated s r) :
    ((∀ fd ∈ roundOps s r, fd < fdSetsize) ↔ ∀ n ∈ crowd s r, n < fdSetsize - 4) ∧
      ((∀ fd ∈ roundOps s r, fd < fdSetsize) → InRange (s.welcome r)) := by
  have hsel := inRange_select h r.ready
  have hcheck : InRange (s.welcome r) →
      ∀ fd ∈ checkOps ((s.welcome r).pool.maxi + 1).toNat 0 (s.welcome r), fd < fdSetsize :=
    fun hin fd hfd => (hin.held fd (holds_of_mem_checkOps hin.linked hfd)).2
  by_cases hacc : Accepts s r
  · have hfd := lowestFd_select r.ready (hr.2 hacc)
    have hsize : (s.select r.ready).pool.size = s.pool.size := by
      rw [Pool.size, (select_frame s r.ready).2.2, Pool.size]
    have hiff := lowestFd_lt_iff hsel hfd
    rw [hsize] at hiff
    have hops : addOps r.connfd (s.select r.ready).pool = [r.connfd] := by
      rcases addClient_cases r.connfd (s.select r.ready).pool with ⟨hfull, -⟩ | ⟨j, -, -, hj, -⟩
      · exact absurd hfull hsel.not_full
      · simp only [addOps, hj]
    have hin : r.connfd < fdSetsize → InRange (s.welcome r) := fun hlt =>
      welcome_of_accepts hacc ▸ inRange_accept hsel hfd hlt
    have hconn : (∀ fd ∈ roundOps s r, fd < fdSetsize) → r.connfd < fdSetsize := fun hall =>
      hall _ (by simp [roundOps, if_pos hacc, hops])
    simp only [crowd, if_pos hacc, List.mem_singleton, forall_eq, ← hiff]
    refine ⟨⟨hconn, fun hlt fd hmem => ?_⟩, fun hall => hin (hconn hall)⟩
    rw [roundOps, if_pos hacc, hops] at hmem
    rcases List.mem_append.mp hmem with hmem | hmem
    · rwa [List.mem_singleton.mp hmem]
    · exact hcheck (hin hlt) fd hmem
  · have hin : InRange (s.welcome r) := welcome_of_not_accepts hacc ▸ hsel
    simp only [crowd, roundOps, if_neg hacc, List.nil_append]
    exact ⟨iff_of_true (hcheck hin) (by simp), fun _ => hin⟩

/-! ## runs -/

theorem inRange_init {listenfd : Int} (hl : 2 < listenfd ∧ listenfd < fdSetsize) :
    InRange (init listenfd) where
  linked := linked_init listenfd
  listener := hl
  conn fd h := by simp [init] at h
  held := by
    rintro fd ⟨hpos, i, -, rfl⟩
    simp [init, initPool] at hpos

/-- The invariant of a run: the two conditions have been met together, and as long as they
are, all is in range. -/
theorem inRange_run {listenfd : Int} (hl : 2 < listenfd ∧ listenfd < fdSetsize)
    {rounds : List Round} {s : Server} (h : Run iteration Allocated (init listenfd) rounds s) :
    ((∀ fd ∈ outputs iteration roundOps (init listenfd) rounds, fd < fdSetsize) ↔
        ∀ n ∈ outputs iteration crowd (init listenfd) rounds, n < fdSetsize - 4) ∧
      ((∀ fd ∈ outputs iteration roundOps (init listenfd) rounds, fd < fdSetsize) →
        InRange s) := by
  induction h with
  | nil => exact ⟨by simp [outputs], fun _ => inRange_init hl⟩
  | @snoc rounds s s' r hrun hok hs ih =>
      rw [hrun.outputs_append, hrun.outputs_append, outputs_singleton hs, outputs_singleton hs]
      simp only [List.mem_append, or_imp, forall_and]
      constructor
      · rw [← ih.1]
        exact and_congr_right fun hbefore => (round_in_range (ih.2 hbefore) hok).1
      · rintro ⟨hbefore, hround⟩
        exact inRange_checkClients ((round_in_range (ih.2 hbefore) hok).2 hround) hs

/-- **When the client limit protects the sets**: in every run with the lowest free descriptor
assigned to each connection, and in the round after it, whether that returns or not, the
descriptors used with the sets are below `FD_SETSIZE` exactly if the pool never has
`FD_SETSIZE - 4` clients when a connection is accepted. -/
theorem fdsets_in_range_iff (listenfd : Int) (hl : 2 < listenfd ∧ listenfd < fdSetsize)
    (rounds : List Round) (s : Server) (h : Run iteration Allocated (init listenfd) rounds s)
    (r : Round) (hr : Allocated s r) :
    (∀ fd ∈ outputs iteration roundOps (init listenfd) rounds ++ roundOps s r, fd < fdSetsize) ↔
      ∀ n ∈ outputs iteration crowd (init listenfd) rounds ++ crowd s r, n < fdSetsize - 4 := by
  obtain ⟨hiff, hin⟩ := inRange_run hl h
  simp only [List.mem_append, or_imp, forall_and]
  rw [← hiff]
  exact and_congr_right fun hbefore => (round_in_range (hin hbefore) hr).1

/-! ## too many clients -/

/-- A round in which `connfd` is accepted and nothing else happens. -/
def connects (connfd : Int) : Round := { ready := some {3}, connfd, input := [], output := [] }

/-- The first `n` connections are open and in the pool, and no other. -/
structure Crowded (n : Nat) (s : Server) : Prop where
  inRange : InRange s
  listenfd : s.listenfd = 3
  conn : ∀ fd, s.conn fd ≠ none ↔ 4 ≤ fd ∧ fd < 4 + n

theorem Crowded.allocated {n : Nat} {s : Server} (h : Crowded n s) :
    Allocated s (connects (4 + n)) := by
  refine ⟨fun set hset => ?_, fun _ => ⟨?_, ?_, fun fd hpos hlt => ?_⟩⟩
  · obtain rfl : {3} = set := Option.some.inj hset
    rw [Finset.singleton_subset_iff, h.inRange.linked.pool.readSet]
    exact .inl h.listenfd.symm
  · simp only [connects]
    omega
  · rw [InUse, h.conn, h.listenfd]
    simp only [connects]
    omega
  · rw [InUse, h.conn, h.listenfd]
    simp only [connects] at hlt
    omega

theorem Crowded.accepts {n : Nat} {s : Server} (h : Crowded n s) (connfd : Int) :
    Accepts s (connects connfd) := by
  rw [Accepts, h.listenfd]
  exact Finset.mem_singleton_self 3

/-- One more connection that fits. -/
theorem Crowded.succ {n : Nat} {s : Server} (h : Crowded n s) (hn : 4 + n < fdSetsize) :
    ∃ s', iteration s (connects (4 + n)) = some s' ∧ Crowded (n + 1) s' := by
  have hacc := h.accepts (4 + n)
  have hfd := h.allocated.2 hacc
  have hin : InRange (s.welcome (connects (4 + n))) := welcome_of_accepts hacc ▸
    inRange_accept (inRange_select h.inRange _) (lowestFd_select _ hfd)
      (by simp only [connects]; omega)
  -- the listener was the only ready descriptor, so the scan has nothing to do
  have hnready : (s.welcome (connects (4 + n))).pool.nready = 0 := by
    rw [welcome_of_accepts hacc]
    exact (addClient_frame ..).1
  have hidle : iteration s (connects (4 + n)) = some (s.welcome (connects (4 + n))) := by
    unfold iteration checkClients
    cases ((s.welcome (connects (4 + n))).pool.maxi + 1).toNat with
    | zero => rfl
    | succ k => rw [checkLoop, if_neg (by omega)]
  refine ⟨_, hidle, hin, ?_, fun fd => ?_⟩
  · rw [welcome_of_accepts hacc]
    exact (select_frame s _).1.trans h.listenfd
  · rw [welcome_of_accepts hacc]
    simp only [Server.accept, (select_frame s _).2.1, Function.update_apply]
    split
    · next heq =>
        simp only [connects] at heq
        exact iff_of_true (Option.some_ne_none _) (by push_cast; omega)
    · next hne =>
        simp only [connects] at hne
        rw [h.conn]
        push_cast
        omega

theorem crowded_init : Crowded 0 (init 3) where
  inRange := inRange_init (by decide)
  listenfd := rfl
  conn fd := iff_of_false (by simp [init]) (by push_cast; omega)

/-- A connection that fits finds room in the pool. -/
theorem Crowded.crowd_lt {n : Nat} {s : Server} (h : Crowded n s) (hn : 4 + n < fdSetsize) :
    ∀ m ∈ crowd s (connects (4 + n)), m < fdSetsize - 4 := by
  have hfd := h.allocated.2 (h.accepts _)
  simp only [crowd, if_pos (h.accepts _), List.mem_singleton, forall_eq]
  refine (lowestFd_lt_iff h.inRange hfd).mp ?_
  simp only [connects]
  omega

theorem crowded_run (n : Nat) (hn : 4 + n ≤ fdSetsize) :
    ∃ rounds s, Run iteration Allocated (init 3) rounds s ∧ Crowded n s ∧
      ∀ m ∈ outputs iteration crowd (init 3) rounds, m < fdSetsize - 4 := by
  induction n with
  | zero => exact ⟨[], _, .nil, crowded_init, by simp [outputs]⟩
  | succ n ih =>
      obtain ⟨rounds, s, hrun, hs, hcrowd⟩ := ih (by omega)
      obtain ⟨s', hs', hsucc⟩ := hs.succ (by omega)
      refine ⟨_, s', hrun.snoc hs.allocated hs', hsucc, fun m hm => ?_⟩
      rw [hrun.outputs_append, outputs_singleton hs'] at hm
      obtain hm | hm := List.mem_append.mp hm
      · exact hcrowd m hm
      · exact hs.crowd_lt (by omega) m hm

/-- With 1020 clients in the pool and four free slots, the next connection has descriptor
1024 and is added. -/
theorem fd_set_out_of_range : ¬ ∀ listenfd, 2 < listenfd ∧ listenfd < fdSetsize →
    ∀ rounds s, Run iteration Allocated (init listenfd) rounds s → ∀ r, Allocated s r →
      ∀ fd ∈ outputs iteration roundOps (init listenfd) rounds ++ roundOps s r,
        fd < fdSetsize := by
  intro hall
  obtain ⟨rounds, s, hrun, hs, -⟩ := crowded_run 1020 (by decide)
  have hbelow := hall 3 (by decide) rounds s hrun _ hs.allocated
  have hcrowd := (round_in_range hs.inRange hs.allocated).1.mp fun fd hfd =>
    hbelow fd (List.mem_append_right _ hfd)
  have hlt := (lowestFd_lt_iff hs.inRange (hs.allocated.2 (hs.accepts _))).mpr
    (hcrowd _ (by simp [crowd, hs.accepts]))
  simp only [connects] at hlt
  exact absurd hlt (by decide)

/-- With 1019 clients there is room for one more. -/
theorem fdsets_in_range_iff_last_client : ∃ rounds s,
    Run iteration Allocated (init 3) rounds s ∧ Crowded 1019 s ∧
      ∀ fd ∈ outputs iteration roundOps (init 3) rounds ++ roundOps s (connects 1023),
        fd < fdSetsize := by
  obtain ⟨rounds, s, hrun, hs, hcrowd⟩ := crowded_run 1019 (by decide)
  refine ⟨rounds, s, hrun, hs,
    (fdsets_in_range_iff 3 (by decide) rounds s hrun (connects 1023) hs.allocated).mpr ?_⟩
  intro m hm
  obtain hm | hm := List.mem_append.mp hm
  · exact hcrowd m hm
  · exact hs.crowd_lt (by decide) m hm

end SysDemos.EchoServers
