import SysDemos.Csapp.EchoServers.Steps
import SysDemos.Lib.Lts
import SysDemos.Lib.Slots

/-!
# SysDemos.Csapp.EchoServers.Pool

The client pool, kept by `init_pool`, `add_client` and `check_clients`.

The set of clients is there four times: in the slots of `clientfd`, as the bits
of `read_set`, under the high-water mark `maxi` and under `maxfd`.  `Rep` says
how the four agree.

* `rep_of_run` — they agree after every sequence of calls.
-/

namespace SysDemos.EchoServers

open Rio Lts Slots

/-! ## the representation -/

/-- The descriptors in the slots of the pool. -/
def Pool.Holds (p : Pool) (fd : Int) : Prop := Slots.Holds (0 ≤ ·) fdSetsize p.clientfd fd

/-- **Representation invariant** of the pool. -/
structure Rep (listenfd : Int) (p : Pool) : Prop where
  readSet : ∀ fd, fd ∈ p.readSet ↔ fd = listenfd ∨ p.Holds fd
  distinct : Distinct (0 ≤ ·) fdSetsize p.clientfd
  maxi : ∀ i < fdSetsize, 0 ≤ p.clientfd i → (i : Int) ≤ p.maxi
  maxfd : ∀ fd ∈ p.readSet, fd ≤ p.maxfd

/-- The representation invariant together with what keeps it: `check_clients` closes
neither the listener nor descriptor 0, and does not run past the slots. -/
structure PoolInv (listenfd : Int) (p : Pool) : Prop extends Rep listenfd p where
  client : ∀ fd, p.Holds fd → 0 < fd ∧ fd ≠ listenfd
  maxi_lt : p.maxi < fdSetsize

theorem poolInv_init (listenfd : Int) : PoolInv listenfd (initPool listenfd) := by
  have hfree : ∀ i, ¬ 0 ≤ (initPool listenfd).clientfd i := fun i => by simp [initPool]
  have hnone : ∀ fd, ¬ (initPool listenfd).Holds fd := by
    rintro fd ⟨hpos, i, -, rfl⟩
    exact hfree i hpos
  refine ⟨⟨fun fd => ?_, fun i _ j _ h => absurd h (hfree i), fun i _ h => absurd h (hfree i),
    fun fd hfd => ?_⟩, fun fd h => absurd h (hnone fd), by simp [initPool, fdSetsize]⟩
  · rw [or_iff_left (hnone fd)]
    exact Finset.mem_singleton
  · rw [Finset.mem_singleton.mp hfd]
    exact le_rfl

/-- The slot that is searched for is one of the slots. -/
theorem findSlot_some {f : Nat → Bool} {k i j : Nat} (h : findSlot f k i = some j) :
    i ≤ j ∧ j < i + k ∧ f j = true := by
  fun_induction findSlot f k i with
  | case1 => contradiction
  | case2 k i hf => cases h; exact ⟨le_rfl, by omega, hf⟩
  | case3 k i hf ih =>
      obtain ⟨hle, hlt, hj⟩ := ih h
      exact ⟨by omega, by omega, hj⟩

theorem findSlot_none {f : Nat → Bool} {k i : Nat} (h : findSlot f k i = none) :
    ∀ j, i ≤ j → j < i + k → f j = false := by
  fun_induction findSlot f k i with
  | case1 => intro j hle hlt; omega
  | case2 => contradiction
  | case3 k i hf ih =>
      intro j hle hlt
      rcases Nat.eq_or_lt_of_le hle with rfl | hlt'
      · simpa using hf
      · exact ih h j hlt' (by omega)

/-- No slot is free. -/
def Pool.Full (p : Pool) : Prop := ∀ i < fdSetsize, 0 ≤ p.clientfd i

/-- What `add_client` can do. -/
theorem addClient_cases (connfd : Int) (p : Pool) :
    (p.Full ∧ addClient connfd p = { p with nready := p.nready - 1 }) ∨
      ∃ j < fdSetsize, p.clientfd j < 0 ∧ p.freeSlot = some j ∧
        addClient connfd p = p.added j connfd := by
  unfold addClient
  cases hslot : p.freeSlot with
  | none =>
      refine .inl ⟨fun i hi => ?_, rfl⟩
      have := findSlot_none hslot i (Nat.zero_le i) (by omega)
      simpa using this
  | some j =>
      obtain ⟨-, hj, hfree⟩ := findSlot_some hslot
      exact .inr ⟨j, by omega, of_decide_eq_true hfree, rfl, rfl⟩

theorem addClient_of_free {connfd : Int} {p : Pool} {j : Nat} (h : p.freeSlot = some j) :
    addClient connfd p = p.added j connfd := by
  unfold addClient
  rw [h]

/-- Whether or not there is room, the listener is counted off and `ready_set` is left alone. -/
theorem addClient_frame (connfd : Int) (p : Pool) :
    (addClient connfd p).nready = p.nready - 1 ∧ (addClient connfd p).readySet = p.readySet := by
  rcases addClient_cases connfd p with ⟨-, heq⟩ | ⟨j, -, -, -, heq⟩ <;> rw [heq] <;>
    exact ⟨rfl, rfl⟩

theorem Pool.holds_added {p : Pool} {j : Nat} {connfd : Int} (hj : j < fdSetsize)
    (hfree : p.clientfd j < 0) (hpos : 0 < connfd) (fd : Int) :
    (p.added j connfd).Holds fd ↔ fd = connfd ∨ p.Holds fd :=
  holds_store hj (by omega) (by omega) fd

theorem poolInv_added {listenfd : Int} {p : Pool} {j : Nat} {connfd : Int} (h : PoolInv listenfd p)
    (hj : j < fdSetsize) (hfree : p.clientfd j < 0) (hpos : 0 < connfd) (hne : connfd ≠ listenfd)
    (hnew : ¬ p.Holds connfd) : PoolInv listenfd (p.added j connfd) := by
  have hholds := Pool.holds_added hj hfree hpos
  refine ⟨⟨fun fd => ?_, ?_, fun i hi hlive => ?_, fun fd hfd => ?_⟩, fun fd hfd => ?_, ?_⟩
  · rw [hholds, Pool.added, Finset.mem_insert, h.readSet]
    tauto
  · exact h.distinct.store fun i hi heq => hnew ⟨by omega, i, hi, heq⟩
  · simp only [Pool.added]
    by_cases hij : i = j
    · split <;> omega
    · have := h.maxi i hi (by simpa [Pool.added, Function.update_of_ne hij] using hlive)
      split <;> omega
  · simp only [Pool.added, Finset.mem_insert] at hfd ⊢
    rcases hfd with rfl | hfd
    · split <;> omega
    · have := h.maxfd fd hfd
      split <;> omega
  · rcases (hholds fd).mp hfd with rfl | hfd
    · exact ⟨hpos, hne⟩
    · exact h.client fd hfd
  · have := h.maxi_lt
    simp only [Pool.added]
    split <;> omega

/-- `add_client` keeps the invariant. -/
theorem poolInv_addClient {listenfd : Int} {p : Pool} {connfd : Int} (h : PoolInv listenfd p)
    (hpos : 0 < connfd) (hne : connfd ≠ listenfd) (hnew : ¬ p.Holds connfd) :
    PoolInv listenfd (addClient connfd p) := by
  rcases addClient_cases connfd p with ⟨-, heq⟩ | ⟨j, hj, hfree, -, heq⟩
  · rw [heq]
    exact { h with }
  · rw [heq]
    exact poolInv_added h hj hfree hpos hne hnew

/-- A slot that was served keeps its entry, unless the connection is at its end. -/
theorem holds_served {s : Server} {i c : Nat} {ret : Int} {client : Client}
    (h : Distinct (0 ≤ ·) fdSetsize s.pool.clientfd) (hi : i < fdSetsize) (fd : Int) :
    (s.served i c ret client).pool.Holds fd ↔
      (ret = 0 → fd ≠ s.pool.clientfd i) ∧ s.pool.Holds fd := by
  by_cases hret : ret = 0
  · simp only [Server.served, hret, if_true, forall_const]
    exact holds_clear h hi (by decide) fd
  · simp only [Server.served, hret, if_false, false_imp_iff, true_and]
    rfl

theorem poolInv_served {listenfd : Int} {s : Server} {i c : Nat} {ret : Int} {client : Client}
    (h : PoolInv listenfd s.pool) (hi : i < fdSetsize) (hready : s.Ready i) :
    PoolInv listenfd (s.served i c ret client).pool := by
  have hholds : ∀ fd, (s.served i c ret client).pool.Holds fd ↔
      (ret = 0 → fd ≠ s.pool.clientfd i) ∧ s.pool.Holds fd := holds_served h.distinct hi
  by_cases hret : ret = 0
  · have hne := (h.client _ ⟨le_of_lt hready.1, i, hi, rfl⟩).2
    refine ⟨⟨fun fd => ?_, ?_, fun k hk hlive => ?_, fun fd hfd => ?_⟩, fun fd hfd => ?_, h.maxi_lt⟩
    · rw [hholds]
      simp only [Server.served, hret, if_true, Finset.mem_erase, h.readSet, forall_const]
      constructor
      · tauto
      · rintro (rfl | hfd)
        · exact ⟨hne.symm, .inl rfl⟩
        · exact ⟨hfd.1, .inr hfd.2⟩
    · simp only [Server.served, hret, if_true]
      exact h.distinct.clear (by decide)
    · simp only [Server.served, hret, if_true] at hlive ⊢
      have hki : k ≠ i := by rintro rfl; simp at hlive
      rw [Function.update_of_ne hki] at hlive
      exact h.maxi k hk hlive
    · simp only [Server.served, hret, if_true] at hfd ⊢
      exact h.maxfd fd (Finset.mem_of_mem_erase hfd)
    · exact h.client fd ((hholds fd).mp hfd).2
  · simp only [Server.served, hret, if_false]
    exact { h with }

/-! ## clients and descriptors -/

/-- Every entry of the pool is the descriptor of a connection, and no two connected
descriptors lead to the same client. -/
structure Linked (s : Server) : Prop where
  pool : PoolInv s.listenfd s.pool
  conn : ∀ fd, s.pool.Holds fd → ∃ c, s.conn fd = some c
  inj : ∀ fd fd' c, s.conn fd = some c → s.conn fd' = some c → fd = fd'
  lt : ∀ fd c, s.conn fd = some c → c < s.nclients

theorem linked_init (listenfd : Int) : Linked (init listenfd) where
  pool := poolInv_init listenfd
  conn := by
    rintro fd ⟨hpos, i, -, rfl⟩
    simp [init, initPool] at hpos
  inj fd fd' c h := by simp [init] at h
  lt fd c h := by simp [init] at h

/-- The result of `select` has no part in it. -/
theorem Linked.ready {s : Server} (h : Linked s) (ready : Finset Int) (nready : Int) :
    Linked { s with pool := { s.pool with readySet := ready, nready := nready } } :=
  ⟨{ h.pool with }, h.conn, h.inj, h.lt⟩

/-- What `add_client` leaves in the pool, for a descriptor that is not there. -/
theorem holds_addClient {p : Pool} {connfd fd : Int} (hpos : 0 < connfd)
    (h : (addClient connfd p).Holds fd) : fd = connfd ∨ p.Holds fd := by
  rcases addClient_cases connfd p with ⟨-, heq⟩ | ⟨j, hj, hfree, -, heq⟩ <;> rw [heq] at h
  · exact .inr h
  · exact (Pool.holds_added hj hfree hpos fd).mp h

theorem linked_accept {s : Server} {r : Round} (h : Linked s) (hpos : 0 < r.connfd)
    (hne : r.connfd ≠ s.listenfd) (hnew : ¬ s.pool.Holds r.connfd) : Linked (s.accept r) where
  pool := poolInv_addClient h.pool hpos hne hnew
  conn fd hfd := by
    by_cases hcon : fd = r.connfd
    · exact ⟨s.nclients, by rw [hcon]; exact Function.update_self ..⟩
    · obtain ⟨c, hc⟩ := h.conn fd ((holds_addClient hpos hfd).resolve_left hcon)
      exact ⟨c, by rw [← hc]; exact Function.update_of_ne hcon ..⟩
  inj fd fd' c hfd hfd' := by
    simp only [Server.accept, Function.update_apply] at hfd hfd'
    split at hfd <;> split at hfd'
    · next heq heq' => rw [heq, heq']
    · rw [Option.some.injEq] at hfd
      exact absurd (h.lt _ _ hfd') (by omega)
    · rw [Option.some.injEq] at hfd'
      exact absurd (h.lt _ _ hfd) (by omega)
    · exact h.inj _ _ _ hfd hfd'
  lt fd c hc := by
    simp only [Server.accept, Function.update_apply] at hc ⊢
    split at hc
    · rw [Option.some.injEq] at hc
      omega
    · exact Nat.lt_succ_of_lt (h.lt fd c hc)

/-- Serving a slot closes at most the descriptor in it. -/
theorem served_conn_of_open {s : Server} {i c : Nat} {ret : Int} {client : Client} {fd : Int}
    (h : ret = 0 → fd ≠ s.pool.clientfd i) : (s.served i c ret client).conn fd = s.conn fd := by
  simp only [Server.served]
  split
  · next hret => exact Function.update_of_ne (h hret) ..
  · rfl

theorem conn_of_served {s : Server} {i c c' : Nat} {ret : Int} {client : Client} {fd : Int}
    (h : (s.served i c ret client).conn fd = some c') :
    (ret = 0 → fd ≠ s.pool.clientfd i) ∧ s.conn fd = some c' := by
  simp only [Server.served] at h
  split at h
  · rw [Function.update_apply] at h
    obtain ⟨hne, h⟩ := Option.ite_none_left_eq_some.mp h
    exact ⟨fun _ => hne, h⟩
  · next hret => exact ⟨fun h0 => absurd h0 hret, h⟩

theorem linked_served {s : Server} {i c : Nat} {ret : Int} {client : Client} (h : Linked s)
    (hi : i < fdSetsize) (hready : s.Ready i) : Linked (s.served i c ret client) where
  pool := poolInv_served h.pool hi hready
  conn fd hfd := by
    obtain ⟨hne, hfd⟩ := (holds_served h.pool.distinct hi fd).mp hfd
    rw [served_conn_of_open hne]
    exact h.conn fd hfd
  inj fd fd' c hfd hfd' := h.inj fd fd' c (conn_of_served hfd).2 (conn_of_served hfd').2
  lt fd c hc := h.lt fd c (conn_of_served hc).2

/-- The slots that the loop of `check_clients` comes to are in the pool. -/
theorem Linked.slot_lt {s : Server} {i : Nat} (h : Linked s) (hgoes : s.Goes i) :
    i < fdSetsize := by
  have := hgoes.1
  have := h.pool.maxi_lt
  omega

theorem linked_checked {s s' : Server} {i : Nat} (h : Linked s) (hgoes : s.Goes i)
    (hs : Checked s i s') : Linked s' := by
  cases hs with
  | idle => exact h
  | served c ret client hready hc hserve => exact linked_served h (h.slot_lt hgoes) hready

theorem linked_checkClients {s s' : Server} (h : Linked s) (hs : checkClients s = some s') :
    Linked s' := by
  obtain ⟨-, -, hinv, -⟩ := checkLoop_inv (I := fun _ => Linked)
    (fun _ _ _ hi hgoes hc => linked_checked hi hgoes hc) h hs
  exact hinv

/-! ## sequences of calls -/

/-- A call of `add_client` for a new connection, or of `check_clients` after a `select`
that left `ready` and `nready`. -/
inductive Call where
  | add (connfd : Int) (input : List ReadRet) (output : List WriteRet)
  | check (ready : Finset Int) (nready : Int)

/-- One call.  A ready set is part of `read_set`; nothing is assumed of `nready`. -/
def call (s : Server) : Call → Option Server
  | .add connfd input output => some (s.accept { ready := none, connfd, input, output })
  | .check ready nready =>
    if ready ⊆ s.pool.readSet then
      checkClients { s with pool := { s.pool with readySet := ready, nready := nready } }
    else none

/-- A descriptor that `accept` may return: the listener and the clients of the pool have
others. -/
def NewFd (s : Server) (connfd : Int) : Prop :=
  0 < connfd ∧ connfd < fdSetsize ∧ connfd ≠ s.listenfd ∧
    ∀ i < fdSetsize, s.pool.clientfd i ≠ connfd

instance (s : Server) (connfd : Int) : Decidable (NewFd s connfd) :=
  inferInstanceAs (Decidable (_ ∧ _))

theorem NewFd.not_holds {s : Server} {connfd : Int} (h : NewFd s connfd) :
    ¬ s.pool.Holds connfd := by
  rintro ⟨-, i, hi, heq⟩
  exact h.2.2.2 i hi heq

/-- The calls that are considered. -/
def Fresh (s : Server) : Call → Prop
  | .add connfd _ _ => NewFd s connfd
  | .check _ _ => True

instance (s : Server) (l : Call) : Decidable (Fresh s l) :=
  match l with
  | .add connfd _ _ => inferInstanceAs (Decidable (NewFd s connfd))
  | .check _ _ => .isTrue trivial

theorem linked_call {s s' : Server} {l : Call} (h : Linked s) (hok : Fresh s l)
    (hs : call s l = some s') : Linked s' := by
  cases l with
  | add connfd input output =>
      cases hs
      exact linked_accept h hok.1 hok.2.2.1 hok.not_holds
  | check ready nready =>
      obtain ⟨-, hs⟩ := Option.ite_none_right_eq_some.mp hs
      exact linked_checkClients (h.ready ready nready) hs

theorem listenfd_checkClients {s s' : Server} (hs : checkClients s = some s') :
    s'.listenfd = s.listenfd := by
  obtain ⟨-, -, hinv, -⟩ := checkLoop_inv (I := fun _ t => t.listenfd = s.listenfd)
    (fun _ _ _ hi _ hc => by
      cases hc with
      | idle => exact hi
      | served => exact hi) rfl hs
  exact hinv

theorem linked_run {listenfd : Int} {calls : List Call} {s : Server}
    (h : Run call Fresh (init listenfd) calls s) : s.listenfd = listenfd ∧ Linked s := by
  refine h.inv (I := fun s => s.listenfd = listenfd ∧ Linked s) ⟨rfl, linked_init listenfd⟩ ?_
  rintro s l s' ⟨hl, hlinked⟩ hok hs
  refine ⟨?_, linked_call hlinked hok hs⟩
  cases l with
  | add => cases hs; exact hl
  | check =>
      obtain ⟨-, hs⟩ := Option.ite_none_right_eq_some.mp hs
      exact (listenfd_checkClients hs).trans hl

/-- **The pool after any sequence of calls**: slots, `read_set`, `maxi` and `maxfd` agree,
and on a full pool `add_client` changes nothing but `nready`. -/
theorem rep_of_run (listenfd : Int) (calls : List Call) (s : Server)
    (h : Run call Fresh (init listenfd) calls s) :
    Rep listenfd s.pool ∧
      (s.pool.Full → ∀ connfd,
        addClient connfd s.pool = { s.pool with nready := s.pool.nready - 1 }) := by
  obtain ⟨rfl, hlinked⟩ := linked_run h
  refine ⟨hlinked.pool.toRep, fun hfull connfd => ?_⟩
  rcases addClient_cases connfd s.pool with ⟨-, heq⟩ | ⟨j, hj, hfree, -⟩
  · exact heq
  · exact absurd (hfull j hj) (by omega)

/-- A client connects and closes its connection. -/
def connectClose : List Call := [.add 4 [.ret []] [], .check {4} 1]

/-- Its slot and its bit are free again, and the high-water marks stay. -/
theorem rep_of_run_connect_close : ∃ s : Server, Run call Fresh (init 3) connectClose s ∧
    s.pool.readSet = {3} ∧ s.pool.maxi = 0 ∧ s.pool.maxfd = 4 ∧ Rep 3 s.pool := by
  have hexec : (exec call (fun s l => decide (Fresh s l)) (init 3) connectClose).map
      (fun s => (s.pool.readSet, s.pool.maxi, s.pool.maxfd)) = some ({3}, 0, 4) := by
    decide +kernel
  obtain ⟨s, hrun, hobs⟩ := exists_run_of_exec _ _ hexec
  simp only [Prod.mk.injEq] at hobs
  replace hrun := hrun.mono fun _ _ => of_decide_eq_true
  exact ⟨s, hrun, hobs.1, hobs.2.1, hobs.2.2, (rep_of_run 3 _ s hrun).1⟩

end SysDemos.EchoServers
