import SysDemos.Csapp.EchoServers.Pool

/-!
# SysDemos.Csapp.EchoServers.Rounds

One round of `main`: every ready client is served one line, and no other client.

The scan of `check_clients` stops when `nready` reaches 0.  That is right because
`nready` counts, all along, the ready slots that are still ahead (`Sweep.nready`):
a client that was just accepted is not among the ready ones, and a slot that is
cleared lies behind the scan.

* `sweep_checkClients` — what a whole scan has done;
* `serves_ready_once` — the round.
-/

namespace SysDemos.EchoServers

open Rio Lts Slots

/-! ## the scan -/

/-- The ready slots of `t` from slot `j` on. -/
def readySlots (t : Server) (j : Nat) : Finset Nat := {i ∈ Finset.Ico j fdSetsize | t.Ready i}

theorem mem_readySlots {t : Server} {i j : Nat} :
    i ∈ readySlots t j ↔ j ≤ i ∧ i < fdSetsize ∧ t.Ready i := by
  simp [readySlots, and_assoc]

/-- The slots ahead, and the next one if it is ready. -/
theorem card_readySlots {t : Server} {j : Nat} (hj : j < fdSetsize) :
    (readySlots t j).card = (readySlots t (j + 1)).card + if t.Ready j then 1 else 0 := by
  rw [readySlots, ← Finset.insert_Ico_add_one_left_eq_Ico hj, Finset.filter_insert]
  split
  · rw [Finset.card_insert_of_notMem (by simp)]
    rfl
  · rfl

/-- The client behind a ready slot of `t`. -/
def ReadyClient (t : Server) (i c : Nat) : Prop :=
  i < fdSetsize ∧ t.Ready i ∧ t.conn (t.pool.clientfd i) = some c

/-- A client is behind one ready slot at most. -/
theorem ReadyClient.unique {t : Server} {i i' c : Nat} (ht : Linked t) (h : ReadyClient t i c)
    (h' : ReadyClient t i' c) : i = i' :=
  ht.pool.distinct i h.1 i' h'.1 (le_of_lt h.2.1.1) (ht.inj _ _ c h.2.2 h'.2.2)

/-- Slot `i` of the pool and its connection are as they were in `t`. -/
structure Same (t : Server) (i : Nat) (s : Server) : Prop where
  slot : s.pool.clientfd i = t.pool.clientfd i
  conn : s.conn (t.pool.clientfd i) = t.conn (t.pool.clientfd i)
  bit : t.pool.clientfd i ∈ s.pool.readSet ↔ t.pool.clientfd i ∈ t.pool.readSet

/-- The connection in slot `i` has been closed. -/
structure Gone (t : Server) (i : Nat) (s : Server) : Prop where
  slot : s.pool.clientfd i = -1
  conn : s.conn (t.pool.clientfd i) = none
  bit : t.pool.clientfd i ∉ s.pool.readSet

/-- Slot `i` when its client has been served: it is closed at the end of its stream. -/
def Outcome (t : Server) (i : Nat) (ret : Int) (s : Server) : Prop :=
  if ret = 0 then Gone t i s else Same t i s

section Served

variable {t s : Server} {i j c : Nat} {ret : Int} {client : Client}

theorem readSet_served {fd : Int} (hfd : fd ≠ s.pool.clientfd j) :
    fd ∈ (s.served j c ret client).pool.readSet ↔ fd ∈ s.pool.readSet := by
  simp only [Server.served]
  split
  · exact Finset.mem_erase.trans (and_iff_right hfd)
  · rfl

theorem clientfd_served (hij : i ≠ j) :
    (s.served j c ret client).pool.clientfd i = s.pool.clientfd i := by
  simp only [Server.served]
  split
  · exact Function.update_of_ne hij ..
  · rfl

/-- Serving a slot does not concern the others. -/
theorem Same.served (h : Same t i s) (hij : i ≠ j)
    (hfd : t.pool.clientfd i ≠ s.pool.clientfd j) : Same t i (s.served j c ret client) where
  slot := (clientfd_served hij).trans h.slot
  conn := (served_conn_of_open fun _ => hfd).trans h.conn
  bit := (readSet_served hfd).trans h.bit

theorem Gone.served (h : Gone t i s) (hij : i ≠ j)
    (hfd : t.pool.clientfd i ≠ s.pool.clientfd j) : Gone t i (s.served j c ret client) where
  slot := (clientfd_served hij).trans h.slot
  conn := (served_conn_of_open fun _ => hfd).trans h.conn
  bit := fun hmem => h.bit ((readSet_served hfd).mp hmem)

theorem Outcome.served {ret' : Int} (h : Outcome t i ret' s) (hij : i ≠ j)
    (hfd : t.pool.clientfd i ≠ s.pool.clientfd j) :
    Outcome t i ret' (s.served j c ret client) := by
  unfold Outcome at h ⊢
  by_cases hret : ret' = 0
  · rw [if_pos hret] at h ⊢
    exact h.served hij hfd
  · rw [if_neg hret] at h ⊢
    exact h.served hij hfd

theorem outcome_served (h : Same t j s) : Outcome t j ret (s.served j c ret client) := by
  unfold Outcome
  by_cases hret : ret = 0
  · simp only [Server.served, hret, if_true, h.slot]
    exact ⟨Function.update_self .., Function.update_self .., by simp⟩
  · simp only [Server.served, hret, if_false]
    exact ⟨h.slot, h.conn, h.bit⟩

end Served

/-- The scan that started in `t` has come to slot `j`: exactly the clients of the ready slots
behind have been served, and the other slots are as they were. -/
structure Sweep (t : Server) (j : Nat) (s : Server) : Prop where
  same : ∀ i < fdSetsize, j ≤ i ∨ ¬ t.Ready i → Same t i s
  rio : s.pool.clientrio = t.pool.clientrio
  readySet : s.pool.readySet = t.pool.readySet
  maxi : s.pool.maxi = t.pool.maxi
  nready : s.pool.nready = (readySlots t j).card
  done : ∀ i < j, ∀ c, ReadyClient t i c →
    ∃ ret, serve (t.pool.clientrio i) (t.clients c) = some (ret, s.clients c) ∧ Outcome t i ret s
  others : ∀ c, (∀ i < j, ¬ ReadyClient t i c) → s.clients c = t.clients c

theorem Sweep.ready_iff {t s : Server} {j : Nat} (h : Sweep t j s) (hj : j < fdSetsize) :
    s.Ready j ↔ t.Ready j := by
  rw [Server.Ready, Server.Ready, (h.same j hj (.inl le_rfl)).slot, h.readySet]

theorem Sweep.slot_lt {t s : Server} {j : Nat} (h : Sweep t j s) (ht : Linked t)
    (hgoes : s.Goes j) : j < fdSetsize := by
  have hle := hgoes.1
  have := ht.pool.maxi_lt
  rw [h.maxi] at hle
  omega

/-- A client that the scan has still to serve is as it was. -/
theorem Sweep.before {t s : Server} {j c : Nat} (h : Sweep t j s) (ht : Linked t)
    (hc : ReadyClient t j c) : s.clients c = t.clients c :=
  h.others c fun i hi hi' => by
    have := hi'.unique ht hc
    omega

/-- The next slot. -/
theorem Sweep.step {t s s' : Server} {j : Nat} (ht : Linked t) (h : Sweep t j s)
    (hgoes : s.Goes j) (hs : Checked s j s') : Sweep t (j + 1) s' := by
  have hj : j < fdSetsize := h.slot_lt ht hgoes
  have hcard := card_readySlots (t := t) hj
  have hnready := h.nready
  cases hs with
  | idle hready =>
      rw [h.ready_iff hj] at hready
      rw [if_neg hready] at hcard
      have hlt : ∀ i c, i < j + 1 → ReadyClient t i c → i < j := fun i c hi hc =>
        Nat.lt_of_le_of_ne (Nat.le_of_lt_succ hi) (by rintro rfl; exact hready hc.2.1)
      have hpassed : ∀ i, j + 1 ≤ i ∨ ¬ t.Ready i → j ≤ i ∨ ¬ t.Ready i := fun i =>
        Or.imp_left Nat.le_of_succ_le
      exact {
        same := fun i hi hle => h.same i hi (hpassed i hle)
        rio := h.rio
        readySet := h.readySet
        maxi := h.maxi
        nready := by omega
        done := fun i hi c hc => h.done i (hlt i c hi hc) c hc
        others := fun c hc => h.others c fun i hi => hc i (by omega) }
  | served c ret client hready hc hserve =>
      have hsame := h.same j hj (.inl le_rfl)
      have hfd := hsame.slot
      rw [hfd, hsame.conn] at hc
      rw [h.ready_iff hj] at hready
      rw [if_pos hready] at hcard
      have hclient : ReadyClient t j c := ⟨hj, hready, hc⟩
      have hbefore : s.clients c = t.clients c := h.before ht hclient
      have hne : ∀ i < fdSetsize, i ≠ j → t.pool.clientfd i ≠ s.pool.clientfd j :=
        fun i hi hij heq =>
          hij (ht.pool.distinct j hj i hi (le_of_lt hready.1) (heq.trans hfd).symm).symm
      exact {
        same := fun i hi hle => by
          have hij : i ≠ j := by
            rintro rfl
            exact hle.elim (fun hlt => by omega) fun hnot => hnot hready
          exact (h.same i hi (hle.imp_left Nat.le_of_succ_le)).served hij (hne i hi hij)
        rio := h.rio
        readySet := h.readySet
        maxi := h.maxi
        nready := by simp only [Server.served]; omega
        done := fun i hi d hd => by
          by_cases hdc : d = c
          · subst hdc
            obtain rfl := hd.unique ht hclient
            rw [hbefore, h.rio] at hserve
            exact ⟨ret, by simpa [Server.served] using hserve, outcome_served hsame⟩
          · have hij : i ≠ j := by
              rintro rfl
              exact hdc (Option.some.inj (hd.2.2.symm.trans hc))
            obtain ⟨ret', hserve', hout⟩ := h.done i (by omega) d hd
            refine ⟨ret', ?_, hout.served hij (hne i hd.1 hij)⟩
            simpa only [Server.served, Function.update_of_ne hdc] using hserve'
        others := fun d hd => by
          have hdc : d ≠ c := by
            rintro rfl
            exact hd j (by omega) hclient
          simp only [Server.served, Function.update_of_ne hdc]
          exact h.others d fun i hi => hd i (by omega) }

theorem sweep_start {t : Server} (hn : t.pool.nready = (readySlots t 0).card) : Sweep t 0 t where
  same _ _ _ := ⟨rfl, rfl, Iff.rfl⟩
  rio := rfl
  readySet := rfl
  maxi := rfl
  nready := hn
  done i hi := absurd hi (Nat.not_lt_zero i)
  others _ _ := rfl

/-- With no ready slot ahead the scan might as well have gone through all of them. -/
theorem Sweep.finish {t s : Server} {j : Nat} (h : Sweep t j s)
    (hnone : ∀ i < fdSetsize, j ≤ i → ¬ t.Ready i) : Sweep t fdSetsize s := by
  have hempty : ∀ k, (k = j ∨ k = fdSetsize) → readySlots t k = ∅ := by
    intro k hk
    refine Finset.eq_empty_of_forall_notMem fun i hi => ?_
    obtain ⟨hle, hlt, hready⟩ := mem_readySlots.mp hi
    rcases hk with rfl | rfl
    · exact hnone i hlt hle hready
    · omega
  have hbehind : ∀ i c, ReadyClient t i c → i < j := fun i c hc =>
    not_le.mp fun hle => hnone i hc.1 hle hc.2.1
  exact {
    same := fun i hi hle => h.same i hi <| by
      obtain hle | hready := hle
      · exact absurd hi (not_lt.mpr hle)
      · exact .inr hready
    rio := h.rio
    readySet := h.readySet
    maxi := h.maxi
    nready := by rw [h.nready, hempty j (.inl rfl), hempty fdSetsize (.inr rfl)]
    done := fun i _ c hc => h.done i (hbehind i c hc) c hc
    others := fun c hc => h.others c fun i _ hi' => hc i hi'.1 hi' }

/-- **A whole scan**, with `nready` the number of ready slots: it serves exactly the clients
of these, one line each. -/
theorem sweep_checkClients {t s : Server} (ht : Linked t)
    (hn : t.pool.nready = (readySlots t 0).card) (hs : checkClients t = some s) :
    Sweep t fdSetsize s := by
  obtain ⟨j, -, hsweep, hend⟩ := checkLoop_inv (I := Sweep t)
    (fun _ _ _ hi hgoes hc => hi.step ht hgoes hc) (sweep_start hn) hs
  refine hsweep.finish fun i hi hle hready => ?_
  have hmaxi := ht.pool.maxi i hi (le_of_lt hready.1)
  have hpos : 0 < (readySlots t j).card :=
    Finset.card_pos.mpr ⟨i, mem_readySlots.mpr ⟨hle, hi, hready⟩⟩
  rcases hend with rfl | hstop
  · omega
  · refine hstop ⟨?_, ?_⟩
    · rw [hsweep.maxi]; omega
    · rw [hsweep.nready]; omega

/-- The scan returns if the line reads and echoes of the ready clients do. -/
theorem checkClients_returns {t : Server} (ht : Linked t)
    (hn : t.pool.nready = (readySlots t 0).card)
    (hret : ∀ i c, ReadyClient t i c → serve (t.pool.clientrio i) (t.clients c) ≠ none) :
    ∃ s, checkClients t = some s := by
  refine checkLoop_returns (I := Sweep t) (fun _ _ _ hi hgoes hc => hi.step ht hgoes hc) ?_
    (sweep_start hn)
  intro j s h hgoes
  have hj : j < fdSetsize := h.slot_lt ht hgoes
  rw [checkClient_eq]
  split
  · next hready =>
      rw [h.ready_iff hj] at hready
      have hsame := h.same j hj (.inl le_rfl)
      rw [hsame.slot, hsame.conn, h.rio]
      obtain ⟨c, hc⟩ := ht.conn _ ⟨le_of_lt hready.1, j, hj, rfl⟩
      have hclient : ReadyClient t j c := ⟨hj, hready, hc⟩
      have hbefore : s.clients c = t.clients c := h.before ht hclient
      obtain ⟨x, hx⟩ := Option.ne_none_iff_exists'.mp (hret j c hclient)
      exact ⟨_, by rw [hc, Option.bind_some, hbefore, hx, Option.map_some]⟩
  · exact ⟨s, rfl⟩

/-! ## before the scan -/

/-- The server `t` that `select` and, with the listener ready, `add_client` make of `s`:
the clients of `s` are where they were, and `nready` counts the ready ones. -/
structure Admitted (s : Server) (ready : Finset Int) (t : Server) : Prop where
  linked : Linked t
  listenfd : t.listenfd = s.listenfd
  readySet : t.pool.readySet = ready
  nready : t.pool.nready = (ready.erase s.listenfd).card
  slot : ∀ i < fdSetsize, 0 ≤ s.pool.clientfd i →
    t.pool.clientfd i = s.pool.clientfd i ∧ t.pool.clientrio i = s.pool.clientrio i
  conn : ∀ fd ∈ s.pool.readSet, t.conn fd = s.conn fd
  clients : ∀ c < s.nclients, t.clients c = s.clients c

theorem addClient_slot {p : Pool} {connfd : Int} {i : Nat} (h : 0 ≤ p.clientfd i) :
    (addClient connfd p).clientfd i = p.clientfd i ∧
      (addClient connfd p).clientrio i = p.clientrio i := by
  rcases addClient_cases connfd p with ⟨-, heq⟩ | ⟨j, hj, hfree, -, heq⟩ <;> rw [heq]
  · exact ⟨rfl, rfl⟩
  · have hij : i ≠ j := by rintro rfl; omega
    exact ⟨Function.update_of_ne hij .., Function.update_of_ne hij ..⟩

/-- A descriptor of `read_set` that is not the listener's is that of a client. -/
theorem Linked.holds_of_mem {s : Server} {fd : Int} (h : Linked s) (hfd : fd ∈ s.pool.readSet)
    (hne : fd ≠ s.listenfd) : s.pool.Holds fd :=
  ((h.pool.readSet fd).mp hfd).resolve_left hne

theorem admitted {s : Server} {r : Round} {ready : Finset Int} (h : Linked s)
    (hready : r.ready = some ready)
    (hfd : s.listenfd ∈ ready → NewFd s r.connfd) : Admitted s ready (s.welcome r) := by
  have hsel := h.ready ready ready.card
  simp only [Server.welcome, Server.select, hready]
  split
  · next hl =>
      have hnew := hfd hl
      -- the new descriptor is not in `read_set`, so it cannot be ready
      have hnot : ∀ fd ∈ s.pool.readSet, fd ≠ r.connfd := by
        rintro fd hmem rfl
        exact hnew.not_holds (h.holds_of_mem hmem hnew.2.2.1)
      exact {
        linked := linked_accept hsel hnew.1 hnew.2.2.1 hnew.not_holds
        listenfd := rfl
        readySet := (addClient_frame ..).2
        nready := by
          have hpos := Finset.card_pos.mpr ⟨_, hl⟩
          rw [Finset.card_erase_of_mem hl]
          simp only [Server.accept, addClient_frame]
          omega
        slot := fun i _ hi => addClient_slot hi
        conn := fun fd hmem => Function.update_of_ne (hnot fd hmem) ..
        clients := fun c hc => Function.update_of_ne (Nat.ne_of_lt hc) .. }
  · next hl =>
      exact {
        linked := hsel
        listenfd := rfl
        readySet := rfl
        nready := by rw [Finset.erase_eq_of_notMem hl]
        slot := fun _ _ _ => ⟨rfl, rfl⟩
        conn := fun _ _ => rfl
        clients := fun _ _ => rfl }

/-- A client of `s` that is ready is behind a ready slot of `t`. -/
theorem Admitted.readyClient {s t : Server} {ready : Finset Int} {i c : Nat}
    (h : Admitted s ready t) (hs : Linked s) (hi : i < fdSetsize) (hlive : 0 ≤ s.pool.clientfd i)
    (hmem : s.pool.clientfd i ∈ ready) (hc : s.conn (s.pool.clientfd i) = some c) :
    ReadyClient t i c := by
  have hfd := (h.slot i hi hlive).1
  have hholds : s.pool.Holds (s.pool.clientfd i) := ⟨hlive, i, hi, rfl⟩
  refine ⟨hi, ⟨?_, ?_⟩, ?_⟩
  · rw [hfd]; exact (hs.pool.client _ hholds).1
  · rw [hfd, h.readySet]; exact hmem
  · rw [hfd, h.conn _ ((hs.pool.readSet _).mpr (.inr hholds))]; exact hc

/-- A ready slot of `t` was a client's in `s`. -/
theorem Admitted.slot_of_ready {s t : Server} {ready : Finset Int} {i : Nat}
    (h : Admitted s ready t) (hs : Linked s) (hsub : ready ⊆ s.pool.readSet)
    (hi : i < fdSetsize) (hready : t.Ready i) :
    0 ≤ s.pool.clientfd i ∧ t.pool.clientfd i = s.pool.clientfd i := by
  have hlive : 0 ≤ t.pool.clientfd i := le_of_lt hready.1
  have hne : t.pool.clientfd i ≠ s.listenfd :=
    h.listenfd ▸ (h.linked.pool.client _ ⟨hlive, i, hi, rfl⟩).2
  have hmem := hready.2
  rw [h.readySet] at hmem
  obtain ⟨-, k, hk, heq⟩ := hs.holds_of_mem (hsub hmem) hne
  have hfd := (h.slot k hk (by omega)).1
  obtain rfl : i = k := h.linked.pool.distinct i hi k hk hlive (by rw [hfd, heq])
  exact ⟨by omega, hfd⟩

/-- `nready` is the number of ready slots. -/
theorem Admitted.nready_eq {s t : Server} {ready : Finset Int} (h : Admitted s ready t)
    (hs : Linked s) (hsub : ready ⊆ s.pool.readSet) :
    t.pool.nready = (readySlots t 0).card := by
  rw [h.nready, h.linked.pool.distinct.card_slots (A := ready.erase s.listenfd)]
  · intro i
    simp only [mem_readySlots, Nat.zero_le, true_and, Finset.mem_erase]
    refine and_congr_right fun hi => ⟨fun hready => ?_, ?_⟩
    · have hclient := h.linked.pool.client _ ⟨le_of_lt hready.1, i, hi, rfl⟩
      exact ⟨h.listenfd ▸ hclient.2, h.readySet ▸ hready.2⟩
    · rintro ⟨hne, hmem⟩
      exact ⟨(hs.pool.client _ (hs.holds_of_mem (hsub hmem) hne)).1, h.readySet.symm ▸ hmem⟩
  · intro fd hfd
    rw [Finset.mem_erase] at hfd
    obtain ⟨hlive, i, hi, rfl⟩ := hs.holds_of_mem (hsub hfd.2) hfd.1
    exact ⟨hlive, i, hi, (h.slot i hi hlive).1⟩

/-! ## the round -/

/-- A client of slot `i` that is still there, with its connection, its buffer and its bit. -/
structure Kept (s : Server) (i : Nat) (s' : Server) : Prop where
  slot : s'.pool.clientfd i = s.pool.clientfd i
  rio : s'.pool.clientrio i = s.pool.clientrio i
  conn : s'.conn (s.pool.clientfd i) = s.conn (s.pool.clientfd i)
  bit : s.pool.clientfd i ∈ s'.pool.readSet

/-- The new client is in slot `j`. -/
structure Joined (s : Server) (r : Round) (j : Nat) (s' : Server) : Prop where
  slot : s'.pool.clientfd j = r.connfd
  rio : s'.pool.clientrio j = rioReadinitb (s.pool.clientrio j) r.connfd
  conn : s'.conn r.connfd = some s.nclients
  bit : r.connfd ∈ s'.pool.readSet

/-- A round from `s` to `s'` in which `select` reported `ready`: `nready` is used up, each
ready client has been served once, from the state in which the round found it, and closed if it
was at its end.  No other client has been touched or closed, nor the one that was just accepted,
which has the first free slot. -/
structure ServedOnce (s : Server) (r : Round) (ready : Finset Int) (s' : Server) : Prop where
  nready : s'.pool.nready = 0
  served : ∀ fd ∈ ready, fd ≠ s.listenfd → ∃ i < fdSetsize, ∃ c ret, s.pool.clientfd i = fd ∧
    s.conn fd = some c ∧ serve (s.pool.clientrio i) (s.clients c) = some (ret, s'.clients c) ∧
      if ret = 0 then Gone s i s' else Kept s i s'
  others : ∀ c < s.nclients, (∀ fd ∈ ready, s.conn fd ≠ some c) → s'.clients c = s.clients c
  kept : ∀ i < fdSetsize, 0 ≤ s.pool.clientfd i → s.pool.clientfd i ∉ ready → Kept s i s'
  newcomer : s.listenfd ∈ ready → s'.clients s.nclients =
    { input := r.input, output := r.output, returned := [], echoed := [] }
  joined : s.listenfd ∈ ready → ∀ j, s.pool.freeSlot = some j → Joined s r j s'

/-- The line read and the echo of every ready client return. -/
def LinesReturn (s : Server) (ready : Finset Int) : Prop :=
  ∀ i < fdSetsize, ∀ c, 0 ≤ s.pool.clientfd i → s.pool.clientfd i ∈ ready →
    s.conn (s.pool.clientfd i) = some c → serve (s.pool.clientrio i) (s.clients c) ≠ none

section Round

variable {s t s' : Server} {r : Round} {ready : Finset Int} {i : Nat}

/-- What the scan has left as it was, `add_client` has. -/
theorem Admitted.kept (h : Admitted s ready t) (hs : Linked s) (hi : i < fdSetsize)
    (hlive : 0 ≤ s.pool.clientfd i) (hrio : s'.pool.clientrio = t.pool.clientrio)
    (hsame : Same t i s') : Kept s i s' := by
  obtain ⟨hfd, hentry⟩ := h.slot i hi hlive
  have hbit : s.pool.clientfd i ∈ s.pool.readSet :=
    (hs.pool.readSet _).mpr (.inr ⟨hlive, i, hi, rfl⟩)
  have hconn := hsame.conn
  have hbit' := hsame.bit
  rw [hfd] at hconn hbit'
  refine ⟨hsame.slot.trans hfd, by rw [hrio, hentry], hconn.trans (h.conn _ hbit), hbit'.mpr ?_⟩
  exact (h.linked.pool.readSet _).mpr (.inr ⟨hlive, i, hi, hfd⟩)

theorem Admitted.gone (h : Admitted s ready t) (hi : i < fdSetsize)
    (hlive : 0 ≤ s.pool.clientfd i) (hgone : Gone t i s') : Gone s i s' := by
  have hfd := (h.slot i hi hlive).1
  exact ⟨hgone.slot, hfd ▸ hgone.conn, hfd ▸ hgone.bit⟩

/-- The slot of the new client, which is not ready. -/
theorem joined_of_sweep (hs : Linked s) (hready : r.ready = some ready)
    (hsub : ready ⊆ s.pool.readSet) (hnew : NewFd s r.connfd) (hl : s.listenfd ∈ ready) {j : Nat}
    (hj : s.pool.freeSlot = some j) (hsweep : Sweep (s.welcome r) fdSetsize s') :
    Joined s r j s' := by
  have hlt : j < fdSetsize := by
    have hfound := findSlot_some hj
    omega
  have hpool : (s.welcome r).pool = (s.select r.ready).pool.added j r.connfd := by
    simp only [Server.welcome, Server.select, hready, if_pos hl, Server.accept]
    exact addClient_of_free hj
  have hslot : (s.welcome r).pool.clientfd j = r.connfd := by
    rw [hpool]
    exact Function.update_self ..
  have hsame := hsweep.same j hlt <| .inr fun hready' => by
    have hmem := hready'.2
    rw [hslot, hpool] at hmem
    simp only [Pool.added, Server.select, hready] at hmem
    exact hnew.not_holds (hs.holds_of_mem (hsub hmem) hnew.2.2.1)
  obtain ⟨hfd, hconn, hbit⟩ := hsame
  rw [hslot] at hfd hconn hbit
  refine ⟨hfd, ?_, hconn.trans ?_, hbit.mpr ?_⟩
  · rw [hsweep.rio, hpool]
    simp only [Pool.added, Server.select, hready, Function.update_self]
  · simp only [Server.welcome, Server.select, hready, if_pos hl, Server.accept,
      Function.update_self]
  · rw [hpool]
    exact Finset.mem_insert_self ..

theorem servedOnce_of_sweep (hs : Linked s) (hready : r.ready = some ready)
    (hsub : ready ⊆ s.pool.readSet) (hfd : s.listenfd ∈ ready → NewFd s r.connfd)
    (h : Admitted s ready (s.welcome r)) (hsweep : Sweep (s.welcome r) fdSetsize s') :
    ServedOnce s r ready s' := by
  -- the clients behind ready slots are clients of `s`
  have hold : ∀ i c, ReadyClient (s.welcome r) i c → ∃ fd ∈ ready, s.conn fd = some c := by
    intro i c hc
    have hmem := h.readySet ▸ hc.2.1.2
    exact ⟨_, hmem, (h.conn _ (hsub hmem)) ▸ hc.2.2⟩
  refine ⟨?_, fun fd hfd hne => ?_, fun c hlt hc => ?_, fun i hi hlive hnot => ?_, fun hl => ?_,
    fun hl j hj => joined_of_sweep hs hready hsub (hfd hl) hl hj hsweep⟩
  · rw [hsweep.nready]
    simp [readySlots]
  · obtain ⟨hlive, i, hi, rfl⟩ := hs.holds_of_mem (hsub hfd) hne
    obtain ⟨c, hc⟩ := hs.conn _ ⟨hlive, i, hi, rfl⟩
    obtain ⟨ret, hserve, hout⟩ := hsweep.done i hi c (h.readyClient hs hi hlive hfd hc)
    rw [(h.slot i hi hlive).2, h.clients c (hs.lt _ c hc)] at hserve
    refine ⟨i, hi, c, ret, rfl, hc, hserve, ?_⟩
    unfold Outcome at hout
    split at hout
    · next hret => rw [if_pos hret]; exact h.gone hi hlive hout
    · next hret => rw [if_neg hret]; exact h.kept hs hi hlive hsweep.rio hout
  · rw [hsweep.others c fun i _ hi => ?_, h.clients c hlt]
    obtain ⟨fd, hfd, hfc⟩ := hold i c hi
    exact hc fd hfd hfc
  · refine h.kept hs hi hlive hsweep.rio (hsweep.same i hi (.inr fun hready' => hnot ?_))
    have hmem := hready'.2
    rwa [(h.slot i hi hlive).1, h.readySet] at hmem
  · rw [hsweep.others s.nclients fun i _ hi => ?_]
    · simp only [Server.welcome, Server.select, hready, if_pos hl]
      exact Function.update_self ..
    · obtain ⟨fd, -, hfc⟩ := hold i _ hi
      exact absurd (hs.lt fd _ hfc) (Nat.lt_irrefl _)

end Round

/-- **A round of `main`**, from every reachable pool and for every result of `select`: it
returns exactly if the line reads and echoes of the ready clients do, and then it has served
each ready client one line, once, and no other client. -/
theorem serves_ready_once (listenfd : Int) (calls : List Call) (s : Server)
    (h : Run call Fresh (init listenfd) calls s) (r : Round) (ready : Finset Int)
    (hready : r.ready = some ready) (hsub : ready ⊆ s.pool.readSet)
    (hfd : s.listenfd ∈ ready → NewFd s r.connfd) :
    ((∃ s', iteration s r = some s') ↔ LinesReturn s ready) ∧
      ∀ s', iteration s r = some s' → ServedOnce s r ready s' := by
  obtain ⟨-, hs⟩ := linked_run h
  have hadm := admitted hs hready hfd
  have hn := hadm.nready_eq hs hsub
  refine ⟨⟨?_, fun hret => checkClients_returns hadm.linked hn fun i c hc => ?_⟩, fun s' hs' =>
    servedOnce_of_sweep hs hready hsub hfd hadm (sweep_checkClients hadm.linked hn hs')⟩
  · rintro ⟨s', hs'⟩ i hi c hlive hmem hc
    obtain ⟨ret, hserve, -⟩ := (sweep_checkClients hadm.linked hn hs').done i hi c
      (hadm.readyClient hs hi hlive hmem hc)
    rw [(hadm.slot i hi hlive).2, hadm.clients c (hs.lt _ c hc)] at hserve
    rw [hserve]
    exact Option.some_ne_none _
  · obtain ⟨hlive, heq⟩ := hadm.slot_of_ready hs hsub hc.1 hc.2.1
    have hmem := hadm.readySet ▸ hc.2.1.2
    have hconn := hc.2.2
    rw [hadm.conn _ (hsub hmem)] at hconn
    rw [heq] at hmem hconn
    rw [(hadm.slot i hc.1 hlive).2, hadm.clients c (hs.lt _ c hconn)]
    exact hret i hc.1 c hlive hmem hconn

/-- A client that has sent a line, and one that has not. -/
def twoClients : Server :=
  ((init 3).accept { ready := none, connfd := 4, input := [.ret [97, 10]], output := [.ret 2] })
    |>.accept { ready := none, connfd := 5, input := [], output := [] }

/-- The line of the first client is echoed while a third connects. -/
theorem serves_ready_once_with_newcomer :
    Run call Fresh (init 3) [.add 4 [.ret [97, 10]] [.ret 2], .add 5 [] []] twoClients ∧
      ∃ s', iteration twoClients ⟨some {3, 4}, 6, [], []⟩ = some s' ∧
        (s'.clients 0).echoed = [97, 10] ∧
        ServedOnce twoClients ⟨some {3, 4}, 6, [], []⟩ {3, 4} s' := by
  have hrun : Run call Fresh (init 3) [.add 4 [.ret [97, 10]] [.ret 2], .add 5 [] []] twoClients :=
    (Run.nil.snoc (by decide +kernel) rfl).snoc (by decide +kernel) rfl
  have hiter : (iteration twoClients ⟨some {3, 4}, 6, [], []⟩).map
      (fun s => (s.clients 0).echoed) = some [97, 10] := by decide +kernel
  obtain ⟨s', hs', hech⟩ := Option.map_eq_some_iff.mp hiter
  exact ⟨hrun, s', hs', hech, (serves_ready_once 3 _ _ hrun _ {3, 4} rfl (by decide +kernel)
    (fun _ => by decide +kernel)).2 s' hs'⟩

end SysDemos.EchoServers
