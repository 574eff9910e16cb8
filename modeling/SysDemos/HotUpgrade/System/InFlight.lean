import SysDemos.HotUpgrade.System.LockStep

/-!
# SysDemos.HotUpgrade.System.InFlight

What becomes of transfers on their way when the old server ends.  `handle_unix_event`
looks at `EPOLLERR` and `EPOLLHUP` before it looks at `EPOLLIN`: when the old server has
ended it closes the connection without reading what is queued.

* `in_flight_kept` — as long as that does not happen, and `recvmsg` neither fails nor loses a
  descriptor, every transfer that was sent is handled or still on the connection.
-/

namespace SysDemos.HotUpgrade

open Lts Proc

variable {p p' : Proc} {i : Input} {fe : FiredEvent} {rest : List FiredEvent}

/-! ## ways to the clean-up -/

namespace Proc

/-- A process comes to the clean-up of its unix connection from the dispatch or from
`processRecv`. -/
theorem step_to_dropUnix (hs : p.step i = some p') (hpc' : p'.pc = .handle fe .dropUnix rest) :
    i = .tau ∧ p' = p.goto (.handle fe .dropUnix rest) ∧ p.pc = .dispatch (fe :: rest) ∧
        Dispatched p fe rest (.handle fe .dropUnix rest) ∨
      ∃ r added, i = .recvmsg r added := by
  obtain hdispatch | ⟨h₀, -, hh⟩ := step_to_handle hs hpc'
  · exact .inl hdispatch
  · exact .inr (hh.recv_of_next hpc' (.inl rfl)).2

end Proc

namespace System

variable {w w' : System} {l : Label}

/-- An error or a hang-up of the unix connection is dispatched when nothing is queued on
it, and `recvmsg` does not fail. -/
def Reads (w : System) (l : Label) : Prop :=
  (l = .proc .new .tau → ∀ fe rest, w.new.pc = .dispatch (fe :: rest) →
    w.new.branch fe.fd = .unixEvent → (fe.mask.epollerr = true ∨ fe.mask.epollhup = true) →
    w.chan.toNew = []) ∧
  ∀ added, l ≠ .proc .new (.recvmsg (.err .other) added)

/-- The connection is not given up while a transfer is on its way. -/
structure Undropped (w : System) : Prop where
  oldGone : w.chan.newEnd = .queued ∨ w.chan.newEnd = .accepted → w.chan.oldEnd = false →
    w.old.pc = .exited
  hangUps : ∀ fe ∈ w.new.pc.pending, (fe.mask.epollerr = true ∨ fe.mask.epollhup = true) →
    isUnixConn (w.new.fds fe.fd) = true → w.chan.oldEnd = false
  dropping : ∀ fe rest, w.new.pc = .handle fe .dropUnix rest →
    w.chan.pending = [] ∧ (w.chan.newEnd = .closed ∨ w.chan.oldEnd = false)
  closed : w.new.pc ≠ .exited → w.chan.newEnd = .closed → w.chan.pending = []
  absent : w.chan.newEnd = .absent → w.chan.sent = []

/-! ## the unix connection of the new server -/

theorem exists_core (hinv : Inv p) (hpc : p.pc ≠ .exited) : ∃ hole, Core p hole := by
  have hpcInv := hinv.pcInv
  unfold PcInv at hpcInv
  split at hpcInv
  · split at hpcInv
    · exact ⟨_, hpcInv⟩
    · exact ⟨_, hpcInv⟩
    · obtain ⟨-, -, -, -, uc, -, hcore⟩ := hpcInv
      exact ⟨_, hcore⟩
    · exact ⟨_, hpcInv⟩
    · exact hpcInv.2
    · exact ⟨_, hpcInv.2⟩
    · exact ⟨_, hpcInv.2.1⟩
  · next hexited => exact absurd hexited hpc
  · exact ⟨_, hpcInv⟩

/-- Before it has accepted the connection the new server has none. -/
theorem Open.isUnixConn (h : Open w) (hend : w.chan.newEnd ≠ .accepted) (hpc : w.new.pc ≠ .exited)
    (fd : Fd) : isUnixConn (w.new.fds fd) = false := by
  obtain ⟨hole, hcore⟩ := exists_core h.inv hpc
  cases hobj : w.new.fds fd with
  | none => rfl
  | some obj =>
      cases obj with
      | unixConn k =>
          have hnonneg := h.inv.nonneg fd (by simp [hobj])
          rw [hcore.unixOnly _ _ hobj, h.link hend] at hnonneg
          exact absurd hnonneg (by decide)
      | _ => rfl

theorem Open.accepted_of_dropUnix (h : Open w) (hpc : w.new.pc = .handle fe .dropUnix rest) :
    w.chan.newEnd = .accepted := by
  by_contra hend
  have hunix := isUnixConn_dropUnix h.inv hpc
  rw [h.isUnixConn hend (by simp [hpc])] at hunix
  contradiction

theorem pending_eq_nil {ss : List (MsgRequestType × Obj)}
    (h : (ss.flatMap msgCells).length < msgDataBufLen) : ss = [] := by
  cases ss with
  | nil => rfl
  | cons s ss =>
      rw [List.flatMap_cons, List.length_append, length_msgCells] at h
      omega

/-! ## steps -/

/-- Only the new server, the two ends and the transfers on their way matter. -/
theorem Undropped.congr (h : Undropped w) (hpcOld : w.old.pc = .exited → w'.old.pc = .exited)
    (hnew : w'.new = w.new) (hold : w'.chan.oldEnd = w.chan.oldEnd)
    (hend : w'.chan.newEnd = w.chan.newEnd) (hsent : w'.chan.sent = w.chan.sent)
    (hhandled : w'.chan.handled = w.chan.handled) : Undropped w' := by
  have hpend : w'.chan.pending = w.chan.pending := by rw [Chan.pending, hsent, hhandled]; rfl
  refine ⟨?_, ?_, ?_, ?_, ?_⟩
  · rw [hend, hold]
    exact fun hopen hgone => hpcOld (h.oldGone hopen hgone)
  · rw [hnew, hold]
    exact h.hangUps
  · rw [hnew, hold, hend, hpend]
    exact h.dropping
  · rw [hnew, hend, hpend]
    exact h.closed
  · rw [hend, hsent]
    exact h.absent

/-- The old server ends. -/
theorem Undropped.exit (h : Undropped w) (hpcOld : w'.old.pc = .exited) (hnew : w'.new = w.new)
    (hchan : w'.chan = w.chan.hangUp .old) : Undropped w' := by
  refine ⟨fun _ _ => hpcOld, ?_, ?_, ?_, ?_⟩
  · rw [hchan]
    exact fun _ _ _ _ => rfl
  · rw [hnew, hchan]
    exact fun fe rest hpc => ⟨(h.dropping fe rest hpc).1, .inr rfl⟩
  · rw [hnew, hchan]
    exact h.closed
  · rw [hchan]
    exact h.absent

theorem Framed.undropped_connect (hf : Framed w) (habsent : w.chan.newEnd = .absent)
    (hnew : w'.new = w.new)
    (hchan : w'.chan = { w.chan with oldEnd := true, newEnd := .queued }) : Undropped w' := by
  have hopen := hf.isOpen (by simp [habsent])
  have hnone (fd : Fd) (hpc : w.new.pc ≠ .exited) : isUnixConn (w.new.fds fd) = false :=
    hopen.isUnixConn (by simp [habsent]) hpc fd
  refine ⟨?_, ?_, ?_, ?_, ?_⟩
  · rw [hchan]
    exact fun _ hgone => by contradiction
  · rw [hnew]
    intro fe hmem _ hunix
    rw [hnone fe.fd (fun hpc => by simp [hpc, Pc.pending] at hmem)] at hunix
    contradiction
  · rw [hnew]
    intro fe rest hpc
    have haccepted := hopen.accepted_of_dropUnix hpc
    rw [habsent] at haccepted
    contradiction
  · rw [hchan]
    exact fun _ hclosed => by contradiction
  · rw [hchan]
    exact fun habsent' => by contradiction

theorem Undropped.send (h : Undropped w) (hpc : w.old.pc ≠ .exited)
    (hend : w.chan.newEnd = .queued ∨ w.chan.newEnd = .accepted) {n : Nat} {t : MsgRequestType}
    {obj : Obj} (hnew : w'.new = w.new) (hchan : w'.chan = w.chan.send n t obj) :
    Undropped w' := by
  have hnotClosed : w.chan.newEnd ≠ .closed := by
    obtain hend | hend := hend <;> simp [hend]
  have hnotAbsent : w.chan.newEnd ≠ .absent := by
    obtain hend | hend := hend <;> simp [hend]
  have hlive : w.chan.oldEnd ≠ false := fun hgone => hpc (h.oldGone hend hgone)
  refine ⟨?_, ?_, ?_, ?_, ?_⟩
  · rw [hchan]
    exact fun _ hgone => absurd hgone hlive
  · rw [hnew, hchan]
    exact h.hangUps
  · rw [hnew]
    intro fe rest hdrop
    obtain hclosed | hgone := (h.dropping fe rest hdrop).2
    · exact absurd hclosed hnotClosed
    · exact absurd hgone hlive
  · rw [hchan]
    exact fun _ hclosed => absurd hclosed hnotClosed
  · rw [hchan]
    exact fun habsent => absurd habsent hnotAbsent

theorem Undropped.served_old (h : Undropped w) (hf : Framed w) {i : Input} {ch' : Chan}
    (hpc : w.old.pc ≠ .exited) (hserved : OldServed w.old w.chan i w'.old ch')
    (hnew : w'.new = w.new) (hchan : w'.chan = ch') : Undropped w' := by
  generalize hp' : w'.old = p' at hserved
  have hpcOld (hexited : w.old.pc = .exited) : w'.old.pc = .exited := absurd hexited hpc
  cases hserved with
  | quiet =>
      exact h.congr hpcOld hnew (by rw [hchan]) (by rw [hchan]) (by rw [hchan]) (by rw [hchan])
  | connect _ habsent => exact hf.undropped_connect habsent hnew hchan
  | send _ _ hend => exact h.send hpc hend hnew hchan
  | reply =>
      exact h.congr hpcOld hnew (by rw [hchan]) (by rw [hchan]) (by rw [hchan]) (by rw [hchan])
  | exit => exact h.exit (by rw [hp']; rfl) hnew hchan

theorem oldEnd_served {ch ch' : Chan} (hserved : NewServed p ch i p' ch') :
    ch'.oldEnd = ch.oldEnd := by
  cases hserved <;> rfl

/-- A hang-up that is dispatched finds nothing queued, and nothing can come any more. -/
theorem Undropped.dispatch (h : Undropped w) (hf : Framed w) (hreads : Reads w (.proc .new .tau))
    (hs : w.new.step .tau = some (w.new.goto (.handle fe .dropUnix rest)))
    (hpc : w.new.pc = .dispatch (fe :: rest))
    (hd : Dispatched w.new fe rest (.handle fe .dropUnix rest)) :
    w.chan.pending = [] ∧ (w.chan.newEnd = .closed ∨ w.chan.oldEnd = false) := by
  by_cases hclosed : w.chan.newEnd = .closed
  · exact ⟨h.closed (by simp [hpc]) hclosed, .inl hclosed⟩
  have hopen := hf.isOpen hclosed
  have hmem : fe ∈ w.new.pc.pending := by simp [hpc, Pc.pending]
  have hinv : Inv (w.new.goto (.handle fe .dropUnix rest)) :=
    hopen.inv.step (by simp [HandOver]) ⟨by simp [hpc], by simp⟩ hs
  have hunix : isUnixConn ((w.new.goto (.handle fe .dropUnix rest)).fds fe.fd) = true :=
    isUnixConn_dropUnix hinv rfl
  cases hd with
  | dropUnix hb hwhy =>
      have hmask : fe.mask.epollerr = true ∨ fe.mask.epollhup = true := by
        obtain herr | hhup | hnone := hwhy
        · exact .inl herr
        · exact .inr hhup
        · -- an open connection is owned by `unix_conn`
          have hpcInv := hopen.inv.pcInv
          rw [hpc] at hpcInv
          obtain ⟨hneg, -⟩ | ⟨uc, k, huc, -⟩ := Core.unix hpcInv
          · have hnonneg := hopen.inv.toWf.nonneg_of_pending hmem
            rw [eq_of_branch hb, hneg] at hnonneg
            exact absurd hnonneg (by decide)
          · simp [hnone] at huc
      have hstream := hopen.stream (by simp [hpc])
      rw [inbound_of_requestStr (by simp [requestStr, hpc]), hreads.1 rfl _ _ hpc hb hmask]
        at hstream
      exact ⟨pending_eq_nil (by simp [← hstream, msgDataBufLen]),
        .inr (h.hangUps fe hmem hmask hunix)⟩

/-- At the end of the stream every message has been handled. -/
theorem Undropped.eof (h : Undropped w) (hf : Framed w) {str : List UInt8} {room got : Bool}
    (hpc : w.new.pc = .handle fe (.recv str room got) rest) (htoNew : w.chan.toNew = []) :
    w.chan.pending = [] := by
  by_cases hclosed : w.chan.newEnd = .closed
  · exact h.closed (by simp [hpc]) hclosed
  have hopen := hf.isOpen hclosed
  have hpcInv := hopen.inv.pcInv
  rw [hpc] at hpcInv
  obtain ⟨-, -, -, hlen, -⟩ := hpcInv
  have hstream := hopen.stream (by simp [hpc])
  rw [inbound, requestStr_of_pc hpc, htoNew, List.append_nil] at hstream
  exact pending_eq_nil (by rw [← hstream, length_cellsOf]; exact hlen)

theorem Undropped.dropping_step (h : Undropped w) (hbase : Base w) (hf : Framed w) {i : Input}
    (hs : w.new.step i = some p') {ch' : Chan} (hserve : w.chan.serve .new w.new p' i = some ch')
    (haligned : Aligned w (.proc .new i)) (hinstalls : Installs w (.proc .new i))
    (hreads : Reads w (.proc .new i)) (hpc' : p'.pc = .handle fe .dropUnix rest) :
    ch'.pending = [] ∧ (ch'.newEnd = .closed ∨ ch'.oldEnd = false) := by
  obtain ⟨rfl, rfl, hpc, hd⟩ | ⟨r, added, rfl⟩ := step_to_dropUnix hs hpc'
  · have hchan : ch' = w.chan := by
      simpa [Chan.serve, closing, hpc, isUnixConn] using hserve.symm
    rw [hchan]
    exact h.dispatch hf hreads hs hpc hd
  · cases served_new hbase.newRole hs hserve with
    | quiet _ _ _ _ hrecv => exact absurd rfl (hrecv _ _)
    | close _ _ hrecv => exact absurd rfl (hrecv _ _)
    | again hpc => simp [hpc] at hpc'
    | gone hpc hr =>
        obtain ⟨-, htoNew, hgone⟩ | rfl := hr
        · exact ⟨h.eof hf hpc htoNew, .inr hgone⟩
        · exact absurd rfl (hreads.2 added)
    | data hpc hh haccepted hbs hdesc =>
        obtain ⟨s, pend, -, -, -, hreceived, -⟩ :=
          hf.receipt hpc hh haccepted hbs hdesc haligned hinstalls
        have hreq : p'.requestStr = [] := by simp [requestStr, hpc']
        cases hreceived with
        | part _ hreq' =>
            rw [hreq] at hreq'
            simp [hh.data_ne_nil] at hreq'
        | whole _ _ hreplying => simp [replying, hpc'] at hreplying

theorem Undropped.closed_step (h : Undropped w) (hf : Framed w) {i : Input} {ch' : Chan}
    (hserved : NewServed w.new w.chan i p' ch') (hpc : w.new.pc ≠ .exited)
    (hrun : p'.pc ≠ .exited) (hclosed : ch'.newEnd = .closed) : ch'.pending = [] := by
  cases hserved with
  | quiet => exact h.closed hpc hclosed
  | accept => simp at hclosed
  | again => exact h.closed hpc hclosed
  | gone => exact h.closed hpc hclosed
  | data _ _ haccepted => simp [haccepted] at hclosed
  | reply _ hend => simp [hend.1] at hclosed
  | noReply => exact h.closed hpc hclosed
  | close _ _ _ hwhy =>
      obtain hexited | hclosing := hwhy
      · exact absurd hexited hrun
      · -- only a connection given up before can still be taken for a session
        by_cases hend : w.chan.newEnd = .closed
        · exact h.closed hpc hend
        · obtain ⟨fe, rest, hpc'⟩ := dropUnix_of_closing (hf.isOpen hend).inv hclosing
          exact (h.dropping fe rest hpc').1

theorem ends_served {ch ch' : Chan} (hserved : NewServed p ch i p' ch') :
    (ch'.newEnd = .queued ∨ ch'.newEnd = .accepted → ch.newEnd = .queued ∨ ch.newEnd = .accepted) ∧
      (ch'.newEnd = .absent → ch.newEnd = .absent) ∧ ch'.sent = ch.sent := by
  cases hserved with
  | accept _ hqueued => exact ⟨fun _ => .inl hqueued, nofun, rfl⟩
  | close => exact ⟨nofun, nofun, rfl⟩
  | _ => exact ⟨id, id, rfl⟩

theorem Undropped.new (h : Undropped w) (hbase : Base w) (hf : Framed w) {i : Input}
    (hs : w.new.step i = some w'.new)
    (hserve : w.chan.serve .new w.new w'.new i = some w'.chan) (hold : w'.old = w.old)
    (haligned : Aligned w (.proc .new i)) (hinstalls : Installs w (.proc .new i))
    (hreads : Reads w (.proc .new i)) : Undropped w' := by
  have hserved := HotUpgrade.served_new hbase.newRole hs hserve
  have hpc : w.new.pc ≠ .exited := fun hpc => by simp [Proc.step, hpc] at hs
  obtain ⟨hends, habsent, hsent⟩ := ends_served hserved
  have holdEnd := oldEnd_served hserved
  refine ⟨?_, ?_, ?_, h.closed_step hf hserved hpc, ?_⟩
  · rw [hold, holdEnd]
    exact fun hend => h.oldGone (hends hend)
  · intro fe hmem hmask hunix
    rw [hbase.newWf.fds_pending hs hmem] at hunix
    rw [holdEnd]
    obtain hpend | ⟨evs, rfl, hevs⟩ := pending_step hs hmem
    · exact h.hangUps fe hpend hmask hunix
    · obtain ⟨hallows, -⟩ := Option.ite_none_right_eq_some.mp hserve
      exact hallows fe hevs hmask hunix
  · exact fun fe rest => h.dropping_step hbase hf hs hserve haligned hinstalls hreads
  · rw [hsent]
    exact fun hend => h.absent (habsent hend)

/-- **Step**: the connection is not given up while a transfer is on its way. -/
theorem Undropped.step (h : Undropped w) (hbase : Base w) (hf : Framed w) (haligned : Aligned w l)
    (hinstalls : Installs w l) (hreads : Reads w l) (hs : w.step l = some w') : Undropped w' := by
  cases moves_of_step hs with
  | old hp' hch =>
      have hpc : w.old.pc ≠ .exited := fun hpc => by simp [Proc.step, hpc] at hp'
      have hserved := HotUpgrade.served_old hbase.oldInv hbase.oldRole hp' hch
      exact h.served_old hf hpc hserved rfl rfl
  | new hp' hch => exact h.new hbase hf hp' hch rfl haligned hinstalls hreads
  | client => exact h.congr id rfl rfl rfl rfl rfl
  | kill pid =>
      cases pid with
      | old => exact h.exit rfl rfl rfl
      | new =>
          refine ⟨?_, ?_, ?_, fun hrun => absurd rfl hrun, ?_⟩
          all_goals simp [setProc, Proc.exit, Pc.pending, Chan.hangUp]

theorem undropped_init {lfd ufd : Fd} : Undropped (init lfd ufd) := by
  refine ⟨nofun, ?_, nofun, nofun, fun _ => rfl⟩
  intro fe hmem
  simp [init, pc_start, Pc.pending] at hmem

/-! ## transfers on their way -/

/-- The `k`-th transfer, which is `s`, has been handled or is still on the open
connection. -/
def Survives (w : System) (k : Nat) (s : MsgRequestType × Obj) : Prop :=
  (∃ h, w.chan.handled[k]? = some h ∧ h.Takes s) ∨
    (w.chan.newEnd = .queued ∨ w.chan.newEnd = .accepted) ∧ msgCells s <:+: w.inbound

/-- Nothing that has been sent is lost. -/
def InFlight (w : System) : Prop := ∀ k s, w.chan.sent[k]? = some s → Survives w k s

theorem Framed.handled_get (hf : Framed w) {k : Nat} {s : MsgRequestType × Obj}
    (hs : w.chan.sent[k]? = some s) (hk : k < w.chan.handled.length) :
    ∃ h, w.chan.handled[k]? = some h ∧ h.Takes s := by
  obtain ⟨hlen, htakes⟩ := List.forall₂_iff_get.mp hf.handled
  have hget := htakes k hk (hlen ▸ hk)
  obtain ⟨hk', hsk⟩ := List.getElem?_eq_some_iff.mp hs
  refine ⟨_, List.getElem?_eq_getElem hk, ?_⟩
  simpa [hsk] using hget

theorem mem_pending {k : Nat} {s : MsgRequestType × Obj} (hs : w.chan.sent[k]? = some s)
    (hk : w.chan.handled.length ≤ k) : s ∈ w.chan.pending := by
  refine List.mem_of_getElem? (i := k - w.chan.handled.length) ?_
  rw [Chan.pending, List.getElem?_drop, ← hs]
  congr 1
  omega

theorem Undropped.inFlight (h : Undropped w) (hf : Framed w) (hpc : w.new.pc ≠ .exited) :
    InFlight w := by
  intro k s hs
  by_cases hk : k < w.chan.handled.length
  · exact .inl (hf.handled_get hs hk)
  have hmem := mem_pending hs (by omega)
  have hne : w.chan.pending ≠ [] := List.ne_nil_of_mem hmem
  have hnotClosed : w.chan.newEnd ≠ .closed := fun hclosed => hne (h.closed hpc hclosed)
  refine .inr ⟨?_, ?_⟩
  · cases hend : w.chan.newEnd with
    | queued => exact .inl rfl
    | accepted => exact .inr rfl
    | closed => exact absurd hend hnotClosed
    | absent => simp [h.absent hend] at hs
  · rw [(hf.isOpen hnotClosed).stream fun fe rest hdrop => hne (h.dropping fe rest hdrop).1]
    obtain ⟨before, after, hsplit⟩ := List.append_of_mem hmem
    rw [hsplit, List.flatMap_append, List.flatMap_cons, ← List.append_assoc]
    exact List.infix_append _ _ _

/-- A hang-up is about to be handled while something is queued. -/
def Discards (w : System) : Prop :=
  ∃ fe rest, w.new.pc = .dispatch (fe :: rest) ∧ w.new.branch fe.fd = .unixEvent ∧
    (fe.mask.epollerr = true ∨ fe.mask.epollhup = true) ∧ w.chan.toNew ≠ []

/-- What is pending when the new server closes the connection is lost. -/
theorem not_inFlight_hangUp (hpend : w.chan.pending ≠ []) (hchan : w'.chan = w.chan.hangUp .new) :
    ¬ InFlight w' := by
  intro hflight
  have hlt : w.chan.handled.length < w.chan.sent.length := by
    by_contra hge
    exact hpend (List.drop_eq_nil_iff.mpr (by omega))
  have hs : w'.chan.sent[w.chan.handled.length]? = some (w.chan.sent.get ⟨_, hlt⟩) := by
    rw [hchan]
    exact List.getElem?_eq_getElem hlt
  obtain ⟨h, hh, -⟩ | ⟨hend, -⟩ := hflight _ _ hs
  · rw [hchan] at hh
    simp [Chan.hangUp] at hh
  · rw [hchan] at hend
    simp [Chan.hangUp] at hend

theorem Undropped.discards {w₁ w₂ : System} (h : Undropped w) (hf : Framed w) (hd : Discards w)
    (hs₁ : w.step (.proc .new .tau) = some w₁) (hs₂ : w₁.step (.proc .new .tau) = some w₂) :
    ¬ InFlight w₂ := by
  obtain ⟨fe, rest, hpc, hb, hmask, hne⟩ := hd
  have hpend : w.chan.pending ≠ [] := by
    intro hnil
    have hqueue := hf.queue
    rw [hnil, List.flatMap_nil, List.suffix_nil] at hqueue
    exact hne hqueue
  have hopen := hf.isOpen fun hclosed => hpend (h.closed (by simp [hpc]) hclosed)
  obtain ⟨p₁, ch₁, n₁, hp₁, hch₁, -, rfl⟩ := step_proc hs₁
  obtain ⟨p₂, ch₂, n₂, hp₂, hch₂, -, rfl⟩ := step_proc hs₂
  have hgoto : p₁ = w.new.goto (.handle fe .dropUnix rest) := by
    have heq : w.new.step .tau = some (w.new.goto (.handle fe .dropUnix rest)) := by
      simp [Proc.step, hpc, Proc.dispatch, hb, handleUnixEvent, hmask]
    exact Option.some.inj (hp₁.symm.trans heq)
  have hchan₁ : ch₁ = w.chan := by
    simpa [Chan.serve, closing, proc, hpc, isUnixConn] using hch₁.symm
  have hinv : Inv p₁ := hopen.inv.step (by simp [HandOver]) ⟨by simp [hpc], by simp⟩ hp₁
  have hclosing : isUnixConn p₁.closing = true := by
    have hpc₁ : p₁.pc = .handle fe .dropUnix rest := by rw [hgoto]; rfl
    simpa [closing, hpc₁] using isUnixConn_dropUnix hinv hpc₁
  refine not_inFlight_hangUp hpend ?_
  rw [hchan₁] at hch₂
  simpa [Chan.serve, proc, setProc, hclosing] using hch₂.symm

/-- **Transfers on their way survive the old server**, in runs in which every `sendmsg`
takes a whole message, no `recvmsg` reads past the end of one, loses its descriptor or fails, and
the new server handles no hang-up while something is queued.  One that it does handle loses a
message. -/
theorem in_flight_kept (lfd ufd : Fd) (ls : List Label) (w : System) (hlfd : 0 ≤ lfd)
    (hufd : 0 ≤ ufd)
    (hrun : Run System.step (fun w l => WholeSend l ∧ Aligned w l ∧ Installs w l ∧ Reads w l)
      (init lfd ufd) ls w) :
    (w.new.pc ≠ .exited → InFlight w) ∧
      ∀ w₁ w₂, Discards w → w.step (.proc .new .tau) = some w₁ →
        w₁.step (.proc .new .tau) = some w₂ → ¬ InFlight w₂ := by
  have hinv : Base w ∧ Framed w ∧ Undropped w := by
    refine Run.inv (I := fun w => Base w ∧ Framed w ∧ Undropped w)
      ⟨base_init hlfd hufd, framed_init hufd, undropped_init⟩ ?_ hrun
    rintro w l w' ⟨hbase, hf, h⟩ ⟨hsend, haligned, hinstalls, hreads⟩ hs
    exact ⟨hbase.step hs, hf.step hbase hsend haligned hinstalls hs,
      h.step hbase hf haligned hinstalls hreads hs⟩
  obtain ⟨-, hf, h⟩ := hinv
  exact ⟨h.inFlight hf, fun _ _ => h.discards hf⟩

/-! ## an unread session -/

/-- A client connects, and the old server accepts it. -/
def clientLabels : List Label :=
  [.connect, .proc .old (.access false), .proc .old (.epollWait [.onFd 3 { epollin := true }]),
    .proc .old .tau, .proc .old (.accept (some (5, 0)) true), .proc .old .tau]

/-- The old server, which has handed over its listener, sends the session and ends. -/
def sessionLabels : List Label :=
  [.proc .old (.epollWait [.onFd 5 { epollin := true }]), .proc .old .tau,
    .proc .old (.sendmsg (.ret 1024)), .kill .old]

/-- The old server sends the session and ends before the new one has read it. -/
def unreadLabels : List Label :=
  clientLabels ++ sendLabels ++ acceptLabels ++ replyLabels ++ sessionLabels

/-- The new server is told of both the message and the hang-up. -/
def hangUpLabels : List Label :=
  [.proc .new .tau, .proc .new (.access false),
    .proc .new (.epollWait [.onFd 4 { epollin := true, epollhup := true }]), .proc .new .tau,
    .proc .new .tau]

/-- The new server closes the connection with the session's message on it. -/
theorem not_survives_hang_up : ¬ ∀ (lfd ufd : Fd) (ls : List Label) (w : System), 0 ≤ lfd →
    0 ≤ ufd → Run System.step any (init lfd ufd) ls w → w.new.pc ≠ .exited →
    ∀ k c, w.chan.sent[k]? = some (.kTransferSessionFd, .inet c) →
      Survives w k (.kTransferSessionFd, .inet c) := by
  intro hall
  have hexec : (exec System.step (fun _ _ => true) (init 3 3) (unreadLabels ++ hangUpLabels)).map
      (fun w => (w.new.pc, w.chan.sent[1]?, w.chan.handled.length, w.chan.newEnd)) =
        some (.dispatch [], some (.kTransferSessionFd, .inet 0), 1, .closed) := by
    decide +kernel
  obtain ⟨w, hrun, hobs⟩ := exists_run_of_exec _ _ hexec
  simp only [Prod.mk.injEq] at hobs
  obtain ⟨hpc, hsent, hlen, hclosed⟩ := hobs
  have hsurvives := hall 3 3 _ w (by decide) (by decide) hrun.toAny
    (by simp [hpc]) 1 0 hsent
  obtain ⟨h, hh, -⟩ | ⟨hend, -⟩ := hsurvives
  · simp [List.getElem?_eq_none (Nat.le_of_eq hlen)] at hh
  · simp [hclosed] at hend

/-- A test for the conditions under which nothing is lost. -/
def readsb (w : System) (l : Label) : Bool :=
  installsb w l &&
    match l with
    | .proc .old (.sendmsg (.ret n)) => n = msgDataBufLen
    | .proc .new (.recvmsg (.data bs _) _) => (w.new.requestStr ++ bs).length ≤ msgDataBufLen
    | .proc .new (.recvmsg (.err e) _) => e ≠ .other
    | .proc .new .tau =>
      match w.new.pc with
      | .dispatch (fe :: _) => !(fe.mask.epollerr || fe.mask.epollhup)
      | _ => true
    | _ => true

theorem reads_of_readsb (h : readsb w l = true) :
    WholeSend l ∧ Aligned w l ∧ Installs w l ∧ Reads w l := by
  obtain ⟨hinstalls, h⟩ := (Bool.and_eq_true _ _).mp h
  refine ⟨?_, ?_, installs_of_installsb hinstalls, ?_, ?_⟩
  · rintro n rfl
    simpa using h
  · rintro bs desc added rfl
    simpa using h
  · rintro rfl fe rest hpc - hmask
    simp only [hpc] at h
    obtain hmask | hmask := hmask <;> simp [hmask] at h
  · rintro added rfl
    simp at h

/-- The old server has ended; the session it has sent is on the connection. -/
theorem in_flight_kept_unread : ∃ w,
    Run System.step (fun w l => WholeSend l ∧ Aligned w l ∧ Installs w l ∧ Reads w l) (init 3 3)
      unreadLabels w ∧
    w.old.pc = .exited ∧ w.chan.sent[1]? = some (.kTransferSessionFd, .inet 0) ∧
    Survives w 1 (.kTransferSessionFd, .inet 0) := by
  have hexec : (exec System.step readsb (init 3 3) unreadLabels).map
      (fun w => (w.old.pc, w.new.pc, w.chan.sent[1]?)) =
        some (.exited, .dispatch [], some (.kTransferSessionFd, .inet 0)) := by
    decide +kernel
  obtain ⟨w, hrun, hobs⟩ := exists_run_of_exec _ _ hexec
  simp only [Prod.mk.injEq] at hobs
  obtain ⟨hold, hnew, hsent⟩ := hobs
  replace hrun := hrun.mono fun _ _ => reads_of_readsb
  have hkept := (in_flight_kept 3 3 _ w (by decide) (by decide) hrun).1 (by simp [hnew])
  exact ⟨w, hrun, hold, hsent, hkept 1 _ hsent⟩

end System

end SysDemos.HotUpgrade
