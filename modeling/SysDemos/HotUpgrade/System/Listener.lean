import SysDemos.HotUpgrade.System.Clients
import SysDemos.HotUpgrade.System.Live

/-!
# SysDemos.HotUpgrade.System.Listener

The inet listener and the clients that connect while it is handed over.

* `no_listener_gap` — in a live upgrade the listener is registered in one of the servers
  at all times, the old one gives it up after the new one has registered it, and every
  client is accepted once, by one server, and entered there only.
-/

namespace SysDemos.HotUpgrade

open Lts Proc
open Function (update)

variable {p p' : Proc} {i : Input}

/-! ## the listener of one process -/

namespace Proc

/-- The process has the inet listener, and has registered it. -/
def Listens (p : Proc) : Prop :=
  p.fds p.inetListenFd = some .inetListen ∧ p.interest p.inetListenFd ≠ none

/-- If the process has a listener, it is registered. -/
def ListenerAdded (p : Proc) : Prop := p.inetListenFd ≠ -1 → p.interest p.inetListenFd ≠ none

theorem ListenerAdded.listens (h : ListenerAdded p) {hole : Option Fd} (hcore : Core p hole)
    (hfd : p.inetListenFd ≠ -1) : Listens p :=
  ⟨hcore.inetListen.resolve_left hfd, h hfd⟩

/-- No event but one on the listener itself touches its registration. -/
theorem Handle.listener {fe : FiredEvent} {h : Handler} {rest : List FiredEvent}
    (hh : Handle p fe rest h i p') (hinv : Inv p) (hpc : p.pc = .handle fe h rest)
    (hrun : p'.pc ≠ .exited) (hdrop : h ≠ .dropUnix)
    (hreg : p.interest p.inetListenFd ≠ none) : p'.interest p.inetListenFd ≠ none := by
  have hpcInv := hinv.pcInv
  rw [hpc] at hpcInv
  have net (hb : p.branch fe.fd = .netEvent) : p.inetListenFd ≠ fe.fd :=
    (other_of_branch hb).1.symm
  have same (hsame : p'.interest p.inetListenFd = p.interest p.inetListenFd) :
      p'.interest p.inetListenFd ≠ none := hsame ▸ hreg
  cases hh with
  | acceptFail => exact absurd rfl hrun
  | unixAcceptFail => exact absurd rfl hrun
  | accept => exact same (interest_addEvent_of_some _ _ hreg)
  | unixAccept => exact same (interest_addEvent_of_some _ _ hreg)
  | recvPlain => exact same (interest_received p _ _ _ _ _ hreg)
  | recvDesc => exact same (interest_received (p.install _ _ _) _ _ _ _ _ hreg)
  | sendSession =>
      unfold afterTransfer
      split <;> exact hreg
  | header =>
      exact same ((sameAt_setConn _ (net hpcInv.1)).trans
        (sameAt_afterGetRequest _ (net hpcInv.1))).interest
  | payload =>
      exact same ((sameAt_setConn _ (net hpcInv.1)).trans
        (sameAt_afterGetRequest _ (net hpcInv.1))).interest
  | write =>
      exact same ((sameAt_setConn _ (net hpcInv.1)).trans
        (sameAt_afterSendReply _ (net hpcInv.1))).interest
  | dropUnix => exact absurd rfl hdrop
  | dropInet => exact same (sameAt_delClose (net hpcInv.1)).interest
  | _ => exact hreg

/-- A step that does not change `inet_listen_fd` leaves it registered. -/
theorem ListenerAdded.step (h : ListenerAdded p) (hinv : Inv p) (hs : p.step i = some p')
    (hrun : p'.pc ≠ .exited) (hdrop : ∀ fe rest, p.pc ≠ .handle fe .dropUnix rest)
    (hsame : p'.inetListenFd = p.inetListenFd) : ListenerAdded p' := by
  intro hfd
  rw [hsame] at hfd ⊢
  have hreg := h hfd
  cases step_cases hs with
  | access =>
      unfold checkTrigger
      split <;> exact hreg
  | connectFail => exact absurd rfl hrun
  | sendListen =>
      unfold afterHandOver
      split
      · next hok => exact absurd hok (sendLoop_ne_ok _ _)
      · exact hreg
      · exact hreg
  | replyListen => exact absurd hsame.symm hfd
  | handle hpc hh =>
      exact hh.listener hinv hpc hrun (fun heq => hdrop _ _ (heq ▸ hpc)) hreg
  | _ => exact hreg

/-- A listener that comes with a request is registered if `epoll_ctl` succeeds. -/
theorem interest_attached {hole : Option Fd} (hcore : Core p hole) (ht : Tables p)
    {bs : List UInt8} {fd : Fd} {obj : Obj} {added : Bool}
    (hs : p.step (.recvmsg (.data bs (some (fd, obj))) added) = some p')
    (hfd : p'.inetListenFd = fd) : 0 ≤ fd ∧ (p'.interest fd ≠ none ↔ added = true) := by
  cases step_cases hs with
  | handle _ hh =>
      cases hh with
      | recvClose hr => simp at hr
      | recvDesc _ _ _ hfresh =>
          have hne : p.inetListenFd ≠ fd := (hcore.other_of_fresh hfresh).1.symm
          have hnone : p.interest fd = none := by
            by_contra hreg
            exact ht.regOpen fd hreg hfresh.2
          refine ⟨hfresh.1, ?_⟩
          unfold received processRequest at hfd ⊢
          split at hfd
          · exact absurd hfd hne
          · next hlen =>
              split at hfd
              · next htype =>
                  rw [if_neg hlen, if_pos htype]
                  cases added <;> simp [attachInetListenFd, addEvent, install, goto, hnone]
              · split at hfd <;> exact absurd hfd hne

theorem listenerAdded_start (path : Path) (fd : Fd) : ListenerAdded (start path fd) := by
  unfold start
  split
  · exact fun hfd => absurd rfl hfd
  · intro _
    simp [startInetServer, addEvent, boot]

end Proc

/-! ## the listener of the system -/

namespace System

variable {w w' : System} {l : Label}

/-- `epoll_ctl` succeeds for a listener that is received. -/
def AddsListener (w : System) (l : Label) : Prop :=
  ∀ bs desc added, l = .proc .new (.recvmsg (.data bs desc) added) →
    IsListenRequest (w.new.requestStr ++ bs) → added = true

/-- Listeners are registered, and once the transfer of the listener has been handled the
new server has one. -/
structure Listening (w : System) : Prop where
  old : ListenerAdded w.old
  new : ListenerAdded w.new
  acked : ListenerAcked w
  taken : (.kTransferListenFd, .inetListen) ∈ w.chan.sent.take w.chan.handled.length →
    w.new.inetListenFd ≠ -1

theorem ne_of_cmptr (hw : Wf p) (hattached : p.cmptr = some p.inetListenFd) {obj : Obj}
    (hobj : p.cmptrObj = some obj) : p.inetListenFd ≠ -1 := by
  rw [cmptrObj, hattached] at hobj
  replace hobj : p.fds p.inetListenFd = some obj := hobj
  intro hneg
  have hnonneg := hw.nonneg p.inetListenFd (by simp [hobj])
  rw [hneg] at hnonneg
  exact absurd hnonneg (by decide)

theorem Listening.old_step (h : Listening w) (hlive : Live w) (hlive' : Live w')
    (hs : w.old.step i = some w'.old) : ListenerAdded w'.old := by
  have hbase := hlive.locked.base
  obtain hsame | ⟨⟨r, rfl⟩, hpc⟩ := hbase.oldRole.inetListenFd_step hbase.oldInv.toWf hs
  · refine h.old.step hbase.oldInv hs hlive'.old (fun fe rest hpc => ?_) hsame
    have hpcRole := hbase.oldRole.pc
    rw [hpc] at hpcRole
    contradiction
  · simp only [Proc.step, hpc, Option.some.injEq] at hs
    rw [← hs]
    exact fun hfd => absurd rfl hfd

theorem Listening.new_step (h : Listening w) (hlive : Live w) (hlive' : Live w')
    (hd : Delivers w (.proc .new i)) (hadds : AddsListener w (.proc .new i))
    (hs : w.step (.proc .new i) = some w') (hp : w.new.step i = some w'.new) :
    ListenerAdded w'.new ∧ (w.new.inetListenFd ≠ -1 → w'.new.inetListenFd ≠ -1) := by
  have hbase := hlive.locked.base
  obtain hsame | ⟨-, hpc⟩ | ⟨hattached, bs, desc, added, rfl, fe, str, room, got, rest, hpc, hpc',
      hrequest⟩ := Proc.inetListenFd_step hp
  · exact ⟨h.new.step hlive.isOpen.inv hp hlive'.new hlive.keeps hsame, by rw [hsame]; exact id⟩
  · have hpcRole := hbase.newRole.pc
    rw [hpc] at hpcRole
    contradiction
  · rw [← requestStr_of_pc hpc] at hrequest
    obtain ⟨s, pend, -, hcmptr, hreceived, -⟩ := hlive.locked.data_step hd.installs hs
    refine ⟨fun _ => ?_, fun _ => ne_of_cmptr hlive'.locked.base.newWf hattached hcmptr⟩
    cases hreceived with
    | part _ _ hreplying => simp [replying, hpc'] at hreplying
    | whole _ _ _ _ hreg =>
        have hsome := hreg (hadds _ _ _ rfl hrequest)
        rw [Handled.of] at hsome
        replace hattached : w'.new.cmptr = some w'.new.inetListenFd := hattached
        rw [hattached] at hsome
        exact Option.isSome_iff_ne_none.mp hsome

/-- The transfers that the old server has sent and the new one handled stay. -/
theorem take_sent_old {ch' : Chan} (hf : Framed w) (hserved : OldServed w.old w.chan i p' ch') :
    ch'.sent.take ch'.handled.length = w.chan.sent.take w.chan.handled.length := by
  cases hserved with
  | send =>
      simp only [Chan.send]
      split
      · exact List.take_append_of_le_length hf.handled_le
      · rfl
  | _ => rfl

theorem Listening.taken_step (h : Listening w) (hlive : Live w) (hlive' : Live w')
    (hd : Delivers w (.proc .new i)) (hs : w.step (.proc .new i) = some w')
    (hsent : w'.chan.sent = w.chan.sent)
    (hkeeps : w.new.inetListenFd ≠ -1 → w'.new.inetListenFd ≠ -1)
    (hmem : (.kTransferListenFd, .inetListen) ∈ w'.chan.sent.take w'.chan.handled.length) :
    w'.new.inetListenFd ≠ -1 := by
  by_cases hl : ∃ bs desc added, i = .recvmsg (.data bs desc) added
  · obtain ⟨bs, desc, added, rfl⟩ := hl
    obtain ⟨s, pend, hpend, hcmptr, hreceived, hhandled⟩ :=
      hlive.locked.data_step hd.installs hs
    rw [hsent, hhandled] at hmem
    cases hreceived with
    | part _ _ hreplying =>
        rw [Chan.handledNow, hreplying, if_neg (by simp), List.append_nil] at hmem
        exact hkeeps (h.taken hmem)
    | whole _ _ hreplying htakes =>
        rw [Chan.handledNow, hreplying, if_pos rfl, List.length_append, List.length_singleton,
          List.take_add_one, Chan.sent_of_pending hpend, List.mem_append] at hmem
        obtain hbefore | hnow := hmem
        · exact hkeeps (h.taken hbefore)
        · obtain rfl : _ = s := by simpa using hnow
          have hattached := htakes.attached rfl
          exact ne_of_cmptr hlive'.locked.base.newWf (by simpa [Handled.of] using hattached) hcmptr
  · have hsame := hlive.locked.base.handled_same hs fun bs desc added heq => by
      cases heq
      exact hl ⟨_, _, _, rfl⟩
    rw [hsent, hsame] at hmem
    exact hkeeps (h.taken hmem)

/-- **Step**: in a live upgrade listeners stay registered. -/
theorem Listening.step (h : Listening w) (hlive : Live w) (hd : Delivers w l)
    (hadds : AddsListener w l) (hs : w.step l = some w') : Listening w' := by
  have hlive' := hlive.step hd hs
  have hbase := hlive.locked.base
  have hacked := hbase.listenerAcked h.acked hs
  cases moves_of_step hs with
  | @old _ _ ch' _ hp' hch =>
      have hserved := HotUpgrade.served_old hbase.oldInv hbase.oldRole hp' hch
      refine ⟨h.old_step hlive hlive' hp', h.new, hacked, ?_⟩
      intro hmem
      replace hmem : _ ∈ ch'.sent.take ch'.handled.length := hmem
      rw [take_sent_old hlive.locked.framed hserved] at hmem
      exact h.taken hmem
  | new hp' hch =>
      obtain ⟨hadded, hkeeps⟩ := h.new_step hlive hlive' hd hadds hs hp'
      have hsent := (ends_served (HotUpgrade.served_new hbase.newRole hp' hch)).2.2
      exact ⟨h.old, hadded, hacked, h.taken_step hlive hlive' hd hs hsent hkeeps⟩
  | client => exact ⟨h.old, h.new, hacked, h.taken⟩
  | kill pid => exact absurd rfl (hd.noKill pid)

theorem listening_init {lfd ufd : Fd} (hlfd : 0 ≤ lfd) : Listening (init lfd ufd) := by
  refine ⟨listenerAdded_start _ _, listenerAdded_start _ _, fun hneg => ?_, nofun⟩
  replace hneg : lfd = -1 := hneg
  exact absurd (hneg ▸ hlfd) (by decide)

/-- The old server has the listener, or the new one has taken it over. -/
theorem Listening.listens (h : Listening w) (hlive : Live w) (hold : ¬ w.old.Listens) :
    w.new.Listens := by
  obtain ⟨_, holdCore⟩ := exists_core hlive.locked.base.oldInv hlive.old
  obtain ⟨_, hnewCore⟩ := exists_core hlive.isOpen.inv hlive.new
  have hneg : w.old.inetListenFd = -1 := by
    by_contra hfd
    exact hold (h.old.listens holdCore hfd)
  have hphase := hlive.locked.phase
  have hacked : w.chan.acked <+: w.chan.sent.take w.chan.handled.length :=
    List.prefix_take_iff.mpr ⟨hphase.acked_prefix, hphase.acked_le⟩
  exact h.new.listens hnewCore (h.taken (hacked.subset (h.acked hneg)))

/-- A message that arrives with its descriptor is delivered. -/
theorem Live.delivers_data (h : Live w) {bs : List UInt8} {fd : Fd} {obj : Obj} {added : Bool}
    (hs : w.step (.proc .new (.recvmsg (.data bs (some (fd, obj))) added)) = some w') :
    Delivers w (.proc .new (.recvmsg (.data bs (some (fd, obj))) added)) := by
  refine ⟨nofun, fun pid i heq => ?_, nofun, nofun, fun bs' desc' added' heq _ => ?_, nofun⟩
  · cases heq
    exact ⟨id, nofun⟩
  · cases heq
    obtain ⟨p', ch', n', hp', hch, -, -⟩ := step_proc hs
    cases HotUpgrade.served_new h.locked.base.newRole hp' hch with
    | quiet _ _ _ _ hrecv => exact absurd rfl (hrecv _ _)
    | gone _ hr => simp at hr
    | close _ _ hrecv => exact absurd rfl (hrecv _ _)
    | data _ _ _ _ hdesc => exact (hdesc.resolve_left nofun).2

/-- A listener that comes with a request is registered if `epoll_ctl` succeeds, and only
then. -/
theorem Live.listens_iff (h : Live w) (h' : Live w') {bs : List UInt8} {fd : Fd} {obj : Obj}
    {added : Bool} (hs : w.step (.proc .new (.recvmsg (.data bs (some (fd, obj))) added)) = some w')
    (hfd : w'.new.inetListenFd = fd) : w'.new.Listens ↔ added = true := by
  obtain ⟨hole, hcore⟩ := exists_core h.isOpen.inv h.new
  obtain ⟨hole', hcore'⟩ := exists_core h'.isOpen.inv h'.new
  obtain ⟨p', ch', n', hp', -, -, rfl⟩ := step_proc hs
  obtain ⟨hnonneg, hreg⟩ := interest_attached hcore h.isOpen.inv.toTables hp' hfd
  have hopen : p'.fds fd = some .inetListen := by
    obtain hneg | hl := hcore'.inetListen
    · rw [hfd] at hneg
      exact absurd (hneg ▸ hnonneg) (by decide)
    · rwa [hfd] at hl
  rw [← hreg, Listens, hfd]
  exact and_iff_right hopen

/-- **No listener gap and no double ownership**, in runs in which neither server ends,
messages and replies are delivered whole and `epoll_ctl` succeeds for a listener that is received.
After such a run a listener that arrives is registered exactly if its `epoll_ctl`
succeeds. -/
theorem no_listener_gap (lfd ufd : Fd) (ls : List Label) (w : System) (hlfd : 0 ≤ lfd)
    (hufd : 0 ≤ ufd)
    (hrun : Run System.step (fun w l => Delivers w l ∧ AddsListener w l) (init lfd ufd) ls w) :
    (w.old.Listens ∨ w.new.Listens) ∧
      (∀ l w', Delivers w l → AddsListener w l → w.step l = some w' → w.old.Listens →
        ¬ w'.old.Listens → w.new.Listens) ∧
      w.net.acceptedIds.Nodup ∧
      (∀ pid fd c added w', w.step (.proc pid (.accept (some (fd, c)) added)) = some w' →
        (w'.proc pid).inetConnMap fd = some (.create fd) ∧ (w'.proc pid).fds fd = some (.inet c) ∧
          ∀ pid' fd', (w'.proc pid').fds fd' = some (.inet c) → pid' = pid ∧ fd' = fd) ∧
      ∀ bs fd obj added w',
        w.step (.proc .new (.recvmsg (.data bs (some (fd, obj))) added)) = some w' →
        w'.new.inetListenFd = fd → (w'.new.Listens ↔ added = true) := by
  have hinv : Live w ∧ Listening w ∧ Clients w := by
    refine Run.inv (I := fun w => Live w ∧ Listening w ∧ Clients w)
      ⟨live_init hlfd hufd, listening_init hlfd, clients_init lfd ufd⟩ ?_ hrun
    rintro w l w' ⟨hlive, hlisten, hclients⟩ ⟨hd, hadds⟩ hs
    exact ⟨hlive.step hd hs, hlisten.step hlive hd hadds hs, hclients.step hlive.locked.base hs⟩
  obtain ⟨hlive, hlisten, hclients⟩ := hinv
  refine ⟨?_, ?_, (List.nodup_append.mp hclients.nodup).2.1, fun _ _ _ _ _ => hclients.accept, ?_⟩
  · by_cases hold : w.old.Listens
    · exact .inl hold
    · exact .inr (hlisten.listens hlive hold)
  · intro l w' hd hadds hs hold hold'
    have hnew := (hlisten.step hlive hd hadds hs).listens (hlive.step hd hs) hold'
    -- a step that takes the listener from the old server is one of the old server
    cases moves_of_step hs with
    | old => exact hnew
    | new => exact absurd hold hold'
    | client => exact absurd hold hold'
    | kill pid => exact absurd rfl (hd.noKill pid)
  · intro bs fd obj added w' hs
    exact hlive.listens_iff (hlive.step (hlive.delivers_data hs) hs) hs

/-- A test for steps that deliver. -/
def deliversb (w : System) (l : Label) : Bool :=
  installsb w l &&
    match l with
    | .kill _ => false
    | .proc _ (.accept none _) => false
    | .proc _ (.unixAccept .failed _) => false
    | .proc _ (.unixAccept .rejected _) => false
    | .proc _ (.unixClientConn none) => false
    | .proc .old (.sendmsg (.ret n)) => n = msgDataBufLen
    | .proc .old (.getReply r) => r = some msgReplyLen
    | .proc .new (.recvmsg r _) => r ≠ .err .other
    | _ => true

theorem delivers_of_deliversb (h : deliversb w l = true) : Delivers w l := by
  obtain ⟨hinstalls, h⟩ := (Bool.and_eq_true _ _).mp h
  refine ⟨?_, ?_, ?_, ?_, installs_of_installsb hinstalls, ?_⟩
  · rintro pid rfl
    contradiction
  · rintro pid i rfl
    constructor
    · intro hfail
      unfold FailedAccept at hfail
      split at hfail <;> contradiction
    · rintro rfl
      simp at h
  · rintro n rfl
    simpa using h
  · rintro r rfl
    simpa using h
  · rintro added rfl
    simp at h

/-- The new server receives the listener, cannot register it, and replies. -/
def unregisteredLabels : List Label :=
  [.proc .new (.recvmsg (.data (msgDataBuf .kTransferListenFd) (some (5, .inetListen))) false),
    .proc .new (.sendReply (.ret 8)), .proc .old (.getReply (some 8))]

/-- `attachInetListenFd` does not look at the result of `AddEvent`: the old server closes
a listener that the new one has not registered. -/
theorem not_listens_unregistered : ¬ ∀ (lfd ufd : Fd) (ls : List Label) (w : System), 0 ≤ lfd →
    0 ≤ ufd → Run System.step Delivers (init lfd ufd) ls w →
    w.old.Listens ∨ w.new.Listens := by
  intro hall
  have hexec : (exec System.step deliversb (init 3 3)
      (sendLabels ++ acceptLabels ++ unregisteredLabels)).map
      (fun w => (w.old.inetListenFd, w.old.fds (-1), w.new.inetListenFd, w.new.interest 5)) =
        some (-1, none, 5, none) := by
    decide +kernel
  obtain ⟨w, hrun, hobs⟩ := exists_run_of_exec _ _ hexec
  simp only [Prod.mk.injEq] at hobs
  obtain ⟨hold, hclosed, hnew, hnone⟩ := hobs
  obtain ⟨hopen, -⟩ | ⟨-, hreg⟩ := hall 3 3 _ w (by decide) (by decide)
    (hrun.mono fun _ _ => delivers_of_deliversb)
  · rw [hold, hclosed] at hopen
    exact nomatch hopen
  · rw [hnew] at hreg
    exact hreg hnone

/-- A test for steps that deliver and register. -/
def deliversAddsb (w : System) (l : Label) : Bool :=
  deliversb w l &&
    match l with
    | .proc .new (.recvmsg _ added) => added
    | _ => true

theorem adds_of_deliversAddsb (h : deliversAddsb w l = true) : Delivers w l ∧ AddsListener w l := by
  obtain ⟨hd, hadds⟩ := (Bool.and_eq_true _ _).mp h
  refine ⟨delivers_of_deliversb hd, ?_⟩
  rintro bs desc added rfl -
  exact hadds

/-- A client is accepted, then the listener is handed over. -/
theorem no_listener_gap_handed_over : ∃ w,
    Run System.step (fun w l => Delivers w l ∧ AddsListener w l) (init 3 3)
      (clientLabels ++ sendLabels ++ acceptLabels ++ replyLabels) w ∧
    w.old.inetListenFd = -1 ∧ w.net.accepted = [(.old, 0)] ∧
    (w.old.Listens ∨ w.new.Listens) := by
  have hexec : (exec System.step deliversAddsb (init 3 3)
      (clientLabels ++ sendLabels ++ acceptLabels ++ replyLabels)).map
      (fun w => (w.old.inetListenFd, w.net.accepted)) = some (-1, [(.old, 0)]) := by
    decide +kernel
  obtain ⟨w, hrun, hobs⟩ := exists_run_of_exec _ _ hexec
  simp only [Prod.mk.injEq] at hobs
  replace hrun := hrun.mono fun _ _ => adds_of_deliversAddsb
  exact ⟨w, hrun, hobs.1, hobs.2, (no_listener_gap 3 3 _ w (by decide) (by decide) hrun).1⟩

end System

end SysDemos.HotUpgrade
