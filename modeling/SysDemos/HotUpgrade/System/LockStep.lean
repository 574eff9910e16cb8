import SysDemos.HotUpgrade.System.Framing

/-!
# SysDemos.HotUpgrade.System.LockStep

The transfers go in lock-step: the old server sends the next message when it has
read the reply to the last one.  This rests on both directions: a `sendmsg` takes a
whole message, which `recvmsg` delivers with its descriptor, and `GetReply` reads a
whole reply.

* `lock_step` — there is at most one message in the stream, and the requests that
  `processRecv` handles are the messages sent, one by one;
* `acked_attached` — what has been acknowledged has been taken over.
-/

namespace SysDemos.HotUpgrade.System

open Lts Proc

variable {w w' : System} {l : Label}

/-- `GetReply` gets something, and all there is. -/
def Drains (w : System) (l : Label) : Prop :=
  ∀ r, l = .proc .old (.getReply r) → 0 < w.chan.toOld ∧ r = some w.chan.toOld

/-- Where the exchange stands: no transfer is waiting for its reply; one is, which has
not been handled or has been; or the old server is gone. -/
inductive Phase (w : System) : Prop
  | idle : w.old.transferring = none ∨ w.old.transferring = some (.send 0) →
      w.chan.sent = w.chan.acked → w.chan.handled.length = w.chan.sent.length →
      w.chan.toOld = 0 → w.new.replying = false → Phase w
  | waiting {s : MsgRequestType × Obj} : w.old.transferring = some .getReply →
      w.old.passing = some s → w.chan.sent = w.chan.acked ++ [s] →
      (w.chan.handled.length = w.chan.acked.length ∧ w.new.replying = false ∧ w.chan.toOld = 0 ∨
        w.chan.handled.length = w.chan.sent.length ∧
          (w.new.replying = true → w.chan.toOld = 0) ∧ w.chan.toOld ≤ msgReplyLen) →
      Phase w
  | gone : w.old.pc = .exited → w.chan.acked <+: w.chan.sent →
      w.chan.acked.length ≤ w.chan.handled.length →
      w.chan.sent.length ≤ w.chan.acked.length + 1 → Phase w

namespace Phase

theorem acked_prefix (h : Phase w) : w.chan.acked <+: w.chan.sent := by
  cases h with
  | idle _ hsent => exact hsent ▸ List.prefix_rfl
  | waiting _ _ hsent =>
      rw [hsent]
      exact List.prefix_append _ _
  | gone _ hprefix => exact hprefix

theorem acked_le (h : Phase w) : w.chan.acked.length ≤ w.chan.handled.length := by
  cases h with
  | idle _ hsent hhandled => simp [hhandled, hsent]
  | waiting _ _ hsent hhandled =>
      obtain ⟨hhandled, -⟩ | ⟨hhandled, -⟩ := hhandled
      · exact Nat.le_of_eq hhandled.symm
      · simp [hhandled, hsent]
  | gone _ _ hle => exact hle

theorem sent_le (h : Phase w) : w.chan.sent.length ≤ w.chan.acked.length + 1 := by
  cases h with
  | idle _ hsent => simp [hsent]
  | waiting _ _ hsent => simp [hsent]
  | gone _ _ _ hle => exact hle

/-- At most one message is on its way. -/
theorem pending_le (h : Phase w) : w.chan.pending.length ≤ 1 := by
  have hacked := h.acked_le
  have hsent := h.sent_le
  rw [Chan.pending, List.length_drop]
  omega

/-! ## steps of the old server -/

theorem exit (h : Phase w) (hpc : w'.old.pc = .exited) (hchan : w'.chan = w.chan.hangUp .old) :
    Phase w' := by
  refine .gone hpc ?_ ?_ ?_
  all_goals rw [hchan]
  · exact h.acked_prefix
  · exact h.acked_le
  · exact h.sent_le

theorem served_old (h : Phase w) {i : Input} {ch' : Chan} (hpc : w.old.pc ≠ .exited)
    (hserved : OldServed w.old w.chan i w'.old ch') (hsend : WholeSend (.proc .old i))
    (hdrains : Drains w (.proc .old i)) (hnew : w'.new = w.new) (hchan : w'.chan = ch') :
    Phase w' := by
  generalize hp' : w'.old = p' at hserved
  cases h with
  | gone hexited => exact absurd hexited hpc
  | idle htr hsent hhandled htoOld hreplying =>
      rw [← hnew] at hreplying
      cases hserved with
      | quiet _ htr' =>
          refine .idle ?_ ?_ ?_ ?_ hreplying
          · rw [hp']
            obtain hnone | hzero | hsame := htr'
            · exact .inl hnone
            · exact .inr hzero
            · rwa [hsame]
          all_goals rwa [hchan]
      | connect =>
          refine .idle ?_ ?_ ?_ ?_ hreplying
          · rw [hp']
            exact .inr rfl
          all_goals rwa [hchan]
      | @send m n t obj _ hm hpass _ hnext =>
          obtain rfl : m = 0 := by
            rw [hm] at htr
            simpa using htr
          rw [hsend n rfl] at hnext hchan
          obtain ⟨⟨sms, hdone⟩, -⟩ | ⟨htr', hpass'⟩ := hnext
          · contradiction
          · refine .waiting (s := (t, obj)) (by rw [hp']; exact htr')
              (by rw [hp', hpass', hpass]) ?_ (.inl ⟨?_, hreplying, ?_⟩)
            all_goals rw [hchan]
            · simp [Chan.send, hsent]
            · exact hhandled.trans (by rw [hsent]; rfl)
            · exact htoOld
      | reply hwait =>
          rw [hwait] at htr
          simp at htr
      | exit =>
          exact exit (.idle htr hsent hhandled htoOld (hnew ▸ hreplying)) (by rw [hp']; rfl) hchan
  | waiting htr hpass hsent hhandled =>
      cases hserved with
      | quiet hne => exact absurd htr hne
      | connect hnone => simp [htr] at hnone
      | send hm => simp [htr] at hm
      | exit hnone => simp [htr] at hnone
      | reply _ _ htr' =>
          obtain ⟨hpos, hr⟩ := hdrains _ rfl
          obtain ⟨-, -, hzero⟩ | ⟨hhandled, hreplying, -⟩ := hhandled
          · omega
          · refine .idle (by rw [hp']; exact .inl htr') ?_ ?_ ?_ ?_
            · rw [hchan]
              simpa [hpass] using hsent
            · rw [hchan]
              exact hhandled
            · rw [hchan]
              simp [hr]
            · rw [hnew]
              by_contra hne
              have hzero := hreplying (by simpa using hne)
              omega

/-! ## steps of the new server -/

/-- The new server does nothing that the old one can see. -/
theorem same (h : Phase w) (hold : w'.old = w.old) (hsent : w'.chan.sent = w.chan.sent)
    (hacked : w'.chan.acked = w.chan.acked)
    (hhandled : w'.chan.handled.length = w.chan.handled.length)
    (htoOld : w'.chan.toOld = w.chan.toOld)
    (hreplying : w'.new.replying = true → w.new.replying = true) : Phase w' := by
  have hfalse (hf : w.new.replying = false) : w'.new.replying = false := by
    by_contra hne
    simp [hreplying (by simpa using hne)] at hf
  cases h with
  | idle htr hsent' hhandled' hzero hf =>
      exact .idle (by rwa [hold]) (by rwa [hsent, hacked]) (by rwa [hhandled, hsent])
        (by rwa [htoOld]) (hfalse hf)
  | waiting htr hpass hsent' hhandled' =>
      refine .waiting (by rwa [hold]) (by rwa [hold]) (by rwa [hsent, hacked]) ?_
      rw [hhandled, hsent, hacked, htoOld]
      exact hhandled'.imp (fun ⟨hlen, hf, hzero⟩ => ⟨hlen, hfalse hf, hzero⟩)
        (fun ⟨hlen, hzero, hle⟩ => ⟨hlen, hzero ∘ hreplying, hle⟩)
  | gone =>
      exact .gone (by rwa [hold]) (by rwa [hsent, hacked]) (by rwa [hhandled, hacked])
        (by rwa [hsent, hacked])

/-- The new server handles a request. -/
theorem handles (h : Phase w) (hold : w'.old = w.old) (hsent : w'.chan.sent = w.chan.sent)
    (hacked : w'.chan.acked = w.chan.acked)
    (hlt : w.chan.handled.length < w.chan.sent.length)
    (hhandled : w'.chan.handled.length = w.chan.handled.length + 1)
    (htoOld : w'.chan.toOld = w.chan.toOld) : Phase w' := by
  cases h with
  | idle => omega
  | waiting htr hpass hsent' hhandled' =>
      refine .waiting (by rwa [hold]) (by rwa [hold]) (by rwa [hsent, hacked]) (.inr ?_)
      have hlen := congrArg List.length hsent'
      rw [List.length_append, List.length_singleton] at hlen
      obtain ⟨hlen', -, hzero⟩ | ⟨hlen', -⟩ := hhandled'
      · refine ⟨?_, fun _ => ?_, ?_⟩
        · rw [hhandled, hsent]
          omega
        · rw [htoOld, hzero]
        · rw [htoOld, hzero]
          exact Nat.zero_le _
      · omega
  | gone hexited hprefix hle hle' =>
      refine .gone (by rwa [hold]) (by rwa [hsent, hacked]) ?_ (by rwa [hsent, hacked])
      rw [hhandled, hacked]
      omega

/-- The new server replies. -/
theorem replies (h : Phase w) (hold : w'.old = w.old) (hsent : w'.chan.sent = w.chan.sent)
    (hacked : w'.chan.acked = w.chan.acked) (hhandled : w'.chan.handled = w.chan.handled)
    (hreplying : w.new.replying = true) (hreplying' : w'.new.replying = false) {n : Nat}
    (hn : n ≤ msgReplyLen) (htoOld : w'.chan.toOld = w.chan.toOld + n) : Phase w' := by
  cases h with
  | idle _ _ _ _ hfalse => simp [hreplying] at hfalse
  | waiting htr hpass hsent' hhandled' =>
      refine .waiting (by rwa [hold]) (by rwa [hold]) (by rwa [hsent, hacked]) (.inr ?_)
      obtain ⟨-, hfalse, -⟩ | ⟨hlen, hzero, -⟩ := hhandled'
      · simp [hreplying] at hfalse
      · refine ⟨by rwa [hhandled, hsent], by simp [hreplying'], ?_⟩
        rw [htoOld, hzero hreplying, Nat.zero_add]
        exact hn
  | gone =>
      exact .gone (by rwa [hold]) (by rwa [hsent, hacked]) (by rwa [hhandled, hacked])
        (by rwa [hsent, hacked])

theorem served_new (h : Phase w) (hf : Framed w) {i : Input} {ch' : Chan}
    (hserved : NewServed w.new w.chan i w'.new ch') (haligned : Aligned w (.proc .new i))
    (hinstalls : Installs w (.proc .new i)) (hold : w'.old = w.old) (hchan : w'.chan = ch') :
    Phase w' := by
  generalize hp' : w'.new = p' at hserved
  cases hserved with
  | quiet _ hfree' =>
      exact h.same hold (by rw [hchan]) (by rw [hchan]) (by rw [hchan]) (by rw [hchan])
        (by simp [hp', hfree'.replying])
  | accept =>
      exact h.same hold (by rw [hchan]) (by rw [hchan]) (by rw [hchan]) (by rw [hchan])
        (by rw [hp']; simp [replying, goto])
  | again =>
      exact h.same hold (by rw [hchan]) (by rw [hchan]) (by rw [hchan]) (by rw [hchan])
        (by rw [hp']; exact id)
  | gone =>
      exact h.same hold (by rw [hchan]) (by rw [hchan]) (by rw [hchan]) (by rw [hchan])
        (by rw [hp']; simp [replying, goto])
  | data hpc hh haccepted hbs hdesc =>
      obtain ⟨s, pend, hpend, -, -, hreceived, -⟩ :=
        hf.receipt hpc hh haccepted hbs hdesc haligned hinstalls
      cases hreceived with
      | part _ _ hreplying =>
          exact h.same hold (by rw [hchan]) (by rw [hchan])
            (by simp [hchan, Chan.handledNow, hreplying]) (by rw [hchan]) (by simp [hp', hreplying])
      | whole _ _ hreplying =>
          have hlt : w.chan.handled.length < w.chan.sent.length := by
            have hpos := congrArg List.length hpend
            rw [Chan.pending, List.length_drop, List.length_cons] at hpos
            omega
          exact h.handles hold (by rw [hchan]) (by rw [hchan]) hlt
            (by simp [hchan, Chan.handledNow, hreplying]) (by rw [hchan])
  | reply hpc hend =>
      exact h.replies hold (by rw [hchan]) (by rw [hchan]) (by rw [hchan])
        (by simp [replying, hpc]) (by rw [hp']; rfl) hend.2.2 (by rw [hchan])
  | noReply =>
      exact h.same hold (by rw [hchan]) (by rw [hchan]) (by rw [hchan]) (by rw [hchan])
        (by rw [hp']; simp [replying, goto])
  | close _ hfree' =>
      exact h.same hold (by rw [hchan]; rfl) (by rw [hchan]; rfl) (by rw [hchan]; rfl)
        (by rw [hchan]; rfl) (by simp [hp', hfree'.replying])

end Phase

/-- With one message in the stream no `recvmsg` can read past its end. -/
theorem Framed.aligned (hf : Framed w) (hbase : Base w) (hle : w.chan.pending.length ≤ 1)
    (hs : w.step l = some w') : Aligned w l := by
  intro bs desc added hl
  subst hl
  obtain ⟨p', ch', n', hp', hch, -, -⟩ := step_proc hs
  cases HotUpgrade.served_new hbase.newRole hp' hch with
  | quiet _ _ _ _ hrecv => exact absurd rfl (hrecv _ _)
  | gone _ hr => simp at hr
  | close _ _ hrecv => exact absurd rfl (hrecv _ _)
  | data hpc _ haccepted hbs =>
      have hstream := (hf.isOpen (by simp [haccepted])).stream (by simp [hpc])
      have hlen := congrArg List.length hstream
      have hone : (w.chan.pending.flatMap msgCells).length ≤ msgDataBufLen := by
        match w.chan.pending, hle with
        | [], _ => simp
        | [s], _ => simp
      have hbs' := congrArg List.length hbs
      simp only [inbound, List.length_append, length_cellsOf] at hlen
      simp only [List.length_map, List.length_take] at hbs'
      rw [List.length_append]
      omega

/-- The invariant of the exchange. -/
structure Locked (w : System) : Prop where
  base : Base w
  framed : Framed w
  phase : Phase w

/-- **Step**: whole messages, delivered with their descriptors, and whole replies keep the exchange
in lock-step. -/
theorem Locked.step (h : Locked w) (hsend : WholeSend l) (hdrains : Drains w l)
    (hinstalls : Installs w l) (hs : w.step l = some w') : Locked w' := by
  have haligned := h.framed.aligned h.base h.phase.pending_le hs
  refine ⟨h.base.step hs, h.framed.step h.base hsend haligned hinstalls hs, ?_⟩
  cases moves_of_step hs with
  | old hp' hch =>
      have hpc : w.old.pc ≠ .exited := fun hpc => by simp [Proc.step, hpc] at hp'
      have hserved := HotUpgrade.served_old h.base.oldInv h.base.oldRole hp' hch
      exact h.phase.served_old hpc hserved hsend hdrains rfl rfl
  | new hp' hch =>
      have hserved := HotUpgrade.served_new h.base.newRole hp' hch
      exact h.phase.served_new h.framed hserved haligned hinstalls rfl rfl
  | client => exact h.phase.same rfl rfl rfl rfl rfl id
  | kill pid =>
      cases pid with
      | old => exact h.phase.exit rfl rfl
      | new => exact h.phase.same rfl rfl rfl rfl rfl (by simp [setProc, replying, Proc.exit])

theorem locked_init {lfd ufd : Fd} (hlfd : 0 ≤ lfd) (hufd : 0 ≤ ufd) : Locked (init lfd ufd) :=
  ⟨base_init hlfd hufd, framed_init hufd, .idle (.inl (by rfl)) rfl rfl rfl rfl⟩

/-- `GetReply` reads the eight bytes of a reply. -/
def WholeReply (l : Label) : Prop :=
  ∀ r, l = .proc .old (.getReply r) → r = some msgReplyLen

/-- A reply that is read whole leaves nothing behind. -/
theorem Locked.drains (h : Locked w) (hreply : WholeReply l) (hs : w.step l = some w') :
    Drains w l := by
  intro r hl
  subst hl
  cases hreply r rfl
  obtain ⟨p', ch', n', hp', hch, -, -⟩ := step_proc hs
  have hwait : w.old.transferring = some .getReply := transferring_getReply hp'
  cases HotUpgrade.served_old h.base.oldInv h.base.oldRole hp' hch with
  | quiet hne => exact absurd hwait hne
  | exit hnone => exact absurd (hwait.symm.trans hnone) (by simp)
  | reply _ hreplies =>
      replace hreplies : msgReplyLen ≤ w.chan.toOld := hreplies.1
      have hpos : 0 < msgReplyLen := by decide
      cases h.phase with
      | idle htr => simp [hwait] at htr
      | gone hexited => simp [transferring, hexited] at hwait
      | waiting _ _ _ hhandled =>
          obtain ⟨-, -, hzero⟩ | ⟨-, -, hle⟩ := hhandled
          · omega
          · exact ⟨by omega, congrArg some (by omega)⟩

/-- **Lock-step**: there is at most one message in the stream, of which a part may have
been read, and the requests handled are the first messages sent, in order, each with
its type and its descriptor. -/
theorem lock_step (lfd ufd : Fd) (ls : List Label) (w : System) (hlfd : 0 ≤ lfd) (hufd : 0 ≤ ufd)
    (hrun : Run System.step (fun w l => WholeSend l ∧ WholeReply l ∧ Installs w l) (init lfd ufd)
      ls w) :
    w.chan.pending.length ≤ 1 ∧ w.chan.toNew <:+ w.chan.pending.flatMap msgCells ∧
      List.Forall₂ Handled.Takes w.chan.handled (w.chan.sent.take w.chan.handled.length) := by
  have hlocked : Locked w :=
    Run.inv (I := Locked) (locked_init hlfd hufd)
      (fun _ _ _ h hok hs => h.step hok.1 (h.drains hok.2.1 hs) hok.2.2 hs) hrun
  exact ⟨hlocked.phase.pending_le, hlocked.framed.queue, hlocked.framed.handled⟩

/-- A test for whole messages and replies. -/
def wholeb (w : System) (l : Label) : Bool :=
  installsb w l &&
    match l with
    | .proc .old (.sendmsg (.ret n)) => n = msgDataBufLen
    | .proc .old (.getReply r) => r = some msgReplyLen
    | _ => true

theorem whole_of_wholeb (h : wholeb w l = true) : WholeSend l ∧ WholeReply l ∧ Installs w l := by
  obtain ⟨hinstalls, h⟩ := (Bool.and_eq_true _ _).mp h
  refine ⟨?_, ?_, installs_of_installsb hinstalls⟩
  · rintro n rfl
    simpa using h
  · rintro r rfl
    simpa using h

/-- The old server connects and sends its listener. -/
def sendLabels : List Label :=
  [.proc .old (.access true), .proc .old (.unixClientConn (some 4)),
    .proc .old (.sendmsg (.ret 1024))]

/-- The new server accepts the connection and is about to receive. -/
def acceptLabels : List Label :=
  [.proc .new (.access false), .proc .new (.epollWait [.onFd 3 { epollin := true }]),
    .proc .new .tau, .proc .new (.unixAccept (.accepted 4 0 0) true), .proc .new .tau,
    .proc .new (.access false), .proc .new (.epollWait [.onFd 4 { epollin := true }]),
    .proc .new .tau]

/-- The new server receives the listener in two pieces, and replies. -/
def replyLabels : List Label :=
  [.proc .new (.recvmsg (.data ((msgDataBuf .kTransferListenFd).take 10) (some (5, .inetListen)))
      true),
    .proc .new (.recvmsg (.data ((msgDataBuf .kTransferListenFd).drop 10) none) true),
    .proc .new (.sendReply (.ret 8)), .proc .old (.getReply (some 8))]

/-- A listener that arrives in two pieces is handled as it was sent. -/
theorem lock_step_split : ∃ w,
    Run System.step (fun w l => WholeSend l ∧ WholeReply l ∧ Installs w l) (init 3 3)
      (sendLabels ++ acceptLabels ++ replyLabels) w ∧
    w.chan.handled.length = 1 ∧
    List.Forall₂ Handled.Takes w.chan.handled (w.chan.sent.take w.chan.handled.length) := by
  have hexec : (exec System.step wholeb (init 3 3)
      (sendLabels ++ acceptLabels ++ replyLabels)).map (·.chan.handled.length) = some 1 := by
    decide +kernel
  obtain ⟨w, hrun, hlen⟩ := exists_run_of_exec _ _ hexec
  replace hrun := hrun.mono fun _ _ => whole_of_wholeb
  exact ⟨w, hrun, hlen, (lock_step 3 3 _ w (by decide) (by decide) hrun).2.2⟩

/-! ## acknowledged means attached -/

/-- `epoll_ctl` succeeds for a descriptor received. -/
def Adds (l : Label) : Prop := ∀ r added, l = .proc .new (.recvmsg r added) → added = true

/-- The new server has taken over what has been acknowledged, call by call. -/
def AckedAttached (w : System) : Prop :=
  List.Forall₂ (fun h s => h.registered = true ∧ h.Takes s)
    (w.chan.handled.take w.chan.acked.length) w.chan.acked

/-- What the receipt of a piece does. -/
theorem Locked.data_step (h : Locked w) {bs : List UInt8} {desc : Option (Fd × Obj)} {added : Bool}
    (hinstalls : Installs w (.proc .new (.recvmsg (.data bs desc) added)))
    (hs : w.step (.proc .new (.recvmsg (.data bs desc) added)) = some w') :
    ∃ s pend, w.chan.pending = s :: pend ∧ w'.new.cmptrObj = some s.2 ∧
      Received w'.new s (w.new.requestStr ++ bs) added ∧
      w'.chan.handled = w.chan.handled ++ Chan.handledNow w.new w'.new bs := by
  have haligned := h.framed.aligned h.base h.phase.pending_le hs
  obtain ⟨p', ch', n', hp', hch, -, rfl⟩ := step_proc hs
  cases HotUpgrade.served_new h.base.newRole hp' hch with
  | quiet _ _ _ _ hrecv => exact absurd rfl (hrecv _ _)
  | gone _ hr => simp at hr
  | close _ _ hrecv => exact absurd rfl (hrecv _ _)
  | data hpc hh haccepted hbs hdesc =>
      obtain ⟨s, pend, hpend, -, hcmptr, hreceived, -⟩ :=
        h.framed.receipt hpc hh haccepted hbs hdesc haligned hinstalls
      rw [← requestStr_of_pc hpc] at hreceived
      exact ⟨s, pend, hpend, hcmptr, hreceived, rfl⟩

theorem Base.handled_same (h : Base w) (hs : w.step l = some w')
    (hl : ∀ bs desc added, l ≠ .proc .new (.recvmsg (.data bs desc) added)) :
    w'.chan.handled = w.chan.handled := by
  cases moves_of_step hs with
  | old hp' hch => cases HotUpgrade.served_old h.oldInv h.oldRole hp' hch <;> rfl
  | new hp' hch =>
      cases HotUpgrade.served_new h.newRole hp' hch with
      | data => exact absurd rfl (hl _ _ _)
      | _ => rfl
  | client => rfl
  | kill pid => cases pid <;> rfl

/-- Requests are handled one by one. -/
theorem Locked.handled_step (h : Locked w) (hinstalls : Installs w l) (hs : w.step l = some w') :
    w'.chan.handled = w.chan.handled ∨
      ∃ hd, w'.chan.handled = w.chan.handled ++ [hd] ∧ (Adds l → hd.registered = true) := by
  by_cases hl : ∃ bs desc added, l = .proc .new (.recvmsg (.data bs desc) added)
  · obtain ⟨bs, desc, added, rfl⟩ := hl
    obtain ⟨s, pend, -, -, hreceived, hhandled⟩ := h.data_step hinstalls hs
    rw [hhandled]
    cases hreceived with
    | part _ _ hreplying => exact .inl (by simp [Chan.handledNow, hreplying])
    | whole _ _ hreplying _ hreg =>
        exact .inr ⟨_, by simp [Chan.handledNow, hreplying], fun hadds => hreg (hadds _ _ rfl)⟩
  · push Not at hl
    exact .inl (h.base.handled_same hs hl)

/-- The old server has no listener: it has been acknowledged. -/
def ListenerAcked (w : System) : Prop :=
  w.old.inetListenFd = -1 → (.kTransferListenFd, .inetListen) ∈ w.chan.acked

theorem Base.listenerAcked (hbase : Base w) (h : ListenerAcked w) (hs : w.step l = some w') :
    ListenerAcked w' := by
  have keep {w' : System} (hold : w'.old.inetListenFd = w.old.inetListenFd)
      (hacked : w'.chan.acked = w.chan.acked) : ListenerAcked w' := by
    intro hneg
    rw [hacked]
    exact h (hold ▸ hneg)
  cases moves_of_step hs with
  | old hp' hch =>
      have hserved := HotUpgrade.served_old hbase.oldInv hbase.oldRole hp' hch
      obtain hsame | ⟨⟨r, rfl⟩, hpc⟩ := hbase.oldRole.inetListenFd_step hbase.oldInv.toWf hp'
      · cases hserved with
        | reply =>
            intro hneg
            exact List.mem_append_left _ (h (hsame ▸ hneg))
        | _ => exact keep hsame rfl
      · have hwait : w.old.transferring = some .getReply := transferring_getReply hp'
        cases hserved with
        | quiet hne => exact absurd hwait hne
        | exit hnone => exact absurd (hwait.symm.trans hnone) (by simp)
        | reply =>
            intro _
            have hpcInv := hbase.oldInv.pcInv
            rw [hpc] at hpcInv
            obtain hneg | hopen := Core.inetListen hpcInv
            · exact List.mem_append_left _ (h hneg)
            · refine List.mem_append_right _ ?_
              simp [passing, hpc, hopen]
  | new hp' hch => cases HotUpgrade.served_new hbase.newRole hp' hch <;> exact keep rfl rfl
  | client => exact h
  | kill pid => cases pid <;> exact keep rfl rfl

theorem Locked.ackedAttached (h : Locked w) (hreg : ∀ hd ∈ w.chan.handled, hd.registered = true) :
    AckedAttached w := by
  refine (List.forall₂_and_left _ _).mpr ⟨fun hd hmem => hreg hd (List.mem_of_mem_take hmem), ?_⟩
  have htake := List.forall₂_take w.chan.acked.length h.framed.handled
  rw [List.take_take, Nat.min_eq_left h.phase.acked_le] at htake
  rwa [← List.prefix_iff_eq_take.mp h.phase.acked_prefix] at htake

/-- `GetReply` acknowledges a transfer whatever it reads. -/
theorem Locked.getReply (h : Locked w) {r : Option Nat}
    (hs : w.step (.proc .old (.getReply r)) = some w') :
    w'.chan.acked = w.chan.sent ∧ w'.chan.sent = w.chan.sent ∧
      w'.chan.handled = w.chan.handled := by
  obtain ⟨p', ch', n', hp', hch, -, rfl⟩ := step_proc hs
  have hwait : w.old.transferring = some .getReply := transferring_getReply hp'
  cases HotUpgrade.served_old h.base.oldInv h.base.oldRole hp' hch with
  | quiet hne => exact absurd hwait hne
  | exit hnone => exact absurd (hwait.symm.trans hnone) (by simp)
  | reply =>
      cases h.phase with
      | idle htr => simp [hwait] at htr
      | gone hexited => simp [transferring, hexited] at hwait
      | waiting _ hpass hsent => exact ⟨by simp [hsent, hpass], rfl, rfl⟩

/-- A transfer is acknowledged rightly if and only if it has been handled by then. -/
theorem Locked.ackedAttached_iff (h : Locked w)
    (hreg : ∀ hd ∈ w.chan.handled, hd.registered = true) {r : Option Nat}
    (hs : w.step (.proc .old (.getReply r)) = some w') :
    AckedAttached w' ↔ w.chan.pending = [] := by
  obtain ⟨hacked, -, hhandled⟩ := h.getReply hs
  rw [AckedAttached, hacked, hhandled, Chan.pending, List.drop_eq_nil_iff]
  constructor
  · intro hattached
    have hlen := hattached.length_eq
    rw [List.length_take] at hlen
    omega
  · intro hle
    refine (List.forall₂_and_left _ _).mpr ⟨fun hd hmem => hreg hd (List.mem_of_mem_take hmem), ?_⟩
    have hframed := h.framed.handled
    rw [List.take_of_length_le hle] at hframed
    rwa [List.take_of_length_le (Nat.le_of_eq hframed.length_eq)]

/-! ## what the old server gives up -/

/-- The new server has taken over what the transfer `s` passes, and registered it. -/
def TakenOver (w : System) (s : MsgRequestType × Obj) : Prop :=
  ∃ h ∈ w.chan.handled, h.registered = true ∧ h.Takes s

theorem AckedAttached.takenOver (h : AckedAttached w) {s : MsgRequestType × Obj}
    (hmem : s ∈ w.chan.acked) : TakenOver w s := by
  obtain ⟨hlen, hget⟩ := List.forall₂_iff_get.mp h
  obtain ⟨k, hk, rfl⟩ := List.getElem_of_mem hmem
  have hk' : k < (w.chan.handled.take w.chan.acked.length).length := Nat.lt_of_lt_of_eq hk hlen.symm
  exact ⟨_, List.mem_of_mem_take (List.get_mem _ ⟨k, hk'⟩), hget k hk' hk⟩

/-- `TransferSessionFd` returns in this step; `main` closes the old server's copy of the session
`c` next. -/
def GivesUp (w w' : System) (c : ConnId) : Prop :=
  ∃ fe t rest, w.old.pc = .handle fe (.transfer t) rest ∧ w'.old.pc = .handle fe .dropInet rest ∧
    w.old.fds fe.fd = some (.inet c)

/-- A transfer starts with nothing sent. -/
theorem Phase.send_zero (h : Phase w) {m : Nat} (htr : w.old.transferring = some (.send m)) :
    m = 0 := by
  cases h with
  | idle hidle => simpa [htr] using hidle
  | waiting hwait => simp [htr] at hwait
  | gone hexited => simp [transferring, hexited] at htr

/-- A call of `TransferSessionFd` whose `sendmsg` does not fail returns with the reply. -/
theorem Locked.acked_of_givesUp (h : Locked w) {c : ConnId} (hsend : WholeSend l)
    (hfail : l ≠ .proc .old (.sendmsg (.fail .other))) (hs : w.step l = some w')
    (hgives : GivesUp w w' c) :
    (∃ r, l = .proc .old (.getReply r)) ∧ (.kTransferSessionFd, .inet c) ∈ w'.chan.acked := by
  obtain ⟨fe, t, rest, hpc, hpc', hfd⟩ := hgives
  cases moves_of_step hs with
  | new => simp [hpc] at hpc'
  | client => simp [hpc] at hpc'
  | kill pid => cases pid <;> simp [setProc, proc, Proc.exit, hpc] at hpc'
  | old hp' hch =>
      cases step_of_handle hp' hpc with
      | @sendSession m r =>
          have hzero := h.phase.send_zero (m := m) (by simp [transferring, hpc])
          subst hzero
          cases r with
          | fail e =>
              cases e with
              | other => exact absurd rfl hfail
              | EAGAIN => simp [sendLoop, afterTransfer, goto] at hpc'
              | EINTR => simp [sendLoop, afterTransfer, goto] at hpc'
          | ret n =>
              obtain rfl := hsend n rfl
              simp [afterTransfer, goto] at hpc'
      | @replySession r =>
          obtain ⟨-, ⟨⟩⟩ := Option.ite_none_right_eq_some.mp hch
          refine ⟨⟨r, rfl⟩, List.mem_append_right _ ?_⟩
          simp [passing, hpc, hfd]

/-- **Acknowledged means attached**, in runs in which every `sendmsg` takes a whole
message, every `recvmsg` delivers the descriptor, every `GetReply` reads a whole reply and
`epoll_ctl` succeeds.  So the old server closes its listener, and a session whose transfer does not
fail, when the new server has taken it over.  After such a run a `GetReply` of whatever length is
right exactly if the message has been handled. -/
theorem acked_attached (lfd ufd : Fd) (ls : List Label) (w : System) (hlfd : 0 ≤ lfd)
    (hufd : 0 ≤ ufd)
    (hrun : Run System.step (fun w l => WholeSend l ∧ Drains w l ∧ Installs w l ∧ Adds l)
      (init lfd ufd) ls w) :
    AckedAttached w ∧
      (w.old.inetListenFd = -1 → TakenOver w (.kTransferListenFd, .inetListen)) ∧
      (∀ l w' c, WholeSend l → Drains w l → l ≠ .proc .old (.sendmsg (.fail .other)) →
        w.step l = some w' → GivesUp w w' c → TakenOver w' (.kTransferSessionFd, .inet c)) ∧
      ∀ r w', w.step (.proc .old (.getReply r)) = some w' →
        (AckedAttached w' ↔ w.chan.pending = []) := by
  have hinv : Locked w ∧ (∀ hd ∈ w.chan.handled, hd.registered = true) ∧ ListenerAcked w := by
    refine Run.inv (I := fun w => Locked w ∧ (∀ hd ∈ w.chan.handled, hd.registered = true) ∧
      ListenerAcked w) ⟨locked_init hlfd hufd, nofun, ?_⟩ ?_ hrun
    · intro hneg
      replace hneg : lfd = -1 := hneg
      exact absurd (hneg ▸ hlfd) (by decide)
    · rintro w l w' ⟨hlocked, hreg, hlistener⟩ ⟨hsend, hdrains, hinstalls, hadds⟩ hs
      refine ⟨hlocked.step hsend hdrains hinstalls hs, ?_,
        hlocked.base.listenerAcked hlistener hs⟩
      obtain hsame | ⟨hd, hnow, hreg'⟩ := hlocked.handled_step hinstalls hs
      · rwa [hsame]
      · rw [hnow]
        intro hd' hmem
        obtain hold | hnew := List.mem_append.mp hmem
        · exact hreg hd' hold
        · rw [List.mem_singleton.mp hnew]
          exact hreg' hadds
  obtain ⟨hlocked, hreg, hlistener⟩ := hinv
  have hattached := hlocked.ackedAttached hreg
  refine ⟨hattached, fun hneg => hattached.takenOver (hlistener hneg), ?_,
    fun _ _ => hlocked.ackedAttached_iff hreg⟩
  intro l w' c hsend hdrains hfail hs hgives
  obtain ⟨⟨r, rfl⟩, hacked⟩ := hlocked.acked_of_givesUp hsend hfail hs hgives
  have hlocked' : Locked w' := hlocked.step hsend hdrains nofun hs
  refine (hlocked'.ackedAttached ?_).takenOver hacked
  rw [(hlocked.getReply hs).2.2]
  exact hreg

/-- The new server stops before it has read the listener's message; `GetReply` fails, which counts
as success. -/
theorem not_acked_attached_stopped : ¬ ∀ (lfd ufd : Fd) (ls : List Label) (w : System), 0 ≤ lfd →
    0 ≤ ufd → Run System.step any (init lfd ufd) ls w → AckedAttached w := by
  intro hall
  have hexec : (exec System.step (fun _ _ => true) (init 3 3)
      (sendLabels ++ [.kill .new, .proc .old (.getReply none)])).map
      (fun w => (w.chan.handled, w.chan.acked)) =
        some ([], [(.kTransferListenFd, .inetListen)]) := by
    decide +kernel
  obtain ⟨w, hrun, hobs⟩ := exists_run_of_exec _ _ hexec
  have hattached := hall 3 3 _ w (by decide) (by decide) hrun.toAny
  have hlen := hattached.length_eq
  obtain ⟨hhandled, hacked⟩ := Prod.mk.inj hobs
  rw [hhandled, hacked] at hlen
  simp at hlen

/-- A test for whole messages, whole replies and registrations that succeed. -/
def drainsb (w : System) (l : Label) : Bool :=
  installsb w l &&
    match l with
    | .proc .old (.sendmsg (.ret n)) => n = msgDataBufLen
    | .proc .old (.getReply r) => 0 < w.chan.toOld && r = some w.chan.toOld
    | .proc .new (.recvmsg _ added) => added
    | _ => true

theorem drains_of_drainsb (h : drainsb w l = true) :
    WholeSend l ∧ Drains w l ∧ Installs w l ∧ Adds l := by
  obtain ⟨hinstalls, h⟩ := (Bool.and_eq_true _ _).mp h
  refine ⟨?_, ?_, installs_of_installsb hinstalls, ?_⟩
  · rintro n rfl
    simpa using h
  · rintro r rfl
    simpa using h
  · rintro r added rfl
    simpa using h

/-- A listener that has been acknowledged, and closed by the old server, has been attached. -/
theorem acked_attached_listener : ∃ w,
    Run System.step (fun w l => WholeSend l ∧ Drains w l ∧ Installs w l ∧ Adds l) (init 3 3)
      (sendLabels ++ acceptLabels ++ replyLabels) w ∧
    w.chan.acked = [(.kTransferListenFd, .inetListen)] ∧ AckedAttached w ∧
    w.old.inetListenFd = -1 ∧ TakenOver w (.kTransferListenFd, .inetListen) := by
  have hexec : (exec System.step drainsb (init 3 3)
      (sendLabels ++ acceptLabels ++ replyLabels)).map
        (fun w => (w.chan.acked, w.old.inetListenFd)) =
        some ([(.kTransferListenFd, .inetListen)], -1) := by
    decide +kernel
  obtain ⟨w, hrun, hobs⟩ := exists_run_of_exec _ _ hexec
  obtain ⟨hacked, hneg⟩ := Prod.mk.inj hobs
  replace hrun := hrun.mono fun _ _ => drains_of_drainsb
  obtain ⟨hattached, htaken, -⟩ := acked_attached 3 3 _ w (by decide) (by decide) hrun
  exact ⟨w, hrun, hacked, hattached, hneg, htaken hneg⟩

end SysDemos.HotUpgrade.System
