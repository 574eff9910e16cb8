import SysDemos.HotUpgrade.Server.Steps

/-!
# SysDemos.HotUpgrade.Server.Frame

What a step of a server process leaves alone, and what it keeps in order.

* `Handle.sameAt` — handling an event changes nothing about any other open
  descriptor, as long as the process runs;
* `Wf.step` — the kernel's tables stay consistent and the events still to be
  handled stay registered, whatever the calls return.
-/

namespace SysDemos.HotUpgrade.Proc

open Function (update)

variable {p p' : Proc} {fe : FiredEvent} {rest : List FiredEvent} {i : Input}

/-! ## the other descriptors -/

/-- Nothing that concerns the descriptor `fd` changes. -/
structure SameAt (fd : Fd) (p p' : Proc) : Prop where
  fds : p'.fds fd = p.fds fd
  interest : p'.interest fd = p.interest fd
  inetConnMap : p'.inetConnMap fd = p.inetConnMap fd

theorem SameAt.refl (fd : Fd) (p : Proc) : SameAt fd p p := ⟨rfl, rfl, rfl⟩

theorem SameAt.trans {fd : Fd} {p₁ p₂ p₃ : Proc} (h₁ : SameAt fd p₁ p₂) (h₂ : SameAt fd p₂ p₃) :
    SameAt fd p₁ p₃ :=
  ⟨h₂.fds.trans h₁.fds, h₂.interest.trans h₁.interest, h₂.inetConnMap.trans h₁.inetConnMap⟩

section SameAt

variable {fd fd' : Fd}

theorem sameAt_goto (pc : Pc) : SameAt fd p (p.goto pc) := ⟨rfl, rfl, rfl⟩

theorem interest_addEvent_of_some (m : Interest) (added : Bool) (h : p.interest fd ≠ none) :
    (p.addEvent fd' m added).interest fd = p.interest fd := by
  unfold addEvent
  dsimp only
  split
  · next hnew =>
      have hne : fd ≠ fd' := by
        rintro rfl
        exact h hnew.2.2
      exact Function.update_of_ne hne _ _
  · rfl

theorem sameAt_addEvent (m : Interest) (added : Bool) (h : fd ≠ fd') :
    SameAt fd p (p.addEvent fd' m added) := by
  refine ⟨rfl, ?_, rfl⟩
  unfold addEvent
  dsimp only
  split
  · exact Function.update_of_ne h _ _
  · rfl

theorem sameAt_modEvent (m : Interest) (h : fd ≠ fd') : SameAt fd p (p.modEvent fd' m) := by
  refine ⟨rfl, ?_, rfl⟩
  unfold modEvent
  dsimp only
  split
  · rfl
  · exact Function.update_of_ne h _ _

theorem sameAt_delClose (h : fd ≠ fd') : SameAt fd p (p.delClose fd') :=
  ⟨Function.update_of_ne h _ _, Function.update_of_ne h _ _, rfl⟩

theorem sameAt_setConn (conn : InetConn) (h : fd ≠ fd') : SameAt fd p (p.setConn fd' conn) :=
  ⟨rfl, rfl, Function.update_of_ne h _ _⟩

theorem sameAt_addInetConn (added : Bool) (h : fd ≠ fd') :
    SameAt fd p (p.addInetConn fd' added) := by
  have hmap := sameAt_setConn (p := p) (InetConn.create fd') h
  exact hmap.trans (sameAt_addEvent _ added h)

theorem sameAt_attachInetListenFd (added : Bool) (h : fd ≠ fd') :
    SameAt fd p (p.attachInetListenFd fd' added) := by
  have hset : SameAt fd p { p with inetListenFd := fd' } := ⟨rfl, rfl, rfl⟩
  exact hset.trans (sameAt_addEvent _ added h)

theorem sameAt_acceptInet (c : ConnId) (added : Bool) (h : fd ≠ fd') :
    SameAt fd p (p.acceptInet fd' c added) := by
  have hopens : SameAt fd p { p with fds := update p.fds fd' (some (.inet c)) } :=
    ⟨Function.update_of_ne h _ _, rfl, rfl⟩
  exact hopens.trans (sameAt_addInetConn added h)

theorem sameAt_acceptUnix (k : Nat) (cmptr : Fd) (added : Bool) (h : fd ≠ fd') :
    SameAt fd p (p.acceptUnix fd' k cmptr added) := by
  have hopens : SameAt fd p { p with
      fds := update p.fds fd' (some (.unixConn k))
      unixConnFd := fd'
      unixConn := some { fd := fd', cmptr := cmptr } } :=
    ⟨Function.update_of_ne h _ _, rfl, rfl⟩
  exact hopens.trans (sameAt_addEvent _ added h)

theorem sameAt_install (uc : UnixConn) (obj : Obj) (h : fd ≠ fd') :
    SameAt fd p (p.install uc fd' obj) :=
  ⟨Function.update_of_ne h _ _, rfl, rfl⟩

theorem sameAt_afterGetRequest (g : InetConn.GetRequest) (h : fd ≠ fe.fd) :
    SameAt fd p (p.afterGetRequest fe rest g) := by
  unfold afterGetRequest
  split
  · exact sameAt_goto _
  · exact sameAt_goto _
  · exact (sameAt_modEvent _ h).trans (sameAt_goto _)
  · exact sameAt_goto _
  · exact sameAt_goto _

theorem sameAt_afterSendReply (ws : WriteStatus) (h : fd ≠ fe.fd) :
    SameAt fd p (p.afterSendReply fe rest ws) := by
  unfold afterSendReply
  split
  · exact (sameAt_modEvent _ h).trans (sameAt_goto _)
  · exact sameAt_goto _
  · exact sameAt_goto _

/-- Handling a request touches no descriptor but the one it is about. -/
theorem sameAt_received {uc : UnixConn} {str : List UInt8} {room got added : Bool}
    (h : msgDataBufLen ≤ str.length → fd ≠ uc.cmptr) :
    SameAt fd p (p.received uc str room got fe rest added) := by
  unfold received processRequest
  split
  · exact sameAt_goto _
  · next hlen =>
      have hne : fd ≠ uc.cmptr := h (by omega)
      split
      · exact (sameAt_attachInetListenFd added hne).trans (sameAt_goto _)
      · split
        · exact (sameAt_addInetConn added hne).trans (sameAt_goto _)
        · exact sameAt_goto _

/-- The descriptor number that a request about to be completed without a new
descriptor finds in the control buffer is not `fd`. -/
def NotStale (p : Proc) (fd : Fd) (h : Handler) (i : Input) : Prop :=
  ∀ str room got bs added uc, h = .recv str room got → i = .recvmsg (.data bs none) added →
    p.unixConn = some uc → msgDataBufLen ≤ (str ++ bs).length → fd ≠ uc.cmptr

/-- A new descriptor is not one that is open. -/
theorem Fresh.ne_of_open {fd' : Fd} (hfresh : p.Fresh fd') (hopen : p.fds fd ≠ none) :
    fd ≠ fd' := by
  rintro rfl
  exact hopen hfresh.2

/-- **Frame**: handling an event leaves every other open descriptor alone,
unless the process exits. -/
theorem Handle.sameAt {h : Handler} (hh : Handle p fe rest h i p') (hrun : p'.pc ≠ .exited)
    (hfd : fd ≠ fe.fd) (hopen : p.fds fd ≠ none) (hstale : NotStale p fd h i) :
    SameAt fd p p' := by
  cases hh with
  | acceptFail => exact absurd rfl hrun
  | accept hfresh => exact (sameAt_acceptInet _ _ (hfresh.ne_of_open hopen)).trans (sameAt_goto _)
  | unixAcceptFail => exact absurd rfl hrun
  | unixAccept hfresh =>
      exact (sameAt_acceptUnix _ _ _ (hfresh.ne_of_open hopen)).trans (sameAt_goto _)
  | recvClose => exact sameAt_goto _
  | recvAgain => exact .refl fd p
  | recvPlain huc => exact sameAt_received fun hlen => hstale _ _ _ _ _ _ rfl rfl huc hlen
  | recvDesc _ _ _ hfresh =>
      have hne := hfresh.ne_of_open hopen
      exact (sameAt_install _ _ hne).trans (sameAt_received fun _ => hne)
  | commonReply => exact sameAt_goto _
  | sendSession =>
      unfold afterTransfer
      split <;> exact sameAt_goto _
  | replySession => exact sameAt_goto _
  | header => exact (sameAt_setConn _ hfd).trans (sameAt_afterGetRequest _ hfd)
  | payload => exact (sameAt_setConn _ hfd).trans (sameAt_afterGetRequest _ hfd)
  | write => exact (sameAt_setConn _ hfd).trans (sameAt_afterSendReply _ hfd)
  | dropUnix =>
      have hdel := sameAt_delClose (p := p) hfd
      exact ⟨hdel.fds, hdel.interest, rfl⟩
  | dropInet =>
      have hdel := sameAt_delClose (p := p) hfd
      exact ⟨hdel.fds, hdel.interest, Function.update_of_ne hfd _ _⟩

end SameAt

/-! ## well-formed processes -/

/-- The tables of a process are consistent: open descriptors are not negative,
registered ones are open, and a session knows its own descriptor. -/
structure Tables (p : Proc) : Prop where
  nonneg : ∀ fd, p.fds fd ≠ none → 0 ≤ fd
  regOpen : ∀ fd, p.interest fd ≠ none → p.fds fd ≠ none
  connFd : ∀ fd conn, p.inetConnMap fd = some conn → conn.fd = fd

namespace Tables

variable {fd : Fd}

theorem goto (h : Tables p) (pc : Pc) : Tables (p.goto pc) := ⟨h.nonneg, h.regOpen, h.connFd⟩

theorem addEvent (h : Tables p) (fd : Fd) (m : Interest) (added : Bool) :
    Tables (p.addEvent fd m added) := by
  refine ⟨h.nonneg, fun fd' hreg => ?_, h.connFd⟩
  by_cases heq : fd' = fd
  · subst heq
    simp only [Proc.addEvent] at hreg ⊢
    split at hreg
    · next hnew => exact hnew.2.1
    · exact h.regOpen _ hreg
  · rw [(sameAt_addEvent m added heq).interest] at hreg
    exact h.regOpen _ hreg

theorem modEvent (h : Tables p) (fd : Fd) (m : Interest) : Tables (p.modEvent fd m) := by
  refine ⟨h.nonneg, fun fd' hreg => ?_, h.connFd⟩
  by_cases heq : fd' = fd
  · subst heq
    simp only [Proc.modEvent] at hreg
    split at hreg
    · exact h.regOpen _ hreg
    · next hold => exact h.regOpen _ hold
  · rw [(sameAt_modEvent m heq).interest] at hreg
    exact h.regOpen _ hreg

theorem delClose (h : Tables p) (fd : Fd) : Tables (p.delClose fd) := by
  refine ⟨fun fd' hopen => ?_, fun fd' hreg => ?_, h.connFd⟩
  · by_cases heq : fd' = fd
    · simp [Proc.delClose, heq] at hopen
    · rw [(sameAt_delClose heq).fds] at hopen
      exact h.nonneg _ hopen
  · by_cases heq : fd' = fd
    · simp [Proc.delClose, heq] at hreg
    · rw [(sameAt_delClose heq).interest] at hreg
      rw [(sameAt_delClose heq).fds]
      exact h.regOpen _ hreg

/-- The kernel opens a descriptor. -/
theorem opens (h : Tables p) (hfresh : p.Fresh fd) (obj : Obj) :
    Tables { p with fds := update p.fds fd (some obj) } := by
  refine ⟨fun fd' hopen => ?_, fun fd' hreg => ?_, h.connFd⟩
  · by_cases heq : fd' = fd
    · rw [heq]
      exact hfresh.1
    · simp only [Function.update_of_ne heq] at hopen
      exact h.nonneg _ hopen
  · by_cases heq : fd' = fd
    · simp [heq]
    · simp only [Function.update_of_ne heq]
      exact h.regOpen _ hreg

theorem setConn (h : Tables p) {conn : InetConn} (hfd : conn.fd = fd) :
    Tables (p.setConn fd conn) := by
  refine ⟨h.nonneg, h.regOpen, fun fd' conn' hconn => ?_⟩
  by_cases heq : fd' = fd
  · subst heq
    simp only [Proc.setConn, Function.update_self, Option.some.injEq] at hconn
    rw [← hconn, hfd]
  · simp only [Proc.setConn, Function.update_of_ne heq] at hconn
    exact h.connFd _ _ hconn

theorem addInetConn (h : Tables p) (fd : Fd) (added : Bool) :
    Tables (p.addInetConn fd added) := by
  have hset : Tables (p.setConn fd (InetConn.create fd)) := h.setConn rfl
  exact hset.addEvent fd _ added

theorem detachInetListenFd (h : Tables p) : Tables p.detachInetListenFd := by
  have hdel := h.delClose p.inetListenFd
  exact ⟨hdel.nonneg, hdel.regOpen, hdel.connFd⟩

theorem attachInetListenFd (h : Tables p) (fd : Fd) (added : Bool) :
    Tables (p.attachInetListenFd fd added) := by
  have hset : Tables { p with inetListenFd := fd } := ⟨h.nonneg, h.regOpen, h.connFd⟩
  exact hset.addEvent fd _ added

theorem acceptUnix (h : Tables p) (hfresh : p.Fresh fd) (k : Nat) (cmptr : Fd) (added : Bool) :
    Tables (p.acceptUnix fd k cmptr added) := by
  have hopens := h.opens hfresh (.unixConn k)
  have hset : Tables { p with
      fds := update p.fds fd (some (.unixConn k))
      unixConnFd := fd
      unixConn := some { fd := fd, cmptr := cmptr } } :=
    ⟨hopens.nonneg, hopens.regOpen, hopens.connFd⟩
  exact hset.addEvent fd _ added

theorem install (h : Tables p) (hfresh : p.Fresh fd) (uc : UnixConn) (obj : Obj) :
    Tables (p.install uc fd obj) := by
  have hopens := h.opens hfresh obj
  exact ⟨hopens.nonneg, hopens.regOpen, hopens.connFd⟩

theorem received (h : Tables p) (uc : UnixConn) (str : List UInt8) (room got added : Bool) :
    Tables (p.received uc str room got fe rest added) := by
  unfold Proc.received Proc.processRequest
  split
  · exact h.goto _
  · split
    · exact (h.attachInetListenFd _ _).goto _
    · split
      · exact (h.addInetConn _ _).goto _
      · exact h.goto _

theorem afterGetRequest (h : Tables p) (g : InetConn.GetRequest) :
    Tables (p.afterGetRequest fe rest g) := by
  unfold Proc.afterGetRequest
  split
  · exact h.goto _
  · exact h.goto _
  · exact (h.modEvent _ _).goto _
  · exact h.goto _
  · exact h.goto _

theorem afterSendReply (h : Tables p) (ws : WriteStatus) :
    Tables (p.afterSendReply fe rest ws) := by
  unfold Proc.afterSendReply
  split
  · exact (h.modEvent _ _).goto _
  · exact h.goto _
  · exact h.goto _

theorem exit (h : Tables p) : Tables p.exit :=
  ⟨fun _ hopen => absurd rfl hopen, fun _ hreg => absurd rfl hreg, h.connFd⟩

end Tables

theorem Handle.tables {h : Handler} (hh : Handle p fe rest h i p') (ht : Tables p) :
    Tables p' := by
  cases hh with
  | acceptFail => exact ht.exit
  | accept hfresh => exact ((ht.opens hfresh _).addInetConn _ _).goto _
  | unixAcceptFail => exact ht.exit
  | unixAccept hfresh => exact (ht.acceptUnix hfresh _ _ _).goto _
  | recvClose => exact ht.goto _
  | recvAgain => exact ht
  | recvPlain => exact ht.received _ _ _ _ _
  | recvDesc _ _ _ hfresh => exact (ht.install hfresh _ _).received _ _ _ _ _
  | commonReply => exact ht.goto _
  | sendSession =>
      unfold afterTransfer
      split <;> exact ht.goto _
  | replySession => exact ht.goto _
  | header hconn => exact (ht.setConn (by simp [ht.connFd _ _ hconn])).afterGetRequest _
  | payload hconn => exact (ht.setConn (by simp [ht.connFd _ _ hconn])).afterGetRequest _
  | write hconn => exact (ht.setConn (by simp [ht.connFd _ _ hconn])).afterSendReply _
  | dropUnix =>
      have hdel := ht.delClose fe.fd
      exact ⟨hdel.nonneg, hdel.regOpen, hdel.connFd⟩
  | dropInet =>
      have hdel := ht.delClose fe.fd
      refine ⟨hdel.nonneg, hdel.regOpen, fun fd conn hconn => ?_⟩
      by_cases heq : fd = fe.fd
      · simp [Proc.dropInet, heq] at hconn
      · simp only [Proc.dropInet, Function.update_of_ne heq] at hconn
        exact ht.connFd _ _ hconn

/-- A well-formed process: moreover the events not yet done with are on
different descriptors, which are still registered for them. -/
structure Wf (p : Proc) : Prop extends Tables p where
  nodup : (p.pc.pending.map (·.fd)).Nodup
  fires : ∀ fe ∈ p.pc.pending, p.Fires fe

theorem Dispatched.pc_cases {pc : Pc} (hd : Dispatched p fe rest pc) :
    pc = .dispatch rest ∨ ∃ h, pc = .handle fe h rest := by
  cases hd with
  | skip => exact .inl rfl
  | accept => exact .inr ⟨_, rfl⟩
  | unixAccept => exact .inr ⟨_, rfl⟩
  | recv => exact .inr ⟨_, rfl⟩
  | dropUnix => exact .inr ⟨_, rfl⟩
  | transfer => exact .inr ⟨_, rfl⟩
  | header => exact .inr ⟨_, rfl⟩
  | payload => exact .inr ⟨_, rfl⟩
  | write => exact .inr ⟨_, rfl⟩
  | dropInet => exact .inr ⟨_, rfl⟩

/-- `inet_server_accept` or `unix_server_accept` gives no connection. -/
def FailedAccept : Input → Prop
  | .accept none _ => True
  | .unixAccept .failed _ => True
  | .unixAccept .rejected _ => True
  | _ => False

/-- How the handling of `fe` goes on: the event is done, or there is more to do.
Registrations stay, except that the last step may change that of the event's own
descriptor. -/
inductive Next (p : Proc) (fe : FiredEvent) (rest : List FiredEvent) (p' : Proc) : Prop
  | done : p'.pc = .dispatch rest →
      (∀ fd, fd ≠ fe.fd → p.interest fd ≠ none → p'.interest fd = p.interest fd) →
      Next p fe rest p'
  | more {h : Handler} : p'.pc = .handle fe h rest →
      (∀ fd, p.interest fd ≠ none → p'.interest fd = p.interest fd) → Next p fe rest p'

theorem interest_received (p : Proc) (uc : UnixConn) (str : List UInt8) (room got added : Bool)
    {fd : Fd} (hreg : p.interest fd ≠ none) :
    (p.received uc str room got fe rest added).interest fd = p.interest fd := by
  unfold received processRequest
  split
  · rfl
  · split
    · exact interest_addEvent_of_some _ _ hreg
    · split
      · exact interest_addEvent_of_some _ _ hreg
      · rfl

theorem next_received (p : Proc) (uc : UnixConn) (str : List UInt8) (room got added : Bool) :
    Next p fe rest (p.received uc str room got fe rest added) := by
  have hpc : ∃ h, (p.received uc str room got fe rest added).pc = .handle fe h rest := by
    unfold received processRequest
    split
    · exact ⟨_, rfl⟩
    · split
      · exact ⟨_, rfl⟩
      · split <;> exact ⟨_, rfl⟩
  obtain ⟨h, hpc⟩ := hpc
  exact .more hpc fun _ hreg => interest_received p uc str room got added hreg

theorem next_afterGetRequest (p : Proc) (g : InetConn.GetRequest) :
    Next p fe rest (p.afterGetRequest fe rest g) := by
  unfold afterGetRequest
  split
  · exact .more rfl fun _ _ => rfl
  · exact .more rfl fun _ _ => rfl
  · exact .done rfl fun _ hne _ => (sameAt_modEvent _ hne).interest
  · exact .done rfl fun _ _ _ => rfl
  · exact .more rfl fun _ _ => rfl

theorem next_afterSendReply (p : Proc) (ws : WriteStatus) :
    Next p fe rest (p.afterSendReply fe rest ws) := by
  unfold afterSendReply
  split
  · exact .done rfl fun _ hne _ => (sameAt_modEvent _ hne).interest
  · exact .done rfl fun _ _ _ => rfl
  · exact .more rfl fun _ _ => rfl

theorem Next.of_interest {p₀ : Proc} (hn : Next p₀ fe rest p') (h : p₀.interest = p.interest) :
    Next p fe rest p' := by
  cases hn with
  | done hpc hint => exact .done hpc fun fd hne hreg => h ▸ hint fd hne (h ▸ hreg)
  | more hpc hint => exact .more hpc fun fd hreg => h ▸ hint fd (h ▸ hreg)

/-- The process exits on a failed accept and only then. -/
theorem Handle.next {h : Handler} (hh : Handle p fe rest h i p')
    (hpc : p.pc = .handle fe h rest) :
    FailedAccept i ∧ p' = p.exit ∨ ¬ FailedAccept i ∧ Next p fe rest p' := by
  cases hh with
  | acceptFail => exact .inl ⟨trivial, rfl⟩
  | unixAcceptFail hr => exact .inl ⟨by obtain rfl | rfl := hr <;> trivial, rfl⟩
  | accept => exact .inr ⟨id, .done rfl fun _ _ hreg => interest_addEvent_of_some _ _ hreg⟩
  | unixAccept => exact .inr ⟨id, .done rfl fun _ _ hreg => interest_addEvent_of_some _ _ hreg⟩
  | recvClose => exact .inr ⟨id, .more rfl fun _ _ => rfl⟩
  | recvAgain => exact .inr ⟨id, .more hpc fun _ _ => rfl⟩
  | recvPlain => exact .inr ⟨id, next_received _ _ _ _ _ _⟩
  | recvDesc => exact .inr ⟨id, (next_received (p.install _ _ _) _ _ _ _ _).of_interest rfl⟩
  | commonReply => exact .inr ⟨id, .done rfl fun _ _ _ => rfl⟩
  | sendSession =>
      unfold afterTransfer
      split <;> exact .inr ⟨id, .more rfl fun _ _ => rfl⟩
  | replySession => exact .inr ⟨id, .more rfl fun _ _ => rfl⟩
  | header => exact .inr ⟨id, (next_afterGetRequest (p.setConn _ _) _).of_interest rfl⟩
  | payload => exact .inr ⟨id, (next_afterGetRequest (p.setConn _ _) _).of_interest rfl⟩
  | write => exact .inr ⟨id, (next_afterSendReply (p.setConn _ _) _).of_interest rfl⟩
  | dropUnix => exact .inr ⟨id, .done rfl fun _ hne _ => (sameAt_delClose hne).interest⟩
  | dropInet => exact .inr ⟨id, .done rfl fun _ hne _ => (sameAt_delClose hne).interest⟩

/-- A process comes to a point in the handling of an event from the dispatch of the event, or
from another such point. -/
theorem step_to_handle {h : Handler} (hs : p.step i = some p') (hpc' : p'.pc = .handle fe h rest) :
    i = .tau ∧ p' = p.goto (.handle fe h rest) ∧ p.pc = .dispatch (fe :: rest) ∧
        Dispatched p fe rest (.handle fe h rest) ∨
      ∃ h₀, p.pc = .handle fe h₀ rest ∧ Handle p fe rest h₀ i p' := by
  cases step_cases hs with
  | access =>
      unfold checkTrigger at hpc'
      split at hpc' <;> simp [goto] at hpc'
  | sendListen =>
      unfold afterHandOver at hpc'
      split at hpc' <;> simp [goto] at hpc'
  | dispatch hpc hd =>
      replace hpc' : _ = Pc.handle fe h rest := hpc'
      subst hpc'
      obtain hskip | ⟨h, heq⟩ := hd.pc_cases
      · contradiction
      · cases heq
        exact .inl ⟨rfl, rfl, hpc, hd⟩
  | handle hpc hh =>
      obtain ⟨-, rfl⟩ | ⟨-, hnext⟩ := hh.next hpc
      · simp [Proc.exit] at hpc'
      · cases hnext with
        | done hdone => simp [hdone] at hpc'
        | more hmore =>
            cases hmore.symm.trans hpc'
            exact .inr ⟨_, hpc, hh⟩
  | _ => simp [goto, Proc.exit, connected] at hpc'

theorem Fires.of_interest (hf : p.Fires fe)
    (h : p.interest fe.fd ≠ none → p'.interest fe.fd = p.interest fe.fd) : p'.Fires fe := by
  obtain ⟨m, hm, hmask⟩ := hf
  exact ⟨m, by rw [h (by simp [hm]), hm], hmask⟩

/-- With no event left to handle, well-formedness is about the tables. -/
theorem Tables.wf (ht : Tables p) (hnil : p.pc.pending = []) : Wf p :=
  { ht with
    nodup := by simp [hnil]
    fires := by simp [hnil] }

theorem Wf.handle (hw : Wf p) {h : Handler} (hpc : p.pc = .handle fe h rest)
    (hh : Handle p fe rest h i p') : Wf p' := by
  have ht := hh.tables hw.toTables
  have hnodup := hw.nodup
  have hfires := hw.fires
  rw [hpc] at hnodup hfires
  have hne : ∀ fe' ∈ rest, fe'.fd ≠ fe.fd := by
    intro fe' hmem heq
    exact (List.nodup_cons.mp hnodup).1 (List.mem_map.mpr ⟨fe', hmem, heq⟩)
  obtain ⟨-, rfl⟩ | ⟨-, hnext⟩ := hh.next hpc
  · exact ht.wf rfl
  cases hnext with
  | done hpc' hint =>
      refine { ht with nodup := ?_, fires := ?_ }
      · rw [hpc']
        exact (List.nodup_cons.mp hnodup).2
      · rw [hpc']
        intro fe' hmem
        exact (hfires fe' (List.mem_cons_of_mem _ hmem)).of_interest (hint _ (hne fe' hmem))
  | more hpc' hint =>
      refine { ht with nodup := ?_, fires := ?_ }
      · rw [hpc']
        exact hnodup
      · rw [hpc']
        intro fe' hmem
        exact (hfires fe' hmem).of_interest (hint _)

/-- **A well-formed process stays well-formed**, whatever its calls return. -/
theorem Wf.step (hw : Wf p) (hs : p.step i = some p') : Wf p' := by
  cases step_cases hs with
  | access =>
      unfold checkTrigger
      split <;> exact (hw.toTables.goto _).wf rfl
  | connectFail => exact hw.toTables.exit.wf rfl
  | connect hpc hfresh =>
      have hopens := hw.toTables.opens hfresh .unixClient
      have ht : Tables (p.connected _) := ⟨hopens.nonneg, hopens.regOpen, hopens.connFd⟩
      exact ht.wf rfl
  | sendListen =>
      unfold afterHandOver
      split
      · exact (hw.toTables.detachInetListenFd.goto _).wf rfl
      · exact (hw.toTables.goto _).wf rfl
      · exact (hw.toTables.goto _).wf rfl
  | replyListen => exact (hw.toTables.detachInetListenFd.goto _).wf rfl
  | poll _ hpolls => exact { hw.toTables.goto _ with nodup := hpolls.2.1, fires := hpolls.2.2 }
  | batchEnd => exact (hw.toTables.goto _).wf rfl
  | @dispatch fe rest pc hpc hd =>
      have hnodup := hw.nodup
      have hfires := hw.fires
      rw [hpc] at hnodup hfires
      cases hd.pc_cases with
      | inl hskip =>
          rw [hskip]
          exact { hw.toTables.goto _ with
            nodup := (List.nodup_cons.mp hnodup).2
            fires := fun fe' hmem => hfires fe' (List.mem_cons_of_mem _ hmem) }
      | inr hh =>
          obtain ⟨h, hh⟩ := hh
          rw [hh]
          exact { hw.toTables.goto _ with nodup := hnodup, fires := hfires }
  | handle hpc hh => exact hw.handle hpc hh

/-! ## the events still to be handled -/

section Pending

variable {fe' : FiredEvent}

theorem Handle.pending {h : Handler} (hh : Handle p fe rest h i p')
    (hpc : p.pc = .handle fe h rest) (hmem : fe' ∈ p'.pc.pending) : fe' ∈ p.pc.pending := by
  rw [hpc]
  obtain ⟨-, rfl⟩ | ⟨-, hnext⟩ := hh.next hpc
  · simp [Proc.exit, Pc.pending] at hmem
  · cases hnext with
    | done hpc' =>
        rw [hpc'] at hmem
        exact List.mem_cons_of_mem _ hmem
    | more hpc' =>
        rw [hpc'] at hmem
        exact hmem

/-- Events come from `epoll_wait`. -/
theorem pending_step (hs : p.step i = some p') (hmem : fe' ∈ p'.pc.pending) :
    fe' ∈ p.pc.pending ∨ ∃ evs, i = .epollWait evs ∧ fe' ∈ evs := by
  cases step_cases hs with
  | access =>
      unfold checkTrigger at hmem
      split at hmem <;> simp [goto, Pc.pending] at hmem
  | connectFail => simp [Proc.exit, Pc.pending] at hmem
  | connect => simp [connected, Pc.pending] at hmem
  | sendListen =>
      unfold afterHandOver at hmem
      split at hmem <;> simp [goto, Pc.pending] at hmem
  | replyListen => simp [goto, Pc.pending] at hmem
  | poll => exact .inr ⟨_, rfl, hmem⟩
  | batchEnd => simp [goto, Pc.pending] at hmem
  | dispatch hpc hd =>
      rw [hpc]
      obtain hskip | ⟨h, hh⟩ := hd.pc_cases
      · rw [hskip] at hmem
        exact .inl (List.mem_cons_of_mem _ hmem)
      · rw [hh] at hmem
        exact .inl hmem
  | handle hpc hh => exact .inl (hh.pending hpc hmem)

theorem fds_received (p : Proc) (uc : UnixConn) (str : List UInt8) (room got added : Bool) :
    (p.received uc str room got fe rest added).fds = p.fds := by
  unfold received processRequest
  split
  · rfl
  · split
    · rfl
    · split <;> rfl

/-- An open descriptor stays as it is while an event on another one is handled. -/
theorem Handle.fds_of_open {h : Handler} {fd : Fd} (hh : Handle p fe rest h i p')
    (hrun : p'.pc ≠ .exited) (hopen : p.fds fd ≠ none) (hfd : p'.pc = .dispatch rest → fd ≠ fe.fd) :
    p'.fds fd = p.fds fd := by
  cases hh with
  | acceptFail => exact absurd rfl hrun
  | unixAcceptFail => exact absurd rfl hrun
  | accept hfresh => exact Function.update_of_ne (hfresh.ne_of_open hopen) _ _
  | unixAccept hfresh => exact Function.update_of_ne (hfresh.ne_of_open hopen) _ _
  | recvPlain => rw [fds_received]
  | recvDesc _ _ _ hfresh =>
      rw [fds_received]
      exact Function.update_of_ne (hfresh.ne_of_open hopen) _ _
  | sendSession =>
      unfold afterTransfer
      split <;> rfl
  | header =>
      unfold afterGetRequest
      split <;> rfl
  | payload =>
      unfold afterGetRequest
      split <;> rfl
  | write =>
      unfold afterSendReply
      split <;> rfl
  | dropUnix => exact Function.update_of_ne (hfd rfl) _ _
  | dropInet => exact Function.update_of_ne (hfd rfl) _ _
  | _ => rfl

/-- The descriptors of the events still to be handled denote what they did when
the events were reported. -/
theorem Wf.fds_pending (hw : Wf p) (hs : p.step i = some p') (hmem : fe' ∈ p'.pc.pending) :
    p'.fds fe'.fd = p.fds fe'.fd := by
  cases step_cases hs with
  | access =>
      unfold checkTrigger
      split <;> rfl
  | connectFail => simp [Proc.exit, Pc.pending] at hmem
  | connect => simp [connected, Pc.pending] at hmem
  | sendListen =>
      unfold afterHandOver at hmem
      split at hmem <;> simp [goto, Pc.pending] at hmem
  | replyListen => simp [goto, Pc.pending] at hmem
  | poll => rfl
  | batchEnd => rfl
  | dispatch => rfl
  | @handle fe h rest _ _ hpc hh =>
      have hpend := hh.pending hpc hmem
      obtain ⟨m, hm, -⟩ := hw.fires _ hpend
      refine hh.fds_of_open ?_ (hw.regOpen _ (by simp [hm])) ?_
      · intro hexited
        simp [hexited, Pc.pending] at hmem
      · intro hdone heq
        rw [hdone] at hmem
        have hnodup := hw.nodup
        rw [hpc] at hnodup
        exact (List.nodup_cons.mp hnodup).1 (List.mem_map.mpr ⟨fe', hmem, heq⟩)

end Pending

/-! ## how sessions are opened -/

section Inet

variable {fd fd' : Fd} {c : ConnId}

theorem inet_of_update {o : Option Obj} (ho : o ≠ some (.inet c))
    (h : update p.fds fd' o fd = some (.inet c)) : p.fds fd = some (.inet c) := by
  by_cases heq : fd = fd'
  · rw [heq, Function.update_self] at h
    exact absurd h ho
  · rwa [Function.update_of_ne heq] at h

/-- A process gets a session by `accept` or by `recvmsg`. -/
theorem inet_step (hs : p.step i = some p') (h : p'.fds fd = some (.inet c)) :
    p.fds fd = some (.inet c) ∨ (∃ added, i = .accept (some (fd, c)) added) ∨
      ∃ bs added, i = .recvmsg (.data bs (some (fd, .inet c))) added := by
  cases step_cases hs with
  | access =>
      unfold checkTrigger at h
      split at h <;> exact .inl h
  | connectFail => simp [Proc.exit] at h
  | connect => exact .inl (inet_of_update (by simp) h)
  | sendListen =>
      unfold afterHandOver at h
      split at h
      · exact .inl (inet_of_update (by simp) h)
      · exact .inl h
      · exact .inl h
  | replyListen => exact .inl (inet_of_update (by simp) h)
  | handle hpc hh =>
      cases hh with
      | acceptFail => simp [Proc.exit] at h
      | unixAcceptFail => simp [Proc.exit] at h
      | @accept fd' c' added hfresh =>
          by_cases heq : fd = fd'
          · have hc : update p.fds fd' (some (.inet c')) fd = some (.inet c) := h
            rw [heq, Function.update_self] at hc
            cases hc
            exact .inr (.inl ⟨added, by rw [heq]⟩)
          · exact .inl ((Function.update_of_ne heq _ _).symm.trans h)
      | unixAccept => exact .inl (inet_of_update (by simp) h)
      | recvPlain =>
          rw [fds_received] at h
          exact .inl h
      | @recvDesc _ _ bs _ fd' obj added =>
          rw [fds_received] at h
          by_cases heq : fd = fd'
          · have hc : update p.fds fd' (some obj) fd = some (.inet c) := h
            rw [heq, Function.update_self] at hc
            cases hc
            exact .inr (.inr ⟨bs, added, by rw [heq]⟩)
          · exact .inl ((Function.update_of_ne heq _ _).symm.trans h)
      | sendSession =>
          unfold afterTransfer at h
          split at h <;> exact .inl h
      | header =>
          unfold afterGetRequest at h
          split at h <;> exact .inl h
      | payload =>
          unfold afterGetRequest at h
          split at h <;> exact .inl h
      | write =>
          unfold afterSendReply at h
          split at h <;> exact .inl h
      | dropUnix => exact .inl (inet_of_update (by simp) h)
      | dropInet => exact .inl (inet_of_update (by simp) h)
      | _ => exact .inl h
  | _ => exact .inl h

end Inet

theorem pc_start (path : Path) (fd : Fd) : (start path fd).pc = .top := by
  unfold start
  split <;> rfl

theorem wf_start {path : Path} {fd : Fd} (hfd : 0 ≤ fd) : Wf (start path fd) := by
  have hboot : Tables (boot path) :=
    ⟨fun _ h => absurd rfl h, fun _ h => absurd rfl h, fun _ _ h => nomatch h⟩
  have hfresh : (boot path).Fresh fd := ⟨hfd, rfl⟩
  unfold start
  split
  · have hopens := hboot.opens hfresh .unixListen
    have hset : Tables { boot path with
        unixListenFd := fd, fds := update (boot path).fds fd (some .unixListen) } :=
      ⟨hopens.nonneg, hopens.regOpen, hopens.connFd⟩
    exact (hset.addEvent fd _ true).wf rfl
  · have hopens := hboot.opens hfresh .inetListen
    have hset : Tables { boot path with
        inetListenFd := fd, fds := update (boot path).fds fd (some .inetListen) } :=
      ⟨hopens.nonneg, hopens.regOpen, hopens.connFd⟩
    exact (hset.addEvent fd _ true).wf rfl

end SysDemos.HotUpgrade.Proc
