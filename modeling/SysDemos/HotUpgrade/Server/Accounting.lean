import SysDemos.HotUpgrade.Server.Dispatch

/-!
# SysDemos.HotUpgrade.Server.Accounting

Where the descriptors go that a server receives on its unix connection.

`processRecv` takes the descriptor number from its control buffer once a request is
complete, whether or not a descriptor has come with the request, and registers that
number if it knows the type of the request.  A request of a known type without
descriptor thus registers a number that an earlier one has left; a descriptor that
comes with a request of another type is neither registered nor closed.

A `Ledger` runs a process and draws up an account for every message, when the
message leads to a registration or when the connection is torn down.

* `accounted_iff` — an account is in order just when a message of a known type came
  with one descriptor, or another with none; the tables are changed as it says, and
  nothing delivered is left out.
-/

namespace SysDemos.HotUpgrade

open Lts

/-! ## registrations -/

/-- A call that makes a descriptor the inet listener, or a session. -/
inductive Registration where
  | listener (fd : Fd)
  | session (fd : Fd)
  deriving DecidableEq, Repr

/-- The descriptor that is registered. -/
def Registration.fd : Registration → Fd
  | .listener fd => fd
  | .session fd => fd

/-- What `processRecv` registers for a whole request, with the number in its control
buffer. -/
def Registration.of (fd : Fd) (requestStr : List UInt8) : Option Registration :=
  if msgTypeOf requestStr = MsgRequestType.kTransferListenFd.code then some (.listener fd)
  else if msgTypeOf requestStr = MsgRequestType.kTransferSessionFd.code then some (.session fd)
  else none

/-- The request is complete and of a type that `processRecv` handles. -/
def Handles (requestStr : List UInt8) : Prop :=
  msgDataBufLen ≤ requestStr.length ∧
    (msgTypeOf requestStr = MsgRequestType.kTransferListenFd.code ∨
      msgTypeOf requestStr = MsgRequestType.kTransferSessionFd.code)

instance (requestStr : List UInt8) : Decidable (Handles requestStr) :=
  inferInstanceAs (Decidable (_ ∧ _))

/-- The registration is in the tables of the process. -/
def Registration.Holds (p : Proc) : Registration → Prop
  | .listener fd => p.inetListenFd = fd
  | .session fd => p.inetConnMap fd = some (InetConn.create fd)

/-- The listener and the sessions of a process. -/
def Proc.tables (p : Proc) : Fd × (Fd → Option InetConn) := (p.inetListenFd, p.inetConnMap)

/-- The tables with a registration entered, if there is one. -/
def Registration.enter (t : Fd × (Fd → Option InetConn)) :
    Option Registration → Fd × (Fd → Option InetConn)
  | none => t
  | some (.listener fd) => (fd, t.2)
  | some (.session fd) => (t.1, Function.update t.2 fd (some (InetConn.create fd)))

namespace Registration

variable {fd : Fd} {str : List UInt8} {r : Registration}

theorem fd_of (h : of fd str = some r) : r.fd = fd := by
  unfold of at h
  split at h
  · cases h
    rfl
  · split at h
    · cases h
      rfl
    · contradiction

theorem handles_of_some (hlen : msgDataBufLen ≤ str.length) (h : of fd str = some r) :
    Handles str := by
  unfold of at h
  split at h
  · exact ⟨hlen, .inl (by assumption)⟩
  · split at h
    · exact ⟨hlen, .inr (by assumption)⟩
    · contradiction

theorem not_handles_of_none (h : of fd str = none) : ¬ Handles str := by
  unfold of at h
  split at h
  · contradiction
  · next hlisten =>
      split at h
      · contradiction
      · next hsession => exact fun hh => hh.2.elim hlisten hsession

end Registration

namespace Proc

variable {p p' : Proc} {fe : FiredEvent} {rest : List FiredEvent} {i : Input}

/-- `attachInetListenFd`, or the new session of `HandleSessionFdMsg`. -/
def register (p : Proc) (added : Bool) : Registration → Proc
  | .listener fd => p.attachInetListenFd fd added
  | .session fd => p.addInetConn fd added

/-- What the next system call, if it gives `i`, leads `processRecv` to register. -/
def registers (p : Proc) (i : Input) : Option Registration :=
  match p.pc, i with
  | .handle _ (.recv str _ _) _, .recvmsg (.data bs desc) _ =>
    if (str ++ bs).length < msgDataBufLen then none
    else p.unixConn.bind fun uc => Registration.of ((desc.map (·.1)).getD uc.cmptr) (str ++ bs)
  | _, _ => none

theorem holds_register (p : Proc) (added : Bool) (r : Registration) :
    r.Holds (p.register added r) := by
  cases r with
  | listener fd => rfl
  | session fd => exact Function.update_self fd _ _

theorem tables_register (p : Proc) (added : Bool) (r : Registration) :
    (p.register added r).tables = Registration.enter p.tables (some r) := by
  cases r <;> rfl

@[simp] theorem fds_register (p : Proc) (added : Bool) (r : Registration) :
    (p.register added r).fds = p.fds := by
  cases r <;> rfl

@[simp] theorem unixConn_register (p : Proc) (added : Bool) (r : Registration) :
    (p.register added r).unixConn = p.unixConn := by
  cases r <;> rfl

/-- How the loop of `processRecv` goes on: more of the request is to come, the number
in the control buffer is registered, or the connection is given up. -/
theorem received_cases (p : Proc) (uc : UnixConn) (str : List UInt8) (room got : Bool)
    (fe : FiredEvent) (rest : List FiredEvent) (added : Bool) :
    (str.length < msgDataBufLen ∧
        p.received uc str room got fe rest added = p.goto (.handle fe (.recv str room got) rest)) ∨
      msgDataBufLen ≤ str.length ∧
        ((∃ r, Registration.of uc.cmptr str = some r ∧ p.received uc str room got fe rest added =
            (p.register added r).goto (.handle fe .commonReply rest)) ∨
          Registration.of uc.cmptr str = none ∧
            p.received uc str room got fe rest added = p.goto (.handle fe .dropUnix rest)) := by
  unfold received processRequest Registration.of
  split
  · next hlt => exact .inl ⟨hlt, rfl⟩
  · next hge =>
      refine .inr ⟨Nat.le_of_not_lt hge, ?_⟩
      split
      · exact .inl ⟨_, rfl, rfl⟩
      · split
        · exact .inl ⟨_, rfl, rfl⟩
        · exact .inr ⟨rfl, rfl⟩

/-- Only the dispatch of an event begins a request. -/
theorem recv_of_step (hs : p.step i = some p')
    (hpc : ∀ fe str room got rest, p.pc ≠ .handle fe (.recv str room got) rest)
    {str : List UInt8} {room got : Bool} (hpc' : p'.pc = .handle fe (.recv str room got) rest) :
    str = [] := by
  obtain ⟨-, -, -, hd⟩ | ⟨h₀, hpc₀, hh⟩ := step_to_handle hs hpc'
  · cases hd
    rfl
  · obtain ⟨⟨str₀, room₀, got₀, rfl⟩, -⟩ := hh.recv_of_next hpc' (.inr ⟨str, room, got, rfl⟩)
    exact absurd hpc₀ (hpc _ _ _ _ _)

/-- The descriptor of an event that is being handled is open. -/
theorem Wf.open_of_handle (hw : Wf p) {h : Handler} (hpc : p.pc = .handle fe h rest) :
    p.fds fe.fd ≠ none := by
  obtain ⟨m, hm, -⟩ := hw.fires fe (by simp [hpc, Pc.pending])
  exact hw.regOpen _ (by simp [hm])

end Proc

/-! ## accounts -/

/-- The account of a message: its bytes, the descriptors that `recvmsg` has delivered
with them, what has been registered, and the process before and afterwards. -/
structure Account where
  request : List UInt8
  delivered : List Fd
  registered : Option Registration
  before : Proc
  after : Proc

namespace Account

/-- Every descriptor delivered is the one registered, or closed; and none is
registered that was not delivered with the message. -/
def Accounted (a : Account) : Prop :=
  (∀ fd ∈ a.delivered, a.registered.map (·.fd) = some fd ∨ a.after.fds fd = none) ∧
    ∀ fd, a.registered.map (·.fd) = some fd → fd ∈ a.delivered

/-- The message came with one descriptor if it is handled, and with none otherwise. -/
def Proper (a : Account) : Prop :=
  a.delivered.length = if Handles a.request then 1 else 0

instance (a : Account) : Decidable a.Proper := inferInstanceAs (Decidable (_ = _))

/-- What has been registered is all that has happened to the tables. -/
structure Entered (a : Account) : Prop where
  holds : ∀ r, a.registered = some r → r.Holds a.after
  tables : a.after.tables = Registration.enter a.before.tables a.registered

theorem accounted_iff_of_registered {a : Account} {r : Registration}
    (hr : a.registered = some r) (hnodup : a.delivered.Nodup)
    (hopen : ∀ fd ∈ a.delivered, a.after.fds fd ≠ none)
    (hlast : a.delivered ≠ [] → a.delivered.getLast? = some r.fd) :
    a.Accounted ↔ a.delivered.length = 1 := by
  simp only [Accounted, hr, Option.map_some, Option.some.injEq, forall_eq']
  constructor
  · rintro ⟨hall, hmem⟩
    have heq : ∀ fd ∈ a.delivered, fd = r.fd := fun fd hfd =>
      ((hall fd hfd).resolve_right (hopen fd hfd)).symm
    have hlen : a.delivered.length ≤ 1 := by
      rw [List.eq_replicate_of_mem heq] at hnodup
      exact List.nodup_replicate.mp hnodup
    exact Nat.le_antisymm hlen (List.length_pos_of_mem hmem)
  · intro hone
    obtain ⟨fd, hfd⟩ := List.length_eq_one_iff.mp hone
    have hr : fd = r.fd := by simpa [hfd] using hlast
    simp [hfd, hr]

theorem accounted_iff_of_none {a : Account} (hr : a.registered = none)
    (hopen : ∀ fd ∈ a.delivered, a.after.fds fd ≠ none) :
    a.Accounted ↔ a.delivered.length = 0 := by
  simp only [Accounted, hr, Option.map_none, reduceCtorEq, false_or, false_implies, implies_true,
    and_true, List.length_eq_zero_iff]
  constructor
  · intro hall
    exact List.eq_nil_iff_forall_not_mem.mpr fun fd hfd => hopen fd hfd (hall fd hfd)
  · intro hnil
    simp [hnil]

end Account

/-! ## the ledger -/

/-- A process, what it was when the message began that it is receiving, the bytes and
descriptors of that message, and the accounts of the messages before. -/
structure Ledger where
  proc : Proc
  before : Proc
  request : List UInt8
  delivered : List Fd
  accounts : List Account

namespace Ledger

variable {l l' : Ledger} {i : Input} {fe : FiredEvent} {rest : List FiredEvent} {p' : Proc}

def start (path : Path) (fd : Fd) : Ledger :=
  { proc := .start path fd, before := .start path fd, request := [], delivered := []
    accounts := [] }

/-- The bytes that a system call receives on the unix connection. -/
def bytes : Input → List UInt8
  | .recvmsg (.data bs _) _ => bs
  | _ => []

/-- The descriptor that a system call delivers. -/
def delivers : Input → List Fd
  | .recvmsg (.data _ (some (fd, _))) _ => [fd]
  | _ => []

/-- The message ends here: with a registration, or because the connection is torn
down. -/
def ends (p : Proc) (i : Input) : Bool :=
  match p.pc with
  | .handle _ .dropUnix _ => true
  | _ => (p.registers i).isSome

/-- The process is in the middle of a message. -/
def receiving (p : Proc) : Bool :=
  match p.pc with
  | .handle _ (.recv _ _ _) _ => true
  | .handle _ .dropUnix _ => true
  | _ => false

/-- The step of the process to `p'` is entered. -/
def record (l : Ledger) (i : Input) (p' : Proc) : Ledger :=
  if ends l.proc i then
    { proc := p', before := p', request := [], delivered := []
      accounts := l.accounts ++ [
        { request := l.request ++ bytes i, delivered := l.delivered ++ delivers i
          registered := l.proc.registers i, before := l.before, after := p' }] }
  else
    { proc := p', before := if receiving l.proc then l.before else p'
      request := l.request ++ bytes i, delivered := l.delivered ++ delivers i
      accounts := l.accounts }

/-- A step of the process. -/
def step (l : Ledger) (i : Input) : Option Ledger := (l.proc.step i).map (l.record i)

/-- Only a `recvmsg` that returns bytes brings anything. -/
theorem nothing (hi : ∀ bs desc added, i ≠ .recvmsg (.data bs desc) added) :
    bytes i = [] ∧ delivers i = [] ∧ ∀ p : Proc, p.registers i = none := by
  refine ⟨?_, ?_, fun p => ?_⟩
  · unfold bytes
    split
    · exact absurd rfl (hi _ _ _)
    · rfl
  · unfold delivers
    split
    · exact absurd rfl (hi _ _ _)
    · rfl
  · unfold Proc.registers
    split
    · exact absurd rfl (hi _ _ _)
    · rfl

theorem record_of_nothing (hi : ∀ bs desc added, i ≠ .recvmsg (.data bs desc) added)
    (hpc : ∀ fe rest, l.proc.pc ≠ .handle fe .dropUnix rest) :
    l.record i p' =
      { l with proc := p', before := if receiving l.proc then l.before else p' } := by
  obtain ⟨hbytes, hdelivers, hregisters⟩ := nothing hi
  have hends : ends l.proc i = false := by
    unfold ends
    split
    · exact absurd (by assumption) (hpc _ _)
    · rw [hregisters]
      rfl
  rw [record, hends, hbytes, hdelivers, List.append_nil, List.append_nil]
  rfl

/-! ## what has been delivered -/

/-- The descriptors delivered with the message that is being received: all open, the
last of them in the control buffer. -/
structure Held (fds : List Fd) (p : Proc) : Prop where
  nodup : fds.Nodup
  opened : ∀ fd ∈ fds, p.fds fd ≠ none
  cmptr : fds ≠ [] → ∃ uc, p.unixConn = some uc ∧ fds.getLast? = some uc.cmptr

theorem held_nil (p : Proc) : Held [] p := ⟨.nil, nofun, nofun⟩

theorem Held.congr {fds : List Fd} {p p' : Proc} (h : Held fds p) (hfds : p'.fds = p.fds)
    (huc : p'.unixConn = p.unixConn) : Held fds p' :=
  ⟨h.nodup, hfds ▸ h.opened, huc ▸ h.cmptr⟩

/-- `recvmsg` delivers another descriptor. -/
theorem Held.install {fds : List Fd} {p : Proc} {fd : Fd} (h : Held fds p) (hfresh : p.Fresh fd)
    (uc : UnixConn) (obj : Obj) : Held (fds ++ [fd]) (p.install uc fd obj) where
  nodup := by
    have hnew : fd ∉ fds := fun hmem => h.opened fd hmem hfresh.2
    rw [← List.concat_eq_append]
    exact h.nodup.concat hnew
  opened fd' hmem := by
    by_cases heq : fd' = fd
    · subst heq
      simp [Proc.install]
    · simp only [Proc.install, Function.update_of_ne heq]
      exact h.opened fd' (by simpa [heq] using hmem)
  cmptr _ := ⟨_, rfl, by simp⟩

/-! ## the invariant -/

/-- What the ledger knows of the message at a point of the program: all of it so far
while it is received, that it is not handled when the connection is to be torn down,
nothing otherwise. -/
def At (l : Ledger) : Pc → Prop
  | .handle fe (.recv str _ _) _ =>
    l.request = str ∧ str.length < msgDataBufLen ∧ fe.fd ∉ l.delivered
  | .handle fe .dropUnix _ => ¬ Handles l.request ∧ fe.fd ∉ l.delivered
  | _ => l.request = [] ∧ l.delivered = []

structure Inv (l : Ledger) : Prop where
  wf : l.proc.Wf
  held : Held l.delivered l.proc
  pc : l.At l.proc.pc
  before : receiving l.proc = true → l.proc.tables = l.before.tables
  accounts : ∀ a ∈ l.accounts, (a.Accounted ↔ a.Proper) ∧ a.Entered

theorem not_handles_of_short {str : List UInt8} (h : str.length < msgDataBufLen) :
    ¬ Handles str := fun hh => Nat.not_le_of_lt h hh.1

/-- A message that has not begun fits everywhere but in the middle of a request. -/
theorem at_of_nil (hreq : l.request = []) (hdel : l.delivered = []) {pc : Pc}
    (hpc : ∀ fe str room got rest, pc = .handle fe (.recv str room got) rest → str = []) :
    l.At pc := by
  unfold At
  split
  · rw [hpc _ _ _ _ _ rfl, hdel]
    exact ⟨hreq, by decide, nofun⟩
  · rw [hreq, hdel]
    exact ⟨not_handles_of_short (by decide), nofun⟩
  · exact ⟨hreq, hdel⟩

theorem inv_start (path : Path) {fd : Fd} (hfd : 0 ≤ fd) : Inv (start path fd) where
  wf := Proc.wf_start hfd
  held := held_nil _
  pc := by
    rw [show (start path fd).proc.pc = .top from Proc.pc_start path fd]
    exact ⟨rfl, rfl⟩
  before _ := rfl
  accounts _ ha := absurd ha List.not_mem_nil

/-- An account is drawn up. -/
theorem Inv.account (h : Inv l) (hw : p'.Wf) (hends : ends l.proc i = true)
    (hpc : ∀ fe str room got rest, p'.pc ≠ .handle fe (.recv str room got) rest)
    (haccount : ∀ a : Account, a.request = l.request ++ bytes i →
      a.delivered = l.delivered ++ delivers i → a.registered = l.proc.registers i →
      a.before = l.before → a.after = p' → (a.Accounted ↔ a.Proper) ∧ a.Entered) :
    Inv (l.record i p') := by
  rw [record, if_pos hends]
  refine ⟨hw, held_nil _, at_of_nil rfl rfl fun _ _ _ _ _ h' => absurd h' (hpc _ _ _ _ _),
    fun _ => rfl, fun a ha => ?_⟩
  obtain ha | ha := List.mem_append.mp ha
  · exact h.accounts a ha
  · cases List.mem_singleton.mp ha
    exact haccount _ rfl rfl rfl rfl rfl

/-- The message goes on. -/
theorem Inv.more (h : Inv l) (hw : p'.Wf) (hends : ends l.proc i = false)
    (hheld : Held (l.delivered ++ delivers i) p')
    (hpc : At { l with request := l.request ++ bytes i, delivered := l.delivered ++ delivers i }
      p'.pc)
    (hreceiving : receiving l.proc = true) (htables : p'.tables = l.before.tables) :
    Inv (l.record i p') := by
  rw [record, if_neg (by simp [hends]), hreceiving, if_pos rfl]
  exact ⟨hw, hheld, hpc, fun _ => htables, h.accounts⟩

/-- `recvmsg` has returned bytes. -/
theorem Inv.received (h : Inv l) {p : Proc} {uc : UnixConn} {str bs : List UInt8}
    {room got room' got' added : Bool} {desc : Option (Fd × Obj)}
    (hpc : l.proc.pc = .handle fe (.recv str room got) rest)
    (hi : i = .recvmsg (.data bs desc) added)
    (hp' : p' = p.received uc (str ++ bs) room' got' fe rest added) (hw : p'.Wf)
    (hregisters : l.proc.registers i = if (str ++ bs).length < msgDataBufLen then none
      else Registration.of uc.cmptr (str ++ bs))
    (huc : p.unixConn = some uc) (hheld : Held (l.delivered ++ delivers i) p)
    (hfe : fe.fd ∉ l.delivered ++ delivers i) (htables : p.tables = l.proc.tables) :
    Inv (l.record i p') := by
  have hreceiving : receiving l.proc = true := by rw [receiving, hpc]
  replace htables := htables.trans (h.before hreceiving)
  have hat := h.pc
  rw [hpc] at hat
  obtain ⟨hreq, hlen, -⟩ := hat
  have hrequest : l.request ++ bytes i = str ++ bs := by rw [hreq, hi]; rfl
  have hends : ends l.proc i = (l.proc.registers i).isSome := by rw [ends, hpc]
  obtain ⟨hlt, heq⟩ | ⟨hge, ⟨r, hr, heq⟩ | ⟨hnone, heq⟩⟩ :=
    p.received_cases uc (str ++ bs) room' got' fe rest added
  · rw [if_pos hlt] at hregisters
    rw [heq] at hp'
    refine h.more hw (by rw [hends, hregisters]; rfl) (hp' ▸ hheld.congr rfl rfl) ?_ hreceiving
      (hp' ▸ htables)
    rw [hp']
    exact ⟨hrequest, hlt, hfe⟩
  · rw [if_neg (Nat.not_lt_of_le hge), hr] at hregisters
    rw [heq] at hp'
    refine h.account hw (by rw [hends, hregisters]; rfl) (by rw [hp']; nofun) ?_
    intro a hreq' hdel hreg hbefore hafter
    rw [hregisters] at hreg
    have hheld' : Held a.delivered a.after := by
      rw [hdel, hafter, hp']
      exact hheld.congr (Proc.fds_register ..) (Proc.unixConn_register ..)
    have hlast : a.delivered ≠ [] → a.delivered.getLast? = some r.fd := by
      intro hne
      obtain ⟨uc', huc', hlast⟩ := hheld'.cmptr hne
      rw [hafter, hp'] at huc'
      have hsame := (Proc.unixConn_register p added r).symm.trans huc'
      rw [huc] at hsame
      cases hsame
      rw [hlast, Registration.fd_of hr]
    refine ⟨?_, fun r' hr' => ?_, ?_⟩
    · rw [Account.accounted_iff_of_registered hreg hheld'.nodup hheld'.opened hlast,
        Account.Proper, hreq', hrequest, if_pos (Registration.handles_of_some hge hr)]
    · rw [hreg] at hr'
      cases hr'
      rw [hafter, hp']
      exact Proc.holds_register p added r
    · rw [hreg, hbefore, hafter, hp', ← htables]
      exact Proc.tables_register p added r
  · rw [if_neg (Nat.not_lt_of_le hge), hnone] at hregisters
    rw [heq] at hp'
    refine h.more hw (by rw [hends, hregisters]; rfl) (hp' ▸ hheld.congr rfl rfl) ?_ hreceiving
      (hp' ▸ htables)
    rw [hp']
    refine ⟨?_, hfe⟩
    rw [show _ = str ++ bs from hrequest]
    exact Registration.not_handles_of_none hnone

/-- A step of `processRecv`. -/
theorem Inv.recv (h : Inv l) {str : List UInt8} {room got : Bool}
    (hpc : l.proc.pc = .handle fe (.recv str room got) rest) (hs : l.proc.step i = some p') :
    Inv (l.record i p') := by
  have hw := h.wf.step hs
  have hat := h.pc
  rw [hpc] at hat
  obtain ⟨hreq, hlen, hfe⟩ := hat
  have hdrop : ∀ fe rest, l.proc.pc ≠ .handle fe .dropUnix rest := by simp [hpc]
  have hreceiving : receiving l.proc = true := by rw [receiving, hpc]
  cases Proc.step_of_handle hs hpc with
  | recvClose hr =>
      rw [record_of_nothing (by obtain rfl | rfl := hr <;> nofun) hdrop, if_pos hreceiving]
      exact ⟨hw, h.held.congr rfl rfl, ⟨hreq ▸ not_handles_of_short hlen, hfe⟩,
        fun _ => h.before hreceiving, h.accounts⟩
  | recvAgain =>
      rw [record_of_nothing ?_ hdrop, if_pos hreceiving]
      · exact h
      · nofun
  | recvPlain huc =>
      refine h.received hpc rfl rfl hw ?_ huc ?_ ?_ rfl
      · simp [Proc.registers, hpc, huc]
      · simpa [delivers] using h.held
      · simpa [delivers] using hfe
  | recvDesc huc _ _ hfresh =>
      refine h.received hpc rfl rfl hw ?_ rfl (h.held.install hfresh _ _) ?_ rfl
      · simp [Proc.registers, hpc, huc]
      · have hne : fe.fd ≠ _ := fun heq => h.wf.open_of_handle hpc (heq ▸ hfresh.2)
        simp [delivers, hfe, hne]

/-- The connection is torn down. -/
theorem Inv.dropUnix (h : Inv l) (hpc : l.proc.pc = .handle fe .dropUnix rest)
    (hs : l.proc.step i = some p') : Inv (l.record i p') := by
  have hat := h.pc
  rw [hpc] at hat
  obtain ⟨hhandles, hfe⟩ := hat
  have hw := h.wf.step hs
  cases Proc.step_of_handle hs hpc with
  | dropUnix =>
      refine h.account hw (by rw [ends, hpc]) nofun fun a hreq hdel hreg hbefore hafter => ?_
      simp only [bytes, delivers, List.append_nil] at hreq hdel
      rw [(nothing (i := .tau) nofun).2.2 l.proc] at hreg
      have hopened : ∀ fd ∈ a.delivered, a.after.fds fd ≠ none := by
        rw [hdel, hafter]
        intro fd hfd
        have hne : fd ≠ fe.fd := fun heq => hfe (heq ▸ hfd)
        rw [show (l.proc.dropUnix fe rest).fds = Function.update l.proc.fds fe.fd none from rfl,
          Function.update_of_ne hne]
        exact h.held.opened fd hfd
      refine ⟨?_, fun r hr => ?_, ?_⟩
      · rw [Account.accounted_iff_of_none hreg hopened, Account.Proper, hreq, if_neg hhandles]
      · rw [hreg] at hr
        contradiction
      · rw [hreg, hbefore, hafter]
        exact h.before (by rw [receiving, hpc])

theorem Inv.step (h : Inv l) (hs : l.step i = some l') : Inv l' := by
  obtain ⟨p', hp', rfl⟩ := Option.map_eq_some_iff.mp hs
  by_cases hrecv : ∃ fe str room got rest, l.proc.pc = .handle fe (.recv str room got) rest
  · obtain ⟨fe, str, room, got, rest, hpc⟩ := hrecv
    exact h.recv hpc hp'
  by_cases hdrop : ∃ fe rest, l.proc.pc = .handle fe .dropUnix rest
  · obtain ⟨fe, rest, hpc⟩ := hdrop
    exact h.dropUnix hpc hp'
  -- elsewhere nothing is received, and no message is in progress
  have hnothing : ∀ bs desc added, i ≠ .recvmsg (.data bs desc) added := by
    rintro bs desc added rfl
    exact hrecv (Proc.step_recvmsg hp')
  have hidle : l.request = [] ∧ l.delivered = [] := by
    have hat := h.pc
    unfold At at hat
    split at hat
    · next hpc => exact absurd ⟨_, _, _, _, _, hpc⟩ hrecv
    · next hpc => exact absurd ⟨_, _, hpc⟩ hdrop
    · exact hat
  have hreceiving : ¬ receiving l.proc = true := by
    unfold receiving
    split
    · next hpc => exact absurd ⟨_, _, _, _, _, hpc⟩ hrecv
    · next hpc => exact absurd ⟨_, _, hpc⟩ hdrop
    · simp
  rw [record_of_nothing hnothing fun fe rest hpc => hdrop ⟨fe, rest, hpc⟩, if_neg hreceiving]
  refine ⟨h.wf.step hp', ?_, at_of_nil hidle.1 hidle.2 fun fe str room got rest hpc' => ?_,
    fun _ => rfl, h.accounts⟩
  · rw [show Ledger.delivered _ = [] from hidle.2]
    exact held_nil _
  · exact Proc.recv_of_step hp' (fun fe str room got rest hpc => hrecv ⟨_, _, _, _, _, hpc⟩) hpc'

end Ledger
end SysDemos.HotUpgrade
