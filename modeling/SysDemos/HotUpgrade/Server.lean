import SysDemos.HotUpgrade.InetConn
import SysDemos.HotUpgrade.UnixSocket

/-!
# SysDemos.HotUpgrade.Server

One server process of `hot_upgrade_demo`: `main`, `handle_unix_event` and
`handle_net_event` of `server.cc`, the event loop of `epoll.cc`, `processRecv`
and the message handlers of `unix_conn.cc`.

A process is a state machine.  Its state holds the variables of the program, the
kernel's tables for the process (open descriptors, epoll registrations) and the
point of the program that has been reached (`Pc`).  `Proc.step` makes the next
system call that other processes can see or that can block, with the result that
the `Input` gives it, and the local work up to the next one.  It is undefined
for results that the kernel does not give: a descriptor handed out is not in use,
and `epoll_wait` reports registered descriptors, each once.
-/

namespace SysDemos.HotUpgrade

open Function (update)

/-- A descriptor; negative values denote none. -/
abbrev Fd := Int

/-- The name of a TCP connection. -/
abbrev ConnId := Nat

/-- What an open descriptor denotes. -/
inductive Obj where
  | inetListen
  | unixListen
  | unixConn (k : Nat)
  | unixClient
  | inet (c : ConnId)
  deriving DecidableEq, Repr

/-- The events a descriptor is registered for. -/
structure Interest where
  epollin : Bool := false
  epollout : Bool := false
  epollet : Bool := false
  deriving DecidableEq, Repr

/-- `FiredEvent::mask`. -/
structure Mask where
  epollin : Bool := false
  epollout : Bool := false
  epollerr : Bool := false
  epollhup : Bool := false
  deriving DecidableEq, Repr

/-- `FiredEvent`. -/
structure FiredEvent where
  mask : Mask
  fd : Fd
  deriving DecidableEq, Repr

/-- An event on descriptor `fd`. -/
def FiredEvent.onFd (fd : Fd) (mask : Mask) : FiredEvent := { mask, fd }

/-- `MAX_EVENTS`. -/
def maxEvents : Nat := 10000

/-- `UnixConn`.  `cmptr` is the descriptor number in its control buffer, which
stays there until `recvmsg` delivers another one. -/
structure UnixConn where
  fd : Fd
  cmptr : Fd
  deriving DecidableEq, Repr

/-- `path`, the argument of `main`, as far as it is told apart: `"-u"`,
`UNIX_CLIENT_TRIGGER` or another file. -/
inductive Path where
  | unixServer
  | clientTrigger
  | other
  deriving DecidableEq, Repr

/-! ## points of the program -/

/-- Where the handling of a fired event waits. -/
inductive Handler where
  /-- in `inet_server_accept` -/
  | accept
  /-- in `unix_server_accept` -/
  | unixAccept
  /-- in the `recvmsg` of `processRecv`, with the value of `requestStr`; `room`
  says whether `msg_controllen` still leaves room for a descriptor, `got` whether
  this call has received one -/
  | recv (requestStr : List UInt8) (room got : Bool)
  /-- in `makeCommonReply` -/
  | commonReply
  /-- in `TransferSessionFd` -/
  | transfer (t : Transfer)
  /-- in `GetRequest`, reading the header -/
  | header
  /-- in `GetRequest`, reading the payload -/
  | payload
  /-- in `SendReply` -/
  | write
  /-- `handle_unix_event` has returned `-1` -/
  | dropUnix
  /-- `handle_net_event` has returned `-1` -/
  | dropInet
  deriving DecidableEq, Repr

/-- A point of `main`. -/
inductive Pc where
  /-- at the top of the loop -/
  | top
  /-- in `unix_client_conn` -/
  | connect
  /-- in `TransferListenFd` -/
  | handOver (t : Transfer)
  /-- in `epoll_wait` -/
  | poll
  /-- in the loop over the fired events, with those still to come -/
  | dispatch (evs : List FiredEvent)
  /-- handling an event, with those still to come -/
  | handle (fe : FiredEvent) (h : Handler) (rest : List FiredEvent)
  | exited
  deriving DecidableEq, Repr

/-- The fired events not yet done with, the one being handled first. -/
def Pc.pending : Pc → List FiredEvent
  | .dispatch evs => evs
  | .handle fe _ rest => fe :: rest
  | _ => []

/-! ## results of system calls -/

/-- Result of `unix_server_accept`: `accept` fails, the client is rejected, or
the connection `k` is opened; `cmptr` is what the new control buffer happens to
hold. -/
inductive UnixAccept where
  | failed
  | rejected
  | accepted (fd : Fd) (k : Nat) (cmptr : Fd)
  deriving DecidableEq, Repr

/-- Result of `recvmsg`: bytes, with a descriptor if one is delivered, end of
file, or `-1`. -/
inductive RecvRet where
  | data (bs : List UInt8) (desc : Option (Fd × Obj))
  | eof
  | err (e : Errno)
  deriving DecidableEq, Repr

/-- The result of the system call a process makes.  `added` is the success of
the `epoll_ctl` that follows the call. -/
inductive Input where
  | tau
  | access (found : Bool)
  | unixClientConn (r : Option Fd)
  | sendmsg (r : WriteRet)
  | getReply (r : Option Nat)
  | epollWait (evs : List FiredEvent)
  | accept (r : Option (Fd × ConnId)) (added : Bool)
  | unixAccept (r : UnixAccept) (added : Bool)
  | recvmsg (r : RecvRet) (added : Bool)
  | sendReply (r : WriteRet)
  | read (r : ReadRet)
  | write (r : WriteRet)
  deriving DecidableEq, Repr

/-! ## processes -/

/-- A server process.  The fields up to `unixClient` are the variables of
`server.cc`, the next three those of the `Epoll` instance, the last three the
kernel's. -/
structure Proc where
  path : Path
  unixSocketInit : Bool
  unixConnFd : Fd
  unixConn : Option UnixConn
  unixClient : Option Fd
  inetListenFd : Fd
  unixListenFd : Fd
  inetConnMap : Fd → Option InetConn
  fds : Fd → Option Obj
  interest : Fd → Option Interest
  pc : Pc

namespace Proc

/-- Continue at a point of the program. -/
def goto (p : Proc) (pc : Pc) : Proc := { p with pc := pc }

/-- `exit`: the kernel closes every descriptor. -/
def exit (p : Proc) : Proc :=
  { p with pc := .exited, fds := fun _ => none, interest := fun _ => none }

/-- A descriptor number that the kernel may hand out. -/
def Fresh (p : Proc) (fd : Fd) : Prop := 0 ≤ fd ∧ p.fds fd = none

instance (p : Proc) (fd : Fd) : Decidable (p.Fresh fd) :=
  inferInstanceAs (Decidable (_ ∧ _))

/-! ## epoll -/

/-- `AddEvent`.  `epoll_ctl` refuses a descriptor that is not open or already
registered; for the other reasons to fail `added` is false. -/
def addEvent (p : Proc) (fd : Fd) (m : Interest) (added : Bool) : Proc :=
  { p with
    interest :=
      if added = true ∧ p.fds fd ≠ none ∧ p.interest fd = none then
        update p.interest fd (some m)
      else p.interest }

/-- `ModEvent`; `epoll_ctl` refuses a descriptor that is not registered. -/
def modEvent (p : Proc) (fd : Fd) (m : Interest) : Proc :=
  { p with
    interest :=
      if p.interest fd = none then p.interest else update p.interest fd (some m) }

/-- `DelEvent` and `close`. -/
def delClose (p : Proc) (fd : Fd) : Proc :=
  { p with interest := update p.interest fd none, fds := update p.fds fd none }

/-- `detachInetListenFd`. -/
def detachInetListenFd (p : Proc) : Proc :=
  { p.delClose p.inetListenFd with inetListenFd := -1 }

/-- `attachInetListenFd`. -/
def attachInetListenFd (p : Proc) (fd : Fd) (added : Bool) : Proc :=
  { p with inetListenFd := fd }.addEvent fd { epollin := true } added

/-- A new session on `fd`, registered for edge-triggered input; in `main` after
an accept and in `HandleSessionFdMsg`. -/
def addInetConn (p : Proc) (fd : Fd) (added : Bool) : Proc :=
  { p with inetConnMap := update p.inetConnMap fd (some (InetConn.create fd)) }.addEvent fd
    { epollin := true, epollet := true } added

/-- What `epoll_wait` may report: an event that was registered, an error or a
hang-up, on a registered descriptor. -/
def Fires (p : Proc) (fe : FiredEvent) : Prop :=
  ∃ m, p.interest fe.fd = some m ∧
    (fe.mask.epollin = true → m.epollin = true) ∧ (fe.mask.epollout = true → m.epollout = true)

instance (p : Proc) (fe : FiredEvent) : Decidable (p.Fires fe) :=
  match h : p.interest fe.fd with
  | none => isFalse fun ⟨_, hm, _⟩ => by rw [h] at hm; contradiction
  | some m =>
    decidable_of_iff ((fe.mask.epollin = true → m.epollin = true) ∧
        (fe.mask.epollout = true → m.epollout = true))
      ⟨fun hm => ⟨m, h, hm⟩, fun ⟨m', hm', hm⟩ => by rw [h] at hm'; cases hm'; exact hm⟩

/-- The events `Poll` may return. -/
def Polls (p : Proc) (evs : List FiredEvent) : Prop :=
  evs.length ≤ maxEvents ∧ (evs.map (·.fd)).Nodup ∧ ∀ fe ∈ evs, p.Fires fe

instance (p : Proc) (evs : List FiredEvent) : Decidable (p.Polls evs) :=
  inferInstanceAs (Decidable (_ ∧ _ ∧ _))

/-! ## dispatch -/

/-- The four branches of the loop over the fired events. -/
inductive Branch where
  | accept
  | unixAccept
  | unixEvent
  | netEvent
  deriving DecidableEq, Repr

/-- The branch taken for an event on `fd`. -/
def branch (p : Proc) (fd : Fd) : Branch :=
  if fd = p.inetListenFd then .accept
  else if fd = p.unixListenFd then .unixAccept
  else if fd = p.unixConnFd then .unixEvent
  else .netEvent

/-- `handle_unix_event`, up to the `recvmsg` of `processRecv`. -/
def handleUnixEvent (p : Proc) (fe : FiredEvent) (rest : List FiredEvent) : Pc :=
  if fe.mask.epollerr = true ∨ fe.mask.epollhup = true then .handle fe .dropUnix rest
  else if p.unixConn = none then .handle fe .dropUnix rest
  else if fe.mask.epollin = true then .handle fe (.recv [] true false) rest
  else .dispatch rest

/-- `handle_net_event` once `GetRequest` has stopped at a `read` or returned. -/
def afterGetRequest (p : Proc) (fe : FiredEvent) (rest : List FiredEvent) :
    InetConn.GetRequest → Proc
  | .header => p.goto (.handle fe .header rest)
  | .payload => p.goto (.handle fe .payload rest)
  | .done .kReadAll => (p.modEvent fe.fd { epollout := true }).goto (.dispatch rest)
  | .done .kReadHalf => p.goto (.dispatch rest)
  | .done _ => p.goto (.handle fe .dropInet rest)

/-- `handle_net_event` once `SendReply` has returned. -/
def afterSendReply (p : Proc) (fe : FiredEvent) (rest : List FiredEvent) : WriteStatus → Proc
  | .kWriteAll => (p.modEvent fe.fd { epollin := true }).goto (.dispatch rest)
  | .kWriteHalf => p.goto (.dispatch rest)
  | .kWriteError => p.goto (.handle fe .dropInet rest)

/-- `handle_net_event`, up to its first system call. -/
def handleNetEvent (p : Proc) (fe : FiredEvent) (rest : List FiredEvent) : Proc :=
  if fe.mask.epollerr = true ∨ fe.mask.epollhup = true then p.goto (.handle fe .dropInet rest)
  else
    match p.inetConnMap fe.fd with
    | none => p.goto (.handle fe .dropInet rest)
    | some conn =>
      if fe.mask.epollin = true ∧ conn.emptyReadBuf = true ∧ p.unixClient ≠ none then
        p.goto (.handle fe (.transfer (.send 0)) rest)
      else if fe.mask.epollin = true then p.afterGetRequest fe rest conn.getRequest
      else if fe.mask.epollout = true then p.goto (.handle fe .write rest)
      else p.goto (.dispatch rest)

/-- The body of the loop over the fired events. -/
def dispatch (p : Proc) (fe : FiredEvent) (rest : List FiredEvent) : Proc :=
  match p.branch fe.fd with
  | .accept => p.goto (.handle fe .accept rest)
  | .unixAccept => p.goto (.handle fe .unixAccept rest)
  | .unixEvent => p.goto (p.handleUnixEvent fe rest)
  | .netEvent => p.handleNetEvent fe rest

/-! ## handlers -/

/-- A successful `inet_server_accept` in `main`. -/
def acceptInet (p : Proc) (fd : Fd) (c : ConnId) (added : Bool) : Proc :=
  { p with fds := update p.fds fd (some (.inet c)) }.addInetConn fd added

/-- A successful `unix_server_accept` in `main`. -/
def acceptUnix (p : Proc) (fd : Fd) (k : Nat) (cmptr : Fd) (added : Bool) : Proc :=
  { p with
    fds := update p.fds fd (some (.unixConn k))
    unixConnFd := fd
    unixConn := some { fd := fd, cmptr := cmptr } }.addEvent fd { epollin := true } added

/-- `processRecv` with a whole request in `requestStr`: `HandleListenFdMsg` or
`HandleSessionFdMsg` up to `makeCommonReply`, with the descriptor number found
in the control buffer. -/
def processRequest (p : Proc) (fd : Fd) (requestStr : List UInt8) (fe : FiredEvent)
    (rest : List FiredEvent) (added : Bool) : Proc :=
  if msgTypeOf requestStr = MsgRequestType.kTransferListenFd.code then
    (p.attachInetListenFd fd added).goto (.handle fe .commonReply rest)
  else if msgTypeOf requestStr = MsgRequestType.kTransferSessionFd.code then
    (p.addInetConn fd added).goto (.handle fe .commonReply rest)
  else p.goto (.handle fe .dropUnix rest)

/-- The loop of `processRecv` after bytes have been appended to `requestStr`. -/
def received (p : Proc) (uc : UnixConn) (requestStr : List UInt8) (room got : Bool)
    (fe : FiredEvent) (rest : List FiredEvent) (added : Bool) : Proc :=
  if requestStr.length < msgDataBufLen then p.goto (.handle fe (.recv requestStr room got) rest)
  else p.processRequest uc.cmptr requestStr fe rest added

/-- `recvmsg` delivers a descriptor for `obj`: the kernel opens it as `fd` and
stores `fd` in the control buffer. -/
def install (p : Proc) (uc : UnixConn) (fd : Fd) (obj : Obj) : Proc :=
  { p with fds := update p.fds fd (some obj), unixConn := some { uc with cmptr := fd } }

/-- `processRecv` after a `recvmsg`.  Its `msghdr` is set up once: a `recvmsg`
that delivers no descriptor sets `msg_controllen` to zero. -/
def recv (p : Proc) (fe : FiredEvent) (requestStr : List UInt8) (room got : Bool)
    (rest : List FiredEvent) (added : Bool) : RecvRet → Option Proc
  | .eof => some (p.goto (.handle fe .dropUnix rest))
  | .err .other => some (p.goto (.handle fe .dropUnix rest))
  | .err _ => some p
  | .data bs desc =>
    match p.unixConn with
    | none => none
    | some uc =>
      if bs = [] ∨ msgDataBufLen < bs.length then none
      else
        match desc with
        | none => some (p.received uc (requestStr ++ bs) false got fe rest added)
        | some (fd, obj) =>
          if room = true ∧ p.Fresh fd then
            some ((p.install uc fd obj).received { uc with cmptr := fd } (requestStr ++ bs)
              true true fe rest added)
          else none

/-- `main` once `TransferListenFd` has stopped at a system call or returned. -/
def afterHandOver (p : Proc) : Transfer → Proc
  | .done .kSendMsgOk => p.detachInetListenFd.goto .poll
  | .done .kSendMsgError => p.goto .poll
  | t => p.goto (.handOver t)

/-- `handle_net_event` once `TransferSessionFd` has stopped at a system call or
returned: it returns `-1` whatever the status. -/
def afterTransfer (p : Proc) (fe : FiredEvent) (rest : List FiredEvent) : Transfer → Proc
  | .done _ => p.goto (.handle fe .dropInet rest)
  | t => p.goto (.handle fe (.transfer t) rest)

/-- A session's `InetConn` changes. -/
def setConn (p : Proc) (fd : Fd) (conn : InetConn) : Proc :=
  { p with inetConnMap := update p.inetConnMap fd (some conn) }

/-- The clean-up of a unix connection.  `unix_conn_fd` keeps its value. -/
def dropUnix (p : Proc) (fe : FiredEvent) (rest : List FiredEvent) : Proc :=
  { p.delClose fe.fd with unixConn := none, pc := .dispatch rest }

/-- The clean-up of a session. -/
def dropInet (p : Proc) (fe : FiredEvent) (rest : List FiredEvent) : Proc :=
  { p.delClose fe.fd with inetConnMap := update p.inetConnMap fe.fd none, pc := .dispatch rest }

/-- A `sendmsg` that passes `fd`: nothing is sent unless `fd` is open. -/
def Sends (p : Proc) (fd : Fd) (r : WriteRet) : Prop :=
  sendFits r = true ∧ (p.fds fd = none → ∃ e, r = .fail e)

instance (p : Proc) (fd : Fd) (r : WriteRet) : Decidable (p.Sends fd r) :=
  match r with
  | .ret n => decidable_of_iff (sendFits (.ret n) = true ∧ p.fds fd ≠ none) (by simp [Sends])
  | .fail e => isTrue (by simp [Sends, sendFits])

/-- The handling of a fired event, from one system call to the next. -/
def handle (p : Proc) (fe : FiredEvent) (h : Handler) (rest : List FiredEvent) (i : Input) :
    Option Proc :=
  match h, i with
  | .accept, .accept none _ => some p.exit
  | .accept, .accept (some (fd, c)) added =>
    if p.Fresh fd then some ((p.acceptInet fd c added).goto (.dispatch rest)) else none
  | .unixAccept, .unixAccept .failed _ => some p.exit
  | .unixAccept, .unixAccept .rejected _ => some p.exit
  | .unixAccept, .unixAccept (.accepted fd k cmptr) added =>
    if p.Fresh fd then some ((p.acceptUnix fd k cmptr added).goto (.dispatch rest)) else none
  | .recv requestStr room got, .recvmsg r added => p.recv fe requestStr room got rest added r
  | .commonReply, .sendReply _ => some (p.goto (.dispatch rest))
  | .transfer (.send n), .sendmsg r =>
    if p.Sends fe.fd r then some (p.afterTransfer fe rest (sendLoop n r)) else none
  | .transfer .getReply, .getReply _ => some (p.afterTransfer fe rest (.done .kSendMsgOk))
  | .header, .read r =>
    match p.inetConnMap fe.fd with
    | none => none
    | some conn =>
      if readFits conn.headerCount r then
        some ((p.setConn fe.fd (conn.onHeader r).1).afterGetRequest fe rest (conn.onHeader r).2)
      else none
  | .payload, .read r =>
    match p.inetConnMap fe.fd with
    | none => none
    | some conn =>
      if readFits conn.payloadCount r then
        some ((p.setConn fe.fd (conn.onPayload r).1).afterGetRequest fe rest
          (.done (conn.onPayload r).2))
      else none
  | .write, .write r =>
    match p.inetConnMap fe.fd with
    | none => none
    | some conn =>
      if writeFits conn.unsent.length r then
        some ((p.setConn fe.fd (conn.sendReply r).1).afterSendReply fe rest (conn.sendReply r).2)
      else none
  | .dropUnix, .tau => some (p.dropUnix fe rest)
  | .dropInet, .tau => some (p.dropInet fe rest)
  | _, _ => none

/-! ## main -/

/-- The top of the loop of `main`, given whether the file `path` exists. -/
def checkTrigger (p : Proc) (found : Bool) : Proc :=
  if found = true ∧ p.unixSocketInit = false ∧ p.path = .clientTrigger then p.goto .connect
  else p.goto .poll

/-- `main` once `unix_client_conn` has succeeded. -/
def connected (p : Proc) (fd : Fd) : Proc :=
  { p with
    fds := update p.fds fd (some .unixClient)
    unixClient := some fd
    unixSocketInit := true
    pc := .handOver (.send 0) }

/-- A step of the process. -/
def step (p : Proc) (i : Input) : Option Proc :=
  match p.pc, i with
  | .top, .access found => some (p.checkTrigger found)
  | .connect, .unixClientConn none => some p.exit
  | .connect, .unixClientConn (some fd) => if p.Fresh fd then some (p.connected fd) else none
  | .handOver (.send n), .sendmsg r =>
    if p.Sends p.inetListenFd r then some (p.afterHandOver (sendLoop n r)) else none
  | .handOver .getReply, .getReply _ => some (p.afterHandOver (.done .kSendMsgOk))
  | .poll, .epollWait evs => if p.Polls evs then some (p.goto (.dispatch evs)) else none
  | .dispatch [], .tau => some (p.goto .top)
  | .dispatch (fe :: rest), .tau => some (p.dispatch fe rest)
  | .handle fe h rest, i => p.handle fe h rest i
  | _, _ => none

/-! ## start -/

/-- A process with no descriptor open. -/
def boot (path : Path) : Proc :=
  { path := path, unixSocketInit := false, unixConnFd := -1, unixConn := none, unixClient := none
    inetListenFd := -1, unixListenFd := -1, inetConnMap := fun _ => none, fds := fun _ => none
    interest := fun _ => none, pc := .top }

/-- `startInetServer`, with the descriptor the kernel gives the listener.  Nobody looks at the
result of its `AddEvent`, which is taken to succeed: with a descriptor that has just been opened
and an empty epoll set only a lack of memory can make it fail. -/
def startInetServer (p : Proc) (fd : Fd) : Proc :=
  { p with inetListenFd := fd, fds := update p.fds fd (some .inetListen) }.addEvent fd
    { epollin := true } true

/-- `startUnixServer`, with the descriptor the kernel gives the listener.  Its `AddEvent` is taken
to succeed as well. -/
def startUnixServer (p : Proc) (fd : Fd) : Proc :=
  { p with unixListenFd := fd, fds := update p.fds fd (some .unixListen) }.addEvent fd
    { epollin := true } true

/-- `main` at the start of its loop. -/
def start (path : Path) (fd : Fd) : Proc :=
  if path = .unixServer then (boot path).startUnixServer fd else (boot path).startInetServer fd

end Proc
end SysDemos.HotUpgrade
