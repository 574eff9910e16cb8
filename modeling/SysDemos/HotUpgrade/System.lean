import SysDemos.HotUpgrade.Server
import SysDemos.Lib.Lts

/-!
# SysDemos.HotUpgrade.System

A hot upgrade: an old server (`main` with `./unix_client_trigger`), a new server
(`main -u`), the unix connection between them and the TCP clients.

`Chan` and `Net` are the kernel's objects that the two processes share.  A step of
the system is a step of one process, with a result of its system call that these
objects allow (`Chan.serve`, `Net.serve`), or an action of a client, or the end of
a process.  A byte stream on the unix connection carries a descriptor with the
first byte of each `sendmsg`; `recvmsg` returns bytes of at most one descriptor,
and drops the descriptor if the caller left no room for it or has as many open
descriptors as it may have.

The lists `sent`, `acked`, `handled`, `accepted` and the logs of the clients are
histories, which nothing reads.
-/

namespace SysDemos.HotUpgrade

/-- The two servers. -/
inductive Pid where
  | old
  | new
  deriving DecidableEq, Repr

/-- A unix connection. -/
def isUnixConn : Option Obj → Bool
  | some (.unixConn _) => true
  | _ => false

/-! ## what a process is doing -/

namespace Proc

/-- The request that a transfer sends, and what the descriptor it passes
denotes. -/
def passing (p : Proc) : Option (MsgRequestType × Obj) :=
  match p.pc with
  | .handOver _ => (p.fds p.inetListenFd).map fun obj => (.kTransferListenFd, obj)
  | .handle fe (.transfer _) _ => (p.fds fe.fd).map fun obj => (.kTransferSessionFd, obj)
  | _ => none

/-- The part of a request that `processRecv` has got. -/
def requestStr (p : Proc) : List UInt8 :=
  match p.pc with
  | .handle _ (.recv str _ _) _ => str
  | _ => []

/-- `recvmsg` is called with room for a descriptor. -/
def room (p : Proc) : Bool :=
  match p.pc with
  | .handle _ (.recv _ room _) _ => room
  | _ => false

/-- The process is about to reply to a request. -/
def replying (p : Proc) : Bool :=
  match p.pc with
  | .handle _ .commonReply _ => true
  | _ => false

/-- The descriptor number in the control buffer. -/
def cmptr (p : Proc) : Option Fd := p.unixConn.map (·.cmptr)

/-- What the descriptor in the control buffer denotes. -/
def cmptrObj (p : Proc) : Option Obj := p.cmptr.bind p.fds

/-- What the clean-up that the process is about to do closes. -/
def closing (p : Proc) : Option Obj :=
  match p.pc with
  | .handle fe .dropUnix _ => p.fds fe.fd
  | .handle fe .dropInet _ => p.fds fe.fd
  | _ => none

/-- The session whose descriptor the process is about to read or write, with its
`InetConn`. -/
def session (p : Proc) : Option (ConnId × InetConn) :=
  match p.pc with
  | .handle fe .header _ | .handle fe .payload _ | .handle fe .write _ =>
    match p.inetConnMap fe.fd with
    | none => none
    | some conn =>
      match p.fds conn.fd with
      | some (.inet c) => some (c, conn)
      | _ => none
  | _ => none

end Proc

/-! ## the unix connection -/

/-- A byte of the stream, with the descriptor sent along with it. -/
structure Cell where
  byte : UInt8
  desc : Option Obj
  deriving DecidableEq, Repr

/-- Bytes sent with a descriptor for `obj`. -/
def cellsOf (obj : Option Obj) : List UInt8 → List Cell
  | [] => []
  | b :: bs => ⟨b, obj⟩ :: bs.map (⟨·, none⟩)

/-- The new server's end of the connection: not connected, waiting to be accepted,
accepted, closed. -/
inductive NewEnd where
  | absent
  | queued
  | accepted
  | closed
  deriving DecidableEq, Repr

/-- A request that `processRecv` has handled: its bytes, what its descriptor
denotes, and whether that descriptor is now `inet_listen_fd`, in `inet_conn_map`,
registered. -/
structure Handled where
  request : List UInt8
  obj : Option Obj
  attached : Bool
  entered : Bool
  registered : Bool
  deriving DecidableEq, Repr

/-- The request that process `p` has just handled. -/
def Handled.of (p : Proc) (request : List UInt8) : Handled :=
  { request := request, obj := p.cmptrObj
    attached := p.cmptr = some p.inetListenFd
    entered := (p.cmptr.bind p.inetConnMap).isSome
    registered := (p.cmptr.bind p.interest).isSome }

/-- The unix connection.  `toOld` counts the bytes of replies not yet read.
`sent` lists the transfers whose `sendmsg` took the whole message, `acked` those
that returned `kSendMsgOk`. -/
structure Chan where
  oldEnd : Bool
  newEnd : NewEnd
  toNew : List Cell
  toOld : Nat
  sent : List (MsgRequestType × Obj)
  acked : List (MsgRequestType × Obj)
  handled : List Handled
  deriving DecidableEq, Repr

namespace Chan

/-- Nothing has happened yet. -/
def init : Chan :=
  { oldEnd := false, newEnd := .absent, toNew := [], toOld := 0, sent := [], acked := []
    handled := [] }

/-- A server closes its end; what is queued at the new end is lost with it. -/
def hangUp (ch : Chan) : Pid → Chan
  | .old => { ch with oldEnd := false }
  | .new => { ch with newEnd := .closed, toNew := [] }

/-- `sendmsg` takes the first `n` bytes of a message. -/
def send (ch : Chan) (n : Nat) (t : MsgRequestType) (obj : Obj) : Chan :=
  { ch with
    toNew := ch.toNew ++ cellsOf (some obj) ((msgDataBuf t).take n)
    sent := if n = msgDataBufLen then ch.sent ++ [(t, obj)] else ch.sent }

/-- `GetReply` may get this: bytes that are there, end of file when the new end is
closed, or an error, as when the new end was closed with something unread. -/
def Replies (ch : Chan) : Option Nat → Prop
  | none => True
  | some 0 => ch.toOld = 0 ∧ ch.newEnd = .closed
  | some n => n ≤ ch.toOld ∧ n ≤ msgReplyLen

instance (ch : Chan) (r : Option Nat) : Decidable (ch.Replies r) :=
  match r with
  | none => isTrue trivial
  | some 0 => inferInstanceAs (Decidable (_ ∧ _))
  | some (_ + 1) => inferInstanceAs (Decidable (_ ∧ _))

/-- The request that a `recvmsg` which returned `bs` has completed. -/
def handledNow (p p' : Proc) (bs : List UInt8) : List Handled :=
  if p'.replying then [.of p' (p.requestStr ++ bs)] else []

/-- `recvmsg`.  The descriptor sent with the bytes is delivered or, at the limit of open
descriptors, dropped, which the caller of `recvmsg` could only see in `msg_flags`. -/
def recv (ch : Chan) (p p' : Proc) : RecvRet → Option Chan
  | .eof => if ch.toNew = [] ∧ ch.oldEnd = false then some ch else none
  | .err _ => some ch
  | .data bs desc =>
    let cells := ch.toNew.take bs.length
    let descs := cells.filterMap (·.desc)
    if ch.newEnd = .accepted ∧ cells.map (·.byte) = bs ∧ descs.length ≤ 1 ∧
        (desc = none ∨ p.room = true ∧ desc.map (·.2) = descs.head?) then
      some { ch with
        toNew := ch.toNew.drop bs.length
        handled := ch.handled ++ handledNow p p' bs }
    else none

/-- Errors and hang-ups are reported for a unix connection only when the other end
is closed. -/
def Allows (ch : Chan) (p : Proc) (fe : FiredEvent) : Prop :=
  (fe.mask.epollerr = true ∨ fe.mask.epollhup = true) → isUnixConn (p.fds fe.fd) = true →
    ch.oldEnd = false

instance (ch : Chan) (p : Proc) (fe : FiredEvent) : Decidable (ch.Allows p fe) :=
  inferInstanceAs (Decidable (_ → _ → _))

/-- What a system call of process `pid`, which takes it from `p` to `p'`, does to
the connection. -/
def serve (ch : Chan) (pid : Pid) (p p' : Proc) : Input → Option Chan
  | .unixClientConn none => some (ch.hangUp pid)
  | .unixClientConn (some _) =>
    if ch.newEnd = .absent then some { ch with oldEnd := true, newEnd := .queued } else none
  | .sendmsg (.ret n) =>
    match p.passing with
    | none => none
    | some (t, obj) =>
      if ch.newEnd = .queued ∨ ch.newEnd = .accepted then some (ch.send n t obj) else none
  | .getReply r =>
    if ch.Replies r then
      some { ch with toOld := ch.toOld - r.getD 0, acked := ch.acked ++ p.passing.toList }
    else none
  | .epollWait evs => if ∀ fe ∈ evs, ch.Allows p fe then some ch else none
  | .accept none _ => some (ch.hangUp pid)
  | .unixAccept .failed _ => some (ch.hangUp pid)
  | .unixAccept .rejected _ => some (ch.hangUp pid)
  | .unixAccept (.accepted _ _ _) _ =>
    if ch.newEnd = .queued then some { ch with newEnd := .accepted } else none
  | .recvmsg r _ => ch.recv p p' r
  | .sendReply (.ret n) =>
    if ch.newEnd = .accepted ∧ ch.oldEnd = true ∧ n ≤ msgReplyLen then
      some { ch with toOld := ch.toOld + n }
    else none
  | .tau => some (if isUnixConn p.closing then ch.hangUp pid else ch)
  | _ => some ch

end Chan

/-! ## the TCP clients -/

/-- A client's connection: the payloads of the frames it has sent, its bytes that
no server has read, the bytes that have been read and by whom, and the bytes it has
received. -/
structure Tcp where
  payloads : List (List UInt8)
  inbox : List UInt8
  log : List (Pid × UInt8)
  received : List UInt8
  shut : Bool
  deriving DecidableEq, Repr

/-- The frame of a payload, as `client_echo_request` builds it. -/
def frame (payload : List UInt8) : List UInt8 := Bytes.ofNat headerLen payload.length ++ payload

/-- The TCP connections: the first `nconn` exist, those in `backlog` have not been
accepted. -/
structure Net where
  tcp : ConnId → Tcp
  nconn : Nat
  backlog : List ConnId
  accepted : List (Pid × ConnId)

namespace Net

/-- No client yet. -/
def init : Net :=
  { tcp := fun _ => { payloads := [], inbox := [], log := [], received := [], shut := false }
    nconn := 0, backlog := [], accepted := [] }

/-- A connection changes. -/
def setTcp (n : Net) (c : ConnId) (t : Tcp) : Net := { n with tcp := Function.update n.tcp c t }

/-- A server reads `bs` from connection `c`; nothing is read at the end of the
stream. -/
def read (n : Net) (pid : Pid) (c : ConnId) (bs : List UInt8) : Option Net :=
  let t := n.tcp c
  if bs = [] then if t.inbox = [] ∧ t.shut = true then some n else none
  else if bs <+: t.inbox then
    some (n.setTcp c
      { t with inbox := t.inbox.drop bs.length, log := t.log ++ bs.map fun b => (pid, b) })
  else none

/-- What a system call of process `pid` does to the TCP connections. -/
def serve (n : Net) (pid : Pid) (p : Proc) : Input → Option Net
  | .accept (some (_, c)) _ =>
    match n.backlog with
    | [] => none
    | c' :: backlog =>
      if c = c' then some { n with backlog := backlog, accepted := n.accepted ++ [(pid, c)] }
      else none
  | .read (.ret bs) =>
    match p.session with
    | none => none
    | some (c, _) => n.read pid c bs
  | .write (.ret k) =>
    match p.session with
    | none => none
    | some (c, conn) =>
      let t := n.tcp c
      some (n.setTcp c { t with received := t.received ++ conn.unsent.take k })
  | _ => some n

end Net

/-! ## the system -/

/-- The two servers and what they share. -/
structure System where
  old : Proc
  new : Proc
  chan : Chan
  net : Net

/-- What can happen: a step of a process, a client that connects, sends a frame or
ends its stream, the end of a process. -/
inductive Label where
  | proc (pid : Pid) (i : Input)
  | connect
  | send (c : ConnId) (payload : List UInt8)
  | shut (c : ConnId)
  | kill (pid : Pid)
  deriving DecidableEq, Repr

namespace System

/-- A server. -/
def proc (w : System) : Pid → Proc
  | .old => w.old
  | .new => w.new

/-- A server moves. -/
def setProc (w : System) (pid : Pid) (p : Proc) : System :=
  match pid with
  | .old => { w with old := p }
  | .new => { w with new := p }

/-- The longest payload a server accepts. -/
def maxPayload : Nat := readBufferSize - headerLen

/-- A step of the system. -/
def step (w : System) : Label → Option System
  | .proc pid i =>
    match (w.proc pid).step i with
    | none => none
    | some p' =>
      match w.chan.serve pid (w.proc pid) p' i, w.net.serve pid (w.proc pid) i with
      | some chan, some net => some { w.setProc pid p' with chan := chan, net := net }
      | _, _ => none
  | .connect =>
    some { w with
      net := { w.net with nconn := w.net.nconn + 1, backlog := w.net.backlog ++ [w.net.nconn] } }
  | .send c payload =>
    let t := w.net.tcp c
    if c < w.net.nconn ∧ t.shut = false ∧ 1 ≤ payload.length ∧ payload.length ≤ maxPayload then
      some { w with
        net := w.net.setTcp c
          { t with payloads := t.payloads ++ [payload], inbox := t.inbox ++ frame payload } }
    else none
  | .shut c => some { w with net := w.net.setTcp c { w.net.tcp c with shut := true } }
  | .kill pid => some { w.setProc pid (w.proc pid).exit with chan := w.chan.hangUp pid }

/-- Both servers have started, with their listeners on `lfd` and `ufd`. -/
def init (lfd ufd : Fd) : System :=
  { old := .start .clientTrigger lfd, new := .start .unixServer ufd, chan := .init, net := .init }

end System
end SysDemos.HotUpgrade
