import SysDemos.Lib.Bytes
import SysDemos.Sys

/-!
# SysDemos.HotUpgrade.InetConn

A TCP session of the hot-upgrade server (`hot_upgrade_demo/inet_conn.cc`): it
reads requests, each a length and that many bytes, and writes each one back.

`GetRequest` makes up to two `read` calls.  It is modelled by the points at
which it waits for one (`GetRequest.header`, `GetRequest.payload`) and by what
it does with the result of each, so that other processes can run in between.
`ip_port_`, which is only printed, is left out.
-/

namespace SysDemos.HotUpgrade

/-- `HEADER_LEN`, the size of an `int`. -/
def headerLen : Nat := 4

/-- `READ_BUFFER_SIZE`, the size of `read_buf_`. -/
def readBufferSize : Nat := 1024 * 1024

/-- `ReadStatus`, without the two values nothing returns. -/
inductive ReadStatus where
  | kReadHalf
  | kReadAll
  | kReadError
  | kReadClose
  | kFullError
  deriving DecidableEq, Repr

/-- `WriteStatus`. -/
inductive WriteStatus where
  | kWriteHalf
  | kWriteAll
  | kWriteError
  deriving DecidableEq, Repr

/-- `InetConn`.  `readBuf` is the part of `read_buf_` written so far; the code
looks at no other part. -/
structure InetConn where
  fd : Int
  lastReadPos : Nat
  readBuf : List UInt8
  lastWritePos : Nat
  reply : List UInt8
  deriving DecidableEq, Repr

namespace InetConn

/-- The constructor. -/
def create (fd : Int) : InetConn :=
  { fd := fd, lastReadPos := 0, readBuf := [], lastWritePos := 0, reply := [] }

/-- `EmptyReadBuf`. -/
def emptyReadBuf (c : InetConn) : Bool := c.lastReadPos = 0

/-- Bytes returned by `read` into `read_buf_ + last_read_pos_`. -/
def store (c : InetConn) (bs : List UInt8) : InetConn :=
  { c with readBuf := Bytes.writeAt c.readBuf c.lastReadPos bs
           lastReadPos := c.lastReadPos + bs.length }

/-- `request_len`: the first four bytes of the buffer as an `int`. -/
def requestLen (c : InetConn) : Int := Bytes.toInt (c.readBuf.take headerLen)

/-- Where a call of `GetRequest` stands: before the `read` of the header,
before the `read` of the payload, or finished. -/
inductive GetRequest where
  | header
  | payload
  | done (rs : ReadStatus)
  deriving DecidableEq, Repr

/-- The length check.  The sum is one of `size_t`. -/
def checkLength (c : InetConn) : GetRequest :=
  if sizeT (c.requestLen + headerLen) > readBufferSize then .done .kFullError else .payload

/-- `GetRequest`, up to its first `read`. -/
def getRequest (c : InetConn) : GetRequest :=
  if c.lastReadPos < headerLen then .header else c.checkLength

/-- What `read` gives on failure, `EAGAIN` apart. -/
def readFailure : Errno → ReadStatus
  | .EAGAIN => .kReadHalf
  | _ => .kReadError

/-- Bytes asked for by the `read` of the header. -/
def headerCount (c : InetConn) : Nat := headerLen - c.lastReadPos

/-- `GetRequest` after the `read` of the header, up to its next `read`. -/
def onHeader (c : InetConn) : ReadRet → InetConn × GetRequest
  | .err e => (c, .done (readFailure e))
  | .ret [] => (c, .done .kReadClose)
  | .ret bs =>
    let c := c.store bs
    if c.lastReadPos < headerLen then (c, .done .kReadHalf) else (c, c.checkLength)

/-- Bytes asked for by the `read` of the payload, as a `size_t`. -/
def payloadCount (c : InetConn) : Nat := sizeT (c.requestLen + headerLen - c.lastReadPos)

/-- `GetRequest` after the `read` of the payload. -/
def onPayload (c : InetConn) : ReadRet → InetConn × ReadStatus
  | .err e => (c, readFailure e)
  | .ret [] => (c, .kReadClose)
  | .ret bs =>
    let c := c.store bs
    if c.lastReadPos < sizeT (headerLen + c.requestLen) then (c, .kReadHalf)
    else
      ({ c with reply := (c.readBuf.drop headerLen).take c.requestLen.toNat, lastReadPos := 0 },
        .kReadAll)

/-- The bytes `SendReply` passes to `write`. -/
def unsent (c : InetConn) : List UInt8 := c.reply.drop c.lastWritePos

/-- `SendReply`, given the result of its `write`. -/
def sendReply (c : InetConn) : WriteRet → InetConn × WriteStatus
  | .fail .EAGAIN => (c, .kWriteHalf)
  | .fail _ => (c, .kWriteError)
  | .ret n =>
    if c.lastWritePos + n < c.reply.length then
      ({ c with lastWritePos := c.lastWritePos + n }, .kWriteHalf)
    else ({ c with reply := [], lastWritePos := 0 }, .kWriteAll)

/-! ## the length check -/

theorem checkLength_cases (c : InetConn) :
    c.checkLength = .payload ∨ c.checkLength = .done .kFullError := by
  unfold checkLength
  split
  · exact .inr rfl
  · exact .inl rfl

theorem eq_full_of_checkLength {c : InetConn} {rs : ReadStatus} (h : c.checkLength = .done rs) :
    rs = .kFullError := by
  obtain hpayload | hfull := c.checkLength_cases
  · rw [hpayload] at h
    contradiction
  · rw [hfull] at h
    exact (GetRequest.done.inj h).symm

/-- `GetRequest` does not return before its first `read`, unless it refuses the length. -/
theorem eq_full_of_getRequest {c : InetConn} {rs : ReadStatus} (h : c.getRequest = .done rs) :
    rs = .kFullError := by
  unfold getRequest at h
  split at h
  · contradiction
  · exact eq_full_of_checkLength h

/-! ## the descriptor of a session never changes -/

@[simp] theorem fd_onHeader (c : InetConn) (r : ReadRet) : (c.onHeader r).1.fd = c.fd := by
  unfold onHeader
  split
  · rfl
  · rfl
  · dsimp only
    split <;> rfl

@[simp] theorem fd_onPayload (c : InetConn) (r : ReadRet) : (c.onPayload r).1.fd = c.fd := by
  unfold onPayload
  split
  · rfl
  · rfl
  · dsimp only
    split <;> rfl

@[simp] theorem fd_sendReply (c : InetConn) (r : WriteRet) : (c.sendReply r).1.fd = c.fd := by
  unfold sendReply
  split
  · rfl
  · rfl
  · split <;> rfl

end InetConn

/-- A `read` of `count` bytes returns no more than that.  A count that is
negative as an `ssize_t` is refused by the kernel. -/
def readFits (count : Nat) : ReadRet → Bool
  | .ret bs => bs.length ≤ count && count < 2 ^ 63
  | .err _ => true

/-- A `write` of `count` bytes writes no more than that, and something unless
nothing was asked for. -/
def writeFits (count : Nat) : WriteRet → Bool
  | .ret n => n ≤ count && (0 < n || count = 0)
  | .fail _ => true

end SysDemos.HotUpgrade
