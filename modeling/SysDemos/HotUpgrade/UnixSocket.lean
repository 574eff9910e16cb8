import SysDemos.Lib.Bytes
import SysDemos.Sys

/-!
# SysDemos.HotUpgrade.UnixSocket

The messages that pass descriptors from the old server to the new one
(`unix_socket.h`, `unix_client.cc`, `unix_conn.cc` of `hot_upgrade_demo`): a
type, the length of a text and the text, in a buffer of `MSG_DATA_BUF_LEN`
bytes, answered by eight bytes.

`TransferListenFd` and `TransferSessionFd` differ in the type and the text only.
A call of either is modelled by the points at which it waits for a system call
(`Transfer`).

* `msgTypeOf_transferMsg` — the receiver reads the type that was sent;
* `sendLoop_whole` — a `sendmsg` that takes the whole buffer ends the send loop.
-/

namespace SysDemos.HotUpgrade

/-- `MSG_DATA_BUF_LEN`. -/
def msgDataBufLen : Nat := 1024

/-- `MsgRequestType`. -/
inductive MsgRequestType where
  | kAuth
  | kTransferListenFd
  | kTransferAdminListenFd
  | kTransferSessionFd
  deriving DecidableEq, Repr

/-- The value of an enumerator. -/
def MsgRequestType.code : MsgRequestType → Nat
  | .kAuth => 0
  | .kTransferListenFd => 1
  | .kTransferAdminListenFd => 2
  | .kTransferSessionFd => 3

/-- `SendMsgStatus`. -/
inductive SendMsgStatus where
  | kSendMsgOk
  | kSendMsgError
  deriving DecidableEq, Repr

/-- `RecvMsgStatus`, without the value nothing returns. -/
inductive RecvMsgStatus where
  | kRecvMsgOk
  | kRecvMSGParseError
  | kRecvMsgClose
  deriving DecidableEq, Repr

/-- The bytes of an ASCII text. -/
def ascii (cs : List Char) : List UInt8 := cs.map fun c => UInt8.ofNat c.toNat

/-! ## the sender -/

/-- `msgDataBuf` as a transfer fills it: type, length of the text, text,
zeros. -/
def transferMsg (msgType : MsgRequestType) (data : List UInt8) : List UInt8 :=
  Bytes.ofNat 4 msgType.code ++ Bytes.ofNat 4 data.length ++ data ++
    List.replicate (msgDataBufLen - (8 + data.length)) 0

/-- The text sent with a type of descriptor. -/
def transferData : MsgRequestType → List UInt8
  | .kTransferListenFd =>
    ascii ['l', 'i', 's', 't', 'e', 'n', ' ', 'f', 'd', ' ', 'd', 'a', 't', 'a']
  | .kTransferSessionFd =>
    ascii ['s', 'e', 's', 's', 'i', 'o', 'n', ' ', 'f', 'd', ' ', 'd', 'a', 't', 'a']
  | _ => []

/-- The message sent with a type of descriptor. -/
def msgDataBuf (msgType : MsgRequestType) : List UInt8 :=
  transferMsg msgType (transferData msgType)

/-- Where a call of `TransferListenFd` or `TransferSessionFd` stands: in its
send loop with the value of `send`, in `GetReply`, or finished. -/
inductive Transfer where
  | send (send : Nat)
  | getReply
  | done (sms : SendMsgStatus)
  deriving DecidableEq, Repr

/-- The send loop after a `sendmsg` of the whole buffer.  Its `iovec` is not
advanced, so every call offers the message from its start again. -/
def sendLoop (send : Nat) : WriteRet → Transfer
  | .fail .other => .done .kSendMsgError
  | .fail _ => .send send
  | .ret n =>
    if send + n < msgDataBufLen then .send (send + n)
    else if send + n ≠ msgDataBufLen then .done .kSendMsgError
    else .getReply

/-- Where the send loop stands after its `sendmsg` calls have given `rs`. -/
def sendLoopRun : Nat → List WriteRet → Transfer
  | send, [] => .send send
  | send, r :: rs =>
    match sendLoop send r with
    | .send send' => sendLoopRun send' rs
    | t => t

/-- A `sendmsg` of the buffer sends some of it or fails. -/
def sendFits : WriteRet → Bool
  | .ret n => 0 < n && n ≤ msgDataBufLen
  | .fail _ => true

@[simp] theorem sendLoop_whole : sendLoop 0 (.ret msgDataBufLen) = .getReply := rfl

/-- The send loop itself never reports success: `GetReply` comes first. -/
theorem sendLoop_ne_ok (send : Nat) (r : WriteRet) : sendLoop send r ≠ .done .kSendMsgOk := by
  unfold sendLoop
  split
  · simp
  · simp
  · split
    · simp
    · split <;> simp

/-! ## the receiver -/

/-- `msgType` of a request. -/
def msgTypeOf (requestStr : List UInt8) : Nat := Bytes.toNat (requestStr.take 4)

/-- The size of `msgReplyBuf`.  `makeCommonReply` sends that many bytes and
`GetReply` does not look at them. -/
def msgReplyLen : Nat := 8

/-! ## messages -/

@[simp] theorem length_transferMsg (msgType : MsgRequestType) {data : List UInt8}
    (h : 8 + data.length ≤ msgDataBufLen) :
    (transferMsg msgType data).length = msgDataBufLen := by
  simp only [transferMsg, List.length_append, Bytes.length_ofNat, List.length_replicate]
  omega

theorem length_transferData_le (msgType : MsgRequestType) :
    8 + (transferData msgType).length ≤ msgDataBufLen := by
  cases msgType <;> decide

@[simp] theorem length_msgDataBuf (msgType : MsgRequestType) :
    (msgDataBuf msgType).length = msgDataBufLen :=
  length_transferMsg msgType (length_transferData_le msgType)

/-- The receiver reads the type that was sent. -/
@[simp] theorem msgTypeOf_transferMsg (msgType : MsgRequestType) (data : List UInt8) :
    msgTypeOf (transferMsg msgType data) = msgType.code := by
  have htake : (transferMsg msgType data).take 4 = Bytes.ofNat 4 msgType.code := by
    rw [transferMsg, List.append_assoc, List.append_assoc]
    exact List.take_left' (Bytes.length_ofNat _ _)
  rw [msgTypeOf, htake]
  exact Bytes.toNat_ofNat (by cases msgType <;> decide)

@[simp] theorem msgTypeOf_msgDataBuf (msgType : MsgRequestType) :
    msgTypeOf (msgDataBuf msgType) = msgType.code :=
  msgTypeOf_transferMsg _ _

end SysDemos.HotUpgrade
