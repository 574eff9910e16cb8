import SysDemos.HotUpgrade.InetConn

/-!
# SysDemos.HotUpgrade.Receiver

One connection on which `GetRequest` is called again and again
(`hot_upgrade_demo/inet_conn.cc`), with the socket it reads from.

The client sends bytes and may shut down its sending side.  A `read` gives some of
the bytes that have arrived; which of the results that `Receiver.Answers` allows it
gives is up to the kernel.  `consumed` and `returns` are histories, which nothing
reads.
-/

namespace SysDemos.HotUpgrade

open InetConn (GetRequest)

/-- What a call of `GetRequest` has returned, with `reply` and the bytes read from the
socket by then. -/
structure Return where
  status : ReadStatus
  reply : List UInt8
  consumed : List UInt8
  deriving DecidableEq, Repr

/-- A connection and its socket. -/
structure Receiver where
  conn : InetConn
  /-- where a call of `GetRequest` waits, if one is being made -/
  call : Option GetRequest
  /-- bytes that have arrived and have not been read -/
  inbox : List UInt8
  /-- the client has shut down its sending side -/
  closed : Bool
  consumed : List UInt8
  returns : List Return
  deriving DecidableEq, Repr

namespace Receiver

/-- What can happen: the client sends, the client shuts down, `GetRequest` is called,
the `read` it waits for returns. -/
inductive Event where
  | send (bs : List UInt8)
  | shutdown
  | getRequest
  | read (r : ReadRet)
  deriving DecidableEq, Repr

/-- A new connection. -/
def start (fd : Int) : Receiver :=
  { conn := .create fd, call := none, inbox := [], closed := false, consumed := []
    returns := [] }

/-- The results a `read` of `count` bytes can have.  It returns 0 if nothing is asked
for or the stream is over, and `EAGAIN` if nothing is there; a count that is negative
as an `ssize_t` is refused. -/
def Answers (s : Receiver) (count : Nat) : ReadRet → Prop
  | .ret [] => count = 0 ∨ s.inbox = [] ∧ s.closed = true ∧ count < 2 ^ 63
  | .ret bs => bs <+: s.inbox ∧ bs.length ≤ count ∧ count < 2 ^ 63
  | .err .EAGAIN => 0 < count ∧ s.inbox = [] ∧ s.closed = false
  | .err _ => 0 < count

instance (s : Receiver) (count : Nat) (r : ReadRet) : Decidable (s.Answers count r) :=
  match r with
  | .ret [] => inferInstanceAs (Decidable (_ ∨ _))
  | .ret (_ :: _) => inferInstanceAs (Decidable (_ ∧ _))
  | .err .EAGAIN => inferInstanceAs (Decidable (_ ∧ _))
  | .err .EINTR => inferInstanceAs (Decidable (0 < count))
  | .err .other => inferInstanceAs (Decidable (0 < count))

/-- The bytes a `read` has returned. -/
def bytesOf : ReadRet → List UInt8
  | .ret bs => bs
  | .err _ => []

/-- A `read` has returned, which leaves the connection as `c`. -/
def took (s : Receiver) (r : ReadRet) (c : InetConn) : Receiver :=
  { s with conn := c, inbox := s.inbox.drop (bytesOf r).length
           consumed := s.consumed ++ bytesOf r }

/-- `GetRequest` has stopped at a `read` or returned. -/
def proceed (s : Receiver) : GetRequest → Receiver
  | .done rs =>
    { s with call := none
             returns := s.returns ++
               [{ status := rs, reply := s.conn.reply, consumed := s.consumed }] }
  | g => { s with call := some g }

/-- A step of the connection. -/
def step (s : Receiver) : Event → Option Receiver
  | .send bs => if s.closed = true then none else some { s with inbox := s.inbox ++ bs }
  | .shutdown => some { s with closed := true }
  | .getRequest => if s.call = none then some (s.proceed s.conn.getRequest) else none
  | .read r =>
    match s.call with
    | some .header =>
      if s.Answers s.conn.headerCount r then
        some ((s.took r (s.conn.onHeader r).1).proceed (s.conn.onHeader r).2)
      else none
    | some .payload =>
      if s.Answers s.conn.payloadCount r then
        some ((s.took r (s.conn.onPayload r).1).proceed (.done (s.conn.onPayload r).2))
      else none
    | _ => none

/-- The status that the last call has returned. -/
def last (s : Receiver) : Option ReadStatus := s.returns.getLast?.map (·.status)

/-! ## what a step can do -/

variable {s s' : Receiver} {e : Event} {rs : ReadStatus}

/-- The steps, with what enables each of them. -/
inductive Step (s : Receiver) : Event → Receiver → Prop
  | send {bs : List UInt8} : s.closed = false → Step s (.send bs) { s with inbox := s.inbox ++ bs }
  | shutdown : Step s .shutdown { s with closed := true }
  | getRequest : s.call = none → Step s .getRequest (s.proceed s.conn.getRequest)
  | header {r : ReadRet} : s.call = some .header → s.Answers s.conn.headerCount r →
      Step s (.read r) ((s.took r (s.conn.onHeader r).1).proceed (s.conn.onHeader r).2)
  | payload {r : ReadRet} : s.call = some .payload → s.Answers s.conn.payloadCount r →
      Step s (.read r) ((s.took r (s.conn.onPayload r).1).proceed (.done (s.conn.onPayload r).2))

theorem step_cases (hs : s.step e = some s') : Step s e s' := by
  cases e with
  | send bs =>
      obtain ⟨hopen, ⟨⟩⟩ := Option.ite_none_left_eq_some.mp hs
      exact .send (by simpa using hopen)
  | shutdown =>
      cases hs
      exact .shutdown
  | getRequest =>
      obtain ⟨hcall, ⟨⟩⟩ := Option.ite_none_right_eq_some.mp hs
      exact .getRequest hcall
  | read r =>
      simp only [step] at hs
      split at hs
      · next hcall =>
          obtain ⟨hr, ⟨⟩⟩ := Option.ite_none_right_eq_some.mp hs
          exact .header hcall hr
      · next hcall =>
          obtain ⟨hr, ⟨⟩⟩ := Option.ite_none_right_eq_some.mp hs
          exact .payload hcall hr
      · contradiction

/-- A `read` returns the first of the bytes that are there. -/
theorem Answers.isPrefix {count : Nat} {r : ReadRet} (h : s.Answers count r) :
    bytesOf r <+: s.inbox := by
  cases r with
  | err e => exact List.nil_prefix
  | ret bs =>
      cases bs with
      | nil => exact List.nil_prefix
      | cons b bs => exact h.1

/-- A `read` that returns bytes has been asked for them. -/
theorem Answers.of_ne_nil {count : Nat} {bs : List UInt8} (h : s.Answers count (.ret bs))
    (hne : bs ≠ []) : bs <+: s.inbox ∧ bs.length ≤ count ∧ count < 2 ^ 63 := by
  cases bs with
  | nil => contradiction
  | cons b bs => exact h

/-- A `read` that fails has been asked for something. -/
theorem Answers.pos_of_err {count : Nat} {errno : Errno} (h : s.Answers count (.err errno)) :
    0 < count := by
  cases errno with
  | EAGAIN => exact h.1
  | EINTR => exact h
  | other => exact h

/-- A `read` of some bytes returns 0 at the end of the stream only. -/
theorem Answers.of_nil {count : Nat} (h : s.Answers count (.ret [])) (hpos : count ≠ 0) :
    s.inbox = [] ∧ s.closed = true := by
  obtain hzero | ⟨hinbox, hclosed, -⟩ := h
  · exact absurd hzero hpos
  · exact ⟨hinbox, hclosed⟩

@[simp] theorem last_done : (s.proceed (.done rs)).last = some rs := by
  simp [proceed, last]

end Receiver

end SysDemos.HotUpgrade
