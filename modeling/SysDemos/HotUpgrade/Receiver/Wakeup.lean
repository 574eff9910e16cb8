import SysDemos.HotUpgrade.Receiver.Bounds
import SysDemos.HotUpgrade.Server

/-!
# SysDemos.HotUpgrade.Receiver.Wakeup

A session in the event loop of `server.cc`: its registration with epoll, the event that
may be pending for it, and `handle_net_event`.

A session is registered for edge-triggered input, both by `main` after an accept and by
`HandleSessionFdMsg`; the first `ModEvent` makes it level-triggered.  An edge is remembered
by a flag that the fetching of the event clears; whether a level-triggered event is pending
is read off the socket.  A `read` returns as much as is there and has been asked for.

`GetRequest` does not read until `EAGAIN`.  It returns `kReadHalf` only when a `read` has
returned less than it asked for, though, so that the socket is empty then
(`Receiver.drained_of_half`).

* `no_lost_wakeup` — bytes that wait for a session which waits for input have an event.
-/

namespace SysDemos.HotUpgrade

open InetConn (GetRequest)
open Lts

/-- Where the handling of a session's event stands: nothing is to be done; the event has been
fetched; `GetRequest` waits for a `read`; `SendReply` waits for its `write`. -/
inductive Handling where
  | idle
  | fetched (mask : Mask)
  | request
  | reply
  deriving DecidableEq, Repr

/-- A session with its registration. -/
structure Watched where
  rcv : Receiver
  interest : Interest
  /-- an edge that has not been fetched -/
  edge : Bool
  handling : Handling
  isOpen : Bool
  deriving DecidableEq, Repr

/-- There is data, or the end of the stream. -/
def Receiver.ready (s : Receiver) : Bool := s.inbox ≠ [] || s.closed

/-- The result of a `read` that returns all it can. -/
def Receiver.readAll (s : Receiver) (count : Nat) : ReadRet :=
  if 2 ^ 63 ≤ count then .err .other
  else if s.inbox ≠ [] then .ret (s.inbox.take count)
  else if s.closed = true ∨ count = 0 then .ret []
  else .err .EAGAIN

namespace Watched

/-- What can happen to a session. -/
inductive Event where
  /-- data arrives -/
  | arrive (bs : List UInt8)
  /-- the end of the stream arrives -/
  | finish
  /-- `epoll_wait` reports an event -/
  | fetch (mask : Mask)
  /-- `handle_net_event` is called, in a server that hands over its sessions or not -/
  | dispatch (handOver : Bool)
  /-- the `read` of `GetRequest` returns -/
  | read
  /-- the `write` of `SendReply` returns -/
  | write (r : WriteRet)
  deriving DecidableEq, Repr

/-- A session that has just been registered, with what its socket has received by then. -/
def register (fd : Int) (inbox : List UInt8) (closed : Bool) : Watched :=
  let rcv := { Receiver.start fd with inbox := inbox, closed := closed }
  { rcv := rcv, interest := { epollin := true, epollet := true }, edge := rcv.ready
    handling := .idle, isOpen := true }

/-- An event is pending; a socket is always ready for output. -/
def pending (s : Watched) : Bool :=
  if s.interest.epollet then s.edge
  else (s.interest.epollin && s.rcv.ready) || s.interest.epollout

/-- Something arrives, which is an edge for a registration for edge-triggered input. -/
def arrived (s : Watched) (rcv : Receiver) : Watched :=
  { s with rcv := rcv, edge := s.edge || (s.interest.epollin && s.interest.epollet) }

/-- `ModEvent`. -/
def modEvent (s : Watched) (m : Interest) : Watched :=
  { s with interest := m, edge := m.epollin && m.epollet && s.rcv.ready }

/-- `handle_net_event` has returned 0. -/
def idle (s : Watched) : Watched := { s with handling := .idle }

/-- `handle_net_event` has returned `-1`, and `main` has closed the session. -/
def drop (s : Watched) : Watched := { s with handling := .idle, isOpen := false }

/-- `handle_net_event` once `GetRequest` has stopped at a `read` or returned. -/
def afterGetRequest (s : Watched) (rcv : Receiver) : Watched :=
  let s := { s with rcv := rcv }
  match rcv.call with
  | some _ => { s with handling := .request }
  | none =>
    match rcv.last with
    | some .kReadAll => (s.modEvent { epollout := true }).idle
    | some .kReadHalf => s.idle
    | _ => s.drop

/-- `handle_net_event` once `SendReply` has returned. -/
def afterSendReply (s : Watched) : WriteStatus → Watched
  | .kWriteAll => (s.modEvent { epollin := true }).idle
  | .kWriteHalf => s.idle
  | .kWriteError => s.drop

/-- `handle_net_event`, up to its first system call.  The hand-over of a session ends with its
local descriptor closed. -/
def handleNetEvent (s : Watched) (mask : Mask) (handOver : Bool) : Option Watched :=
  if mask.epollerr = true ∨ mask.epollhup = true then some s.drop
  else if mask.epollin = true ∧ s.rcv.conn.emptyReadBuf = true ∧ handOver = true then some s.drop
  else if mask.epollin = true then (s.rcv.step .getRequest).map s.afterGetRequest
  else if mask.epollout = true then some { s with handling := .reply }
  else some s.idle

/-- The events `epoll_wait` can report. -/
def Fires (s : Watched) (mask : Mask) : Prop :=
  (s.pending = true ∧ (mask.epollin = true ∨ mask.epollout = true) ∨
      mask.epollerr = true ∨ mask.epollhup = true) ∧
    (mask.epollin = true → s.interest.epollin = true) ∧
    (mask.epollout = true → s.interest.epollout = true)

instance (s : Watched) (mask : Mask) : Decidable (s.Fires mask) :=
  inferInstanceAs (Decidable (_ ∧ _ ∧ _))

/-- A step of the session. -/
def step (s : Watched) : Event → Option Watched
  | .arrive bs => if bs = [] then none else (s.rcv.step (.send bs)).map s.arrived
  | .finish => if s.rcv.closed = true then none else (s.rcv.step .shutdown).map s.arrived
  | .fetch mask =>
    if s.isOpen = true ∧ s.handling = .idle ∧ s.Fires mask then
      some { s with handling := .fetched mask, edge := false }
    else none
  | .dispatch handOver =>
    match s.handling with
    | .fetched mask => s.handleNetEvent mask handOver
    | _ => none
  | .read =>
    match s.handling, s.rcv.asks with
    | .request, some count =>
      (s.rcv.step (.read (s.rcv.readAll count))).map s.afterGetRequest
    | _, _ => none
  | .write r =>
    if s.handling = .reply ∧ writeFits s.rcv.conn.unsent.length r then
      some ({ s with rcv := { s.rcv with conn := (s.rcv.conn.sendReply r).1 } }.afterSendReply
        (s.rcv.conn.sendReply r).2)
    else none

end Watched

/-! ## a short `read` has emptied the socket -/

namespace Receiver

variable {s s' : Receiver}

/-- A `read` that returns less than it has been asked for leaves nothing in the socket. -/
theorem drop_readAll {count : Nat} (hcount : s.readAll count ≠ .err .other)
    (h : (bytesOf (s.readAll count)).length < count) :
    s.inbox.drop (bytesOf (s.readAll count)).length = [] := by
  unfold readAll at h hcount ⊢
  split
  · next hhuge => exact absurd (if_pos hhuge) hcount
  · next hhuge =>
      rw [if_neg hhuge] at h
      split
      · next hne =>
          rw [if_pos hne] at h
          simp only [bytesOf, List.length_take] at h ⊢
          exact List.drop_of_length_le (by omega)
      · next hnil =>
          rw [not_not.mp hnil]
          exact List.drop_nil

/-- The status of a call that has returned. -/
theorem eq_done_of_last {g : GetRequest} {rs : ReadStatus} (hcall : (s.proceed g).call = none)
    (hlast : (s.proceed g).last = some rs) : g = .done rs := by
  cases g with
  | header => exact nomatch hcall
  | payload => exact nomatch hcall
  | done rs' =>
      rw [last_done, Option.some.injEq] at hlast
      rw [hlast]

theorem short_of_header_half {r : ReadRet} (h : Inv s) (hcall : s.call = some .header)
    (hr : s.Answers s.conn.headerCount r) (hhalf : (s.conn.onHeader r).2 = .done .kReadHalf) :
    (bytesOf r).length < s.conn.headerCount := by
  have hpos := h.header hcall
  have hcount : 0 < s.conn.headerCount := Nat.sub_pos_of_lt hpos
  cases r with
  | err e => exact hcount
  | ret bs =>
      by_cases hne : bs = []
      · rw [hne]
        exact hcount
      · rw [(h.conn.onHeader hpos (hr.of_ne_nil hne).2.1 hne).2] at hhalf
        dsimp only at hhalf
        split at hhalf
        · next hlt =>
            simp only [InetConn.store] at hlt
            simp only [bytesOf, InetConn.headerCount]
            omega
        · exact absurd (InetConn.eq_full_of_checkLength hhalf) (by decide)

theorem short_of_payload_half {r : ReadRet} (h : Inv s) (hcall : s.call = some .payload)
    (hr : s.Answers s.conn.payloadCount r) (hhalf : (s.conn.onPayload r).2 = .kReadHalf) :
    (bytesOf r).length < s.conn.payloadCount := by
  obtain ⟨hpos, hcheck⟩ := h.payload hcall
  cases r with
  | err e => exact hr.pos_of_err
  | ret bs =>
      by_cases hne : bs = []
      · subst hne
        exact nomatch hhalf
      · obtain ⟨-, hlen, hcount⟩ := hr.of_ne_nil hne
        obtain ⟨hfits, ⟨-, -, hlt⟩ | ⟨heq, -⟩⟩ := h.conn.onPayload hpos hcheck hlen hcount hne
        · simp only [InetConn.store] at hlt
          have hcountEq := InetConn.payloadCount_of_fits hfits (by omega)
          simp only [bytesOf]
          omega
        · rw [heq] at hhalf
          contradiction

/-- A call that returns `kReadHalf` has emptied the socket. -/
theorem drained_of_half (h : Inv s) {count : Nat} (hasks : s.asks = some count)
    (hs : s.step (.read (s.readAll count)) = some s') (hcall' : s'.call = none)
    (hlast : s'.last = some .kReadHalf) : s'.inbox = [] := by
  have hinbox : ∀ c rs, ((s.took (s.readAll count) c).proceed (.done rs)).inbox =
      s.inbox.drop (bytesOf (s.readAll count)).length := fun _ _ => rfl
  cases step_cases hs with
  | header hcall hr =>
      have hcount : s.conn.headerCount = count := by simpa [asks, hcall] using hasks
      have hhalf := eq_done_of_last hcall' hlast
      have hshort := short_of_header_half h hcall hr hhalf
      rw [hhalf, hinbox]
      refine drop_readAll (fun herr => ?_) (hcount ▸ hshort)
      rw [herr] at hhalf
      exact nomatch GetRequest.done.inj hhalf
  | payload hcall hr =>
      have hcount : s.conn.payloadCount = count := by simpa [asks, hcall] using hasks
      have hhalf := GetRequest.done.inj (eq_done_of_last hcall' hlast)
      have hshort := short_of_payload_half h hcall hr hhalf
      rw [hinbox]
      refine drop_readAll (fun herr => ?_) (hcount ▸ hshort)
      rw [herr] at hhalf
      contradiction

/-- A call that returns before it reads has refused the header. -/
theorem full_of_getRequest (hs : s.step .getRequest = some s') (hcall : s'.call = none) :
    s'.last = some .kFullError := by
  cases step_cases hs with
  | getRequest =>
      cases hg : s.conn.getRequest with
      | header =>
          rw [hg] at hcall
          contradiction
      | payload =>
          rw [hg] at hcall
          contradiction
      | done rs => rw [last_done, InetConn.eq_full_of_getRequest hg]

/-- `SendReply` does not change what has been read. -/
theorem sendReply_readBuf (conn : InetConn) (r : WriteRet) :
    (conn.sendReply r).1.lastReadPos = conn.lastReadPos ∧
      (conn.sendReply r).1.readBuf = conn.readBuf := by
  unfold InetConn.sendReply
  split
  · exact ⟨rfl, rfl⟩
  · exact ⟨rfl, rfl⟩
  · split <;> exact ⟨rfl, rfl⟩

theorem Inv.sendReply (h : Inv s) (r : WriteRet) :
    Inv { s with conn := (s.conn.sendReply r).1 } := by
  obtain ⟨hpos, hbuf⟩ := sendReply_readBuf s.conn r
  have hreq : (s.conn.sendReply r).1.requestLen = s.conn.requestLen := by
    rw [InetConn.requestLen, hbuf]
    rfl
  have hcheck : (s.conn.sendReply r).1.checkLength = s.conn.checkLength := by
    rw [InetConn.checkLength, hreq]
    rfl
  refine ⟨⟨?_, ?_⟩, ?_, ?_, h.running, ?_, ?_⟩
  · rw [hpos, hbuf]
    exact h.conn.buf
  · rw [hpos, hreq]
    exact h.conn.within
  · rw [hpos]
    exact h.header
  · rw [hpos, hcheck]
    exact h.payload
  · rw [hpos, hcheck]
    exact h.full
  · rw [hreq]
    exact h.built

end Receiver

/-! ## sessions -/

namespace Watched

variable {s s' : Watched} {e : Event}

/-- The steps, with what enables each of them. -/
inductive Step (s : Watched) : Event → Watched → Prop
  | arrive {bs : List UInt8} {rcv : Receiver} : bs ≠ [] → s.rcv.step (.send bs) = some rcv →
      Step s (.arrive bs) (s.arrived rcv)
  | finish {rcv : Receiver} : s.rcv.closed = false → s.rcv.step .shutdown = some rcv →
      Step s .finish (s.arrived rcv)
  | fetch {mask : Mask} : s.isOpen = true → s.handling = .idle → s.Fires mask →
      Step s (.fetch mask) { s with handling := .fetched mask, edge := false }
  | drop {mask : Mask} {handOver : Bool} : s.handling = .fetched mask →
      Step s (.dispatch handOver) s.drop
  | getRequest {mask : Mask} {handOver : Bool} {rcv : Receiver} : s.handling = .fetched mask →
      mask.epollin = true → s.rcv.step .getRequest = some rcv →
      Step s (.dispatch handOver) (s.afterGetRequest rcv)
  | reply {mask : Mask} {handOver : Bool} : s.handling = .fetched mask →
      mask.epollerr = false ∧ mask.epollhup = false ∧ mask.epollin = false →
      mask.epollout = true → Step s (.dispatch handOver) { s with handling := .reply }
  | nothing {mask : Mask} {handOver : Bool} : s.handling = .fetched mask →
      mask.epollerr = false ∧ mask.epollhup = false ∧ mask.epollin = false →
      Step s (.dispatch handOver) s.idle
  | read {count : Nat} {rcv : Receiver} : s.handling = .request → s.rcv.asks = some count →
      s.rcv.step (.read (s.rcv.readAll count)) = some rcv → Step s .read (s.afterGetRequest rcv)
  | write {r : WriteRet} : s.handling = .reply → writeFits s.rcv.conn.unsent.length r = true →
      Step s (.write r)
        ({ s with rcv := { s.rcv with conn := (s.rcv.conn.sendReply r).1 } }.afterSendReply
          (s.rcv.conn.sendReply r).2)

theorem step_dispatch {mask : Mask} {handOver : Bool} (hfetched : s.handling = .fetched mask)
    (hs : s.handleNetEvent mask handOver = some s') : Step s (.dispatch handOver) s' := by
  unfold Watched.handleNetEvent at hs
  split at hs
  · cases hs
    exact .drop hfetched
  · next herr =>
      split at hs
      · cases hs
        exact .drop hfetched
      · split at hs
        · next hin =>
            obtain ⟨rcv, hrcv, rfl⟩ := Option.map_eq_some_iff.mp hs
            exact .getRequest hfetched hin hrcv
        · next hin =>
            rw [not_or, Bool.not_eq_true, Bool.not_eq_true] at herr
            have hnone : mask.epollerr = false ∧ mask.epollhup = false ∧ mask.epollin = false :=
              ⟨herr.1, herr.2, Bool.not_eq_true _ ▸ hin⟩
            split at hs
            · next hout =>
                cases hs
                exact .reply hfetched hnone hout
            · cases hs
              exact .nothing hfetched hnone

theorem step_cases (hs : s.step e = some s') : Step s e s' := by
  cases e with
  | arrive bs =>
      obtain ⟨hne, hs⟩ := Option.ite_none_left_eq_some.mp hs
      obtain ⟨rcv, hrcv, rfl⟩ := Option.map_eq_some_iff.mp hs
      exact .arrive hne hrcv
  | finish =>
      obtain ⟨hopen, hs⟩ := Option.ite_none_left_eq_some.mp hs
      obtain ⟨rcv, hrcv, rfl⟩ := Option.map_eq_some_iff.mp hs
      exact .finish (by simpa using hopen) hrcv
  | fetch mask =>
      obtain ⟨⟨hopen, hidle, hfires⟩, ⟨⟩⟩ := Option.ite_none_right_eq_some.mp hs
      exact .fetch hopen hidle hfires
  | dispatch handOver =>
      simp only [Watched.step] at hs
      split at hs
      · next hfetched => exact step_dispatch hfetched hs
      · contradiction
  | read =>
      simp only [Watched.step] at hs
      split at hs
      · next hrequest hasks =>
          obtain ⟨rcv, hrcv, rfl⟩ := Option.map_eq_some_iff.mp hs
          exact .read hrequest hasks hrcv
      · contradiction
  | write r =>
      obtain ⟨⟨hreply, hfits⟩, ⟨⟩⟩ := Option.ite_none_right_eq_some.mp hs
      exact .write hreply hfits

/-- Between two steps.  With edge-triggered input registered, bytes that wait while nothing is
being done for the session have left an edge. -/
structure Awake (s : Watched) : Prop where
  rcv : s.rcv.Inv
  input : s.interest.epollet = true → s.interest.epollin = true ∧ s.interest.epollout = false
  fetched : ∀ mask, s.handling = .fetched mask → s.interest.epollet = true →
    mask.epollin = true ∨ mask.epollerr = true ∨ mask.epollhup = true
  writing : s.handling = .reply → s.interest.epollet = false
  edge : s.isOpen = true → s.interest.epollet = true → s.handling = .idle → s.rcv.inbox ≠ [] →
    s.edge = true

/-- A session registered for level-triggered events. -/
theorem awake_of_level (hrcv : s.rcv.Inv) (hlevel : s.interest.epollet = false) : Awake s := by
  refine ⟨hrcv, ?_, fun _ _ => ?_, fun _ => hlevel, fun _ => ?_⟩ <;> simp [hlevel]

/-- A session that has been closed. -/
theorem Awake.drop (h : Awake s) : Awake s.drop :=
  ⟨h.rcv, h.input, nofun, nofun, nofun⟩

/-- `GetRequest` has stopped or returned. -/
theorem Awake.afterGetRequest (h : Awake s) {rcv : Receiver} (hrcv : rcv.Inv)
    (hhalf : rcv.call = none → rcv.last = some .kReadHalf → rcv.inbox = []) :
    Awake (s.afterGetRequest rcv) := by
  unfold Watched.afterGetRequest
  dsimp only
  split
  · exact ⟨hrcv, h.input, nofun, nofun, nofun⟩
  · next hcall =>
      split
      · exact awake_of_level hrcv rfl
      · next hlast =>
          exact ⟨hrcv, h.input, nofun, nofun, fun _ _ _ hne => absurd (hhalf hcall hlast) hne⟩
      · exact ⟨hrcv, h.input, nofun, nofun, nofun⟩

/-- Something arrives. -/
theorem Awake.arrived (h : Awake s) {rcv : Receiver} (hrcv : rcv.Inv) : Awake (s.arrived rcv) := by
  refine ⟨hrcv, h.input, h.fetched, h.writing, fun _ het _ _ => ?_⟩
  have hin := (h.input het).1
  simp only [Watched.arrived] at het hin ⊢
  rw [het, hin, Bool.and_self, Bool.or_true]

/-- An event without input is not one of an edge-triggered registration. -/
theorem Awake.level_of_no_input (h : Awake s) {mask : Mask} (hfetched : s.handling = .fetched mask)
    (hnone : mask.epollerr = false ∧ mask.epollhup = false ∧ mask.epollin = false) :
    s.interest.epollet = false := by
  by_contra het
  have hmask := h.fetched mask hfetched (by simpa using het)
  simp [hnone] at hmask

theorem Awake.step (h : Awake s) (hs : Step s e s') : Awake s' := by
  cases hs with
  | arrive _ hrcv => exact h.arrived (h.rcv.step (Receiver.step_cases hrcv))
  | finish _ hrcv => exact h.arrived (h.rcv.step (Receiver.step_cases hrcv))
  | fetch _ _ hfires =>
      obtain ⟨hfires, -, hout⟩ := hfires
      refine ⟨h.rcv, h.input, fun mask' heq het => ?_, nofun, nofun⟩
      cases heq
      obtain ⟨-, hin | hout'⟩ | herr := hfires
      · exact .inl hin
      · have hnot := (h.input het).2
        rw [hout hout'] at hnot
        contradiction
      · exact .inr herr
  | drop => exact h.drop
  | getRequest _ _ hrcv =>
      refine h.afterGetRequest (h.rcv.step (Receiver.step_cases hrcv)) fun hcall hlast => ?_
      rw [Receiver.full_of_getRequest hrcv hcall] at hlast
      contradiction
  | reply hfetched hnone => exact awake_of_level h.rcv (h.level_of_no_input hfetched hnone)
  | nothing hfetched hnone => exact awake_of_level h.rcv (h.level_of_no_input hfetched hnone)
  | read _ hasks hrcv =>
      exact h.afterGetRequest (h.rcv.step (Receiver.step_cases hrcv))
        (Receiver.drained_of_half h.rcv hasks hrcv)
  | @write r hreply =>
      have hrcv := h.rcv.sendReply r
      have hlevel := h.writing hreply
      cases (s.rcv.conn.sendReply r).2 with
      | kWriteAll => exact awake_of_level hrcv rfl
      | kWriteHalf => exact awake_of_level hrcv hlevel
      | kWriteError => exact awake_of_level hrcv hlevel

theorem awake_register (fd : Int) (inbox : List UInt8) (closed : Bool) :
    Awake (register fd inbox closed) := by
  refine ⟨?_, fun _ => ⟨rfl, rfl⟩, nofun, nofun, fun _ _ _ hne => ?_⟩
  · have hstart := Receiver.inv_start fd
    exact ⟨hstart.conn, hstart.header, hstart.payload, hstart.running, hstart.full, hstart.built⟩
  · simp only [register, Receiver.ready] at hne ⊢
    simp [hne]

/-- **No lost wake-up**: whenever a session is open, registered for input and nothing is being
done for it, and its socket holds bytes, an event for it is pending. -/
theorem no_lost_wakeup (fd : Int) (inbox : List UInt8) (closed : Bool) (events : List Event)
    (s : Watched) (hrun : Run step any (register fd inbox closed) events s)
    (hopen : s.isOpen = true) (hinput : s.interest.epollin = true) (hidle : s.handling = .idle)
    (hbytes : s.rcv.inbox ≠ []) : s.pending = true := by
  have hawake : Awake s := Run.inv (I := Awake) (awake_register fd inbox closed)
    (fun _ _ _ h _ hs => h.step (step_cases hs)) hrun
  unfold pending
  split
  · next het => exact hawake.edge hopen het hidle hbytes
  · simp [hinput, Receiver.ready, hbytes]

/-- A header that arrives in two parts. -/
def twoParts : List Event :=
  [.arrive [2, 0], .fetch { epollin := true }, .dispatch false, .read, .arrive [0, 0, 97, 98]]

/-- After the first part the socket is empty, and the second is an edge again. -/
theorem no_lost_wakeup_second_part : ∃ s : Watched,
    Run step any (register 4 [] false) twoParts s ∧
    s.rcv.inbox = [0, 0, 97, 98] ∧ s.rcv.conn.lastReadPos = 2 ∧ s.pending = true := by
  have hexec : (exec step (fun _ _ => true) (register 4 [] false) twoParts).map
      (fun s => (s.rcv.inbox, s.rcv.conn.lastReadPos, s.isOpen, s.interest.epollin, s.handling)) =
        some ([0, 0, 97, 98], 2, true, true, .idle) := by decide +kernel
  obtain ⟨s, hrun, hobs⟩ := exists_run_of_exec _ _ hexec
  simp only [Prod.mk.injEq] at hobs
  obtain ⟨hinbox, hpos, hopen, hinput, hidle⟩ := hobs
  exact ⟨s, hrun.toAny, hinbox, hpos, no_lost_wakeup 4 [] false _ s hrun.toAny hopen hinput
    hidle (by rw [hinbox]; decide)⟩

end Watched

end SysDemos.HotUpgrade
