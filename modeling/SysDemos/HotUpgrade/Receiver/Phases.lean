import SysDemos.HotUpgrade.Receiver.Wakeup
import SysDemos.HotUpgrade.Session

/-!
# SysDemos.HotUpgrade.Receiver.Phases

The two phases of a session: it reads a request, or it writes the reply.

Four fields of the connection and its registration with epoll change in different functions.  Here
they are compared with the stream itself: `unframe` cuts the bytes that have been read into frames,
and `written` is what has been written to the socket.  A `read` may return any result that
`Receiver.Answers` allows, and a `write` may be short.  Lengths are those of any stream; a header
with a negative length begins no frame.  A session whose descriptor came over the unix socket
begins here too: its stream is what follows the hand-over.

* `session_phases` — between events a session is in exactly one of the phases, and whenever it is
  handed over the bytes read are whole frames and the replies to them have been written.
-/

namespace SysDemos.HotUpgrade

open InetConn (GetRequest)
open Lts

/-! ## frames of a stream -/

/-- The length that a header declares. -/
def declared (bs : List UInt8) : Int := Bytes.toInt (bs.take headerLen)

/-- The bytes begin with a whole frame. -/
def HasFrame (bs : List UInt8) : Prop :=
  headerLen ≤ bs.length ∧ 0 ≤ declared bs ∧ headerLen + declared bs ≤ bs.length

instance (bs : List UInt8) : Decidable (HasFrame bs) := inferInstanceAs (Decidable (_ ∧ _ ∧ _))

/-- The payloads of the frames of a stream, and what follows the last of them. -/
def unframe (bs : List UInt8) : List (List UInt8) × List UInt8 :=
  if HasFrame bs then
    let n := (declared bs).toNat
    let rest := unframe (bs.drop (headerLen + n))
    ((bs.drop headerLen).take n :: rest.1, rest.2)
  else ([], bs)
termination_by bs.length
decreasing_by
  next h =>
    have hheader : headerLen = 4 := rfl
    have hlen := h.1
    rw [List.length_drop]
    omega

theorem unframe_of_not {bs : List UInt8} (h : ¬ HasFrame bs) : unframe bs = ([], bs) := by
  rw [unframe, if_neg h]

theorem unframe_frame {payload : List UInt8} (h : payload.length ≤ System.maxPayload)
    (rest : List UInt8) :
    unframe (frame payload ++ rest) = (payload :: (unframe rest).1, (unframe rest).2) := by
  have hmax : System.maxPayload = 1048572 := rfl
  have hdeclared : declared (frame payload ++ rest) = payload.length := by
    rw [declared, List.take_append_of_le_length (by simp), take_frame]
    exact Bytes.toInt_ofNat (by rw [show 256 ^ headerLen = 4294967296 from rfl]; omega)
  have hhas : HasFrame (frame payload ++ rest) := by
    rw [HasFrame, hdeclared, List.length_append, length_frame]
    omega
  have hnext : (frame payload ++ rest).drop (headerLen + payload.length) = rest := by
    rw [← length_frame, List.drop_left]
  have hpayload : ((frame payload ++ rest).drop headerLen).take payload.length = payload := by
    rw [List.drop_append_of_le_length (by simp), drop_frame, List.take_left]
  rw [unframe, if_pos hhas]
  simp only [hdeclared, Int.toNat_natCast, hnext, hpayload]

/-- Whole frames and the beginning of another. -/
theorem unframe_frames {payloads : List (List UInt8)} {part : List UInt8}
    (hsizes : ∀ payload ∈ payloads, payload.length ≤ System.maxPayload) (hpart : ¬ HasFrame part) :
    unframe (payloads.flatMap frame ++ part) = (payloads, part) := by
  induction payloads with
  | nil => exact unframe_of_not hpart
  | cons payload payloads ih =>
      rw [List.flatMap_cons, List.append_assoc, unframe_frame (hsizes payload List.mem_cons_self),
        ih fun p hp => hsizes p (List.mem_cons_of_mem _ hp)]

theorem not_hasFrame_nil : ¬ HasFrame [] := fun h => absurd h.1 (by decide)

/-! ## sessions -/

/-- A session and what has been written to its socket. -/
structure Exchange where
  session : Watched
  written : List UInt8
  deriving DecidableEq, Repr

namespace Exchange

/-- What can happen: an event of the session, or a `read` of `GetRequest` with any result. -/
inductive Event where
  | session (e : Watched.Event)
  | read (r : ReadRet)
  deriving DecidableEq, Repr

/-- A session that has just been registered. -/
def start (fd : Int) (inbox : List UInt8) (closed : Bool) : Exchange :=
  { session := .register fd inbox closed, written := [] }

/-- The bytes that an event writes to the socket. -/
def wrote (w : Watched) : Watched.Event → List UInt8
  | .write (.ret n) => w.rcv.conn.unsent.take n
  | _ => []

/-- A step of the session. -/
def step (s : Exchange) : Event → Option Exchange
  | .session e =>
    (s.session.step e).map fun w => { session := w, written := s.written ++ wrote s.session e }
  | .read r =>
    if s.session.handling = .request then
      (s.session.rcv.step (.read r)).map fun rcv =>
        { s with session := s.session.afterGetRequest rcv }
    else none

/-- The session reads a request: all the replies have been written, and `last_read_pos_` counts the
bytes behind the last frame. -/
structure ReadingPhase (s : Exchange) : Prop where
  interest : s.session.interest.epollin = true ∧ s.session.interest.epollout = false
  reply : s.session.rcv.conn.reply = []
  lastWritePos : s.session.rcv.conn.lastWritePos = 0
  lastReadPos : s.session.rcv.conn.lastReadPos = (unframe s.session.rcv.consumed).2.length
  written : s.written = (unframe s.session.rcv.consumed).1.flatten

/-- The session writes the reply to the last frame, and has written the first `last_write_pos_`
bytes of it. -/
structure WritingPhase (s : Exchange) : Prop where
  interest : s.session.interest.epollin = false ∧ s.session.interest.epollout = true
  lastReadPos : s.session.rcv.conn.lastReadPos = 0
  lastWritePos : s.session.rcv.conn.lastWritePos < s.session.rcv.conn.reply.length
  written : ∃ answered,
    unframe s.session.rcv.consumed = (answered ++ [s.session.rcv.conn.reply], []) ∧
      s.written =
        answered.flatten ++ s.session.rcv.conn.reply.take s.session.rcv.conn.lastWritePos

/-- `handle_net_event` is about to call `TransferSessionFd`, if there is a `unix_client`. -/
def HandsOver (s : Exchange) (mask : Mask) : Prop :=
  s.session.handling = .fetched mask ∧ mask.epollerr = false ∧ mask.epollhup = false ∧
    mask.epollin = true ∧ s.session.rcv.conn.emptyReadBuf = true

/-! ## the invariant -/

/-- Reading: `payloads` are the frames read, and `part` of the next one is in `read_buf_`. -/
structure Reads (payloads : List (List UInt8)) (part : List UInt8) (conn : InetConn)
    (consumed : List UInt8) (interest : Interest) (written : List UInt8) : Prop where
  sizes : ∀ payload ∈ payloads, payload.length ≤ System.maxPayload
  stream : consumed = payloads.flatMap frame ++ part
  buffer : Reading conn part
  reply : conn.reply = []
  registered : interest.epollin = true ∧ interest.epollout = false
  answered : written = payloads.flatten

/-- Writing: `payloads` are the frames answered. -/
structure Writes (payloads : List (List UInt8)) (conn : InetConn) (consumed : List UInt8)
    (interest : Interest) (written : List UInt8) : Prop where
  sizes : ∀ payload ∈ payloads ++ [conn.reply], payload.length ≤ System.maxPayload
  stream : consumed = (payloads ++ [conn.reply]).flatMap frame
  lastReadPos : conn.lastReadPos = 0
  lastWritePos : conn.lastWritePos < conn.reply.length
  registered : interest.epollin = false ∧ interest.epollout = true
  answered : written = payloads.flatten ++ conn.reply.take conn.lastWritePos

/-- What is done for a session that reads. -/
def TakesInput (part : List UInt8) : Handling → Prop
  | .idle => ¬ HasFrame part
  | .fetched mask => mask.epollout = false ∧ ¬ HasFrame part
  | .request => True
  | .reply => False

/-- What is done for a session that writes. -/
def TakesOutput : Handling → Prop
  | .idle => True
  | .fetched mask => mask.epollin = false
  | .request => False
  | .reply => True

/-- An open session reads or writes. -/
inductive Phased (w : Watched) (written : List UInt8) : Prop
  | reads (payloads : List (List UInt8)) (part : List UInt8) :
      Reads payloads part w.rcv.conn w.rcv.consumed w.interest written →
        TakesInput part w.handling → Phased w written
  | writes (payloads : List (List UInt8)) :
      Writes payloads w.rcv.conn w.rcv.consumed w.interest written →
        TakesOutput w.handling → Phased w written

variable {w : Watched} {written part : List UInt8} {payloads : List (List UInt8)}
  {conn : InetConn} {consumed : List UInt8} {interest : Interest} {t : Receiver}

/-! ## `GetRequest` -/

/-- The length in the buffer is the one declared by what has been read. -/
theorem declared_eq (h : Reading conn part) (hpos : headerLen ≤ part.length) :
    declared part = conn.requestLen := by
  rw [declared, InetConn.requestLen, ← h.readBuf, List.take_take, Nat.min_eq_left hpos]

theorem not_hasFrame_of_short (h : part.length < headerLen) : ¬ HasFrame part :=
  fun hframe => absurd hframe.1 (Nat.not_le.mpr h)

theorem not_hasFrame_of_lt (h : Reading conn part)
    (hlt : (conn.lastReadPos : Int) < headerLen + conn.requestLen) : ¬ HasFrame part := by
  intro hframe
  have hle := hframe.2.2
  rw [declared_eq h hframe.1] at hle
  rw [h.lastReadPos] at hlt
  omega

/-- `handle_net_event` goes on according to what `GetRequest` has come to. -/
theorem phased_afterGetRequest {g : GetRequest}
    (hrequest : (∀ rs, g ≠ .done rs) →
      ∃ payloads part, Reads payloads part t.conn t.consumed w.interest written)
    (hhalf : g = .done .kReadHalf →
      ∃ payloads part, Reads payloads part t.conn t.consumed w.interest written ∧ ¬ HasFrame part)
    (hall : g = .done .kReadAll →
      ∃ payloads, Writes payloads t.conn t.consumed { epollout := true } written)
    (hopen : (w.afterGetRequest (t.proceed g)).isOpen = true) :
    Phased (w.afterGetRequest (t.proceed g)) written := by
  cases g with
  | header =>
      obtain ⟨payloads, part, hreads⟩ := hrequest nofun
      exact .reads payloads part hreads trivial
  | payload =>
      obtain ⟨payloads, part, hreads⟩ := hrequest nofun
      exact .reads payloads part hreads trivial
  | done rs =>
      have hcall : (t.proceed (.done rs)).call = none := rfl
      simp only [Watched.afterGetRequest, hcall, Receiver.last_done] at hopen ⊢
      cases rs with
      | kReadAll =>
          obtain ⟨payloads, hwrites⟩ := hall rfl
          exact .writes payloads hwrites trivial
      | kReadHalf =>
          obtain ⟨payloads, part, hreads, hpart⟩ := hhalf rfl
          exact .reads payloads part hreads hpart
      | kReadError => contradiction
      | kReadClose => contradiction
      | kFullError => contradiction

theorem readFailure_ne_all (e : Errno) : InetConn.readFailure e ≠ .kReadAll := by
  cases e <;> decide

/-- A `read` that has found nothing. -/
theorem reads_took_nil {r : ReadRet} (h : Reads payloads part t.conn t.consumed interest written)
    (hr : Receiver.bytesOf r = []) :
    Reads payloads part (t.took r t.conn).conn (t.took r t.conn).consumed interest written := by
  have hconsumed : (t.took r t.conn).consumed = t.consumed := by
    simp [Receiver.took, hr]
  rw [hconsumed]
  exact h

/-- A `read` that has put `bs` behind the part. -/
theorem reads_took (h : Reads payloads part t.conn t.consumed interest written)
    (bs : List UInt8) :
    Reads payloads (part ++ bs) (t.took (.ret bs) (t.conn.store bs)).conn
      (t.took (.ret bs) (t.conn.store bs)).consumed interest written where
  sizes := h.sizes
  stream := by
    show t.consumed ++ bs = _
    rw [h.stream, List.append_assoc]
  buffer := h.buffer.store bs
  reply := h.reply
  registered := h.registered
  answered := h.answered

/-- `GetRequest` is called. -/
theorem phased_getRequest (h : Reads payloads part t.conn t.consumed w.interest written)
    (hopen : (w.afterGetRequest (t.proceed t.conn.getRequest)).isOpen = true) :
    Phased (w.afterGetRequest (t.proceed t.conn.getRequest)) written :=
  phased_afterGetRequest (fun _ => ⟨payloads, part, h⟩)
    (fun hhalf => absurd (InetConn.eq_full_of_getRequest hhalf) (by decide))
    (fun hall => absurd (InetConn.eq_full_of_getRequest hall) (by decide)) hopen

/-- The `read` of the header has returned. -/
theorem phased_header (h : Reads payloads part t.conn t.consumed w.interest written)
    (hinv : t.Inv) (hcall : t.call = some .header) {r : ReadRet}
    (hr : t.Answers t.conn.headerCount r)
    (hopen : (w.afterGetRequest ((t.took r (t.conn.onHeader r).1).proceed
      (t.conn.onHeader r).2)).isOpen = true) :
    Phased (w.afterGetRequest ((t.took r (t.conn.onHeader r).1).proceed
      (t.conn.onHeader r).2)) written := by
  have hpos := hinv.header hcall
  cases r with
  | err e =>
      have hshort : part.length < headerLen := by rw [← h.buffer.lastReadPos]; exact hpos
      refine phased_afterGetRequest (fun hrun => absurd rfl (hrun _))
        (fun _ => ⟨payloads, part, reads_took_nil h rfl, not_hasFrame_of_short hshort⟩)
        (fun hall => absurd (GetRequest.done.inj hall) (readFailure_ne_all e)) hopen
  | ret bs =>
      by_cases hne : bs = []
      · subst hne
        exact phased_afterGetRequest (fun hrun => absurd rfl (hrun _)) nofun nofun hopen
      · obtain ⟨-, heq⟩ := hinv.conn.onHeader hpos (hr.of_ne_nil hne).2.1 hne
        rw [heq] at hopen ⊢
        have htook := reads_took h bs
        refine phased_afterGetRequest (fun _ => ⟨payloads, part ++ bs, htook⟩) (fun hhalf => ?_)
          (fun hall => ?_) hopen
        · refine ⟨payloads, part ++ bs, htook, not_hasFrame_of_short ?_⟩
          rw [← (h.buffer.store bs).lastReadPos]
          dsimp only at hhalf
          split at hhalf
          · assumption
          · exact absurd (InetConn.eq_full_of_checkLength hhalf) (by decide)
        · dsimp only at hall
          split at hall
          · contradiction
          · exact absurd (InetConn.eq_full_of_checkLength hall) (by decide)

/-- A header and the payload of its length are the frame of the payload. -/
theorem frame_of_reading {n : Nat} (h : Reading conn part) (hlen : part.length = headerLen + n)
    (hn : conn.requestLen = n) :
    frame ((conn.readBuf.drop headerLen).take n) = part ∧
      ((conn.readBuf.drop headerLen).take n).length = n := by
  have hpayload : (conn.readBuf.drop headerLen).take n = part.drop headerLen := by
    rw [← h.readBuf, hlen, List.drop_take, Nat.add_sub_cancel_left]
  have hsize : (part.drop headerLen).length = n := by rw [List.length_drop]; omega
  have hheader : Bytes.ofNat headerLen n = part.take headerLen := by
    have hdeclared := declared_eq h (by omega)
    rw [hn, declared] at hdeclared
    have hbytes := Bytes.ofNat_of_toInt hdeclared
    rwa [List.length_take, Nat.min_eq_left (by omega)] at hbytes
  rw [hpayload]
  refine ⟨?_, hsize⟩
  rw [frame, hsize, hheader, List.take_append_drop]

/-- With a frame complete the session turns to its reply. -/
theorem writes_of_reads {n : Nat}
    (h : Reads payloads part conn consumed interest written) (hlen : part.length = headerLen + n)
    (hn : conn.requestLen = n) (hpos : 0 < n) (hmax : n ≤ System.maxPayload) :
    Writes payloads { conn with reply := (conn.readBuf.drop headerLen).take n, lastReadPos := 0 }
      consumed { epollout := true } written := by
  obtain ⟨hframe, hsize⟩ := frame_of_reading h.buffer hlen hn
  generalize (conn.readBuf.drop headerLen).take n = reply at hframe hsize ⊢
  have hwritten : conn.lastWritePos = 0 := h.buffer.lastWritePos
  refine ⟨fun payload hmem => ?_, ?_, rfl, ?_, ⟨rfl, rfl⟩, ?_⟩
  · obtain hold | hnew := List.mem_append.mp hmem
    · exact h.sizes payload hold
    · rw [List.mem_singleton.mp hnew]
      exact hsize.trans_le hmax
  · rw [h.stream, List.flatMap_append, List.flatMap_singleton, hframe]
  · show conn.lastWritePos < reply.length
    omega
  · show written = payloads.flatten ++ reply.take conn.lastWritePos
    rw [hwritten, List.take_zero, List.append_nil, h.answered]

/-- The `read` of the payload has returned. -/
theorem phased_payload (h : Reads payloads part t.conn t.consumed w.interest written)
    (hinv : t.Inv) (hcall : t.call = some .payload) {r : ReadRet}
    (hr : t.Answers t.conn.payloadCount r)
    (hopen : (w.afterGetRequest ((t.took r (t.conn.onPayload r).1).proceed
      (.done (t.conn.onPayload r).2))).isOpen = true) :
    Phased (w.afterGetRequest ((t.took r (t.conn.onPayload r).1).proceed
      (.done (t.conn.onPayload r).2))) written := by
  obtain ⟨hpos, hcheck⟩ := hinv.payload hcall
  cases r with
  | err e =>
      have hcount := hr.pos_of_err
      refine phased_afterGetRequest (fun hrun => absurd rfl (hrun _))
        (fun _ => ⟨payloads, part, reads_took_nil h rfl, fun hframe => ?_⟩)
        (fun hall => absurd (GetRequest.done.inj hall) (readFailure_ne_all e)) hopen
      -- a whole frame in the buffer would leave nothing to ask for
      obtain hstart | ⟨-, hlt⟩ := hinv.conn.cases hpos
      · have hdeclared := declared_eq h.buffer hframe.1
        obtain ⟨-, hnonneg, hle⟩ := hframe
        rw [hdeclared] at hnonneg hle
        rw [h.buffer.lastReadPos] at hstart
        have hzero : t.conn.requestLen = 0 := by omega
        unfold InetConn.payloadCount at hcount
        rw [hzero, h.buffer.lastReadPos, hstart] at hcount
        simp [sizeT] at hcount
      · exact not_hasFrame_of_lt h.buffer hlt hframe
  | ret bs =>
      by_cases hne : bs = []
      · subst hne
        exact phased_afterGetRequest (fun hrun => absurd rfl (hrun _)) nofun nofun hopen
      · obtain ⟨-, hlen, hcount⟩ := hr.of_ne_nil hne
        have hreq : (t.conn.store bs).requestLen = t.conn.requestLen :=
          InetConn.requestLen_store hinv.conn.buf hpos
        have htook := reads_took h bs
        obtain ⟨hfits, ⟨heq, -, hlt⟩ | ⟨heq, hend⟩⟩ :=
          hinv.conn.onPayload hpos hcheck hlen hcount hne
        · rw [heq] at hopen ⊢
          refine phased_afterGetRequest (fun hrun => absurd rfl (hrun _))
            (fun _ => ⟨payloads, part ++ bs, htook, ?_⟩) nofun hopen
          exact not_hasFrame_of_lt (h.buffer.store bs) (by rw [hreq]; exact hlt)
        · rw [heq] at hopen ⊢
          refine phased_afterGetRequest (fun hrun => absurd rfl (hrun _)) nofun
            (fun _ => ⟨payloads, ?_⟩) hopen
          have hstored := (h.buffer.store bs).lastReadPos
          have hlonger : headerLen < (t.conn.store bs).lastReadPos := by
            have hbytes := List.length_pos_iff.mpr hne
            simp only [InetConn.store]
            omega
          have hbuffer : readBufferSize = headerLen + System.maxPayload := rfl
          obtain ⟨hnonneg, hle⟩ := hfits
          exact writes_of_reads htook (by omega) (by rw [hreq]; omega) (by omega) (by omega)

/-! ## `SendReply` -/

/-- The `write` of `SendReply` has returned. -/
theorem phased_sendReply (h : Writes payloads w.rcv.conn w.rcv.consumed w.interest written)
    {r : WriteRet} (hr : writeFits w.rcv.conn.unsent.length r = true) {w' : Watched}
    (hw' : { w with rcv := { w.rcv with conn := (w.rcv.conn.sendReply r).1 } }.afterSendReply
      (w.rcv.conn.sendReply r).2 = w')
    (hopen : w'.isOpen = true) : Phased w' (written ++ wrote w (.write r)) := by
  subst hw'
  cases r with
  | fail e =>
      cases e with
      | EAGAIN =>
          have hnone : wrote w (.write (.fail .EAGAIN)) = [] := rfl
          rw [hnone, List.append_nil]
          exact .writes payloads h trivial
      | EINTR => contradiction
      | other => contradiction
  | ret n =>
      have hn : w.rcv.conn.lastWritePos + n ≤ w.rcv.conn.reply.length := by
        simp only [writeFits, InetConn.unsent, List.length_drop, Bool.and_eq_true,
          decide_eq_true_eq] at hr
        have hpos := h.lastWritePos
        omega
      have hwritten : written ++ wrote w (.write (.ret n)) =
          payloads.flatten ++ w.rcv.conn.reply.take (w.rcv.conn.lastWritePos + n) := by
        rw [h.answered, wrote, InetConn.unsent, List.append_assoc, ← List.take_add]
      rw [hwritten]
      unfold InetConn.sendReply at hopen ⊢
      dsimp only at hopen ⊢
      split at hopen
      · next hlt =>
          rw [if_pos hlt]
          exact .writes payloads ⟨h.sizes, h.stream, h.lastReadPos, hlt, h.registered, rfl⟩ trivial
      · next hge =>
          rw [if_neg hge]
          refine .reads (payloads ++ [w.rcv.conn.reply]) [] ⟨h.sizes, ?_, ?_, rfl, ⟨rfl, rfl⟩, ?_⟩
            not_hasFrame_nil
          · rw [List.append_nil]
            exact h.stream
          · exact ⟨h.lastReadPos, rfl, rfl⟩
          · rw [List.take_of_length_le (by omega), List.flatten_append, List.flatten_singleton]

/-! ## runs -/

/-- Between two steps. -/
structure Inv (s : Exchange) : Prop where
  rcv : s.session.rcv.Inv
  phased : s.session.isOpen = true → Phased s.session s.written
  busy : s.session.handling ≠ .idle → s.session.isOpen = true

variable {s s' : Exchange}

theorem inv_start (fd : Int) (inbox : List UInt8) (closed : Bool) :
    Inv (start fd inbox closed) where
  rcv := (Watched.awake_register fd inbox closed).rcv
  phased _ := .reads [] [] ⟨nofun, rfl, ⟨rfl, rfl, rfl⟩, rfl, ⟨rfl, rfl⟩, rfl⟩ not_hasFrame_nil
  busy hbusy := absurd rfl hbusy

/-- `main` has closed the session. -/
theorem Inv.drop (h : Inv s) : Inv { s with session := s.session.drop } :=
  ⟨h.rcv, nofun, fun hbusy => absurd rfl hbusy⟩

/-- A step of `GetRequest` in an open session. -/
theorem Inv.afterGetRequest {rcv : Receiver} {e : Receiver.Event} (h : Inv s)
    (hopen : s.session.isOpen = true) (hs : s.session.rcv.step e = some rcv)
    (hphased : (s.session.afterGetRequest rcv).isOpen = true →
      Phased (s.session.afterGetRequest rcv) s.written) :
    Inv { s with session := s.session.afterGetRequest rcv } := by
  have hrcv : rcv.Inv := h.rcv.step (Receiver.step_cases hs)
  refine ⟨?_, hphased, fun hbusy => ?_⟩
  · show (s.session.afterGetRequest rcv).rcv.Inv
    unfold Watched.afterGetRequest
    dsimp only
    split
    · exact hrcv
    · split <;> exact hrcv
  · dsimp only at hbusy ⊢
    unfold Watched.afterGetRequest at hbusy ⊢
    dsimp only at hbusy ⊢
    split
    · exact hopen
    · next hcall =>
        rw [hcall] at hbusy
        dsimp only at hbusy
        split at hbusy <;> exact absurd rfl hbusy

/-- A `read` of `GetRequest` has returned. -/
theorem Inv.read {rcv : Receiver} {r : ReadRet} (h : Inv s)
    (hrequest : s.session.handling = .request) (hs : s.session.rcv.step (.read r) = some rcv) :
    Inv { s with session := s.session.afterGetRequest rcv } := by
  have hopen : s.session.isOpen = true := h.busy (by simp [hrequest])
  refine h.afterGetRequest hopen hs fun hopen' => ?_
  cases h.phased hopen with
  | reads payloads part hreads =>
      cases Receiver.step_cases hs with
      | header hcall hr => exact phased_header hreads h.rcv hcall hr hopen'
      | payload hcall hr => exact phased_payload hreads h.rcv hcall hr hopen'
  | writes payloads hwrites hout =>
      rw [hrequest] at hout
      exact hout.elim

/-- Something arrives. -/
theorem Inv.arrived {rcv : Receiver} {e : Receiver.Event} (h : Inv s)
    (he : e = .shutdown ∨ ∃ bs, e = .send bs) (hs : s.session.rcv.step e = some rcv) :
    Inv { s with session := s.session.arrived rcv } := by
  have hstep := Receiver.step_cases hs
  have hsame : rcv.conn = s.session.rcv.conn ∧ rcv.consumed = s.session.rcv.consumed := by
    cases hstep with
    | send => exact ⟨rfl, rfl⟩
    | shutdown => exact ⟨rfl, rfl⟩
    | getRequest => simp at he
    | header => simp at he
    | payload => simp at he
  refine ⟨h.rcv.step hstep, fun hopen => ?_, h.busy⟩
  cases h.phased hopen with
  | reads payloads part hreads htakes =>
      refine .reads payloads part ?_ htakes
      simp only [Watched.arrived, hsame]
      exact hreads
  | writes payloads hwrites htakes =>
      refine .writes payloads ?_ htakes
      simp only [Watched.arrived, hsame]
      exact hwrites

/-- `epoll_wait` reports an event. -/
theorem Inv.fetch {mask : Mask} (h : Inv s) (hopen : s.session.isOpen = true)
    (hidle : s.session.handling = .idle) (hfires : s.session.Fires mask) :
    Inv { s with session := { s.session with handling := .fetched mask, edge := false } } := by
  refine ⟨h.rcv, fun _ => ?_, fun _ => hopen⟩
  cases h.phased hopen with
  | reads payloads part hreads htakes =>
      rw [hidle] at htakes
      refine .reads payloads part hreads ⟨?_, htakes⟩
      by_contra hmask
      have hout := hfires.2.2 (by simpa using hmask)
      rw [hreads.registered.2] at hout
      contradiction
  | writes payloads hwrites =>
      refine .writes payloads hwrites ?_
      by_contra hmask
      have hin := hfires.2.1 (by simpa [TakesOutput] using hmask)
      rw [hwrites.registered.1] at hin
      contradiction

/-- The `write` of `SendReply` has returned. -/
theorem Inv.write {r : WriteRet} {w : Watched} (h : Inv s) (hreply : s.session.handling = .reply)
    (hfits : writeFits s.session.rcv.conn.unsent.length r = true)
    (hw : { s.session with rcv := { s.session.rcv with conn := (s.session.rcv.conn.sendReply r).1 }
      }.afterSendReply (s.session.rcv.conn.sendReply r).2 = w) :
    Inv { session := w, written := s.written ++ wrote s.session (.write r) } := by
  have hopen : s.session.isOpen = true := h.busy (by simp [hreply])
  have hrcv := h.rcv.sendReply r
  refine ⟨?_, fun hopen' => ?_, fun hbusy => ?_⟩
  · rw [← hw]
    cases (s.session.rcv.conn.sendReply r).2 <;> exact hrcv
  · cases h.phased hopen with
    | reads payloads part hreads htakes =>
        rw [hreply] at htakes
        exact htakes.elim
    | writes payloads hwrites => exact phased_sendReply hwrites hfits hw hopen'
  · rw [← hw] at hbusy
    cases hws : (s.session.rcv.conn.sendReply r).2 <;> rw [hws] at hbusy <;>
      exact absurd rfl hbusy

theorem Inv.session {e : Watched.Event} {w : Watched} (h : Inv s)
    (hs : Watched.Step s.session e w) :
    Inv { session := w, written := s.written ++ wrote s.session e } := by
  -- all events but a `write` write nothing
  have hquiet : wrote s.session e = [] → Inv { s with session := w } →
      Inv { session := w, written := s.written ++ wrote s.session e } := fun hnone h' => by
    rw [hnone, List.append_nil]
    exact h'
  cases hs with
  | @arrive bs _ _ hrcv => exact hquiet rfl (h.arrived (.inr ⟨bs, rfl⟩) hrcv)
  | finish _ hrcv => exact hquiet rfl (h.arrived (.inl rfl) hrcv)
  | fetch hopen hidle hfires => exact hquiet rfl (h.fetch hopen hidle hfires)
  | drop => exact hquiet rfl h.drop
  | getRequest hfetched hin hrcv =>
      have hopen : s.session.isOpen = true := h.busy (by simp [hfetched])
      refine hquiet rfl (h.afterGetRequest hopen hrcv fun hopen' => ?_)
      cases h.phased hopen with
      | reads payloads part hreads =>
          cases Receiver.step_cases hrcv with
          | getRequest => exact phased_getRequest hreads hopen'
      | writes payloads hwrites hout =>
          rw [hfetched, TakesOutput, hin] at hout
          contradiction
  | reply hfetched _ hout =>
      have hopen : s.session.isOpen = true := h.busy (by simp [hfetched])
      refine hquiet rfl ⟨h.rcv, fun _ => ?_, fun _ => hopen⟩
      cases h.phased hopen with
      | reads payloads part hreads htakes =>
          rw [hfetched, TakesInput, hout] at htakes
          exact absurd htakes.1 (by decide)
      | writes payloads hwrites => exact .writes payloads hwrites trivial
  | nothing hfetched =>
      refine hquiet rfl ⟨h.rcv, fun hopen => ?_, fun hbusy => absurd rfl hbusy⟩
      cases h.phased hopen with
      | reads payloads part hreads htakes =>
          rw [hfetched] at htakes
          exact .reads payloads part hreads htakes.2
      | writes payloads hwrites => exact .writes payloads hwrites trivial
  | read hrequest _ hrcv => exact hquiet rfl (h.read hrequest hrcv)
  | write hreply hfits => exact h.write hreply hfits rfl

theorem Inv.step {e : Event} (h : Inv s) (hs : s.step e = some s') : Inv s' := by
  cases e with
  | session e =>
      obtain ⟨w, hw, rfl⟩ := Option.map_eq_some_iff.mp hs
      exact h.session (Watched.step_cases hw)
  | read r =>
      obtain ⟨hrequest, hs⟩ := Option.ite_none_right_eq_some.mp hs
      obtain ⟨rcv, hrcv, rfl⟩ := Option.map_eq_some_iff.mp hs
      exact h.read hrequest hrcv

/-! ## the phases -/

/-- A session that reads, with no whole frame in its buffer. -/
theorem readingPhase (h : Reads payloads part s.session.rcv.conn s.session.rcv.consumed
    s.session.interest s.written) (hpart : ¬ HasFrame part) : ReadingPhase s := by
  have hframes : unframe s.session.rcv.consumed = (payloads, part) := by
    rw [h.stream, unframe_frames h.sizes hpart]
  refine ⟨h.registered, h.reply, h.buffer.lastWritePos, ?_, ?_⟩
  · rw [hframes]
    exact h.buffer.lastReadPos
  · rw [hframes]
    exact h.answered

theorem writingPhase (h : Writes payloads s.session.rcv.conn s.session.rcv.consumed
    s.session.interest s.written) : WritingPhase s := by
  have hframes : unframe s.session.rcv.consumed = (payloads ++ [s.session.rcv.conn.reply], []) := by
    rw [h.stream, ← unframe_frames h.sizes not_hasFrame_nil, List.append_nil]
  exact ⟨h.registered, h.lastReadPos, h.lastWritePos, payloads, hframes, h.answered⟩

theorem not_reading_and_writing : ¬ (ReadingPhase s ∧ WritingPhase s) := by
  rintro ⟨hreading, hwriting⟩
  have hin := hreading.interest.1
  rw [hwriting.interest.1] at hin
  contradiction

/-- **Phases of a session**: between events an open session either reads a request or writes the
reply to the last one; and when `TransferSessionFd` is called the bytes read are whole frames, the
replies to which have been written. -/
theorem session_phases (fd : Int) (inbox : List UInt8) (closed : Bool) (events : List Event)
    (s : Exchange) (hrun : Run step any (start fd inbox closed) events s) :
    (s.session.isOpen = true → s.session.handling = .idle →
        Xor (ReadingPhase s) (WritingPhase s)) ∧
      ∀ mask, s.HandsOver mask →
        (unframe s.session.rcv.consumed).2 = [] ∧
          s.written = (unframe s.session.rcv.consumed).1.flatten := by
  have h : Inv s := Run.inv (I := Inv) (inv_start fd inbox closed) (fun _ _ _ h _ hs => h.step hs)
    hrun
  refine ⟨fun hopen hidle => ?_, fun mask hmask => ?_⟩
  · rw [xor_iff_or_and_not_and]
    refine ⟨?_, not_reading_and_writing⟩
    cases h.phased hopen with
    | reads payloads part hreads htakes =>
        rw [hidle] at htakes
        exact .inl (readingPhase hreads htakes)
    | writes payloads hwrites => exact .inr (writingPhase hwrites)
  · obtain ⟨hfetched, -, -, hin, hempty⟩ := hmask
    have hopen : s.session.isOpen = true := h.busy (by simp [hfetched])
    cases h.phased hopen with
    | reads payloads part hreads htakes =>
        rw [hfetched] at htakes
        have hreading := readingPhase hreads htakes.2
        refine ⟨List.eq_nil_of_length_eq_zero ?_, hreading.written⟩
        rw [← hreading.lastReadPos]
        exact of_decide_eq_true hempty
    | writes payloads hwrites hout =>
        rw [hfetched, TakesOutput, hin] at hout
        contradiction

/-- A request that is read in three parts, and the first of two `write`s for its reply. -/
def shortWrite : List Event :=
  [.session (.fetch { epollin := true }), .session (.dispatch false), .session .read,
    .session (.arrive [0, 0, 97, 98]), .session (.fetch { epollin := true }),
    .session (.dispatch false), .session .read, .read (.ret [97, 98]),
    .session (.fetch { epollout := true }), .session (.dispatch false),
    .session (.write (.ret 1))]

/-- The second one, and the next byte of the client. -/
def nextByte : List Event :=
  [.session (.fetch { epollout := true }), .session (.dispatch false), .session (.write (.ret 1)),
    .session (.arrive [7]), .session (.fetch { epollin := true })]

/-- After the first `write` the session writes, and at the next byte of the client it can be handed
over. -/
theorem session_phases_short_write :
    (∃ s : Exchange, Run step any (start 4 [2, 0] false) shortWrite s ∧ s.written = [97] ∧
      s.session.rcv.conn.lastWritePos = 1 ∧ Xor (ReadingPhase s) (WritingPhase s)) ∧
    ∃ s : Exchange, Run step any (start 4 [2, 0] false) (shortWrite ++ nextByte) s ∧
      s.HandsOver { epollin := true } ∧ s.written = [97, 98] ∧
      (unframe s.session.rcv.consumed).2 = [] ∧
      s.written = (unframe s.session.rcv.consumed).1.flatten := by
  have hwrite : (exec step (fun _ _ => true) (start 4 [2, 0] false) shortWrite).map
      (fun s => (s.session.isOpen, s.session.handling, s.written,
        s.session.rcv.conn.lastWritePos)) = some (true, .idle, [97], 1) := by decide +kernel
  have hread : (exec step (fun _ _ => true) (start 4 [2, 0] false) (shortWrite ++ nextByte)).map
      (fun s => (s.session.handling, s.session.rcv.conn.emptyReadBuf, s.written)) =
        some (.fetched { epollin := true }, true, [97, 98]) := by decide +kernel
  constructor
  · obtain ⟨s, hrun, hobs⟩ := exists_run_of_exec _ _ hwrite
    simp only [Prod.mk.injEq] at hobs
    obtain ⟨hopen, hidle, hwritten, hpos⟩ := hobs
    exact ⟨s, hrun.toAny, hwritten, hpos,
      (session_phases 4 [2, 0] false _ s hrun.toAny).1 hopen hidle⟩
  · obtain ⟨s, hrun, hobs⟩ := exists_run_of_exec _ _ hread
    simp only [Prod.mk.injEq] at hobs
    obtain ⟨hfetched, hempty, hwritten⟩ := hobs
    have hover : s.HandsOver { epollin := true } := ⟨hfetched, rfl, rfl, rfl, hempty⟩
    exact ⟨s, hrun.toAny, hover, hwritten,
      (session_phases 4 [2, 0] false _ s hrun.toAny).2 _ hover⟩

end Exchange

end SysDemos.HotUpgrade
