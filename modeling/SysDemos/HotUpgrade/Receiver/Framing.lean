import SysDemos.HotUpgrade.Receiver
import SysDemos.HotUpgrade.Session
import SysDemos.Lib.Stream

/-!
# SysDemos.HotUpgrade.Receiver.Framing

`GetRequest` on a stream of frames, however the stream arrives and however the `read`
calls cut it.

The state of a connection is described by the frames that have been completed and the
part of the next one that has been read (`Framed`).  A `read` adds to that part and never
goes beyond its end, since it asks for the rest of the header or of the frame only.

* `framing_independent` — each frame is reported once, in order, with its payload, when
  exactly the frames up to it have been read; and the calls get on (`GetsOn`), so that
  every frame that has been sent is reported before long.
-/

namespace SysDemos.HotUpgrade.Receiver

open InetConn (GetRequest)
open Lts

variable {s s' : Receiver} {e : Event} {payloads : List (List UInt8)} {part : List UInt8}

/-- The calls that have returned a request. -/
def completed (s : Receiver) : List Return := s.returns.filter (·.status = .kReadAll)

/-- The client does not shut down, and `read` fails with `EAGAIN` only. -/
def Fragmented (_ : Receiver) (e : Event) : Prop :=
  e ≠ .shutdown ∧ ∀ err, e = .read (.err err) → err = .EAGAIN

/-- The requests completed so far are the first frames, and of the next one `part` has been
read. -/
structure Position (payloads : List (List UInt8)) (part : List UInt8) (s : Receiver) : Prop where
  isOpen : s.closed = false
  le : s.completed.length ≤ payloads.length
  consumed : s.consumed = (payloads.take s.completed.length).flatMap frame ++ part
  status : ∀ x ∈ s.returns, x.status = .kReadAll ∨ x.status = .kReadHalf
  inOrder : ∀ j x, s.completed[j]? = some x →
    payloads[j]? = some x.reply ∧ x.consumed = (payloads.take (j + 1)).flatMap frame

/-- Between two steps: the buffer holds the part that has been read, which is not the whole
frame. -/
structure Framed (payloads : List (List UInt8)) (part : List UInt8) (s : Receiver) : Prop extends
    Position payloads part s where
  reading : Reading s.conn part
  unfinished : ∀ payload, payloads[s.completed.length]? = some payload →
    part.length < headerLen + payload.length
  header : s.call = some .header → part.length < headerLen
  payload : s.call = some .payload → headerLen ≤ part.length

/-- The client's stream consists of these frames. -/
structure Sends (payloads : List (List UInt8)) (s : Receiver) : Prop where
  sizes : ∀ payload ∈ payloads, 1 ≤ payload.length ∧ payload.length ≤ System.maxPayload
  stream : s.consumed ++ s.inbox <+: payloads.flatMap frame

/-! ## the calls that have returned -/

theorem completed_half :
    (s.proceed (.done .kReadHalf)).completed = s.completed := by
  simp [completed, proceed, List.filter_append]

theorem completed_all : (s.proceed (.done .kReadAll)).completed =
    s.completed ++ [{ status := .kReadAll, reply := s.conn.reply, consumed := s.consumed }] := by
  simp [completed, proceed, List.filter_append]

namespace Position

theorem waiting (h : Position payloads part s) (call : Option GetRequest) :
    Position payloads part { s with call := call } :=
  ⟨h.isOpen, h.le, h.consumed, h.status, h.inOrder⟩

theorem took (h : Position payloads part s) (r : ReadRet) (c : InetConn) :
    Position payloads (part ++ bytesOf r) (s.took r c) where
  isOpen := h.isOpen
  le := h.le
  consumed := by
    show s.consumed ++ bytesOf r = _
    rw [h.consumed, List.append_assoc]
    rfl
  status := h.status
  inOrder := h.inOrder

/-- A call returns with the request incomplete. -/
theorem half (h : Position payloads part s) (hreading : Reading s.conn part)
    (hunfinished : ∀ payload, payloads[s.completed.length]? = some payload →
      part.length < headerLen + payload.length) :
    Framed payloads part (s.proceed (.done .kReadHalf)) where
  isOpen := h.isOpen
  le := by rw [completed_half]; exact h.le
  consumed := by rw [completed_half]; exact h.consumed
  status x hx := by
    obtain hold | hnew := List.mem_append.mp hx
    · exact h.status x hold
    · rw [List.mem_singleton.mp hnew]
      exact .inr rfl
  inOrder := by rw [completed_half]; exact h.inOrder
  reading := hreading
  unfinished := by rw [completed_half]; exact hunfinished
  header := nofun
  payload := nofun

/-- A call returns with the request complete. -/
theorem all {payload : List UInt8} (h : Position payloads (frame payload) s)
    (hk : payloads[s.completed.length]? = some payload) (hreply : s.conn.reply = payload)
    (hreading : Reading s.conn []) : Framed payloads [] (s.proceed (.done .kReadAll)) := by
  obtain ⟨hlt, -⟩ := List.getElem?_eq_some_iff.mp hk
  have hconsumed : s.consumed = (payloads.take (s.completed.length + 1)).flatMap frame := by
    rw [h.consumed, List.take_add_one, hk]
    simp
  have hlength : (s.proceed (.done .kReadAll)).completed.length = s.completed.length + 1 := by
    rw [completed_all, List.length_append, List.length_singleton]
  refine ⟨⟨h.isOpen, by rw [hlength]; exact hlt, ?_, fun x hx => ?_, fun j x hx => ?_⟩, hreading,
    fun _ _ => Nat.lt_of_lt_of_le (by decide) (Nat.le_add_right _ _), nofun, nofun⟩
  · rw [hlength, List.append_nil]
    exact hconsumed
  · obtain hold | hnew := List.mem_append.mp hx
    · exact h.status x hold
    · rw [List.mem_singleton.mp hnew]
      exact .inl rfl
  · rw [completed_all] at hx
    obtain ⟨-, hold⟩ | ⟨rfl, rfl⟩ := Stream.getElem?_snoc hx
    · exact h.inOrder j x hold
    · exact ⟨hk.trans (by rw [← hreply]), hconsumed⟩

end Position

namespace Framed

/-- What has been read and can be read belongs to the frames that are not completed. -/
theorem unread (h : Framed payloads part s) (hsends : Sends payloads s) :
    part ++ s.inbox <+: (payloads.drop s.completed.length).flatMap frame := by
  have hstream := hsends.stream
  rw [h.consumed, List.append_assoc] at hstream
  conv at hstream => rhs; rw [← List.take_append_drop s.completed.length payloads,
    List.flatMap_append]
  exact (List.prefix_append_right_inj _).mp hstream

/-- Bytes read of a frame, or that can be read, belong to a next frame. -/
theorem next_frame (h : Framed payloads part s) (hsends : Sends payloads s) {bs : List UInt8}
    (hbs : bs <+: s.inbox) (hne : part ++ bs ≠ []) :
    ∃ payload, payloads[s.completed.length]? = some payload ∧
      payload.length ≤ System.maxPayload ∧
      ∀ q, q <+: part ++ bs → q.length ≤ headerLen + payload.length → q <+: frame payload := by
  have hprefix : part ++ bs <+: (payloads.drop s.completed.length).flatMap frame :=
    ((List.prefix_append_right_inj part).mpr hbs).trans (h.unread hsends)
  cases hdrop : payloads.drop s.completed.length with
  | nil =>
      rw [hdrop] at hprefix
      exact absurd (List.prefix_nil.mp hprefix) hne
  | cons payload rest =>
      have hk : payloads[s.completed.length]? = some payload := by
        rw [← List.head?_drop, hdrop]
        rfl
      rw [hdrop] at hprefix
      exact ⟨payload, hk, (hsends.sizes payload (List.mem_of_getElem? hk)).2,
        fun q hq hlen => prefix_frame hprefix hq hlen⟩

/-! ## one step -/

/-- The frame in hand, once its header has been read. -/
theorem current (h : Framed payloads part s) (hsends : Sends payloads s)
    (hpos : headerLen ≤ part.length) : ∃ payload, payloads[s.completed.length]? = some payload ∧
      payload.length ≤ System.maxPayload ∧ part <+: frame payload := by
  have hne : part ++ [] ≠ [] := by
    rw [List.append_nil]
    exact List.ne_nil_of_length_pos (Nat.lt_of_lt_of_le (by decide) hpos)
  obtain ⟨payload, hk, hsize, hnext⟩ := h.next_frame hsends List.nil_prefix hne
  exact ⟨payload, hk, hsize,
    hnext part (List.prefix_append _ _) (Nat.le_of_lt (h.unfinished payload hk))⟩

/-- A call makes a `read` before it returns. -/
theorem getRequest_cases (h : Framed payloads part s) (hsends : Sends payloads s) :
    s.conn.getRequest = .header ∧ part.length < headerLen ∨
      s.conn.getRequest = .payload ∧ headerLen ≤ part.length := by
  unfold InetConn.getRequest
  rw [h.reading.lastReadPos]
  split
  · next hlt => exact .inl ⟨rfl, hlt⟩
  · next hge =>
      have hpos := Nat.le_of_not_lt hge
      obtain ⟨payload, hk, hsize, hpart⟩ := h.current hsends hpos
      exact .inr ⟨h.reading.checkLength hpart hpos hsize, hpos⟩

theorem getRequest (h : Framed payloads part s) (hsends : Sends payloads s) :
    Framed payloads part (s.proceed s.conn.getRequest) := by
  obtain ⟨heq, hlt⟩ | ⟨heq, hpos⟩ := h.getRequest_cases hsends
  · rw [heq]
    exact ⟨h.toPosition.waiting _, h.reading, h.unfinished, fun _ => hlt, nofun⟩
  · rw [heq]
    exact ⟨h.toPosition.waiting _, h.reading, h.unfinished, nofun, fun _ => hpos⟩

/-- A `read` finds nothing. -/
theorem again (h : Framed payloads part s) (r : ReadRet) (hr : bytesOf r = []) :
    Framed payloads part ((s.took r s.conn).proceed (.done .kReadHalf)) := by
  have htook := h.toPosition.took r s.conn
  rw [hr, List.append_nil] at htook
  exact htook.half h.reading h.unfinished

theorem onHeader (h : Framed payloads part s) (hsends : Sends payloads s)
    (hcall : s.call = some .header) {bs : List UInt8} (hbs : bs <+: s.inbox)
    (hlen : bs.length ≤ s.conn.headerCount) (hne : bs ≠ []) :
    Framed payloads (part ++ bs) ((s.took (.ret bs) (s.conn.onHeader (.ret bs)).1).proceed
      (s.conn.onHeader (.ret bs)).2) := by
  obtain ⟨payload, hk, hsize, hnext⟩ := h.next_frame hsends hbs (by simp [hne])
  have hle : (part ++ bs).length ≤ headerLen := by
    have hpos := h.header hcall
    rw [InetConn.headerCount, h.reading.lastReadPos] at hlen
    rw [List.length_append]
    omega
  have hpart := hnext _ List.prefix_rfl (by omega)
  have hmin := (hsends.sizes payload (List.mem_of_getElem? hk)).1
  have hunfinished : ∀ payload', payloads[s.completed.length]? = some payload' →
      (part ++ bs).length < headerLen + payload'.length := by
    intro payload' hk'
    cases hk.symm.trans hk'
    omega
  have htook := h.toPosition.took (.ret bs) (s.conn.store bs)
  rw [h.reading.onHeader hne hpart hsize]
  dsimp only
  split
  · exact htook.half (h.reading.store bs) hunfinished
  · next hge =>
      refine ⟨htook.waiting _, h.reading.store bs, hunfinished, fun hcall => ?_, fun _ => ?_⟩
      · cases hcall
      · exact Nat.le_of_not_lt hge

/-- The `read` of the header asks for something. -/
theorem headerCount_bounds (h : Framed payloads part s) (hcall : s.call = some .header) :
    0 < s.conn.headerCount ∧ s.conn.headerCount < 2 ^ 63 := by
  have hpos := h.header hcall
  rw [InetConn.headerCount, h.reading.lastReadPos]
  simp only [headerLen] at hpos ⊢
  omega

/-- The `read` of the payload asks for something. -/
theorem payloadCount_bounds (h : Framed payloads part s) (hsends : Sends payloads s)
    (hcall : s.call = some .payload) :
    0 < s.conn.payloadCount ∧ s.conn.payloadCount < 2 ^ 63 := by
  have hpos := h.payload hcall
  obtain ⟨payload, hk, hsize, hpart⟩ := h.current hsends hpos
  have hlt := h.unfinished payload hk
  have hmax : System.maxPayload < 2 ^ 63 := by decide
  rw [h.reading.payloadCount hpart hpos hsize]
  omega

theorem onPayload (h : Framed payloads part s) (hsends : Sends payloads s)
    (hcall : s.call = some .payload) {bs : List UInt8} (hbs : bs <+: s.inbox)
    (hlen : bs.length ≤ s.conn.payloadCount) (hne : bs ≠ []) :
    ∃ part', Framed payloads part' ((s.took (.ret bs) (s.conn.onPayload (.ret bs)).1).proceed
      (.done (s.conn.onPayload (.ret bs)).2)) := by
  obtain ⟨payload, hk, hsize, hnext⟩ := h.next_frame hsends hbs (by simp [hne])
  have hpos := h.payload hcall
  have hlt := h.unfinished payload hk
  have hbefore := hnext part (List.prefix_append _ _) (Nat.le_of_lt hlt)
  have hle : (part ++ bs).length ≤ headerLen + payload.length := by
    rw [h.reading.payloadCount hbefore hpos hsize] at hlen
    rw [List.length_append]
    omega
  have hpart := hnext _ List.prefix_rfl hle
  rw [h.reading.onPayload hne hpart hpos hsize]
  split
  · next hhalf =>
      refine ⟨part ++ bs, (h.toPosition.took (.ret bs) _).half (h.reading.store bs) ?_⟩
      intro payload' hk'
      cases hk.symm.trans hk'
      exact hhalf
  · next hfull =>
      have hframe : part ++ bs = frame payload :=
        hpart.eq_of_length_le (by rw [length_frame]; omega)
      have htook := h.toPosition.took (.ret bs)
        { s.conn.store bs with reply := payload, lastReadPos := 0 }
      rw [show bytesOf (.ret bs) = bs from rfl, hframe] at htook
      exact ⟨[], htook.all hk rfl ⟨rfl, rfl, h.reading.lastWritePos⟩⟩

end Framed

/-! ## runs -/

/-- A `read` moves bytes from the socket to what has been read. -/
theorem stream_took {r : ReadRet} (hr : bytesOf r <+: s.inbox) (c : InetConn) (g : GetRequest) :
    ((s.took r c).proceed g).consumed ++ ((s.took r c).proceed g).inbox =
      s.consumed ++ s.inbox := by
  have htook : (s.consumed ++ bytesOf r) ++ s.inbox.drop (bytesOf r).length =
      s.consumed ++ s.inbox := by
    obtain ⟨rest, hrest⟩ := hr
    rw [← hrest, List.drop_left, List.append_assoc]
  cases g <;> exact htook

/-- The stream of a client only grows. -/
theorem stream_step (hs : Step s e s') : s.consumed ++ s.inbox <+: s'.consumed ++ s'.inbox := by
  cases hs with
  | send =>
      rw [← List.append_assoc]
      exact List.prefix_append _ _
  | shutdown => exact List.prefix_rfl
  | getRequest => cases s.conn.getRequest <;> exact List.prefix_rfl
  | header _ hr =>
      simp only [stream_took hr.isPrefix, List.prefix_rfl]
  | payload _ hr =>
      simp only [stream_took hr.isPrefix, List.prefix_rfl]

/-- A `read` of some bytes does not return 0, since the client has not shut down. -/
theorem Framed.ne_nil (h : Framed payloads part s) {count : Nat} {bs : List UInt8}
    (hr : s.Answers count (.ret bs)) (hcount : 0 < count) : bs ≠ [] := by
  rintro rfl
  have hclosed := (hr.of_nil (Nat.ne_of_gt hcount)).2
  rw [h.isOpen] at hclosed
  contradiction

theorem Framed.step (h : Framed payloads part s) (hsends : Sends payloads s)
    (hok : Fragmented s e) (hs : Step s e s') : ∃ part', Framed payloads part' s' := by
  cases hs with
  | send =>
      exact ⟨part, ⟨h.isOpen, h.le, h.consumed, h.status, h.inOrder⟩, h.reading, h.unfinished,
        h.header, h.payload⟩
  | shutdown => exact absurd rfl hok.1
  | getRequest => exact ⟨part, h.getRequest hsends⟩
  | @header r hcall hr =>
      cases r with
      | err err =>
          cases hok.2 err rfl
          exact ⟨part, h.again _ rfl⟩
      | ret bs =>
          have hne := h.ne_nil hr (h.headerCount_bounds hcall).1
          obtain ⟨hbs, hlen, -⟩ := hr.of_ne_nil hne
          exact ⟨_, h.onHeader hsends hcall hbs hlen hne⟩
  | @payload r hcall hr =>
      cases r with
      | err err =>
          cases hok.2 err rfl
          exact ⟨part, h.again _ rfl⟩
      | ret bs =>
          have hne := h.ne_nil hr (h.payloadCount_bounds hsends hcall).1
          obtain ⟨hbs, hlen, -⟩ := hr.of_ne_nil hne
          exact h.onPayload hsends hcall hbs hlen hne

theorem framed_start (payloads : List (List UInt8)) (fd : Int) : Framed payloads [] (start fd) :=
  ⟨⟨rfl, Nat.zero_le _, rfl, nofun, nofun⟩, ⟨rfl, rfl, rfl⟩,
    fun _ _ => Nat.lt_of_lt_of_le (by decide) (Nat.le_add_right _ _), nofun, nofun⟩

theorem framed_of_run {fd : Int} {events : List Event}
    (hrun : Run step Fragmented (start fd) events s) (hsends : Sends payloads s) :
    ∃ part, Framed payloads part s := by
  induction hrun with
  | nil => exact ⟨[], framed_start payloads fd⟩
  | snoc _ hok hs ih =>
      have hstep := step_cases hs
      -- what has been sent before is the front of what has been sent now
      have hbefore : Sends payloads _ := ⟨hsends.sizes, (stream_step hstep).trans hsends.stream⟩
      obtain ⟨part, h⟩ := ih hbefore
      exact h.step hbefore hok hstep

/-! ## progress -/

/-- Once the frames have been read they have been completed. -/
theorem Framed.completed_of_consumed (h : Framed payloads part s)
    (hall : s.consumed = payloads.flatMap frame) : s.completed.length = payloads.length := by
  -- a frame that is not completed has not been read to its end
  by_contra hne
  have hlt : s.completed.length < payloads.length := Nat.lt_of_le_of_ne h.le hne
  have hunfinished := h.unfinished _ (List.getElem?_eq_getElem hlt)
  have hpart : part = (payloads.drop s.completed.length).flatMap frame := by
    rw [h.consumed] at hall
    conv at hall => rhs; rw [← List.take_append_drop s.completed.length payloads,
      List.flatMap_append]
    exact List.append_cancel_left hall
  rw [hpart, List.drop_eq_getElem_cons hlt, List.flatMap_cons, List.length_append,
    length_frame] at hunfinished
  omega

theorem completed_proceed (g : GetRequest) :
    s.completed.length ≤ (s.proceed g).completed.length := by
  cases g with
  | header => exact Nat.le_refl _
  | payload => exact Nat.le_refl _
  | done rs =>
      simp only [completed, proceed, List.filter_append, List.length_append]
      exact Nat.le_add_right _ _

theorem completed_step (hs : Step s e s') : s.completed.length ≤ s'.completed.length := by
  cases hs with
  | send => exact Nat.le_refl _
  | shutdown => exact Nat.le_refl _
  | getRequest => exact completed_proceed _
  | @header r => exact completed_proceed (s := s.took r _) _
  | @payload r => exact completed_proceed (s := s.took r _) _

@[simp] theorem consumed_proceed (g : GetRequest) : (s.proceed g).consumed = s.consumed := by
  cases g <;> rfl

@[simp] theorem inbox_proceed (g : GetRequest) : (s.proceed g).inbox = s.inbox := by
  cases g <;> rfl

/-- A `read` consumes something, or nothing is there. -/
theorem Framed.read_step (h : Framed payloads part s) (hsends : Sends payloads s) {r : ReadRet}
    (hok : Fragmented s (.read r)) (hs : Step s (.read r) s') :
    s.consumed.length < s'.consumed.length ∧ s'.inbox.length < s.inbox.length ∨
      r = .err .EAGAIN ∧ s.inbox = [] := by
  have hread : ∃ count c g, 0 < count ∧ s.Answers count r ∧ s' = (s.took r c).proceed g := by
    cases hs with
    | header hcall hr => exact ⟨_, _, _, (h.headerCount_bounds hcall).1, hr, rfl⟩
    | payload hcall hr => exact ⟨_, _, _, (h.payloadCount_bounds hsends hcall).1, hr, rfl⟩
  obtain ⟨count, c, g, hcount, hr, rfl⟩ := hread
  cases r with
  | err err =>
      cases hok.2 err rfl
      exact .inr ⟨rfl, hr.2.1⟩
  | ret bs =>
      have hne := h.ne_nil hr hcount
      have hpos := List.length_pos_of_ne_nil hne
      have hle := (hr.of_ne_nil hne).1.length_le
      simp only [consumed_proceed, inbox_proceed, took, bytesOf, List.length_append,
        List.length_drop]
      exact .inl ⟨by omega, by omega⟩

/-- A `read` can return something. -/
theorem exists_answer (hopen : s.closed = false) {count : Nat}
    (hcount : 0 < count ∧ count < 2 ^ 63) : ∃ r, Fragmented s (.read r) ∧ s.Answers count r := by
  cases hinbox : s.inbox with
  | nil =>
      refine ⟨.err .EAGAIN, ⟨nofun, fun err heq => ?_⟩, hcount.1, hinbox, hopen⟩
      cases heq
      rfl
  | cons b bs =>
      refine ⟨.ret [b], ⟨nofun, nofun⟩, ?_, hcount⟩
      rw [hinbox]
      exact ⟨bs, rfl⟩

/-- A call that is being made waits for a `read`. -/
theorem call_of_run {fd : Int} {events : List Event}
    (hrun : Run step Fragmented (start fd) events s) (rs : ReadStatus) :
    s.call ≠ some (.done rs) := by
  have hproceed (s : Receiver) (g : GetRequest) : (s.proceed g).call ≠ some (.done rs) := by
    cases g <;> simp [proceed]
  refine hrun.inv (I := fun s => s.call ≠ some (.done rs)) (by simp [start])
    fun s e s' hcall _ hs => ?_
  cases step_cases hs with
  | send => exact hcall
  | shutdown => exact hcall
  | getRequest => exact hproceed _ _
  | header => exact hproceed _ _
  | payload => exact hproceed _ _

/-- A call can be made, or the one that is being made goes on. -/
theorem Framed.enabled (h : Framed payloads part s) (hsends : Sends payloads s)
    (hcall : ∀ rs, s.call ≠ some (.done rs)) :
    ∃ e s', (e = .getRequest ∨ ∃ r, e = .read r) ∧ Fragmented s e ∧ s.step e = some s' := by
  cases hc : s.call with
  | none => exact ⟨.getRequest, _, .inl rfl, ⟨nofun, nofun⟩, if_pos hc⟩
  | some g =>
      cases g with
      | header =>
          obtain ⟨r, hok, hr⟩ := exists_answer h.isOpen (h.headerCount_bounds hc)
          exact ⟨.read r, _, .inr ⟨r, rfl⟩, hok, by simp only [Receiver.step, hc]; exact if_pos hr⟩
      | payload =>
          obtain ⟨r, hok, hr⟩ := exists_answer h.isOpen (h.payloadCount_bounds hsends hc)
          exact ⟨.read r, _, .inr ⟨r, rfl⟩, hok, by simp only [Receiver.step, hc]; exact if_pos hr⟩
      | done rs => exact absurd hc (hcall rs)

/-- A call that returns has read something, or has found nothing to read. -/
theorem Framed.returned (h : Framed payloads part s) (hsends : Sends payloads s)
    (hok : Fragmented s e) (hs : Step s e s') (hreturns : s.returns.length < s'.returns.length) :
    s.consumed.length < s'.consumed.length ∨ e = .read (.err .EAGAIN) ∧ s.inbox = [] := by
  have hread {r : ReadRet} (hok : Fragmented s (.read r)) (hs : Step s (.read r) s') :
      s.consumed.length < s'.consumed.length ∨
        Event.read r = .read (.err .EAGAIN) ∧ s.inbox = [] := by
    obtain ⟨hlt, -⟩ | ⟨rfl, hinbox⟩ := h.read_step hsends hok hs
    · exact .inl hlt
    · exact .inr ⟨rfl, hinbox⟩
  cases hs with
  | send => exact absurd hreturns (Nat.lt_irrefl _)
  | shutdown => exact absurd hreturns (Nat.lt_irrefl _)
  | getRequest =>
      obtain ⟨heq, -⟩ | ⟨heq, -⟩ := h.getRequest_cases hsends
      · rw [heq] at hreturns
        exact absurd hreturns (Nat.lt_irrefl _)
      · rw [heq] at hreturns
        exact absurd hreturns (Nat.lt_irrefl _)
  | header hcall hr => exact hread hok (.header hcall hr)
  | payload hcall hr => exact hread hok (.payload hcall hr)

/-- Steps in which the client sends nothing more. -/
def Silent (s : Receiver) (e : Event) : Prop := Fragmented s e ∧ ∀ bs, e ≠ .send bs

/-- What is left to do: two steps for every byte that can be read, and the call that is to be
made. -/
def work (s : Receiver) : Nat := 2 * s.inbox.length + if s.call = none then 1 else 0

theorem stream_silent (hok : Silent s e) (hs : Step s e s') :
    s'.consumed ++ s'.inbox = s.consumed ++ s.inbox := by
  cases hs with
  | send => exact absurd rfl (hok.2 _)
  | shutdown => rfl
  | getRequest => rw [consumed_proceed, inbox_proceed]
  | header _ hr => exact stream_took hr.isPrefix _ _
  | payload _ hr => exact stream_took hr.isPrefix _ _

theorem Framed.work_step (h : Framed payloads part s) (hsends : Sends payloads s)
    (hok : Silent s e) (hs : Step s e s') : s'.work < s.work ∨ s.inbox = [] := by
  have hread {r : ReadRet} {g : GetRequest} (hcall : s.call = some g)
      (hok : Fragmented s (.read r)) (hs : Step s (.read r) s') :
      s'.work < s.work ∨ s.inbox = [] := by
    obtain ⟨-, hlt⟩ | ⟨-, hinbox⟩ := h.read_step hsends hok hs
    · refine .inl ?_
      simp only [work, hcall, reduceCtorEq, if_false]
      split <;> omega
    · exact .inr hinbox
  cases hs with
  | send => exact absurd rfl (hok.2 _)
  | shutdown => exact absurd rfl hok.1.1
  | getRequest hcall =>
      refine .inl ?_
      obtain ⟨heq, -⟩ | ⟨heq, -⟩ := h.getRequest_cases hsends
      all_goals simp [work, heq, hcall, proceed]
  | header hcall hr => exact hread hcall hok.1 (.header hcall hr)
  | payload hcall hr => exact hread hcall hok.1 (.payload hcall hr)

/-- Every step does some of the work, until everything is done. -/
theorem Framed.finish (h : Framed payloads part s) (hsends : Sends payloads s)
    (hall : s.consumed ++ s.inbox = payloads.flatMap frame) {events : List Event}
    (hrun : Run Receiver.step Silent s events s') :
    events.length + s'.work ≤ s.work ∨ s'.completed.length = payloads.length := by
  have hinv : ∀ {events : List Event} {t : Receiver}, Run Receiver.step Silent s events t →
      (∃ part, Framed payloads part t) ∧ t.consumed ++ t.inbox = payloads.flatMap frame := by
    intro events t hrun
    refine hrun.inv (I := fun t => (∃ part, Framed payloads part t) ∧
      t.consumed ++ t.inbox = payloads.flatMap frame) ⟨⟨part, h⟩, hall⟩ ?_
    rintro t e t' ⟨⟨part, ht⟩, hstream⟩ hok hs
    have hstep := step_cases hs
    exact ⟨ht.step ⟨hsends.sizes, hstream ▸ List.prefix_rfl⟩ hok.1 hstep,
      (stream_silent hok hstep).trans hstream⟩
  induction hrun with
  | nil => exact .inl (by simp)
  | @snoc events t t' e hrun hok hs ih =>
      obtain ⟨⟨part, ht⟩, hstream⟩ := hinv hrun
      obtain ⟨⟨part', ht'⟩, -⟩ := hinv (hrun.snoc hok hs)
      have hstep := step_cases hs
      have hmono := completed_step hstep
      have hle := ht'.le
      obtain hwork | hdone := ih
      · obtain hless | hinbox :=
          ht.work_step ⟨hsends.sizes, hstream ▸ List.prefix_rfl⟩ hok hstep
        · refine .inl ?_
          rw [List.length_append, List.length_singleton]
          omega
        · -- nothing is there, so that everything has been read
          rw [hinbox, List.append_nil] at hstream
          have hdone := ht.completed_of_consumed hstream
          exact .inr (by omega)
      · exact .inr (by omega)

/-- The calls get on. -/
structure GetsOn (payloads : List (List UInt8)) (s : Receiver) : Prop where
  /-- a call can be made, or the one that is being made goes on -/
  enabled : ∃ e s', (e = .getRequest ∨ ∃ r, e = .read r) ∧ Fragmented s e ∧ s.step e = some s'
  /-- a call that returns has read something, or has found nothing to read -/
  returned : ∀ e s', Fragmented s e → s.step e = some s' →
    s.returns.length < s'.returns.length →
    s.consumed.length < s'.consumed.length ∨ e = .read (.err .EAGAIN) ∧ s.inbox = []
  /-- once all frames have been sent, a `read` that finds nothing says that all are completed -/
  drained : s.consumed ++ s.inbox = payloads.flatMap frame → ∀ s',
    s.step (.read (.err .EAGAIN)) = some s' → s'.completed.length = payloads.length
  /-- and all are completed before long, whatever the `read` calls return -/
  finishes : s.consumed ++ s.inbox = payloads.flatMap frame → ∀ events s',
    Run step Silent s events s' → 2 * s.inbox.length + 1 < events.length →
    s'.completed.length = payloads.length

theorem Framed.getsOn (h : Framed payloads part s) (hsends : Sends payloads s)
    (hcall : ∀ rs, s.call ≠ some (.done rs)) : GetsOn payloads s where
  enabled := h.enabled hsends hcall
  returned _ _ hok hs := h.returned hsends hok (step_cases hs)
  drained hall s' hs := by
    have hok : Fragmented s (.read (.err .EAGAIN)) := ⟨nofun, fun err heq => by cases heq; rfl⟩
    obtain ⟨part', h'⟩ := h.step hsends hok (step_cases hs)
    have hstream := (stream_silent ⟨hok, nofun⟩ (step_cases hs)).trans hall
    obtain ⟨hlt, -⟩ | ⟨-, hinbox⟩ := h.read_step hsends hok (step_cases hs)
    · cases step_cases hs <;> simp [took, bytesOf] at hlt
    · rw [hinbox, List.append_nil] at hall
      have hdone := h.completed_of_consumed hall
      have hmono := completed_step (step_cases hs)
      have hle := h'.le
      omega
  finishes hall events s' hrun hlong := by
    obtain hwork | hdone := h.finish hsends hall hrun
    · have hbound : s.work ≤ 2 * s.inbox.length + 1 := by
        unfold work
        split <;> omega
      omega
    · exact hdone

/-- **Framing**: however a stream of frames arrives and is cut by the `read` calls, every
call returns `kReadAll` or `kReadHalf`; the `j`-th call that returns `kReadAll` has the
payload of the `j`-th frame, and by then the frames up to this one have been read and
nothing else; once the whole stream has been read, every frame has been reported; and the calls
get on until then. -/
theorem framing_independent (fd : Int) (payloads : List (List UInt8)) (events : List Event)
    (s : Receiver)
    (hsizes : ∀ payload ∈ payloads, 1 ≤ payload.length ∧ payload.length ≤ System.maxPayload)
    (hrun : Run step Fragmented (start fd) events s)
    (hstream : s.consumed ++ s.inbox <+: payloads.flatMap frame) :
    (∀ x ∈ s.returns, x.status = .kReadAll ∨ x.status = .kReadHalf) ∧
      (∀ j x, s.completed[j]? = some x →
        payloads[j]? = some x.reply ∧ x.consumed = (payloads.take (j + 1)).flatMap frame) ∧
      (s.consumed = payloads.flatMap frame → s.completed.length = payloads.length) ∧
      GetsOn payloads s := by
  obtain ⟨part, h⟩ := framed_of_run hrun ⟨hsizes, hstream⟩
  exact ⟨h.status, h.inOrder, h.completed_of_consumed,
    h.getsOn ⟨hsizes, hstream⟩ (call_of_run hrun)⟩

/-- Two frames, cut in the header and in the payload. -/
def cutEvents : List Event :=
  [.send [2, 0], .getRequest, .read (.ret [2, 0]), .getRequest, .read (.err .EAGAIN),
    .send [0, 0, 97, 98, 1, 0, 0, 0, 99], .getRequest, .read (.ret [0]), .getRequest,
    .read (.ret [0]), .read (.ret [97]), .getRequest, .read (.ret [98]), .getRequest,
    .read (.ret [1, 0, 0, 0]), .read (.ret [99])]

/-- A test for `Fragmented`. -/
def fragmentedb : Event → Bool
  | .shutdown => false
  | .read (.err err) => err = .EAGAIN
  | _ => true

theorem fragmented_of_fragmentedb (h : fragmentedb e = true) : Fragmented s e := by
  refine ⟨?_, fun err heq => ?_⟩
  · rintro rfl
    contradiction
  · subst heq
    simpa [fragmentedb] using h

theorem framing_independent_cut : ∃ s, Run step Fragmented (start 4) cutEvents s ∧
    s.completed.length = 2 ∧
    (∀ (j : Nat) (x : Return), s.completed[j]? = some x → [[97, 98], [99]][j]? = some x.reply) ∧
    GetsOn [[97, 98], [99]] s := by
  have hexec : (exec step (fun _ e => fragmentedb e) (start 4) cutEvents).map
      (fun s => (s.consumed, s.inbox)) =
        some ([2, 0, 0, 0, 97, 98, 1, 0, 0, 0, 99], []) := by decide +kernel
  obtain ⟨s, hrun, hobs⟩ := exists_run_of_exec _ _ hexec
  obtain ⟨hconsumed, hinbox⟩ := Prod.mk.inj hobs
  replace hrun : Run step Fragmented _ _ _ := hrun.mono fun _ _ => fragmented_of_fragmentedb
  obtain ⟨-, hinOrder, hall, hgets⟩ := framing_independent 4 [[97, 98], [99]] cutEvents s
    (by decide) hrun (by rw [hconsumed, hinbox]; decide)
  exact ⟨s, hrun, hall hconsumed, fun j x hx => (hinOrder j x hx).1, hgets⟩

end SysDemos.HotUpgrade.Receiver
