import SysDemos.HotUpgrade.Receiver.Bounds

/-!
# SysDemos.HotUpgrade.Receiver.Close

When `GetRequest` reports that the client has closed the connection.

It takes a `read` that returns 0 for the end of the stream.  A frame may declare the
length 0; the `read` of its payload asks for no bytes and returns 0 whatever is there.

* `close_iff` — a call reports the end of the stream for it alone, and a complete frame
  as such, exactly unless the frame is empty.
-/

namespace SysDemos.HotUpgrade.Receiver

open InetConn (GetRequest)
open Lts

variable {s s' : Receiver} {e : Event}

/-- The buffer holds a complete frame. -/
def HoldsFrame (c : InetConn) : Prop :=
  headerLen ≤ c.lastReadPos ∧ Fits c.requestLen ∧ c.lastReadPos = headerLen + c.requestLen

/-- The event completes a frame. -/
def Completes (s : Receiver) : Event → Prop
  | .read (.ret bs) => HoldsFrame (s.conn.store bs)
  | _ => False

/-- A step that makes a call return. -/
theorem proceed_returns {g : GetRequest} {x : Return} {returns : List Return}
    (hreturns : s.returns = returns) (h : (s.proceed g).returns = returns ++ [x]) :
    g = .done x.status := by
  cases g with
  | header => simp [proceed, hreturns] at h
  | payload => simp [proceed, hreturns] at h
  | done rs =>
      simp only [proceed, hreturns, List.append_cancel_left_eq, List.cons.injEq, and_true] at h
      rw [← h]

/-- Behind the header and before the `read` of the payload: bytes are asked for exactly if
the frame is not empty, and exactly then it is not complete. -/
theorem Inv.payloadCount_eq_zero_iff (h : Inv s) (hcall : s.call = some .payload) :
    (s.conn.payloadCount = 0 ↔ s.conn.requestLen = 0) ∧
      (HoldsFrame (s.conn.store []) ↔ s.conn.requestLen = 0) := by
  obtain ⟨hpos, hcheck⟩ := h.payload hcall
  have hheader : headerLen = 4 := rfl
  have hbuffer : readBufferSize = 1048576 := rfl
  have hreq : (s.conn.store []).requestLen = s.conn.requestLen :=
    InetConn.requestLen_store h.conn.buf hpos
  have hstore : (s.conn.store []).lastReadPos = s.conn.lastReadPos := rfl
  have hpassed := InetConn.checkLength_eq_payload_iff.mp hcheck
  unfold HoldsFrame
  rw [hreq, hstore]
  obtain hstart | ⟨hfits, hin⟩ := h.conn.cases hpos
  · obtain hfits | hwraps := hpassed
    · have hcount := InetConn.payloadCount_of_fits hfits (by unfold Fits at hfits; omega)
      refine ⟨by omega, fun ⟨_, _, heq⟩ => by omega, fun hzero => ⟨hpos, hfits, by omega⟩⟩
    · have hcount := InetConn.payloadCount_of_wraps hwraps hstart
      unfold Wraps at hwraps
      exact ⟨by omega, fun ⟨_, _, heq⟩ => by omega, fun hzero => by omega⟩
  · have hcount := InetConn.payloadCount_of_fits hfits (Int.le_of_lt hin)
    exact ⟨by omega, fun ⟨_, _, heq⟩ => by omega, fun hzero => by omega⟩

/-- A call reports the end of the stream for the end of the stream alone, and a complete
frame as such. -/
def Honest (s : Receiver) (e : Event) (rs : ReadStatus) : Prop :=
  (rs = .kReadClose → s.inbox = [] ∧ s.closed = true) ∧ (s.Completes e → rs = .kReadAll)

theorem Inv.honest_header {r : ReadRet} {rs : ReadStatus} (h : Inv s)
    (hcall : s.call = some .header) (hr : s.Answers s.conn.headerCount r)
    (hrs : (s.conn.onHeader r).2 = .done rs) : s.Honest (.read r) rs := by
  have hpos := h.header hcall
  cases r with
  | err e =>
      cases hrs
      exact ⟨fun heq => by cases e <;> contradiction, nofun⟩
  | ret bs =>
      by_cases hne : bs = []
      · subst hne
        cases hrs
        refine ⟨fun _ => hr.of_nil (by unfold InetConn.headerCount; omega), fun hframe => ?_⟩
        exact absurd hframe.1 (show ¬ headerLen ≤ s.conn.lastReadPos + 0 by omega)
      · obtain ⟨-, heq⟩ := h.conn.onHeader hpos (hr.of_ne_nil hne).2.1 hne
        rw [heq] at hrs
        dsimp only at hrs
        split at hrs
        · next hlt =>
            cases hrs
            exact ⟨nofun, fun hframe => absurd hframe.1 (Nat.not_le.mpr hlt)⟩
        · have hcheck : (s.conn.store bs).checkLength ≠ .payload := by
            rw [hrs]
            nofun
          rw [(s.conn.store bs).checkLength_cases.resolve_left hcheck] at hrs
          cases hrs
          exact ⟨nofun, fun hframe =>
            absurd (InetConn.checkLength_eq_payload_iff.mpr (.inl hframe.2.1)) hcheck⟩

theorem Inv.honest_payload {r : ReadRet} (h : Inv s) (hcall : s.call = some .payload)
    (hr : s.Answers s.conn.payloadCount r) (hne : s.conn.requestLen ≠ 0) :
    s.Honest (.read r) (s.conn.onPayload r).2 := by
  obtain ⟨hzero, hframe⟩ := h.payloadCount_eq_zero_iff hcall
  obtain ⟨hpos, hcheck⟩ := h.payload hcall
  cases r with
  | err e => exact ⟨fun heq => by cases e <;> contradiction, nofun⟩
  | ret bs =>
      by_cases hnil : bs = []
      · subst hnil
        exact ⟨fun _ => hr.of_nil (hzero.not.mpr hne), fun h => absurd (hframe.mp h) hne⟩
      · obtain ⟨-, hlen, hcount⟩ := hr.of_ne_nil hnil
        have hreq : (s.conn.store bs).requestLen = s.conn.requestLen :=
          InetConn.requestLen_store h.conn.buf hpos
        obtain ⟨-, ⟨heq, -, hlt⟩ | ⟨heq, -⟩⟩ := h.conn.onPayload hpos hcheck hlen hcount hnil
        · rw [heq]
          refine ⟨nofun, fun ⟨_, _, hfull⟩ => ?_⟩
          rw [hreq] at hfull
          omega
        · rw [heq]
          exact ⟨nofun, fun _ => rfl⟩

/-- With a length of 0 declared, the `read` of the payload returns 0, and the call reports
the end of the stream although it has got a complete frame. -/
theorem Inv.not_honest_empty {r : ReadRet} (h : Inv s) (hcall : s.call = some .payload)
    (hr : s.Answers s.conn.payloadCount r) (hzero : s.conn.requestLen = 0) :
    ¬ s.Honest (.read r) (s.conn.onPayload r).2 := by
  obtain ⟨hcount, hframe⟩ := h.payloadCount_eq_zero_iff hcall
  rw [hcount.mpr hzero] at hr
  have hnil : r = .ret [] := by
    cases r with
    | err e => cases e <;> simp [Answers] at hr
    | ret bs =>
        by_contra hne
        have hbs : bs ≠ [] := fun heq => hne (by rw [heq])
        exact hbs (List.length_eq_zero_iff.mp (Nat.le_zero.mp (hr.of_ne_nil hbs).2.1))
  subst hnil
  exact fun hhonest => nomatch hhonest.2 (hframe.mpr hzero)

/-- **The end of the stream**: for every stream of bytes and every fragmentation, a call
that returns reports the end of the stream only at its end, and a complete frame as such,
exactly unless it has read a header that declares the length 0. -/
theorem close_iff (fd : Int) (events : List Event) (s s' : Receiver) (e : Event) (x : Return)
    (hrun : Run step any (start fd) events s) (hs : s.step e = some s')
    (hret : s'.returns = s.returns ++ [x]) :
    s.Honest e x.status ↔ ¬ (s.call = some .payload ∧ s.conn.requestLen = 0) := by
  have hinv := inv_of_run hrun
  cases step_cases hs with
  | send => simp at hret
  | shutdown => simp at hret
  | getRequest hcall =>
      have hdone := proceed_returns rfl hret
      refine iff_of_true ⟨fun heq => ?_, nofun⟩ (by simp [hcall])
      -- a call that returns without a `read` has refused the header
      rw [heq] at hdone
      exact absurd (InetConn.eq_full_of_getRequest hdone) (by decide)
  | header hcall hr =>
      have hdone := proceed_returns rfl hret
      exact iff_of_true (hinv.honest_header hcall hr hdone) (by simp [hcall])
  | payload hcall hr =>
      rw [← GetRequest.done.inj (proceed_returns rfl hret)]
      by_cases hzero : s.conn.requestLen = 0
      · exact iff_of_false (hinv.not_honest_empty hcall hr hzero) (by simp [hcall, hzero])
      · exact iff_of_true (hinv.honest_payload hcall hr hzero) (by simp [hzero])

/-- A call of `GetRequest` that has read the header of a frame with the length `n`, and
another byte in the socket. -/
def afterHeader (n : UInt8) : Receiver :=
  { conn := (InetConn.create 4).store [n, 0, 0, 0], call := some .payload, inbox := [97]
    closed := false, consumed := [n, 0, 0, 0], returns := [] }

/-- The events that lead there. -/
def headerThenByte (n : UInt8) : List Event :=
  [.send [n, 0, 0, 0, 97], .getRequest, .read (.ret [n, 0, 0, 0])]

/-- An empty frame is reported as the end of the stream. -/
theorem not_close_empty_frame : ¬ ∀ (fd : Int) (events : List Event) (s s' : Receiver) (e : Event)
    (x : Return), Run step any (start fd) events s → s.step e = some s' →
    s'.returns = s.returns ++ [x] → s.Honest e x.status := by
  intro hall
  have hexec : exec step (fun _ _ => true) (start 4) (headerThenByte 0) = some (afterHeader 0) := by
    decide +kernel
  have hrun : Run step any (start 4) (headerThenByte 0) (afterHeader 0) :=
    (run_of_exec hexec).toAny
  have hstep : (afterHeader 0).step (.read (.ret [])) = some { afterHeader 0 with
      call := none
      returns := [{ status := .kReadClose, reply := [], consumed := [0, 0, 0, 0] }] } := by
    decide +kernel
  have hhonest := hall _ _ _ _ _ _ hrun hstep rfl
  exact absurd (hhonest.1 rfl).1 (by decide)

/-- A frame of one byte is reported as such. -/
theorem close_iff_one_byte : Run step any (start 4) (headerThenByte 1) (afterHeader 1) ∧
    ∃ s', (afterHeader 1).step (.read (.ret [97])) = some s' ∧
      s'.last = some .kReadAll ∧ (afterHeader 1).Honest (.read (.ret [97])) .kReadAll := by
  have hexec : exec step (fun _ _ => true) (start 4) (headerThenByte 1) = some (afterHeader 1) := by
    decide +kernel
  have hrun : Run step any (start 4) (headerThenByte 1) (afterHeader 1) :=
    (run_of_exec hexec).toAny
  have hstep : (afterHeader 1).step (.read (.ret [97])) = some { afterHeader 1 with
      conn := { (InetConn.create 4).store [1, 0, 0, 0, 97] with reply := [97], lastReadPos := 0 }
      call := none
      inbox := []
      consumed := [1, 0, 0, 0, 97]
      returns := [{ status := .kReadAll, reply := [97], consumed := [1, 0, 0, 0, 97] }] } := by
    decide +kernel
  refine ⟨hrun, _, hstep, rfl, (close_iff 4 _ _ _ _ _ hrun hstep rfl).mpr ?_⟩
  rintro ⟨-, hzero⟩
  exact absurd hzero (by decide)

end SysDemos.HotUpgrade.Receiver
