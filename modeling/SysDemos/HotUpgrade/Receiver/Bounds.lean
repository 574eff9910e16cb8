import SysDemos.HotUpgrade.Receiver
import SysDemos.Lib.Lts

/-!
# SysDemos.HotUpgrade.Receiver.Bounds

What `GetRequest` does with the length that a client declares, for every stream of
bytes.

The length is an `int`; the check adds `HEADER_LEN` to it as a `size_t`.  A length from
`-4` to `-1` wraps around to a sum from 0 to 3 and passes, and the `read` of the payload
then asks for almost `2 ^ 64` bytes.

* `bounded_iff` — the buffer bounds hold exactly unless the length wraps around.
-/

namespace SysDemos.HotUpgrade

open InetConn (GetRequest)
open Lts

/-- The frame with this length fits into the buffer. -/
def Fits (requestLen : Int) : Prop := 0 ≤ requestLen ∧ requestLen + headerLen ≤ readBufferSize

/-- The length is negative, but the sum of the length check is not. -/
def Wraps (requestLen : Int) : Prop := -(headerLen : Int) ≤ requestLen ∧ requestLen < 0

/-! ## the length check -/

namespace InetConn

variable {c : InetConn} {bs : List UInt8}

/-- `request_len` is a 32-bit number. -/
theorem requestLen_bounds (c : InetConn) :
    -(2 ^ 31) ≤ c.requestLen ∧ c.requestLen ≤ 2 ^ 31 := by
  have hlen : (c.readBuf.take headerLen).length ≤ 4 := List.length_take_le _ _
  have hbounds := Bytes.toInt_bounds hlen
  unfold requestLen
  omega

/-- What the length check lets pass. -/
theorem checkLength_eq_payload_iff :
    c.checkLength = .payload ↔ Fits c.requestLen ∨ Wraps c.requestLen := by
  have hbounds := c.requestLen_bounds
  have hheader : headerLen = 4 := rfl
  have hbuffer : readBufferSize = 1048576 := rfl
  unfold checkLength Fits Wraps sizeT
  split
  · simp only [reduceCtorEq, false_iff]
    omega
  · simp only [true_iff]
    omega

/-- The `read` of the payload asks for the rest of a frame that fits. -/
theorem payloadCount_of_fits (h : Fits c.requestLen)
    (hpos : c.lastReadPos ≤ headerLen + c.requestLen) :
    (c.payloadCount : Int) = headerLen + c.requestLen - c.lastReadPos := by
  have hbuffer : readBufferSize = 1048576 := rfl
  unfold Fits at h
  unfold payloadCount sizeT
  omega

/-- The `read` of the payload asks for almost all of the address space if the length
wraps around. -/
theorem payloadCount_of_wraps (h : Wraps c.requestLen) (hpos : c.lastReadPos = headerLen) :
    2 ^ 63 ≤ c.payloadCount := by
  have hheader : headerLen = 4 := rfl
  unfold Wraps at h
  unfold payloadCount sizeT
  omega

/-- Behind the header, what is read does not change the length. -/
theorem requestLen_store (hbuf : c.lastReadPos ≤ c.readBuf.length)
    (hpos : headerLen ≤ c.lastReadPos) : (c.store bs).requestLen = c.requestLen := by
  unfold requestLen store Bytes.writeAt
  rw [List.append_assoc, List.take_append_of_le_length (by rw [List.length_take]; omega),
    List.take_take, Nat.min_eq_left hpos]

/-- The position is inside the buffer and, behind the header, inside the frame. -/
structure Sane (c : InetConn) : Prop where
  buf : c.lastReadPos ≤ c.readBuf.length
  within : headerLen < c.lastReadPos →
    Fits c.requestLen ∧ c.lastReadPos < headerLen + c.requestLen

theorem sane_create (fd : Int) : Sane (create fd) := ⟨Nat.le_refl 0, nofun⟩

theorem Sane.store_buf (h : Sane c) (bs : List UInt8) :
    (c.store bs).lastReadPos ≤ (c.store bs).readBuf.length := Bytes.le_length_writeAt bs h.buf

/-- With the header read, either no more has been read or the frame fits. -/
theorem Sane.cases (h : Sane c) (hpos : headerLen ≤ c.lastReadPos) :
    c.lastReadPos = headerLen ∨ Fits c.requestLen ∧ c.lastReadPos < headerLen + c.requestLen :=
  (Nat.eq_or_lt_of_le hpos).imp Eq.symm h.within

/-- After the `read` of the header. -/
theorem Sane.onHeader (h : Sane c) (hpos : c.lastReadPos < headerLen)
    (hlen : bs.length ≤ c.headerCount) (hne : bs ≠ []) :
    Sane (c.store bs) ∧ c.onHeader (.ret bs) = (c.store bs,
      if (c.store bs).lastReadPos < headerLen then .done .kReadHalf
      else (c.store bs).checkLength) := by
  have hstored : (c.store bs).lastReadPos ≤ headerLen := by
    unfold headerCount at hlen
    simp only [store]
    omega
  refine ⟨⟨h.store_buf bs, fun hlt => absurd hlt (by omega)⟩, ?_⟩
  cases bs with
  | nil => contradiction
  | cons b bs =>
      simp only [InetConn.onHeader]
      split <;> rfl

/-- After the `read` of the payload: a part of the frame is missing, or it is
complete. -/
theorem Sane.onPayload (h : Sane c) (hpos : headerLen ≤ c.lastReadPos)
    (hcheck : c.checkLength = .payload) (hlen : bs.length ≤ c.payloadCount)
    (hcount : c.payloadCount < 2 ^ 63) (hne : bs ≠ []) :
    Fits c.requestLen ∧
      (c.onPayload (.ret bs) = (c.store bs, .kReadHalf) ∧ Sane (c.store bs) ∧
          (c.store bs).lastReadPos < headerLen + c.requestLen ∨
        c.onPayload (.ret bs) =
            ({ c.store bs with
                reply := ((c.store bs).readBuf.drop headerLen).take c.requestLen.toNat
                lastReadPos := 0 }, .kReadAll) ∧
          (c.store bs).lastReadPos = headerLen + c.requestLen) := by
  have hreq : (c.store bs).requestLen = c.requestLen := requestLen_store h.buf hpos
  have hfits : Fits c.requestLen := by
    obtain hstart | hin := h.cases hpos
    · refine (checkLength_eq_payload_iff.mp hcheck).resolve_right fun hwraps => ?_
      have hhuge := payloadCount_of_wraps hwraps hstart
      omega
    · exact hin.1
  have hle : c.lastReadPos ≤ headerLen + c.requestLen := by
    obtain hstart | hin := h.cases hpos
    · have hnonneg := hfits.1
      omega
    · omega
  have hcountEq := payloadCount_of_fits hfits hle
  have hstored : ((c.store bs).lastReadPos : Int) ≤ headerLen + c.requestLen := by
    simp only [store]
    omega
  have hsize : (sizeT (headerLen + c.requestLen) : Int) = headerLen + c.requestLen := by
    have hbuffer : readBufferSize = 1048576 := rfl
    unfold Fits at hfits
    unfold sizeT
    omega
  refine ⟨hfits, ?_⟩
  cases bs with
  | nil => contradiction
  | cons b bs =>
      simp only [InetConn.onPayload, hreq]
      split
      · next hlt =>
          have hlt' : ((c.store (b :: bs)).lastReadPos : Int) < headerLen + c.requestLen := by omega
          exact .inl ⟨rfl, ⟨h.store_buf _, fun _ => by rw [hreq]; exact ⟨hfits, hlt'⟩⟩, hlt'⟩
      · next hge => exact .inr ⟨rfl, by omega⟩

end InetConn

/-! ## runs -/

namespace Receiver

variable {s s' : Receiver} {e : Event}

/-- What is known of a connection between two steps. -/
structure Inv (s : Receiver) : Prop where
  conn : s.conn.Sane
  header : s.call = some .header → s.conn.lastReadPos < headerLen
  payload : s.call = some .payload → headerLen ≤ s.conn.lastReadPos ∧ s.conn.checkLength = .payload
  running : ∀ rs, s.call ≠ some (.done rs)
  full : s.call = none → headerLen ≤ s.conn.lastReadPos →
    (s.last = some .kFullError ↔ s.conn.checkLength ≠ .payload)
  built : s.call = none → s.last = some .kReadAll → Fits s.conn.requestLen

/-- A call returns. -/
theorem inv_done {rs : ReadStatus} (h : s.conn.Sane)
    (hfull : headerLen ≤ s.conn.lastReadPos → (rs = .kFullError ↔ s.conn.checkLength ≠ .payload))
    (hbuilt : rs = .kReadAll → Fits s.conn.requestLen) : Inv (s.proceed (.done rs)) where
  conn := h
  header := nofun
  payload := nofun
  running := nofun
  full _ hpos := by rw [last_done, Option.some.injEq]; exact hfull hpos
  built _ hlast := hbuilt (by simpa using hlast)

/-- A call has a whole header. -/
theorem inv_checkLength (h : s.conn.Sane) (hpos : headerLen ≤ s.conn.lastReadPos) :
    Inv (s.proceed s.conn.checkLength) := by
  by_cases hcheck : s.conn.checkLength = .payload
  · rw [hcheck]
    exact ⟨h, nofun, fun _ => ⟨hpos, hcheck⟩, nofun, nofun, nofun⟩
  · rw [s.conn.checkLength_cases.resolve_left hcheck]
    exact inv_done h (fun _ => iff_of_true rfl hcheck) nofun

theorem Inv.step (h : Inv s) (hs : Step s e s') : Inv s' := by
  cases hs with
  | send => exact ⟨h.conn, h.header, h.payload, h.running, h.full, h.built⟩
  | shutdown => exact ⟨h.conn, h.header, h.payload, h.running, h.full, h.built⟩
  | getRequest hcall =>
      unfold InetConn.getRequest
      split
      · next hpos => exact ⟨h.conn, fun _ => hpos, nofun, nofun, nofun, nofun⟩
      · next hpos => exact inv_checkLength h.conn (Nat.le_of_not_lt hpos)
  | @header r hcall hr =>
      have hpos := h.header hcall
      have hstay : ∀ rs, rs ≠ .kReadAll → Inv ((s.took r s.conn).proceed (.done rs)) := by
        intro rs hrs
        exact inv_done h.conn (fun hge => absurd hge (by dsimp only [took]; omega))
          fun heq => absurd heq hrs
      cases r with
      | err e => exact hstay (InetConn.readFailure e) (by cases e <;> decide)
      | ret bs =>
          by_cases hne : bs = []
          · subst hne
            exact hstay .kReadClose (by decide)
          · obtain ⟨hsane, heq⟩ := h.conn.onHeader hpos (hr.of_ne_nil hne).2.1 hne
            rw [heq]
            dsimp only
            split
            · next hlt =>
                exact inv_done hsane (fun hge => absurd hge (by dsimp only [took]; omega)) nofun
            · next hge =>
                exact inv_checkLength (s := s.took (.ret bs) (s.conn.store bs)) hsane
                  (Nat.le_of_not_lt hge)
  | @payload r hcall hr =>
      obtain ⟨hpos, hcheck⟩ := h.payload hcall
      have hstay : ∀ rs, rs ≠ .kReadAll → rs ≠ .kFullError →
          Inv ((s.took r s.conn).proceed (.done rs)) := fun rs hrs hfull =>
        inv_done h.conn (fun _ => iff_of_false hfull (not_not.mpr hcheck)) fun heq => absurd heq hrs
      cases r with
      | err e =>
          exact hstay (InetConn.readFailure e) (by cases e <;> decide) (by cases e <;> decide)
      | ret bs =>
          by_cases hne : bs = []
          · subst hne
            exact hstay .kReadClose (by decide) (by decide)
          · obtain ⟨-, hlen, hcount⟩ := hr.of_ne_nil hne
            have hreq : (s.conn.store bs).requestLen = s.conn.requestLen :=
              InetConn.requestLen_store h.conn.buf hpos
            obtain ⟨hfits, ⟨heq, hsane, -⟩ | ⟨heq, -⟩⟩ :=
              h.conn.onPayload hpos hcheck hlen hcount hne
            · rw [heq]
              refine inv_done hsane (fun _ => iff_of_false nofun (not_not.mpr ?_)) nofun
              exact InetConn.checkLength_eq_payload_iff.mpr (.inl (hreq.symm ▸ hfits))
            · rw [heq]
              refine inv_done ⟨Nat.zero_le _, nofun⟩
                (fun hge => absurd hge (show ¬ headerLen ≤ 0 by decide)) fun _ => ?_
              exact hreq.symm ▸ hfits

theorem inv_start (fd : Int) : Inv (start fd) :=
  ⟨InetConn.sane_create fd, nofun, nofun, nofun,
    fun _ hpos => absurd hpos (show ¬ headerLen ≤ 0 by decide), nofun⟩

theorem inv_of_run {fd : Int} {events : List Event} (hrun : Run step any (start fd) events s) :
    Inv s :=
  Run.inv (I := Inv) (inv_start fd) (fun _ _ _ h _ hs => h.step (step_cases hs)) hrun

/-! ## the buffer -/

/-- The count of the `read` that a call waits for. -/
def asks (s : Receiver) : Option Nat :=
  match s.call with
  | some .header => some s.conn.headerCount
  | some .payload => some s.conn.payloadCount
  | _ => none

/-- The bounds of `read_buf_`: a `read` asks for no more than there is room for, the
position is inside the buffer, the length of a reply is that of a part of the buffer, and
a header whose frame does not fit is refused. -/
structure Bounded (s : Receiver) : Prop where
  asks : ∀ count, s.asks = some count → count ≤ readBufferSize - s.conn.lastReadPos
  pos : s.conn.lastReadPos ≤ readBufferSize
  reply : s.call = none → s.last = some .kReadAll →
    sizeT s.conn.requestLen ≤ readBufferSize - headerLen
  refused : headerLen ≤ s.conn.lastReadPos → ¬ Fits s.conn.requestLen →
    s.conn.lastReadPos = headerLen ∧ s.call = none ∧ s.last = some .kFullError

theorem Inv.pos_le (h : Inv s) : s.conn.lastReadPos ≤ readBufferSize := by
  have hbuffer : headerLen ≤ readBufferSize := by decide
  by_cases hpos : headerLen < s.conn.lastReadPos
  · obtain ⟨hfits, hlt⟩ := h.conn.within hpos
    unfold Fits at hfits
    omega
  · omega

theorem Inv.bounded (h : Inv s)
    (hnot : ¬ (headerLen ≤ s.conn.lastReadPos ∧ Wraps s.conn.requestLen)) : Bounded s := by
  have hbuffer : headerLen + 4 ≤ readBufferSize := by decide
  refine ⟨fun count hcount => ?_, h.pos_le, fun hcall hlast => ?_, fun hpos hmisfit => ?_⟩
  · unfold Receiver.asks at hcount
    split at hcount
    · next hcall =>
        cases hcount
        unfold InetConn.headerCount
        omega
    · next hcall =>
        cases hcount
        obtain ⟨hpos, hcheck⟩ := h.payload hcall
        have hfits := (InetConn.checkLength_eq_payload_iff.mp hcheck).resolve_right
          fun hwraps => hnot ⟨hpos, hwraps⟩
        have hle : s.conn.lastReadPos ≤ headerLen + s.conn.requestLen := by
          obtain hstart | hin := h.conn.cases hpos
          · have hnonneg := hfits.1
            omega
          · omega
        have hcount := InetConn.payloadCount_of_fits hfits hle
        unfold Fits at hfits
        omega
    · contradiction
  · have hfits := h.built hcall hlast
    have hsize : readBufferSize = 1048576 := rfl
    unfold Fits at hfits
    unfold sizeT
    omega
  · have hcheck : s.conn.checkLength ≠ .payload := fun heq =>
      (InetConn.checkLength_eq_payload_iff.mp heq).elim hmisfit fun hwraps => hnot ⟨hpos, hwraps⟩
    have hcall : s.call = none := by
      cases hcall : s.call with
      | none => rfl
      | some g =>
          cases g with
          | header => exact absurd (h.header hcall) (Nat.not_lt.mpr hpos)
          | payload => exact absurd (h.payload hcall).2 hcheck
          | done rs => exact absurd hcall (h.running rs)
    exact ⟨(h.conn.cases hpos).resolve_right fun hin => hmisfit hin.1, hcall,
      (h.full hcall hpos).mpr hcheck⟩

/-- **Buffer bounds**: for every stream of bytes and every fragmentation, the bounds hold
exactly unless the header that has been read declares a length from `-4` to `-1`. -/
theorem bounded_iff (fd : Int) (events : List Event) (s : Receiver)
    (hrun : Run step any (start fd) events s) :
    Bounded s ↔ ¬ (headerLen ≤ s.conn.lastReadPos ∧ Wraps s.conn.requestLen) := by
  have hinv := inv_of_run hrun
  refine ⟨fun hbounded ⟨hpos, hwraps⟩ => ?_, hinv.bounded⟩
  have hmisfit : ¬ Fits s.conn.requestLen := fun hfits => absurd hfits.1 (Int.not_le.mpr hwraps.2)
  obtain ⟨-, hcall, hlast⟩ := hbounded.refused hpos hmisfit
  exact (hinv.full hcall hpos).mp hlast (InetConn.checkLength_eq_payload_iff.mpr (.inr hwraps))

/-- A client that sends `header`, which one `read` returns. -/
def headerEvents (header : List UInt8) : List Event :=
  [.send header, .getRequest, .read (.ret header)]

/-- With the length `-1` the `read` of the payload asks for `2 ^ 64 - 1` bytes. -/
theorem not_bounded_minus_one : ¬ ∀ (fd : Int) (events : List Event) (s : Receiver),
    Run step any (start fd) events s → Bounded s := by
  intro hall
  have hexec : (exec step (fun _ _ => true) (start 4) (headerEvents [255, 255, 255, 255])).map
      (fun s => (s.asks, s.conn.lastReadPos)) = some (some (2 ^ 64 - 1), 4) := by decide +kernel
  obtain ⟨s, hrun, hobs⟩ := exists_run_of_exec _ _ hexec
  obtain ⟨hasks, -⟩ := Prod.mk.inj hobs
  have hle := (hall 4 _ s hrun.toAny).asks _ hasks
  unfold readBufferSize at hle
  omega

/-- A length that is one too large is refused. -/
theorem bounded_iff_too_long : ∃ s : Receiver,
    Run step any (start 4) (headerEvents [253, 255, 15, 0]) s ∧
    s.last = some .kFullError ∧ s.conn.requestLen = 1048573 ∧ Bounded s := by
  have hexec : (exec step (fun _ _ => true) (start 4) (headerEvents [253, 255, 15, 0])).map
      (fun s => (s.last, s.conn.requestLen)) = some (some .kFullError, 1048573) := by
    decide +kernel
  obtain ⟨s, hrun, hobs⟩ := exists_run_of_exec _ _ hexec
  obtain ⟨hlast, hlen⟩ := Prod.mk.inj hobs
  refine ⟨s, hrun.toAny, hlast, hlen, (bounded_iff 4 _ s hrun.toAny).mpr ?_⟩
  rintro ⟨-, hwraps⟩
  exact absurd hwraps.2 (by rw [hlen]; decide)

end Receiver

end SysDemos.HotUpgrade
