import SysDemos.HotUpgrade.System

/-!
# SysDemos.HotUpgrade.Session

One session and its client.  A client sends frames; a server that holds the session is
reading the next one or writing back its payload (`Serving`).

* `Serving.onHeader`, `Serving.onPayload`, `Serving.sendReply` — what `GetRequest` and
  `SendReply` do to a session that is being served, however short the reads and
  writes are.
-/

namespace SysDemos.HotUpgrade

variable {t : Tcp} {k : Nat} {part out bs payload : List UInt8}

/-! ## frames -/

@[simp] theorem length_frame (payload : List UInt8) :
    (frame payload).length = headerLen + payload.length := by
  simp [frame]

theorem take_frame (payload : List UInt8) :
    (frame payload).take headerLen = Bytes.ofNat headerLen payload.length := by
  rw [frame, List.take_left' (Bytes.length_ofNat _ _)]

theorem drop_frame (payload : List UInt8) : (frame payload).drop headerLen = payload := by
  rw [frame, List.drop_left' (Bytes.length_ofNat _ _)]

/-- The length of a frame, as the code computes it. -/
theorem sizeT_frame {n : Nat} (h : n ≤ System.maxPayload) :
    sizeT (headerLen + (n : Int)) = headerLen + n := by
  have hmax : System.maxPayload = 1048572 := rfl
  have hheader : headerLen = 4 := rfl
  rw [← Int.natCast_add, sizeT_of_nat (by omega)]

/-- What has been read of a stream of frames belongs to the first of them, up to its
end. -/
theorem prefix_frame {xs q : List UInt8} {rest : List (List UInt8)}
    (hxs : xs <+: (payload :: rest).flatMap frame) (hq : q <+: xs)
    (hlen : q.length ≤ headerLen + payload.length) : q <+: frame payload := by
  rw [List.flatMap_cons] at hxs
  exact List.prefix_of_prefix_length_le (hq.trans hxs) (List.prefix_append _ _)
    (by rw [length_frame]; exact hlen)

/-! ## the client's side -/

namespace Tcp

/-- The bytes that have been read, by either server. -/
def consumed (t : Tcp) : List UInt8 := t.log.map (·.2)

/-- A server reads `bs`. -/
def read (t : Tcp) (pid : Pid) (bs : List UInt8) : Tcp :=
  { t with inbox := t.inbox.drop bs.length, log := t.log ++ bs.map fun b => (pid, b) }

/-- A server writes `bs`. -/
def write (t : Tcp) (bs : List UInt8) : Tcp := { t with received := t.received ++ bs }

/-- The client sends a frame. -/
def send (t : Tcp) (payload : List UInt8) : Tcp :=
  { t with payloads := t.payloads ++ [payload], inbox := t.inbox ++ frame payload }

/-- The client's stream consists of frames of the sizes allowed, and is read in order. -/
structure Wf (t : Tcp) : Prop where
  stream : t.consumed ++ t.inbox = t.payloads.flatMap frame
  sizes : ∀ payload ∈ t.payloads, 1 ≤ payload.length ∧ payload.length ≤ System.maxPayload

/-- Of the requests the first `k` have been read and answered; of the next one `part` has
been read, and `out` of its reply been written. -/
structure At (t : Tcp) (k : Nat) (part out : List UInt8) : Prop where
  le : k ≤ t.payloads.length
  consumed : t.consumed = (t.payloads.take k).flatMap frame ++ part
  received : t.received = (t.payloads.take k).flatten ++ out

@[simp] theorem consumed_read (t : Tcp) (pid : Pid) (bs : List UInt8) :
    (t.read pid bs).consumed = t.consumed ++ bs := by
  simp [consumed, read, Function.comp_def]

theorem Wf.read (h : Wf t) (pid : Pid) (hbs : bs <+: t.inbox) : Wf (t.read pid bs) := by
  refine ⟨?_, h.sizes⟩
  obtain ⟨rest, hrest⟩ := hbs
  have hinbox : (t.read pid bs).inbox = rest := by
    show t.inbox.drop bs.length = rest
    rw [← hrest, List.drop_left]
  rw [consumed_read, hinbox, List.append_assoc, hrest]
  exact h.stream

theorem Wf.write (h : Wf t) (bs : List UInt8) : Wf (t.write bs) := ⟨h.stream, h.sizes⟩

theorem Wf.send (h : Wf t) (hsize : 1 ≤ payload.length ∧ payload.length ≤ System.maxPayload) :
    Wf (t.send payload) := by
  constructor
  · show t.consumed ++ (t.inbox ++ frame payload) = (t.payloads ++ [payload]).flatMap frame
    rw [← List.append_assoc, h.stream]
    simp
  · intro payload' hmem
    obtain hold | hnew := List.mem_append.mp hmem
    · exact h.sizes payload' hold
    · rw [List.mem_singleton.mp hnew]
      exact hsize

namespace At

theorem read (h : t.At k part out) (pid : Pid) (bs : List UInt8) :
    (t.read pid bs).At k (part ++ bs) out := by
  refine ⟨h.le, ?_, h.received⟩
  rw [consumed_read, h.consumed, List.append_assoc]
  rfl

theorem write (h : t.At k part out) (bs : List UInt8) : (t.write bs).At k part (out ++ bs) := by
  refine ⟨h.le, h.consumed, ?_⟩
  show t.received ++ bs = _
  rw [h.received, List.append_assoc]
  rfl

theorem send (h : t.At k part out) (payload : List UInt8) : (t.send payload).At k part out := by
  have htake : (t.send payload).payloads.take k = t.payloads.take k :=
    List.take_append_of_le_length h.le
  refine ⟨?_, ?_, ?_⟩
  · exact Nat.le_trans h.le (by simp [Tcp.send])
  · rw [htake]
    exact h.consumed
  · rw [htake]
    exact h.received

/-- A request that has been read and answered counts. -/
theorem next (h : t.At k (frame payload) payload) (hk : t.payloads[k]? = some payload) :
    t.At (k + 1) [] [] := by
  obtain ⟨hlt, -⟩ := List.getElem?_eq_some_iff.mp hk
  have htake : t.payloads.take (k + 1) = t.payloads.take k ++ [payload] := by
    rw [List.take_add_one, hk]
    rfl
  refine ⟨hlt, ?_, ?_⟩
  · rw [h.consumed, htake]
    simp
  · rw [h.received, htake]
    simp

/-- What is still to be read is the rest of the frames. -/
theorem unread (h : t.At k part out) (hwf : Wf t) :
    part ++ t.inbox = (t.payloads.drop k).flatMap frame := by
  have hstream := hwf.stream
  rw [h.consumed, List.append_assoc] at hstream
  conv at hstream => rhs; rw [← List.take_append_drop k t.payloads, List.flatMap_append]
  exact List.append_cancel_left hstream

/-- Bytes that can be read belong to a next frame. -/
theorem next_frame (h : t.At k part out) (hwf : Wf t) (hbs : bs <+: t.inbox) (hne : bs ≠ []) :
    ∃ payload, t.payloads[k]? = some payload ∧ 1 ≤ payload.length ∧
      payload.length ≤ System.maxPayload ∧
      ∀ q, q <+: part ++ bs → q.length ≤ headerLen + payload.length → q <+: frame payload := by
  have hprefix : part ++ bs <+: (t.payloads.drop k).flatMap frame := by
    rw [← h.unread hwf]
    exact (List.prefix_append_right_inj part).mpr hbs
  cases hdrop : t.payloads.drop k with
  | nil =>
      rw [hdrop] at hprefix
      simp [hne] at hprefix
  | cons payload rest =>
      have hk : t.payloads[k]? = some payload := by
        rw [← List.head?_drop, hdrop]
        rfl
      have hsize := hwf.sizes payload (List.mem_of_getElem? hk)
      rw [hdrop] at hprefix
      exact ⟨payload, hk, hsize.1, hsize.2, fun q hq hlen => prefix_frame hprefix hq hlen⟩

/-- What has been written are the first bytes of the payloads. -/
theorem received_prefix (h : t.At k part out) (hout : out <+: (t.payloads.drop k).flatten) :
    t.received <+: t.payloads.flatten := by
  conv => rhs; rw [← List.take_append_drop k t.payloads, List.flatten_append]
  rw [h.received]
  exact (List.prefix_append_right_inj _).mpr hout

end At

/-- Who has read the client's bytes: the old server, or the old one whole frames and then
the new one. -/
def ReadBy (t : Tcp) : Pid → Prop
  | .old => ∃ bs : List UInt8, t.log = bs.map (Pid.old, ·)
  | .new => ∃ (k : Nat) (bs : List UInt8), k ≤ t.payloads.length ∧
      t.log = ((t.payloads.take k).flatMap frame).map (Pid.old, ·) ++ bs.map (Pid.new, ·)

theorem ReadBy.read {pid : Pid} (h : t.ReadBy pid) (bs : List UInt8) :
    (t.read pid bs).ReadBy pid := by
  cases pid with
  | old =>
      obtain ⟨bs', hlog⟩ := h
      exact ⟨bs' ++ bs, by simp [Tcp.read, hlog]⟩
  | new =>
      obtain ⟨k, bs', hle, hlog⟩ := h
      exact ⟨k, bs' ++ bs, hle, by simp [Tcp.read, hlog]⟩

theorem ReadBy.send {pid : Pid} (h : t.ReadBy pid) (payload : List UInt8) :
    (t.send payload).ReadBy pid := by
  cases pid with
  | old => exact h
  | new =>
      obtain ⟨k, bs, hle, hlog⟩ := h
      refine ⟨k, bs, Nat.le_trans hle (by simp [Tcp.send]), ?_⟩
      have htake : (t.send payload).payloads.take k = t.payloads.take k :=
        List.take_append_of_le_length hle
      rw [htake]
      exact hlog

/-- Between two requests a session can change hands. -/
theorem ReadBy.handOver (h : t.ReadBy .old) (hat : t.At k [] []) : t.ReadBy .new := by
  obtain ⟨bs, hlog⟩ := h
  have hbs : bs = (t.payloads.take k).flatMap frame := by
    have hconsumed := hat.consumed
    simpa [Tcp.consumed, hlog, Function.comp_def] using hconsumed
  exact ⟨k, [], hat.le, by simp [hlog, hbs]⟩

/-- Nothing has been read yet. -/
theorem readBy_of_nil (h : t.At 0 [] []) (pid : Pid) : t.ReadBy pid := by
  have hlog : t.log = [] := by simpa [Tcp.consumed] using h.consumed
  cases pid with
  | old => exact ⟨[], hlog⟩
  | new => exact ⟨0, [], Nat.zero_le _, by simp [hlog]⟩

end Tcp

/-! ## the server's side -/

/-- `read_buf_` holds `part` of a frame. -/
structure Reading (conn : InetConn) (part : List UInt8) : Prop where
  lastReadPos : conn.lastReadPos = part.length
  readBuf : conn.readBuf.take part.length = part
  lastWritePos : conn.lastWritePos = 0

namespace Reading

variable {conn : InetConn}

theorem store (h : Reading conn part) (bs : List UInt8) : Reading (conn.store bs) (part ++ bs) := by
  have hle : conn.lastReadPos ≤ conn.readBuf.length := by
    have hlen := congrArg List.length h.readBuf
    rw [List.length_take] at hlen
    rw [h.lastReadPos]
    omega
  refine ⟨?_, ?_, h.lastWritePos⟩
  · simp [InetConn.store, h.lastReadPos]
  · have htake := Bytes.take_writeAt bs hle
    rw [h.lastReadPos, h.readBuf] at htake
    rw [List.length_append, InetConn.store, h.lastReadPos]
    exact htake

/-- The length in the header is that of the payload. -/
theorem requestLen (h : Reading conn part) (hpart : part <+: frame payload)
    (hlen : headerLen ≤ part.length) (hsize : payload.length ≤ System.maxPayload) :
    conn.requestLen = payload.length := by
  have htake : conn.readBuf.take headerLen = Bytes.ofNat headerLen payload.length := by
    rw [← take_frame, ← Nat.min_eq_left hlen, ← List.take_take, h.readBuf]
    obtain ⟨rest, hrest⟩ := hpart
    rw [← hrest, List.take_append_of_le_length (by omega)]
    simp [Nat.min_eq_left hlen]
  rw [InetConn.requestLen, htake, Bytes.toInt_ofNat]
  have hmax : System.maxPayload = 1048572 := rfl
  have hheader : headerLen = 4 := rfl
  rw [hheader]
  omega

theorem checkLength (h : Reading conn part) (hpart : part <+: frame payload)
    (hlen : headerLen ≤ part.length) (hsize : payload.length ≤ System.maxPayload) :
    conn.checkLength = .payload := by
  have hfits : ¬ headerLen + payload.length > readBufferSize := by
    have hmax : headerLen + System.maxPayload = readBufferSize := rfl
    omega
  rw [InetConn.checkLength, h.requestLen hpart hlen hsize, Int.add_comm, sizeT_frame hsize,
    if_neg hfits]

/-- The `read` of the header. -/
theorem onHeader (h : Reading conn part) (hne : bs ≠ []) (hpart : part ++ bs <+: frame payload)
    (hsize : payload.length ≤ System.maxPayload) :
    conn.onHeader (.ret bs) = (conn.store bs,
      if (part ++ bs).length < headerLen then .done .kReadHalf else .payload) := by
  have hstore := h.store bs
  cases bs with
  | nil => contradiction
  | cons b bs =>
      simp only [InetConn.onHeader, hstore.lastReadPos]
      split
      · rfl
      · next hlen => rw [hstore.checkLength hpart (by omega) hsize]

theorem payloadCount (h : Reading conn part) (hpart : part <+: frame payload)
    (hlen : headerLen ≤ part.length) (hsize : payload.length ≤ System.maxPayload) :
    conn.payloadCount = headerLen + payload.length - part.length := by
  have hle : part.length ≤ headerLen + payload.length := by
    rw [← length_frame]
    exact hpart.length_le
  have hmax : System.maxPayload = 1048572 := rfl
  have hheader : headerLen = 4 := rfl
  have hcast : (payload.length : Int) + headerLen - part.length =
      (headerLen + payload.length - part.length : Nat) := by omega
  rw [InetConn.payloadCount, h.requestLen hpart hlen hsize, h.lastReadPos, hcast,
    sizeT_of_nat (by omega)]

/-- The `read` of the payload. -/
theorem onPayload (h : Reading conn part) (hne : bs ≠ []) (hpart : part ++ bs <+: frame payload)
    (hlen : headerLen ≤ part.length) (hsize : payload.length ≤ System.maxPayload) :
    conn.onPayload (.ret bs) =
      if (part ++ bs).length < headerLen + payload.length then (conn.store bs, .kReadHalf)
      else ({ conn.store bs with reply := payload, lastReadPos := 0 }, .kReadAll) := by
  have hstore := h.store bs
  have hlen' : headerLen ≤ (part ++ bs).length := by
    rw [List.length_append]
    omega
  have hreq := hstore.requestLen hpart hlen' hsize
  cases bs with
  | nil => contradiction
  | cons b bs =>
      simp only [InetConn.onPayload, hstore.lastReadPos, hreq, sizeT_frame hsize]
      split
      · rfl
      · next hge =>
          have hfull : part ++ b :: bs = frame payload :=
            hpart.eq_of_length_le (by rw [length_frame]; omega)
          have hreply : ((conn.store (b :: bs)).readBuf.drop headerLen).take payload.length =
              payload := by
            have hbuf := congrArg (List.drop headerLen) hstore.readBuf
            rw [hfull, length_frame, List.drop_take, drop_frame] at hbuf
            rwa [Nat.add_sub_cancel_left] at hbuf
          rw [Int.toNat_natCast, hreply]

end Reading

/-! ## both sides -/

/-- A session that is being served.  The server is reading a request, and not registered
for output, or it is writing a reply, and not registered for input. -/
inductive Serving (reg : Option Interest) (conn : InetConn) (t : Tcp) : Prop
  | reading {k : Nat} {part : List UInt8} : t.At k part [] → Reading conn part →
      (∀ payload, t.payloads[k]? = some payload → part.length < headerLen + payload.length) →
      (∀ m, reg = some m → m.epollout = false) → Serving reg conn t
  | writing {k : Nat} {payload : List UInt8} : t.payloads[k]? = some payload →
      t.At k (frame payload) (payload.take conn.lastWritePos) → conn.reply = payload →
      conn.lastReadPos = 0 → conn.lastWritePos ≤ payload.length →
      (∀ m, reg = some m → m.epollin = false) → Serving reg conn t

namespace Serving

variable {reg : Option Interest} {conn : InetConn} {m : Interest}

/-- A session that has just been opened or has just been handed over. -/
theorem create (h : t.At k [] []) (hreg : ∀ m, reg = some m → m.epollout = false) (fd : Fd) :
    Serving reg (.create fd) t :=
  .reading h ⟨rfl, rfl, rfl⟩ (fun _ _ => Nat.lt_of_lt_of_le (by decide) (Nat.le_add_right _ _)) hreg

theorem send (h : Serving reg conn t) (hwf : t.Wf) (payload : List UInt8) :
    Serving reg conn (t.send payload) := by
  cases h with
  | @reading k part hat hreading hpart hreg =>
      refine .reading (hat.send payload) hreading (fun payload' hk => ?_) hreg
      replace hk : (t.payloads ++ [payload])[k]? = some payload' := hk
      by_cases hlt : k < t.payloads.length
      · rw [List.getElem?_append_left hlt] at hk
        exact hpart payload' hk
      · -- nothing had been sent after the first `k` frames, so nothing has been read of it
        have hunread := hat.unread hwf
        rw [List.drop_of_length_le (by omega)] at hunread
        have hnil : part = [] := (List.append_eq_nil_iff.mp hunread).1
        rw [hnil]
        exact Nat.lt_of_lt_of_le (by decide) (Nat.le_add_right _ _)
  | writing hk hat hreply hread hwrite hreg =>
      obtain ⟨hlt, -⟩ := List.getElem?_eq_some_iff.mp hk
      refine .writing ?_ (hat.send payload) hreply hread hwrite hreg
      exact (List.getElem?_append_left hlt).trans hk

/-- With nothing of a request read and waiting for input, no request is in hand. -/
theorem between (h : Serving reg conn t) (hreg : reg = some m) (hin : m.epollin = true)
    (hpos : conn.lastReadPos = 0) : ∃ k, t.At k [] [] := by
  cases h with
  | reading hat hreading =>
      rw [List.length_eq_zero_iff.mp (hreading.lastReadPos.symm.trans hpos)] at hat
      exact ⟨_, hat⟩
  | writing _ _ _ _ _ hout => simp [hout m hreg] at hin

theorem received_prefix (h : Serving reg conn t) : t.received <+: t.payloads.flatten := by
  cases h with
  | reading hat => exact hat.received_prefix List.nil_prefix
  | @writing k payload hk hat =>
      obtain ⟨hlt, hget⟩ := List.getElem?_eq_some_iff.mp hk
      refine hat.received_prefix ?_
      rw [List.drop_eq_getElem_cons hlt, hget, List.flatten_cons]
      exact (List.take_prefix _ _).trans (List.prefix_append _ _)

/-- The `read` of the header returns something. -/
theorem onHeader (h : Serving reg conn t) (hwf : t.Wf) (hreg : reg = some m)
    (hin : m.epollin = true) (hpos : conn.lastReadPos < headerLen)
    (hcount : bs.length ≤ conn.headerCount) (hne : bs ≠ []) (hbs : bs <+: t.inbox) (pid : Pid) :
    Serving reg (conn.onHeader (.ret bs)).1 (t.read pid bs) ∧
      ((conn.onHeader (.ret bs)).2 = .done .kReadHalf ∨
        (conn.onHeader (.ret bs)).2 = .payload) := by
  cases h with
  | writing _ _ _ _ _ hout => simp [hout m hreg] at hin
  | @reading k part hat hreading _ hout =>
      obtain ⟨payload, hk, hmin, hmax, hnext⟩ := hat.next_frame hwf hbs hne
      have hlen : (part ++ bs).length ≤ headerLen := by
        rw [InetConn.headerCount, hreading.lastReadPos] at hcount
        rw [hreading.lastReadPos] at hpos
        rw [List.length_append]
        omega
      have hpart := hnext _ List.prefix_rfl (by omega)
      rw [hreading.onHeader hne hpart hmax]
      refine ⟨.reading (hat.read pid bs) (hreading.store bs) (fun payload' hk' => ?_) hout, ?_⟩
      · cases hk.symm.trans hk'
        omega
      · dsimp only
        split
        · exact .inl rfl
        · exact .inr rfl

/-- The `read` of the payload returns something. -/
theorem onPayload (h : Serving reg conn t) (hwf : t.Wf) (hreg : reg = some m)
    (hin : m.epollin = true) (hpos : headerLen ≤ conn.lastReadPos)
    (hcount : bs.length ≤ conn.payloadCount) (hne : bs ≠ []) (hbs : bs <+: t.inbox) (pid : Pid) :
    (conn.onPayload (.ret bs)).2 = .kReadHalf ∧
        Serving reg (conn.onPayload (.ret bs)).1 (t.read pid bs) ∨
      (conn.onPayload (.ret bs)).2 = .kReadAll ∧
        ∀ reg' : Option Interest, (∀ m, reg' = some m → m.epollin = false) →
          Serving reg' (conn.onPayload (.ret bs)).1 (t.read pid bs) := by
  cases h with
  | writing _ _ _ _ _ hout => simp [hout m hreg] at hin
  | @reading k part hat hreading hlt hout =>
      obtain ⟨payload, hk, hmin, hmax, hnext⟩ := hat.next_frame hwf hbs hne
      rw [hreading.lastReadPos] at hpos
      have hbefore := hnext part (List.prefix_append _ _) (Nat.le_of_lt (hlt payload hk))
      have hlen : (part ++ bs).length ≤ headerLen + payload.length := by
        have hpartLen := hlt payload hk
        rw [hreading.payloadCount hbefore hpos hmax] at hcount
        rw [List.length_append]
        omega
      have hpart := hnext _ List.prefix_rfl hlen
      rw [hreading.onPayload hne hpart hpos hmax]
      split
      · next hhalf =>
          refine .inl ⟨rfl, .reading (hat.read pid bs) (hreading.store bs) ?_ hout⟩
          intro payload' hk'
          cases hk.symm.trans hk'
          exact hhalf
      · next hfull =>
          have hframe : part ++ bs = frame payload :=
            hpart.eq_of_length_le (by rw [length_frame]; omega)
          refine .inr ⟨rfl, fun reg' hreg' => ?_⟩
          have hat' := hat.read pid bs
          rw [hframe] at hat'
          have hzero : (conn.store bs).lastWritePos = 0 := hreading.lastWritePos
          refine .writing hk ?_ rfl rfl (by simp [hzero]) hreg'
          simpa [hzero] using hat'

/-- The `write` of the reply. -/
theorem sendReply (h : Serving reg conn t) (hreg : reg = some m) (hout : m.epollout = true)
    (n : Nat) :
    (conn.sendReply (.ret n)).2 = .kWriteHalf ∧
        Serving reg (conn.sendReply (.ret n)).1 (t.write (conn.unsent.take n)) ∨
      (conn.sendReply (.ret n)).2 = .kWriteAll ∧
        ∀ reg' : Option Interest, (∀ m, reg' = some m → m.epollout = false) →
          Serving reg' (conn.sendReply (.ret n)).1 (t.write (conn.unsent.take n)) := by
  cases h with
  | reading _ _ _ hin => simp [hin m hreg] at hout
  | @writing k payload hk hat hreply hread hwrite hin =>
      subst hreply
      have hout : conn.reply.take conn.lastWritePos ++ conn.unsent.take n =
          conn.reply.take (conn.lastWritePos + n) := List.take_add.symm
      have hat' := hat.write (conn.unsent.take n)
      rw [hout] at hat'
      simp only [InetConn.sendReply]
      split
      · next hhalf => exact .inl ⟨rfl, .writing hk hat' rfl hread (by dsimp only; omega) hin⟩
      · next hall =>
          refine .inr ⟨rfl, fun reg' hreg' => ?_⟩
          have hwhole : conn.reply.take (conn.lastWritePos + n) = conn.reply :=
            List.take_of_length_le (by omega)
          rw [hwhole] at hat'
          exact .reading (hat'.next hk) ⟨hread, rfl, rfl⟩
            (fun _ _ => Nat.lt_of_lt_of_le (by decide) (Nat.le_add_right _ _)) hreg'

end Serving

end SysDemos.HotUpgrade
