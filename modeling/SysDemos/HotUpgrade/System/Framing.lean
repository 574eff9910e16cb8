import SysDemos.HotUpgrade.System.Steps

/-!
# SysDemos.HotUpgrade.System.Framing

The stream of the unix connection is cut into the messages that were sent, as long
as every `sendmsg` takes its whole message and no `recvmsg` reads past the end of
one or loses its descriptor.

* `piece_of_stream` — what a `recvmsg` within a message returns;
* `Framed.step` — the requests handled are the first of those sent, and what is
  still in the stream are the others.
-/

namespace SysDemos.HotUpgrade

open Lts Proc

/-! ## cells -/

section Cells

variable {obj : Option Obj} {xs ys : List UInt8}

@[simp] theorem map_byte_cellsOf (obj : Option Obj) (xs : List UInt8) :
    (cellsOf obj xs).map (·.byte) = xs := by
  cases xs <;> simp [cellsOf, Function.comp_def]

@[simp] theorem length_cellsOf (obj : Option Obj) (xs : List UInt8) :
    (cellsOf obj xs).length = xs.length := by
  cases xs <;> simp [cellsOf]

theorem take_cellsOf (k : Nat) : (cellsOf obj xs).take k = cellsOf obj (xs.take k) := by
  cases k <;> cases xs <;> simp [cellsOf, List.map_take]

theorem cellsOf_append (h : xs ≠ []) :
    cellsOf obj (xs ++ ys) = cellsOf obj xs ++ ys.map (⟨·, none⟩) := by
  cases xs with
  | nil => exact absurd rfl h
  | cons x xs => simp [cellsOf]

theorem descs_cellsOf (h : xs ≠ []) (o : Obj) :
    (cellsOf (some o) xs).filterMap (·.desc) = [o] := by
  cases xs with
  | nil => exact absurd rfl h
  | cons x xs => simp [cellsOf, List.filterMap_map]

theorem descs_plain (xs : List UInt8) : (xs.map (Cell.mk · none)).filterMap (·.desc) = [] := by
  simp [List.filterMap_map]

theorem cellsOf_injective {obj' : Option Obj} (h : xs ≠ [])
    (heq : cellsOf obj xs = cellsOf obj' xs) : obj = obj' := by
  cases xs with
  | nil => exact absurd rfl h
  | cons x xs => simpa [cellsOf] using heq

end Cells

/-- The cells of a transfer. -/
def msgCells (s : MsgRequestType × Obj) : List Cell := cellsOf (some s.2) (msgDataBuf s.1)

@[simp] theorem length_msgCells (s : MsgRequestType × Obj) :
    (msgCells s).length = msgDataBufLen := by
  simp [msgCells]

/-- **Split receives**: the part of a message already received, followed by the bytes
that a `recvmsg` within the message returns. -/
theorem piece_of_stream {obj : Option Obj} {str bs : List UInt8} {toNew rest : List Cell}
    {s : MsgRequestType × Obj} (hstream : cellsOf obj str ++ toNew = msgCells s ++ rest)
    (hlen : (str ++ bs).length ≤ msgDataBufLen)
    (hbs : (toNew.take bs.length).map (·.byte) = bs) :
    (str = [] → toNew.take bs.length = cellsOf (some s.2) bs) ∧
      (str ≠ [] → obj = some s.2 ∧ toNew.take bs.length = bs.map (⟨·, none⟩)) ∧
      str ++ bs = (msgDataBuf s.1).take (str ++ bs).length ∧
      cellsOf (some s.2) (str ++ bs) ++ toNew.drop bs.length = msgCells s ++ rest := by
  have htake : cellsOf obj str ++ toNew.take bs.length =
      cellsOf (some s.2) ((msgDataBuf s.1).take (str ++ bs).length) :=
    calc cellsOf obj str ++ toNew.take bs.length
        = (cellsOf obj str ++ toNew).take (str ++ bs).length := by
          rw [List.length_append, ← length_cellsOf obj str, List.take_length_add_append]
      _ = (msgCells s).take (str ++ bs).length := by
          rw [hstream]
          exact List.take_append_of_le_length (by simpa using hlen)
      _ = cellsOf (some s.2) ((msgDataBuf s.1).take (str ++ bs).length) := take_cellsOf _
  have hbytes : str ++ bs = (msgDataBuf s.1).take (str ++ bs).length := by
    have hmap := congrArg (List.map (·.byte)) htake
    rwa [List.map_append, map_byte_cellsOf, map_byte_cellsOf, hbs] at hmap
  rw [← hbytes] at htake
  refine ⟨?_, ?_, hbytes, ?_⟩
  · rintro rfl
    simpa [cellsOf] using htake
  · intro hne
    rw [cellsOf_append hne] at htake
    obtain ⟨hhead, htail⟩ := List.append_inj htake (by simp)
    exact ⟨cellsOf_injective hne hhead, htail⟩
  · rw [← htake, List.append_assoc, List.take_append_drop, hstream]

/-! ## the receiver -/

section Receiver

variable {p p' : Proc} {i : Input} {fe : FiredEvent} {rest : List FiredEvent}

theorem unixConnFd_received (p : Proc) (uc : UnixConn) (str : List UInt8) (room got added : Bool) :
    (p.received uc str room got fe rest added).unixConnFd = p.unixConnFd := by
  unfold received processRequest
  split
  · rfl
  · split
    · rfl
    · split <;> rfl

/-- `unix_conn_fd` changes when a unix connection is accepted. -/
theorem unixConnFd_step (hs : p.step i = some p')
    (hi : ∀ fd k cmptr added, i ≠ .unixAccept (.accepted fd k cmptr) added) :
    p'.unixConnFd = p.unixConnFd := by
  cases step_cases hs with
  | access =>
      unfold checkTrigger
      split <;> rfl
  | sendListen =>
      unfold afterHandOver
      split <;> rfl
  | handle hpc hh =>
      cases hh with
      | unixAccept => exact absurd rfl (hi _ _ _ _)
      | recvPlain => exact unixConnFd_received _ _ _ _ _ _
      | recvDesc => exact unixConnFd_received _ _ _ _ _ _
      | sendSession =>
          unfold afterTransfer
          split <;> rfl
      | header =>
          unfold afterGetRequest
          split <;> rfl
      | payload =>
          unfold afterGetRequest
          split <;> rfl
      | write =>
          unfold afterSendReply
          split <;> rfl
      | _ => rfl
  | _ => rfl

/-- The connection that is about to be closed is the unix connection. -/
theorem isUnixConn_dropUnix (hinv : Inv p) (hpc : p.pc = .handle fe .dropUnix rest) :
    isUnixConn (p.fds fe.fd) = true := by
  have hpcInv := hinv.pcInv
  rw [hpc] at hpcInv
  obtain ⟨hb, hole, hcore⟩ := hpcInv
  have hnonneg : 0 ≤ fe.fd := hinv.toWf.nonneg_of_pending (by simp [hpc, Pc.pending])
  rw [eq_of_branch hb] at hnonneg ⊢
  obtain ⟨hneg, -⟩ | ⟨uc, k, -, -, hk⟩ := hcore.unix
  · rw [hneg] at hnonneg
    exact absurd hnonneg (by decide)
  · rw [hk]
    rfl

theorem isSome_interest_addEvent {fd : Fd} {added : Bool} (m : Interest) (hopen : p.fds fd ≠ none)
    (hadded : added = true) : ((p.addEvent fd m added).interest fd).isSome = true := by
  cases hint : p.interest fd with
  | none => simp [addEvent, hadded, hopen, hint]
  | some m' => simp [addEvent, hint]

/-- The transfer `s` has been handled, and its descriptor taken over. -/
structure Handled.Takes (h : Handled) (s : MsgRequestType × Obj) : Prop where
  request : h.request = msgDataBuf s.1
  obj : h.obj = some s.2
  attached : s.1 = .kTransferListenFd → h.attached = true
  entered : s.1 = .kTransferSessionFd → h.entered = true

/-- What `processRecv` has done once it has got `str` of the transfer `s`. -/
inductive Received (p' : Proc) (s : MsgRequestType × Obj) (str : List UInt8) (added : Bool) : Prop
  | part : str.length < msgDataBufLen → p'.requestStr = str → p'.replying = false →
      Received p' s str added
  | whole : str = msgDataBuf s.1 → p'.requestStr = [] → p'.replying = true →
      (Handled.of p' str).Takes s → (added = true → (Handled.of p' str).registered = true) →
      Received p' s str added

/-- A request that is complete is handled, with the descriptor in the control
buffer. -/
theorem received_message {uc : UnixConn} {str : List UInt8} {room got added : Bool}
    {s : MsgRequestType × Obj} (huc : p.unixConn = some uc) (hobj : p.fds uc.cmptr = some s.2)
    (hcarries : Carries s.1 s.2) (hmsg : msgDataBufLen ≤ str.length → str = msgDataBuf s.1)
    (hp' : p' = p.received uc str room got fe rest added) :
    p'.cmptrObj = some s.2 ∧ Received p' s str added := by
  unfold received at hp'
  split at hp'
  · next hlen =>
      subst hp'
      exact ⟨by simpa [cmptrObj, cmptr, goto, huc] using hobj, .part hlen rfl rfl⟩
  · next hlen =>
      have hwhole : str = msgDataBuf s.1 := hmsg (by omega)
      rw [hwhole] at hp'
      obtain ⟨ht, ho⟩ | ⟨ht, c, ho⟩ := hcarries
      · rw [ht, processRequest_listen] at hp'
        have hcmptr : p'.cmptr = some uc.cmptr := by
          simp [hp', cmptr, goto, attachInetListenFd, addEvent, huc]
        have hobj' : p'.cmptrObj = some s.2 := by
          rw [cmptrObj, hcmptr, hp']
          exact hobj
        have hlisten : p'.inetListenFd = uc.cmptr := by rw [hp']; rfl
        refine ⟨hobj', .whole hwhole (by rw [hp']; rfl) (by rw [hp']; rfl) ?_ fun hadded => ?_⟩
        · exact ⟨hwhole, hobj', fun _ => by simp [Handled.of, hcmptr, hlisten], by simp [ht]⟩
        · show (p'.cmptr.bind p'.interest).isSome = true
          rw [hcmptr, hp']
          exact isSome_interest_addEvent _ (by simp [hobj]) hadded
      · rw [ht, processRequest_session] at hp'
        have hcmptr : p'.cmptr = some uc.cmptr := by
          simp [hp', cmptr, goto, addInetConn, addEvent, huc]
        have hobj' : p'.cmptrObj = some s.2 := by
          rw [cmptrObj, hcmptr, hp']
          exact hobj
        have hentered : (p'.inetConnMap uc.cmptr).isSome = true := by
          simp [hp', goto, addInetConn, addEvent]
        refine ⟨hobj', .whole hwhole (by rw [hp']; rfl) (by rw [hp']; rfl) ?_ fun hadded => ?_⟩
        · exact ⟨hwhole, hobj', by simp [ht], fun _ => by simpa [Handled.of, hcmptr] using hentered⟩
        · show (p'.cmptr.bind p'.interest).isSome = true
          rw [hcmptr, hp']
          exact isSome_interest_addEvent _ (by simp [hobj]) hadded

end Receiver

/-! ## the invariant -/

/-- The transfers that have been sent and not handled. -/
def Chan.pending (ch : Chan) : List (MsgRequestType × Obj) := ch.sent.drop ch.handled.length

theorem Chan.sent_of_pending {ch : Chan} {s : MsgRequestType × Obj}
    {pend : List (MsgRequestType × Obj)} (h : ch.pending = s :: pend) :
    ch.sent[ch.handled.length]? = some s := by
  rw [← List.head?_drop]
  exact congrArg List.head? h

namespace System

variable {w w' : System} {l : Label}

/-- What has not been handled of the stream: the part of a request that
`processRecv` has got, and what is still queued. -/
def inbound (w : System) : List Cell :=
  cellsOf w.new.cmptrObj w.new.requestStr ++ w.chan.toNew

/-- As long as the new server has not closed the connection, its dispatch is sound
and the stream consists of the messages still to be handled. -/
structure Open (w : System) : Prop where
  inv : Inv w.new
  link : w.chan.newEnd ≠ .accepted → w.new.unixConnFd = -1
  stream : (∀ fe rest, w.new.pc ≠ .handle fe .dropUnix rest) →
    w.inbound = w.chan.pending.flatMap msgCells

/-- The stream is cut into messages: the requests handled are the first of those
sent. -/
structure Framed (w : System) : Prop where
  handled : List.Forall₂ Handled.Takes w.chan.handled (w.chan.sent.take w.chan.handled.length)
  queue : w.chan.toNew <:+ w.chan.pending.flatMap msgCells
  carries : ∀ s ∈ w.chan.sent, Carries s.1 s.2
  isOpen : w.chan.newEnd ≠ .closed → Open w

/-- A `sendmsg` takes the whole message. -/
def WholeSend (l : Label) : Prop :=
  ∀ n, l = .proc .old (.sendmsg (.ret n)) → n = msgDataBufLen

/-- A `recvmsg` does not read past the end of a message. -/
def Aligned (w : System) (l : Label) : Prop :=
  ∀ bs desc added, l = .proc .new (.recvmsg (.data bs desc) added) →
    (w.new.requestStr ++ bs).length ≤ msgDataBufLen

/-- A `recvmsg` with room for a descriptor delivers the one sent with the bytes it takes. -/
def Installs (w : System) (l : Label) : Prop :=
  ∀ bs desc added, l = .proc .new (.recvmsg (.data bs desc) added) → w.new.room = true →
    desc.map (·.2) = ((w.chan.toNew.take bs.length).filterMap (·.desc)).head?

/-- A test for it. -/
def installsb (w : System) : Label → Bool
  | .proc .new (.recvmsg (.data bs desc) _) =>
    !w.new.room || desc.map (·.2) = ((w.chan.toNew.take bs.length).filterMap (·.desc)).head?
  | _ => true

theorem installs_of_installsb (h : installsb w l = true) : Installs w l := by
  rintro bs desc added rfl hroom
  simpa [installsb, hroom] using h

theorem inbound_of_requestStr (h : w.new.requestStr = []) : w.inbound = w.chan.toNew := by
  simp [inbound, h, cellsOf]

theorem Framed.handled_le (h : Framed w) : w.chan.handled.length ≤ w.chan.sent.length := by
  have hlen := h.handled.length_eq
  rw [List.length_take] at hlen
  omega

section Data

variable {p' : Proc} {fe : FiredEvent} {rest : List FiredEvent} {str bs : List UInt8}
  {room got added : Bool} {desc : Option (Fd × Obj)}

/-- **Receipt**: a `recvmsg` within a message gets a piece of the first one, with the
descriptor if it is the first piece. -/
theorem Framed.receipt (h : Framed w)
    (hpc : w.new.pc = .handle fe (.recv str room got) rest)
    (hh : Handle w.new fe rest (.recv str room got) (.recvmsg (.data bs desc) added) p')
    (haccepted : w.chan.newEnd = .accepted)
    (hbs : (w.chan.toNew.take bs.length).map (·.byte) = bs)
    (hdesc : desc = none ∨ room = true ∧
      desc.map (·.2) = ((w.chan.toNew.take bs.length).filterMap (·.desc)).head?)
    (haligned : Aligned w (.proc .new (.recvmsg (.data bs desc) added)))
    (hinstalls : Installs w (.proc .new (.recvmsg (.data bs desc) added))) :
    ∃ s pend, w.chan.pending = s :: pend ∧ HandOver w.new (.recvmsg (.data bs desc) added) ∧
      p'.cmptrObj = some s.2 ∧ Received p' s (str ++ bs) added ∧
      cellsOf (some s.2) (str ++ bs) ++ w.chan.toNew.drop bs.length =
        msgCells s ++ pend.flatMap msgCells := by
  have hopen := h.isOpen (by simp [haccepted])
  have hlen := haligned _ _ _ rfl
  rw [requestStr_of_pc hpc] at hlen
  have hpcInv := hopen.inv.pcInv
  rw [hpc] at hpcInv
  obtain ⟨-, -, hroom, -, -⟩ := hpcInv
  have hne := hh.data_ne_nil
  have hstream := hopen.stream (by simp [hpc])
  rw [inbound, requestStr_of_pc hpc] at hstream
  cases hpend : w.chan.pending with
  | nil =>
      rw [hpend, List.flatMap_nil, List.append_eq_nil_iff] at hstream
      rw [hstream.2] at hbs
      exact absurd (by simpa using hbs.symm) hne
  | cons s pend =>
      rw [hpend, List.flatMap_cons] at hstream
      obtain ⟨hfirst, hlater, hbytes, hrest⟩ := piece_of_stream hstream hlen hbs
      have hcar : Carries s.1 s.2 :=
        h.carries s (List.mem_of_mem_drop (hpend ▸ List.mem_cons_self))
      have hwhole : msgDataBufLen ≤ (str ++ bs).length → str ++ bs = msgDataBuf s.1 :=
        fun hge => hbytes.trans (List.take_of_length_le (by simpa using hge))
      have hover (hobj : if str = [] then ∃ fd, desc = some (fd, s.2)
          else desc = none ∧ ∃ uc, w.new.unixConn = some uc ∧ w.new.fds uc.cmptr = some s.2) :
          HandOver w.new (.recvmsg (.data bs desc) added) := by
        intro fe' str' room' got' rest' bs' desc' added' hpc' hi
        cases hpc.symm.trans hpc'
        cases hi
        exact ⟨s.2, hobj, s.1, hcar, hwhole⟩
      by_cases hstr : str = []
      · have hdelivered := hinstalls _ _ _ rfl (by simp [Proc.room, hpc, hroom hstr])
        rw [hfirst hstr, descs_cellsOf hne] at hdelivered
        cases hh with
        | recvClose hr => simp at hr
        | recvPlain => simp at hdelivered
        | @recvDesc _ _ _ uc fd obj _ huc =>
            replace hdelivered : some obj = some s.2 := hdelivered
            cases hdelivered
            have huc' : (w.new.install uc fd s.2).unixConn = some { uc with cmptr := fd } := rfl
            have hobj : (w.new.install uc fd s.2).fds fd = some s.2 := Function.update_self _ _ _
            obtain ⟨hcmptr, hreceived⟩ := received_message huc' hobj hcar hwhole rfl
            exact ⟨s, pend, rfl, hover (by simp [hstr]), hcmptr, hreceived, hrest⟩
      · obtain ⟨hobj, hplain⟩ := hlater hstr
        rw [hplain, descs_plain] at hdesc
        cases hh with
        | recvClose hr => simp at hr
        | recvDesc => simp at hdesc
        | @recvPlain _ _ _ _ uc _ huc =>
            replace hobj : w.new.fds uc.cmptr = some s.2 := by
              simpa [cmptrObj, cmptr, huc] using hobj
            obtain ⟨hcmptr, hreceived⟩ := received_message huc hobj hcar hwhole rfl
            refine ⟨s, pend, rfl, hover ?_, hcmptr, hreceived, hrest⟩
            rw [if_neg hstr]
            exact ⟨rfl, uc, huc, hobj⟩

end Data

/-! ## steps -/

/-- The stream is as it was. -/
theorem Framed.of_open (h : Framed w) (htoNew : w'.chan.toNew = w.chan.toNew)
    (hsent : w'.chan.sent = w.chan.sent) (hhandled : w'.chan.handled = w.chan.handled)
    (hopen : w'.chan.newEnd ≠ .closed → Open w') : Framed w' where
  handled := by
    rw [hsent, hhandled]
    exact h.handled
  queue := by
    rw [Chan.pending, htoNew, hsent, hhandled]
    exact h.queue
  carries := by
    rw [hsent]
    exact h.carries
  isOpen := hopen

/-- Only the new server and a part of the connection matter. -/
theorem Framed.congr (h : Framed w) (hnew : w'.new = w.new)
    (htoNew : w'.chan.toNew = w.chan.toNew) (hsent : w'.chan.sent = w.chan.sent)
    (hhandled : w'.chan.handled = w.chan.handled)
    (hend : w'.chan.newEnd = w.chan.newEnd ∨
      w.chan.newEnd = .absent ∧ w'.chan.newEnd = .queued) : Framed w' := by
  refine h.of_open htoNew hsent hhandled fun hne => ?_
  have hopen : Open w := h.isOpen (by
    obtain heq | ⟨habsent, -⟩ := hend
    · rwa [heq] at hne
    · simp [habsent])
  refine ⟨by rw [hnew]; exact hopen.inv, fun hacc => ?_, fun hpc => ?_⟩
  · rw [hnew]
    refine hopen.link ?_
    obtain heq | ⟨habsent, -⟩ := hend
    · rwa [heq] at hacc
    · simp [habsent]
  · rw [hnew] at hpc
    simpa only [inbound, Chan.pending, hnew, htoNew, hsent, hhandled] using hopen.stream hpc

theorem Framed.send (h : Framed w) {t : MsgRequestType} {obj : Obj} (hcarries : Carries t obj)
    (hnew : w'.new = w.new) (hchan : w'.chan = w.chan.send msgDataBufLen t obj) : Framed w' := by
  have hle := h.handled_le
  have htake : (msgDataBuf t).take msgDataBufLen = msgDataBuf t :=
    List.take_of_length_le (by simp)
  refine ⟨?_, ?_, ?_, fun hne => ?_⟩
  · simp only [hchan, Chan.send, if_true, List.take_append_of_le_length hle]
    exact h.handled
  · obtain ⟨read, hread⟩ := h.queue
    refine ⟨read, ?_⟩
    simp only [Chan.pending] at hread
    simp only [Chan.pending, hchan, Chan.send, if_true, htake, List.drop_append_of_le_length hle,
      List.flatMap_append, ← List.append_assoc, hread]
    simp [msgCells]
  · simp only [hchan, Chan.send, if_true, List.mem_append, List.mem_singleton]
    rintro s (hs | rfl)
    · exact h.carries s hs
    · exact hcarries
  · rw [hchan] at hne
    have hopen := h.isOpen hne
    refine ⟨by rw [hnew]; exact hopen.inv, fun hacc => ?_, fun hpc => ?_⟩
    · rw [hnew]
      exact hopen.link (by rwa [hchan] at hacc)
    · rw [hnew] at hpc
      have hstream := hopen.stream hpc
      simp only [inbound, Chan.pending] at hstream
      simp only [inbound, Chan.pending, hnew, hchan, Chan.send, if_true, htake,
        List.drop_append_of_le_length hle, List.flatMap_append, ← List.append_assoc, hstream]
      simp [msgCells]

theorem Framed.served_old (h : Framed w) (hbase : Base w) {i : Input} {p' : Proc} {ch' : Chan}
    (hserved : OldServed w.old w.chan i p' ch') (hsend : WholeSend (.proc .old i))
    (hnew : w'.new = w.new) (hchan : w'.chan = ch') : Framed w' := by
  cases hserved with
  | quiet =>
      exact h.congr hnew (by rw [hchan]) (by rw [hchan]) (by rw [hchan]) (.inl (by rw [hchan]))
  | connect _ habsent =>
      exact h.congr hnew (by rw [hchan]) (by rw [hchan]) (by rw [hchan])
        (.inr ⟨habsent, by rw [hchan]⟩)
  | send _ hpass =>
      have hcarries := carries_passing hbase.oldInv hpass
      rw [hsend _ rfl] at hchan
      exact h.send hcarries hnew hchan
  | reply =>
      exact h.congr hnew (by rw [hchan]) (by rw [hchan]) (by rw [hchan]) (.inl (by rw [hchan]))
  | exit =>
      exact h.congr hnew (by rw [hchan]; rfl) (by rw [hchan]; rfl) (by rw [hchan]; rfl)
        (.inl (by rw [hchan]; rfl))

/-- The new server closes the connection. -/
theorem Framed.close (h : Framed w) (hchan : w'.chan = w.chan.hangUp .new) : Framed w' := by
  refine ⟨?_, ?_, ?_, fun hne => ?_⟩
  · rw [hchan]
    exact h.handled
  · rw [hchan]
    exact List.nil_suffix
  · rw [hchan]
    exact h.carries
  · rw [hchan] at hne
    exact absurd rfl hne

/-- A step of the new server that leaves the stream alone. -/
theorem Framed.quiet (h : Framed w) {i : Input} (hs : w.new.step i = some w'.new)
    (hreq : w.new.requestStr = []) (hreq' : w'.new.requestStr = [])
    (hdrop : ∀ fe rest, w.new.pc = .handle fe .dropUnix rest →
      isUnixConn (w.new.fds fe.fd) = false)
    (hrecv : ∀ bs desc added, i ≠ .recvmsg (.data bs desc) added)
    (hend : (∀ fd k cmptr added, i ≠ .unixAccept (.accepted fd k cmptr) added) ∧
      w'.chan.newEnd = w.chan.newEnd ∨ w.chan.newEnd = .queued ∧ w'.chan.newEnd = .accepted)
    (htoNew : w'.chan.toNew = w.chan.toNew) (hsent : w'.chan.sent = w.chan.sent)
    (hhandled : w'.chan.handled = w.chan.handled) : Framed w' := by
  refine h.of_open htoNew hsent hhandled fun hne => ?_
  have hopen : Open w := h.isOpen (by
    obtain ⟨-, heq⟩ | ⟨hqueued, -⟩ := hend
    · rwa [heq] at hne
    · simp [hqueued])
  have hnot : ∀ fe rest, w.new.pc ≠ .handle fe .dropUnix rest := fun fe rest hpc => by
    have hunix := isUnixConn_dropUnix hopen.inv hpc
    rw [hdrop fe rest hpc] at hunix
    contradiction
  refine ⟨hopen.inv.step ?_ ⟨hnot, ?_⟩ hs, fun hacc => ?_, fun _ => ?_⟩
  · intro _ _ _ _ _ _ _ _ _ hi
    exact absurd hi (hrecv _ _ _)
  · intro _ _ _ _ hi
    obtain ⟨hnone, -⟩ | ⟨hqueued, -⟩ := hend
    · exact absurd hi (hnone _ _ _ _)
    · exact hopen.link (by simp [hqueued])
  · obtain ⟨hnone, heq⟩ | ⟨-, haccepted⟩ := hend
    · rw [unixConnFd_step hs hnone]
      exact hopen.link (by rwa [heq] at hacc)
    · exact absurd haccepted hacc
  · have hstream := hopen.stream hnot
    rw [inbound_of_requestStr hreq] at hstream
    rw [inbound_of_requestStr hreq', htoNew, hstream, Chan.pending, Chan.pending, hsent, hhandled]

theorem Framed.gone (h : Framed w) {r : RecvRet} {added : Bool} {fe : FiredEvent}
    {rest : List FiredEvent} {str : List UInt8} {room got : Bool}
    (hpc : w.new.pc = .handle fe (.recv str room got) rest)
    (hr : ∀ bs desc, r ≠ .data bs desc) (hs : w.new.step (.recvmsg r added) = some w'.new)
    (hpc' : w'.new.pc = .handle fe .dropUnix rest) (hchan : w'.chan = w.chan) : Framed w' := by
  refine h.of_open (by rw [hchan]) (by rw [hchan]) (by rw [hchan]) fun hne => ?_
  have hopen := h.isOpen (by rwa [hchan] at hne)
  refine ⟨hopen.inv.step ?_ ⟨by simp [hpc], by simp⟩ hs, fun hacc => ?_, fun hnot => ?_⟩
  · intro _ _ _ _ _ _ _ _ _ hi
    cases hi
    exact absurd rfl (hr _ _)
  · rw [unixConnFd_step hs (by simp)]
    exact hopen.link (by rwa [hchan] at hacc)
  · exact absurd hpc' (hnot _ _)

theorem Framed.data (h : Framed w) {fe : FiredEvent} {rest : List FiredEvent}
    {str bs : List UInt8} {room got added : Bool} {desc : Option (Fd × Obj)}
    (hpc : w.new.pc = .handle fe (.recv str room got) rest)
    (hh : Handle w.new fe rest (.recv str room got) (.recvmsg (.data bs desc) added) w'.new)
    (hs : w.new.step (.recvmsg (.data bs desc) added) = some w'.new)
    (haccepted : w.chan.newEnd = .accepted)
    (hbs : (w.chan.toNew.take bs.length).map (·.byte) = bs)
    (hdesc : desc = none ∨ room = true ∧
      desc.map (·.2) = ((w.chan.toNew.take bs.length).filterMap (·.desc)).head?)
    (haligned : Aligned w (.proc .new (.recvmsg (.data bs desc) added)))
    (hinstalls : Installs w (.proc .new (.recvmsg (.data bs desc) added)))
    (hchan : w'.chan = { w.chan with
      toNew := w.chan.toNew.drop bs.length
      handled := w.chan.handled ++ Chan.handledNow w.new w'.new bs }) : Framed w' := by
  have hopen := h.isOpen (by simp [haccepted])
  obtain ⟨s, pend, hpend, hover, hcmptr, hreceived, hrest⟩ :=
    h.receipt hpc hh haccepted hbs hdesc haligned hinstalls
  have hinv : Inv w'.new := hopen.inv.step hover ⟨by simp [hpc], nofun⟩ hs
  have hlink : w'.chan.newEnd ≠ .accepted → w'.new.unixConnFd = -1 := fun hacc => by
    rw [hchan] at hacc
    exact absurd haccepted hacc
  have hcarries : ∀ s ∈ w'.chan.sent, Carries s.1 s.2 := by
    rw [hchan]
    exact h.carries
  have hqueue (hstream : w'.inbound = w'.chan.pending.flatMap msgCells) :
      w'.chan.toNew <:+ w'.chan.pending.flatMap msgCells := hstream ▸ List.suffix_append _ _
  cases hreceived with
  | part _ hreq' hreplying =>
      have hnow : Chan.handledNow w.new w'.new bs = [] := by simp [Chan.handledNow, hreplying]
      rw [hnow, List.append_nil] at hchan
      have hstream : w'.inbound = w'.chan.pending.flatMap msgCells := by
        rw [inbound, hreq', hcmptr, hchan]
        show _ = w.chan.pending.flatMap msgCells
        rw [hpend, List.flatMap_cons]
        exact hrest
      exact ⟨by rw [hchan]; exact h.handled, hqueue hstream, hcarries,
        fun _ => ⟨hinv, hlink, fun _ => hstream⟩⟩
  | whole hwhole hreq' hreplying htakes =>
      have hnow : Chan.handledNow w.new w'.new bs = [.of w'.new (str ++ bs)] := by
        simp [Chan.handledNow, hreplying, requestStr_of_pc hpc]
      have hfirst := Chan.sent_of_pending hpend
      have hpend' : w.chan.sent.drop (w.chan.handled.length + 1) = pend := by
        rw [← List.tail_drop]
        exact congrArg List.tail hpend
      rw [hnow] at hchan
      have hstream : w'.inbound = w'.chan.pending.flatMap msgCells := by
        rw [inbound_of_requestStr hreq', hchan]
        simp only [Chan.pending, List.length_append, List.length_singleton, hpend']
        rw [hwhole] at hrest
        exact List.append_cancel_left hrest
      refine ⟨?_, hqueue hstream, hcarries, fun _ => ⟨hinv, hlink, fun _ => hstream⟩⟩
      rw [hchan]
      simp only [List.length_append, List.length_singleton, List.take_add_one, hfirst]
      exact List.rel_append h.handled (.cons htakes .nil)

theorem Framed.served_new (h : Framed w) {i : Input} {ch' : Chan}
    (hs : w.new.step i = some w'.new) (hserved : NewServed w.new w.chan i w'.new ch')
    (haligned : Aligned w (.proc .new i)) (hinstalls : Installs w (.proc .new i))
    (hchan : w'.chan = ch') : Framed w' := by
  generalize hp' : w'.new = p' at hserved
  cases hserved with
  | quiet hfree hfree' hdrop haccept hrecv =>
      exact h.quiet hs hfree.requestStr (hp' ▸ hfree'.requestStr) hdrop (fun _ _ _ => hrecv _ _)
        (.inl ⟨haccept, by rw [hchan]⟩) (by rw [hchan]) (by rw [hchan]) (by rw [hchan])
  | accept hpc hqueued =>
      exact h.quiet hs (by simp [requestStr, hpc]) (by rw [hp']; rfl) (by simp [hpc]) (by simp)
        (.inr ⟨hqueued, by rw [hchan]⟩) (by rw [hchan]) (by rw [hchan]) (by rw [hchan])
  | again =>
      exact h.congr hp' (by rw [hchan]) (by rw [hchan]) (by rw [hchan]) (.inl (by rw [hchan]))
  | gone hpc hr =>
      refine h.gone hpc (fun bs desc heq => ?_) hs (by rw [hp']; rfl) hchan
      subst heq
      simp at hr
  | data hpc hh haccepted hbs hdesc =>
      subst hp'
      exact h.data hpc hh hs haccepted hbs hdesc haligned hinstalls hchan
  | reply hpc =>
      exact h.quiet hs (by simp [requestStr, hpc]) (by rw [hp']; rfl) (by simp [hpc]) (by simp)
        (.inl ⟨by simp, by rw [hchan]⟩) (by rw [hchan]) (by rw [hchan]) (by rw [hchan])
  | noReply hpc =>
      exact h.quiet hs (by simp [requestStr, hpc]) (by rw [hp']; rfl) (by simp [hpc]) (by simp)
        (.inl ⟨by simp, by rw [hchan]⟩) (by rw [hchan]) (by rw [hchan]) (by rw [hchan])
  | close => exact h.close hchan

/-- **Step**: whole sends and aligned receives that lose no descriptor keep the stream cut into
messages. -/
theorem Framed.step (h : Framed w) (hbase : Base w) (hsend : WholeSend l) (haligned : Aligned w l)
    (hinstalls : Installs w l) (hs : w.step l = some w') : Framed w' := by
  cases moves_of_step hs with
  | old hp' hch =>
      have hserved := HotUpgrade.served_old hbase.oldInv hbase.oldRole hp' hch
      exact h.served_old hbase hserved hsend rfl rfl
  | new hp' hch =>
      exact h.served_new hp' (HotUpgrade.served_new hbase.newRole hp' hch) haligned hinstalls rfl
  | client => exact h.congr rfl rfl rfl rfl (.inl rfl)
  | kill pid =>
      cases pid with
      | old => exact h.congr rfl rfl rfl rfl (.inl rfl)
      | new => exact h.close rfl

theorem framed_init {lfd ufd : Fd} (hufd : 0 ≤ ufd) : Framed (init lfd ufd) := by
  have hinv : Inv (start .unixServer ufd) := inv_start hufd
  exact ⟨.nil, List.nil_suffix, nofun, fun _ => ⟨hinv, fun _ => rfl, fun _ => rfl⟩⟩

end System

end SysDemos.HotUpgrade
