import SysDemos.HotUpgrade.Server.Dispatch
import SysDemos.HotUpgrade.Session

/-!
# SysDemos.HotUpgrade.Server.Sessions

The sessions of one server process.

* `Attended.step` — when a session's descriptor is read or written, the tests of
  `handle_net_event` still hold, and only sessions are registered for output;
* `session_step` — how a step changes a session of the process: not at all, by a read
  or a write, or by opening it.
-/

namespace SysDemos.HotUpgrade.Proc

open Function (update)

variable {p p' : Proc} {fe : FiredEvent} {rest : List FiredEvent} {i : Input} {fd : Fd}

/-! ## what has been tested -/

/-- The event that is being handled, and where. -/
def handling (p : Proc) : Option (FiredEvent × Handler) :=
  match p.pc with
  | .handle fe h _ => some (fe, h)
  | _ => none

theorem handling_of_pc {h : Handler} (hpc : p.pc = .handle fe h rest) :
    p.handling = some (fe, h) := by
  simp [handling, hpc]

theorem pc_of_handling {h : Handler} (hpc : p.handling = some (fe, h)) :
    ∃ rest, p.pc = .handle fe h rest := by
  unfold handling at hpc
  split at hpc
  · next hpc' =>
      cases hpc
      exact ⟨_, hpc'⟩
  · contradiction

/-- What `handle_net_event` knows about the session when it waits in `h`. -/
def Tested (fe : FiredEvent) (conn : InetConn) : Handler → Prop
  | .header => fe.mask.epollin = true ∧ conn.lastReadPos < headerLen
  | .payload => fe.mask.epollin = true ∧ headerLen ≤ conn.lastReadPos
  | .write => fe.mask.epollout = true
  | .transfer _ => fe.mask.epollin = true ∧ conn.lastReadPos = 0
  | _ => True

/-- Only sessions are registered for output. -/
def OutConn (p : Proc) : Prop :=
  ∀ fd m, p.interest fd = some m → m.epollout = true → p.inetConnMap fd ≠ none

/-- The tests hold for the session that is handled, and only sessions are registered for
output. -/
structure Attended (p : Proc) : Prop where
  tested : ∀ fe h conn, p.handling = some (fe, h) → p.inetConnMap fe.fd = some conn →
    Tested fe conn h
  out : OutConn p

theorem tested_dispatched {pc : Pc} {fe' : FiredEvent} {h : Handler} {conn : InetConn}
    (hd : Dispatched p fe rest pc) (hpc : (p.goto pc).handling = some (fe', h))
    (hconn : p.inetConnMap fe'.fd = some conn) : Tested fe' conn h := by
  cases hd with
  | transfer _ hconn' hin hpos =>
      cases hpc
      cases hconn.symm.trans hconn'
      exact ⟨hin, hpos⟩
  | header _ hconn' hin hreq =>
      cases hpc
      cases hconn.symm.trans hconn'
      refine ⟨hin, ?_⟩
      by_contra hlen
      rw [InetConn.getRequest, if_neg hlen] at hreq
      obtain heq | heq := conn.checkLength_cases <;> simp [heq] at hreq
  | payload _ hconn' hin hreq =>
      cases hpc
      cases hconn.symm.trans hconn'
      refine ⟨hin, Nat.le_of_not_lt fun hlen => ?_⟩
      rw [InetConn.getRequest, if_pos hlen] at hreq
      contradiction
  | write _ _ _ hout =>
      cases hpc
      exact hout
  | skip => contradiction
  | _ =>
      cases hpc
      trivial

/-- After the header has been read, `GetRequest` has it. -/
theorem onHeader_payload {conn : InetConn} {r : ReadRet} (h : (conn.onHeader r).2 = .payload) :
    headerLen ≤ (conn.onHeader r).1.lastReadPos := by
  cases r with
  | err e => contradiction
  | ret bs =>
      cases bs with
      | nil => contradiction
      | cons b bs =>
          simp only [InetConn.onHeader] at h ⊢
          split at h
          · contradiction
          · next hlt =>
              rw [if_neg hlt]
              exact Nat.le_of_not_lt hlt

theorem onHeader_ne_header {conn : InetConn} {r : ReadRet} : (conn.onHeader r).2 ≠ .header := by
  unfold InetConn.onHeader
  split
  · simp
  · simp
  · next bs _ =>
      dsimp only
      split
      · simp
      · obtain heq | heq := (conn.store bs).checkLength_cases <;> simp [heq]

theorem Attended.tested_handle (h : Attended p) {hd : Handler} (hpc : p.pc = .handle fe hd rest)
    (hh : Handle p fe rest hd i p') {fe' : FiredEvent} {hd' : Handler} {conn : InetConn}
    (hhandling : p'.handling = some (fe', hd'))
    (hconn : p'.inetConnMap fe'.fd = some conn) : Tested fe' conn hd' := by
  obtain ⟨rest', hpc'⟩ := pc_of_handling hhandling
  cases hh with
  | recvAgain =>
      cases hpc.symm.trans hpc'
      trivial
  | recvPlain =>
      obtain ⟨hmem, rfl, rfl⟩ := handler_of_received hpc'
      simp only [List.mem_cons, List.not_mem_nil, or_false] at hmem
      obtain rfl | rfl | rfl := hmem <;> trivial
  | recvDesc =>
      obtain ⟨hmem, rfl, rfl⟩ := handler_of_received hpc'
      simp only [List.mem_cons, List.not_mem_nil, or_false] at hmem
      obtain rfl | rfl | rfl := hmem <;> trivial
  | @sendSession n r =>
      have hsame : (p.afterTransfer fe rest (sendLoop n r)).inetConnMap = p.inetConnMap := by
        unfold afterTransfer
        split <;> rfl
      obtain ⟨hmem, rfl, rfl⟩ := handler_of_afterTransfer hpc'
      simp only [List.mem_cons, List.not_mem_nil, or_false] at hmem
      rw [hsame] at hconn
      have htested := h.tested fe _ conn (handling_of_pc hpc) hconn
      obtain rfl | rfl := hmem
      · exact htested
      · trivial
  | @header conn₀ r hconn₀ =>
      have hin := (h.tested fe _ conn₀ (handling_of_pc hpc) hconn₀).1
      unfold afterGetRequest at hpc' hconn
      split at hpc'
      · next hheader => exact absurd hheader onHeader_ne_header
      · next hpayload =>
          cases hpc'
          rw [hpayload] at hconn
          simp only [goto, setConn, Function.update_self, Option.some.injEq] at hconn
          rw [← hconn]
          exact ⟨hin, onHeader_payload hpayload⟩
      · simp [goto] at hpc'
      · simp [goto] at hpc'
      · cases hpc'
        trivial
  | payload =>
      unfold afterGetRequest at hpc'
      split at hpc' <;> cases hpc'
      · contradiction
      · contradiction
      · trivial
  | write =>
      obtain ⟨rfl, rfl, rfl⟩ := handler_of_afterSendReply hpc'
      trivial
  | recvClose =>
      cases hpc'
      trivial
  | replySession =>
      cases hpc'
      trivial
  | _ => simp [Proc.exit, goto, Proc.dropUnix, Proc.dropInet] at hpc'

/-! ## registrations for output -/

namespace OutConn

theorem goto (h : OutConn p) (pc : Pc) : OutConn (p.goto pc) := h

/-- A registration for input. -/
theorem addEvent (h : OutConn p) (fd : Fd) {m : Interest} (hm : m.epollout = false)
    (added : Bool) : OutConn (p.addEvent fd m added) := by
  intro fd' m' hm' hout
  by_cases heq : fd' = fd
  · subst heq
    simp only [Proc.addEvent] at hm'
    split at hm'
    · rw [Function.update_self] at hm'
      cases hm'
      simp [hm] at hout
    · exact h _ _ hm' hout
  · rw [(sameAt_addEvent m added heq).interest] at hm'
    exact h _ _ hm' hout

theorem modEvent (h : OutConn p) {m : Interest}
    (hm : m.epollout = true → p.inetConnMap fd ≠ none) : OutConn (p.modEvent fd m) := by
  intro fd' m' hm' hout
  by_cases heq : fd' = fd
  · subst heq
    simp only [Proc.modEvent] at hm'
    split at hm'
    · exact h _ _ hm' hout
    · rw [Function.update_self] at hm'
      cases hm'
      exact hm hout
  · rw [(sameAt_modEvent m heq).interest] at hm'
    exact h _ _ hm' hout

theorem setConn (h : OutConn p) (fd : Fd) (conn : InetConn) : OutConn (p.setConn fd conn) := by
  intro fd' m hm hout
  by_cases heq : fd' = fd
  · simp [Proc.setConn, heq]
  · rw [(sameAt_setConn conn heq).inetConnMap]
    exact h _ _ hm hout

theorem delClose (h : OutConn p) (fd : Fd) : OutConn (p.delClose fd) := by
  intro fd' m hm hout
  by_cases heq : fd' = fd
  · simp [Proc.delClose, heq] at hm
  · rw [(sameAt_delClose heq).interest] at hm
    exact h _ _ hm hout

theorem received (h : OutConn p) (uc : UnixConn) (str : List UInt8) (room got added : Bool) :
    OutConn (p.received uc str room got fe rest added) := by
  unfold Proc.received processRequest
  split
  · exact h
  · split
    · have hset : OutConn { p with inetListenFd := uc.cmptr } := h
      exact hset.addEvent _ rfl _
    · split
      · exact (h.setConn _ _).addEvent _ rfl _
      · exact h

theorem afterGetRequest (h : OutConn p) (hconn : p.inetConnMap fe.fd ≠ none)
    (g : InetConn.GetRequest) : OutConn (p.afterGetRequest fe rest g) := by
  unfold Proc.afterGetRequest
  split
  · exact h
  · exact h
  · exact h.modEvent fun _ => hconn
  · exact h
  · exact h

theorem afterSendReply (h : OutConn p) (ws : WriteStatus) :
    OutConn (p.afterSendReply fe rest ws) := by
  unfold Proc.afterSendReply
  split
  · exact h.modEvent nofun
  · exact h
  · exact h

theorem handle (h : OutConn p) {hd : Handler} (hh : Handle p fe rest hd i p') : OutConn p' := by
  cases hh with
  | acceptFail => exact nofun
  | unixAcceptFail => exact nofun
  | @accept fd c =>
      have hset : OutConn { p with fds := update p.fds fd (some (.inet c)) } := h
      exact (hset.setConn fd _).addEvent fd rfl _
  | @unixAccept fd k cmptr =>
      have hset : OutConn { p with
          fds := update p.fds fd (some (.unixConn k))
          unixConnFd := fd
          unixConn := some { fd := fd, cmptr := cmptr } } := h
      exact hset.addEvent fd rfl _
  | recvPlain => exact h.received _ _ _ _ _
  | @recvDesc _ _ _ uc fd obj =>
      have hset : OutConn (p.install uc fd obj) := h
      exact hset.received _ _ _ _ _
  | sendSession =>
      unfold afterTransfer
      split <;> exact h
  | header => exact (h.setConn _ _).afterGetRequest (by simp [Proc.setConn]) _
  | payload => exact (h.setConn _ _).afterGetRequest (by simp [Proc.setConn]) _
  | write => exact (h.setConn _ _).afterSendReply _
  | dropUnix => exact h.delClose fe.fd
  | dropInet =>
      intro fd m hm hout
      have hne : fd ≠ fe.fd := by
        rintro rfl
        simp [Proc.dropInet, Proc.delClose] at hm
      show update p.inetConnMap fe.fd none fd ≠ none
      rw [Function.update_of_ne hne]
      exact h.delClose fe.fd fd m hm hout
  | _ => exact h

end OutConn

/-- **Step**: the tests still hold, and only sessions are registered for output. -/
theorem Attended.step (h : Attended p) (hs : p.step i = some p') : Attended p' := by
  have hout := h.out
  have idle {q : Proc} (hq : OutConn q) (hidle : q.handling = none) : Attended q :=
    ⟨fun _ _ _ heq => by simp [hidle] at heq, hq⟩
  have hdetach (pc : Pc) : OutConn (p.detachInetListenFd.goto pc) := hout.delClose p.inetListenFd
  cases step_cases hs with
  | access =>
      unfold checkTrigger
      split <;> exact idle (hout.goto _) rfl
  | connectFail => exact idle nofun rfl
  | connect => exact idle hout rfl
  | sendListen =>
      unfold afterHandOver
      split
      · exact idle (hdetach _) rfl
      · exact idle (hout.goto _) rfl
      · exact idle (hout.goto _) rfl
  | replyListen => exact idle (hdetach _) rfl
  | poll => exact idle (hout.goto _) rfl
  | batchEnd => exact idle (hout.goto _) rfl
  | dispatch _ hd => exact ⟨fun _ _ _ hpc hconn => tested_dispatched hd hpc hconn, hout⟩
  | handle hpc hh =>
      exact ⟨fun _ _ _ hpc' hconn => h.tested_handle hpc hh hpc' hconn, hout.handle hh⟩

theorem attended_start (path : Path) (fd : Fd) : Attended (start path fd) := by
  have hboot : OutConn (boot path) := nofun
  refine ⟨fun fe h conn hpc => by simp [handling, pc_start] at hpc, ?_⟩
  unfold start
  split
  · have hset : OutConn { boot path with
        unixListenFd := fd, fds := update (boot path).fds fd (some .unixListen) } := hboot
    exact hset.addEvent fd rfl true
  · have hset : OutConn { boot path with
        inetListenFd := fd, fds := update (boot path).fds fd (some .inetListen) } := hboot
    exact hset.addEvent fd rfl true

/-! ## how a session changes -/

/-- The handler reads or writes the session. -/
def isIo : Handler → Bool
  | .header => true
  | .payload => true
  | .write => true
  | _ => false

/-- How the session on `fd` has come to be `conn'`. -/
inductive SessionStep (p p' : Proc) (i : Input) (fd : Fd) (conn' : InetConn) : Prop
  | same : SameAt fd p p' → p.inetConnMap fd = some conn' →
      (∀ fe h, p.handling = some (fe, h) → isIo h = true → fd ≠ fe.fd) →
      SessionStep p p' i fd conn'
  | create : conn' = .create fd → p.inetConnMap fd = none →
      (p'.interest fd = p.interest fd ∨
        p'.interest fd = some { epollin := true, epollet := true }) →
      ((∃ c added, i = .accept (some (fd, c)) added) ∨
        ∃ bs desc added, i = .recvmsg (.data bs desc) added ∧ p'.cmptr = some fd ∧
          p'.replying = true) →
      SessionStep p p' i fd conn'
  | io {fe : FiredEvent} {h : Handler} {rest : List FiredEvent} {conn : InetConn} :
      p.pc = .handle fe h rest → isIo h = true → fe.fd = fd → p.inetConnMap fd = some conn →
      p'.fds = p.fds → Handle p fe rest h i p' → SessionStep p p' i fd conn'

variable {conn' : InetConn}

theorem SessionStep.of_sameAt (hsame : SameAt fd p p') (hconn : p'.inetConnMap fd = some conn')
    (hio : ∀ fe h, p.handling = some (fe, h) → isIo h = true → fd ≠ fe.fd) :
    SessionStep p p' i fd conn' :=
  .same hsame (hsame.inetConnMap ▸ hconn) hio

theorem interest_addEvent (p : Proc) (fd : Fd) (m : Interest) (added : Bool) :
    (p.addEvent fd m added).interest fd = p.interest fd ∨
      (p.addEvent fd m added).interest fd = some m := by
  unfold addEvent
  dsimp only
  split
  · exact .inr (Function.update_self _ _ _)
  · exact .inl rfl

/-- A request enters the session it brings, and leaves the others alone. -/
theorem received_session {uc : UnixConn} {str : List UInt8} {room got added : Bool}
    (huc : p.unixConn = some uc) (hhole : p.inetConnMap uc.cmptr = none)
    (hconn : (p.received uc str room got fe rest added).inetConnMap fd = some conn') :
    SameAt fd p (p.received uc str room got fe rest added) ∧ fd ≠ uc.cmptr ∨
      fd = uc.cmptr ∧ conn' = .create fd ∧
        ((p.received uc str room got fe rest added).interest fd = p.interest fd ∨
          (p.received uc str room got fe rest added).interest fd =
            some { epollin := true, epollet := true }) ∧
        (p.received uc str room got fe rest added).cmptr = some fd ∧
        (p.received uc str room got fe rest added).replying = true := by
  by_cases heq : fd = uc.cmptr
  · subst heq
    refine .inr ⟨rfl, ?_⟩
    unfold received processRequest at hconn ⊢
    split at hconn
    · exact absurd (hhole.symm.trans hconn) (by simp)
    · next hlen =>
        rw [if_neg hlen]
        split at hconn
        · exact absurd (hhole.symm.trans hconn) (by simp)
        · next hlisten =>
            rw [if_neg hlisten]
            split at hconn
            · next hsession =>
                rw [if_pos hsession]
                have hcreate : update p.inetConnMap uc.cmptr (some (.create uc.cmptr)) uc.cmptr =
                    some conn' := hconn
                rw [Function.update_self] at hcreate
                refine ⟨(Option.some.inj hcreate).symm, interest_addEvent _ _ _ _, ?_, rfl⟩
                simp [cmptr, goto, addInetConn, addEvent, huc]
            · exact absurd (hhole.symm.trans hconn) (by simp)
  · exact .inl ⟨sameAt_received fun _ => heq, heq⟩

theorem fds_afterGetRequest (p : Proc) (g : InetConn.GetRequest) :
    (p.afterGetRequest fe rest g).fds = p.fds := by
  unfold afterGetRequest
  split <;> rfl

theorem fds_afterSendReply (p : Proc) (ws : WriteStatus) :
    (p.afterSendReply fe rest ws).fds = p.fds := by
  unfold afterSendReply
  split <;> rfl

theorem Core.open_of_conn {hole : Option Fd} (h : Core p hole) (hconn : p.inetConnMap fd ≠ none) :
    p.fds fd ≠ none := by
  obtain ⟨⟨c, hc⟩, -⟩ := (h.keys fd).mp hconn
  simp [hc]

theorem Handle.session {h : Handler} (hh : Handle p fe rest h i p')
    (hpc : p.pc = .handle fe h rest) (hinv : Inv p) (hover : HandOver p i)
    (hrun : p'.pc ≠ .exited) (hdrop : h ≠ .dropUnix) (hconn : p'.inetConnMap fd = some conn') :
    SessionStep p p' i fd conn' := by
  have hpcInv := hinv.pcInv
  rw [hpc] at hpcInv
  have quiet (hnot : isIo h = false) (fe' : FiredEvent) (h' : Handler)
      (heq : p.handling = some (fe', h')) (hio : isIo h' = true) : fd ≠ fe'.fd := by
    cases (handling_of_pc hpc).symm.trans heq
    simp [hnot] at hio
  have other (hne : fd ≠ fe.fd) (fe' : FiredEvent) (h' : Handler)
      (heq : p.handling = some (fe', h')) (_ : isIo h' = true) : fd ≠ fe'.fd := by
    cases (handling_of_pc hpc).symm.trans heq
    exact hne
  cases hh with
  | acceptFail => exact absurd rfl hrun
  | unixAcceptFail => exact absurd rfl hrun
  | @accept fd' c added hfresh =>
      by_cases heq : fd = fd'
      · subst heq
        have hnone : p.inetConnMap fd = none := Core.map_eq_none hpcInv (by simp [hfresh.2])
        have hcreate : update p.inetConnMap fd (some (.create fd)) fd = some conn' := hconn
        rw [Function.update_self] at hcreate
        exact .create (Option.some.inj hcreate).symm hnone (interest_addEvent _ _ _ _)
          (.inl ⟨c, added, rfl⟩)
      · exact .of_sameAt ((sameAt_acceptInet c added heq).trans (sameAt_goto _)) hconn (quiet rfl)
  | @unixAccept fd' k cmptr added hfresh =>
      have hmap : p.inetConnMap fd = some conn' := hconn
      have hne : fd ≠ fd' := by
        rintro rfl
        exact Core.open_of_conn hpcInv (by simp [hmap]) hfresh.2
      exact .of_sameAt ((sameAt_acceptUnix k cmptr added hne).trans (sameAt_goto _)) hconn
        (quiet rfl)
  | @recvPlain _ _ _ _ uc _ huc =>
      obtain ⟨-, hgot, -, -, uc', huc', hcore⟩ := hpcInv
      cases huc.symm.trans huc'
      obtain ⟨obj, hobj, -⟩ := hover _ _ _ _ _ _ _ _ hpc rfl
      split at hobj
      · obtain ⟨_, hdesc⟩ := hobj
        contradiction
      · next hstr =>
          rw [hgot.mpr hstr, if_pos rfl] at hcore
          have hhole : p.inetConnMap uc.cmptr = none := by
            by_contra hne
            exact ((hcore.keys _).mp hne).2 rfl
          obtain ⟨hsame, -⟩ | ⟨rfl, hcreate, hreg, hcmptr, hreplying⟩ :=
            received_session huc hhole hconn
          · exact .of_sameAt hsame hconn (quiet rfl)
          · exact .create hcreate hhole hreg (.inr ⟨_, _, _, rfl, hcmptr, hreplying⟩)
  | @recvDesc _ _ _ uc fd' obj _ _ _ _ hfresh =>
      obtain ⟨-, -, -, -, uc', -, hcore⟩ := hpcInv
      have hhole : p.inetConnMap fd' = none := hcore.map_eq_none (by simp [hfresh.2])
      have huc : (p.install uc fd' obj).unixConn = some { uc with cmptr := fd' } := rfl
      obtain ⟨hsame, hne⟩ | ⟨rfl, hcreate, hreg, hcmptr, hreplying⟩ :=
        received_session huc hhole hconn
      · exact .of_sameAt ((sameAt_install uc obj hne).trans hsame) hconn (quiet rfl)
      · exact .create hcreate hhole hreg (.inr ⟨_, _, _, rfl, hcmptr, hreplying⟩)
  | sendSession =>
      refine .of_sameAt ?_ hconn (quiet rfl)
      unfold afterTransfer
      split <;> exact sameAt_goto _
  | recvAgain => exact .of_sameAt (.refl fd p) hconn (quiet rfl)
  | header hconn₀ hfits =>
      by_cases heq : fe.fd = fd
      · exact .io hpc rfl heq (heq ▸ hconn₀) (fds_afterGetRequest _ _) (.header hconn₀ hfits)
      · have hne := Ne.symm heq
        exact .of_sameAt ((sameAt_setConn _ hne).trans (sameAt_afterGetRequest _ hne)) hconn
          (other hne)
  | payload hconn₀ hfits =>
      by_cases heq : fe.fd = fd
      · exact .io hpc rfl heq (heq ▸ hconn₀) (fds_afterGetRequest _ _) (.payload hconn₀ hfits)
      · have hne := Ne.symm heq
        exact .of_sameAt ((sameAt_setConn _ hne).trans (sameAt_afterGetRequest _ hne)) hconn
          (other hne)
  | write hconn₀ hfits =>
      by_cases heq : fe.fd = fd
      · exact .io hpc rfl heq (heq ▸ hconn₀) (fds_afterSendReply _ _) (.write hconn₀ hfits)
      · have hne := Ne.symm heq
        exact .of_sameAt ((sameAt_setConn _ hne).trans (sameAt_afterSendReply _ hne)) hconn
          (other hne)
  | dropUnix => exact absurd rfl hdrop
  | dropInet =>
      have hne : fd ≠ fe.fd := by
        rintro rfl
        simp [Proc.dropInet] at hconn
      have hdel := sameAt_delClose (p := p) hne
      exact .of_sameAt ⟨hdel.fds, hdel.interest, Function.update_of_ne hne _ _⟩ hconn (quiet rfl)
  | _ => exact .of_sameAt (sameAt_goto _) hconn (quiet rfl)

/-- **Sessions**: a step leaves a session alone, reads or writes it, or opens it. -/
theorem session_step (hs : p.step i = some p') (hinv : Inv p) (hover : HandOver p i)
    (hrun : p'.pc ≠ .exited) (hdrop : ∀ fe rest, p.pc ≠ .handle fe .dropUnix rest)
    (hconn : p'.inetConnMap fd = some conn') : SessionStep p p' i fd conn' := by
  have hpcInv := hinv.pcInv
  have idle {pc : Pc} (hpc : p.pc = pc) (hidle : (p.goto pc).handling = none)
      (fe : FiredEvent) (h : Handler) (heq : p.handling = some (fe, h)) (_ : isIo h = true) :
      fd ≠ fe.fd := by
    subst hpc
    exact absurd (hidle.symm.trans heq) (by simp)
  have detach (hcore : Core p none) (pc : Pc)
      (hdetach : (p.detachInetListenFd.goto pc).inetConnMap fd = some conn') :
      SameAt fd p (p.detachInetListenFd.goto pc) := by
    have hmap : p.inetConnMap fd = some conn' := hdetach
    obtain ⟨⟨c, hc⟩, -⟩ := (hcore.keys fd).mp (by simp [hmap])
    have hne := (hcore.ne_listener hinv.toTables hc (by simp) (by simp)).1
    have hdel := sameAt_delClose (p := p) hne
    exact ⟨hdel.fds, hdel.interest, rfl⟩
  cases step_cases hs with
  | access hpc =>
      refine .of_sameAt ?_ hconn (idle hpc rfl)
      unfold checkTrigger
      split <;> exact sameAt_goto _
  | connectFail => exact absurd rfl hrun
  | @connect fd' hpc hfresh =>
      rw [hpc] at hpcInv
      have hmap : p.inetConnMap fd = some conn' := hconn
      have hne : fd ≠ fd' := by
        rintro rfl
        exact Core.open_of_conn hpcInv (by simp [hmap]) hfresh.2
      exact .of_sameAt ⟨Function.update_of_ne hne _ _, rfl, rfl⟩ hconn (idle hpc rfl)
  | sendListen hpc =>
      refine .of_sameAt ?_ hconn (idle hpc rfl)
      unfold afterHandOver
      split
      · next hok => exact absurd hok (sendLoop_ne_ok _ _)
      · exact sameAt_goto _
      · exact sameAt_goto _
  | replyListen hpc =>
      rw [hpc] at hpcInv
      exact .of_sameAt (detach hpcInv _ hconn) hconn (idle hpc rfl)
  | poll hpc => exact .of_sameAt (sameAt_goto _) hconn (idle hpc rfl)
  | batchEnd hpc => exact .of_sameAt (sameAt_goto _) hconn (idle hpc rfl)
  | dispatch hpc => exact .of_sameAt (sameAt_goto _) hconn (idle hpc rfl)
  | handle hpc hh =>
      exact hh.session hpc hinv hover hrun (fun heq => hdrop _ _ (heq ▸ hpc)) hconn

/-- The `InetConn` that `session` finds is that of the event's descriptor. -/
theorem session_found {c : ConnId} {conn : InetConn} (ht : Tables p)
    (h : (match p.inetConnMap fd with
      | none => none
      | some conn =>
        match p.fds conn.fd with
        | some (.inet c) => some (c, conn)
        | _ => none) = some (c, conn)) :
    p.inetConnMap fd = some conn ∧ p.fds fd = some (.inet c) := by
  split at h
  · contradiction
  · next conn' hconn' =>
      split at h
      · next c' hc' =>
          cases h
          rw [ht.connFd _ _ hconn'] at hc'
          exact ⟨hconn', hc'⟩
      · contradiction

/-- The session that is about to be read or written. -/
theorem session_eq_some {c : ConnId} {conn : InetConn} (ht : Tables p)
    (h : p.session = some (c, conn)) :
    ∃ fe hd, p.handling = some (fe, hd) ∧ isIo hd = true ∧ p.inetConnMap fe.fd = some conn ∧
      p.fds fe.fd = some (.inet c) := by
  unfold session at h
  split at h
  · next hpc => exact ⟨_, _, handling_of_pc hpc, rfl, session_found ht h⟩
  · next hpc => exact ⟨_, _, handling_of_pc hpc, rfl, session_found ht h⟩
  · next hpc => exact ⟨_, _, handling_of_pc hpc, rfl, session_found ht h⟩
  · contradiction

theorem session_of_handling {c : ConnId} {conn : InetConn} {hd : Handler} (ht : Tables p)
    (hpc : p.handling = some (fe, hd)) (hio : isIo hd = true)
    (hconn : p.inetConnMap fe.fd = some conn) (hc : p.fds fe.fd = some (.inet c)) :
    p.session = some (c, conn) := by
  obtain ⟨rest, hpc⟩ := pc_of_handling hpc
  have hfd := ht.connFd _ _ hconn
  cases hd with
  | header => simp [session, hpc, hconn, hfd, hc]
  | payload => simp [session, hpc, hconn, hfd, hc]
  | write => simp [session, hpc, hconn, hfd, hc]
  | _ => contradiction

end SysDemos.HotUpgrade.Proc
