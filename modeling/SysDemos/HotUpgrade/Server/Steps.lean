import SysDemos.HotUpgrade.Server

/-!
# SysDemos.HotUpgrade.Server.Steps

What a step of a server process can do.  The inductive relations `Dispatched`,
`Handle` and `Step` list the outcomes of `Proc.dispatch`, `Proc.handle` and
`Proc.step`, with what the code has tested on the way; every invariant of the
process is proved by cases on them.

* `dispatch_eq`, `handle_cases`, `step_cases` — the lists are complete.
-/

namespace SysDemos.HotUpgrade.Proc

open Function (update)

variable {p p' : Proc} {fe : FiredEvent} {rest : List FiredEvent} {i : Input}

/-! ## outcomes -/

/-- Where the body of the loop over the fired events stops first. -/
inductive Dispatched (p : Proc) (fe : FiredEvent) (rest : List FiredEvent) : Pc → Prop
  | accept : p.branch fe.fd = .accept → Dispatched p fe rest (.handle fe .accept rest)
  | unixAccept : p.branch fe.fd = .unixAccept →
      Dispatched p fe rest (.handle fe .unixAccept rest)
  | recv : p.branch fe.fd = .unixEvent → p.unixConn ≠ none →
      Dispatched p fe rest (.handle fe (.recv [] true false) rest)
  | dropUnix : p.branch fe.fd = .unixEvent →
      (fe.mask.epollerr = true ∨ fe.mask.epollhup = true ∨ p.unixConn = none) →
      Dispatched p fe rest (.handle fe .dropUnix rest)
  | transfer {conn : InetConn} : p.branch fe.fd = .netEvent →
      p.inetConnMap fe.fd = some conn → fe.mask.epollin = true → conn.lastReadPos = 0 →
      p.unixClient ≠ none → Dispatched p fe rest (.handle fe (.transfer (.send 0)) rest)
  | header {conn : InetConn} : p.branch fe.fd = .netEvent → p.inetConnMap fe.fd = some conn →
      fe.mask.epollin = true → conn.getRequest = .header →
      Dispatched p fe rest (.handle fe .header rest)
  | payload {conn : InetConn} : p.branch fe.fd = .netEvent → p.inetConnMap fe.fd = some conn →
      fe.mask.epollin = true → conn.getRequest = .payload →
      Dispatched p fe rest (.handle fe .payload rest)
  | write {conn : InetConn} : p.branch fe.fd = .netEvent → p.inetConnMap fe.fd = some conn →
      fe.mask.epollin = false → fe.mask.epollout = true →
      Dispatched p fe rest (.handle fe .write rest)
  | dropInet : p.branch fe.fd = .netEvent → Dispatched p fe rest (.handle fe .dropInet rest)
  | skip : Dispatched p fe rest (.dispatch rest)

/-- What the handling of an event does at its next system call. -/
inductive Handle (p : Proc) (fe : FiredEvent) (rest : List FiredEvent) :
    Handler → Input → Proc → Prop
  | acceptFail {added} : Handle p fe rest .accept (.accept none added) p.exit
  | accept {fd c added} : p.Fresh fd → Handle p fe rest .accept (.accept (some (fd, c)) added)
      ((p.acceptInet fd c added).goto (.dispatch rest))
  | unixAcceptFail {r added} : r = .failed ∨ r = .rejected →
      Handle p fe rest .unixAccept (.unixAccept r added) p.exit
  | unixAccept {fd k cmptr added} : p.Fresh fd →
      Handle p fe rest .unixAccept (.unixAccept (.accepted fd k cmptr) added)
        ((p.acceptUnix fd k cmptr added).goto (.dispatch rest))
  | recvClose {str room got r added} : r = .eof ∨ r = .err .other →
      Handle p fe rest (.recv str room got) (.recvmsg r added) (p.goto (.handle fe .dropUnix rest))
  | recvAgain {str room got e added} : e ≠ .other →
      Handle p fe rest (.recv str room got) (.recvmsg (.err e) added) p
  | recvPlain {str room got bs uc added} : p.unixConn = some uc → bs ≠ [] →
      bs.length ≤ msgDataBufLen →
      Handle p fe rest (.recv str room got) (.recvmsg (.data bs none) added)
        (p.received uc (str ++ bs) false got fe rest added)
  | recvDesc {str got bs uc fd obj added} : p.unixConn = some uc → bs ≠ [] →
      bs.length ≤ msgDataBufLen → p.Fresh fd →
      Handle p fe rest (.recv str true got) (.recvmsg (.data bs (some (fd, obj))) added)
        ((p.install uc fd obj).received { uc with cmptr := fd } (str ++ bs) true true fe rest added)
  | commonReply {r} : Handle p fe rest .commonReply (.sendReply r) (p.goto (.dispatch rest))
  | sendSession {n r} : p.Sends fe.fd r → Handle p fe rest (.transfer (.send n)) (.sendmsg r)
      (p.afterTransfer fe rest (sendLoop n r))
  | replySession {r} : Handle p fe rest (.transfer .getReply) (.getReply r)
      (p.goto (.handle fe .dropInet rest))
  | header {conn r} : p.inetConnMap fe.fd = some conn → readFits conn.headerCount r = true →
      Handle p fe rest .header (.read r)
        ((p.setConn fe.fd (conn.onHeader r).1).afterGetRequest fe rest (conn.onHeader r).2)
  | payload {conn r} : p.inetConnMap fe.fd = some conn → readFits conn.payloadCount r = true →
      Handle p fe rest .payload (.read r)
        ((p.setConn fe.fd (conn.onPayload r).1).afterGetRequest fe rest
          (.done (conn.onPayload r).2))
  | write {conn r} : p.inetConnMap fe.fd = some conn → writeFits conn.unsent.length r = true →
      Handle p fe rest .write (.write r)
        ((p.setConn fe.fd (conn.sendReply r).1).afterSendReply fe rest (conn.sendReply r).2)
  | dropUnix : Handle p fe rest .dropUnix .tau (p.dropUnix fe rest)
  | dropInet : Handle p fe rest .dropInet .tau (p.dropInet fe rest)

/-- What a step of the process does. -/
inductive Step (p : Proc) : Input → Proc → Prop
  | access {found} : p.pc = .top → Step p (.access found) (p.checkTrigger found)
  | connectFail : p.pc = .connect → Step p (.unixClientConn none) p.exit
  | connect {fd} : p.pc = .connect → p.Fresh fd →
      Step p (.unixClientConn (some fd)) (p.connected fd)
  | sendListen {n r} : p.pc = .handOver (.send n) → p.Sends p.inetListenFd r →
      Step p (.sendmsg r) (p.afterHandOver (sendLoop n r))
  | replyListen {r} : p.pc = .handOver .getReply →
      Step p (.getReply r) (p.detachInetListenFd.goto .poll)
  | poll {evs} : p.pc = .poll → p.Polls evs → Step p (.epollWait evs) (p.goto (.dispatch evs))
  | batchEnd : p.pc = .dispatch [] → Step p .tau (p.goto .top)
  | dispatch {fe rest pc} : p.pc = .dispatch (fe :: rest) → Dispatched p fe rest pc →
      Step p .tau (p.goto pc)
  | handle {fe h rest i p'} : p.pc = .handle fe h rest → Handle p fe rest h i p' → Step p i p'

/-! ## the requests of an old server -/

theorem processRequest_listen (p : Proc) (fd : Fd) (added : Bool) :
    p.processRequest fd (msgDataBuf .kTransferListenFd) fe rest added =
      (p.attachInetListenFd fd added).goto (.handle fe .commonReply rest) := by
  rw [processRequest, if_pos (msgTypeOf_msgDataBuf _)]

theorem processRequest_session (p : Proc) (fd : Fd) (added : Bool) :
    p.processRequest fd (msgDataBuf .kTransferSessionFd) fe rest added =
      (p.addInetConn fd added).goto (.handle fe .commonReply rest) := by
  rw [processRequest, msgTypeOf_msgDataBuf, if_neg (by decide), if_pos rfl]

/-! ## where the handling of an event stops next -/

section Handler

variable {fe' : FiredEvent} {h : Handler} {rest' : List FiredEvent}

theorem handler_of_afterGetRequest {g : InetConn.GetRequest}
    (hpc : (p.afterGetRequest fe rest g).pc = .handle fe' h rest') :
    h ∈ [Handler.header, .payload, .dropInet] ∧ fe = fe' ∧ rest = rest' := by
  unfold afterGetRequest at hpc
  split at hpc <;> simp_all [goto]

theorem handler_of_afterSendReply {ws : WriteStatus}
    (hpc : (p.afterSendReply fe rest ws).pc = .handle fe' h rest') :
    h = .dropInet ∧ fe = fe' ∧ rest = rest' := by
  unfold afterSendReply at hpc
  split at hpc <;> simp_all [goto]

theorem handler_of_afterTransfer {t : Transfer}
    (hpc : (p.afterTransfer fe rest t).pc = .handle fe' h rest') :
    h ∈ [Handler.transfer t, .dropInet] ∧ fe = fe' ∧ rest = rest' := by
  unfold afterTransfer at hpc
  split at hpc <;> simp_all [goto]

theorem handler_of_received {uc : UnixConn} {str : List UInt8} {room got added : Bool}
    (hpc : (p.received uc str room got fe rest added).pc = .handle fe' h rest') :
    h ∈ [Handler.recv str room got, .commonReply, .dropUnix] ∧ fe = fe' ∧ rest = rest' := by
  unfold received processRequest at hpc
  split at hpc
  · simp_all [goto]
  · split at hpc
    · simp_all [goto]
    · split at hpc <;> simp_all [goto]

/-- The points in the handling of a request of the unix connection are come to by `recvmsg`. -/
theorem Handle.recv_of_next {h₀ : Handler} (hh : Handle p fe rest h₀ i p')
    (hpc : p'.pc = .handle fe' h rest')
    (hh' : h = .dropUnix ∨ ∃ str room got, h = .recv str room got) :
    (∃ str room got, h₀ = .recv str room got) ∧ ∃ r added, i = .recvmsg r added := by
  cases hh with
  | recvClose => exact ⟨⟨_, _, _, rfl⟩, _, _, rfl⟩
  | recvAgain => exact ⟨⟨_, _, _, rfl⟩, _, _, rfl⟩
  | recvPlain => exact ⟨⟨_, _, _, rfl⟩, _, _, rfl⟩
  | recvDesc => exact ⟨⟨_, _, _, rfl⟩, _, _, rfl⟩
  | header =>
      have hnext := (handler_of_afterGetRequest hpc).1
      obtain rfl | ⟨str, room, got, rfl⟩ := hh' <;> simp at hnext
  | payload =>
      have hnext := (handler_of_afterGetRequest hpc).1
      obtain rfl | ⟨str, room, got, rfl⟩ := hh' <;> simp at hnext
  | write =>
      have hnext := (handler_of_afterSendReply hpc).1
      obtain rfl | ⟨str, room, got, rfl⟩ := hh' <;> simp at hnext
  | sendSession =>
      have hnext := (handler_of_afterTransfer hpc).1
      obtain rfl | ⟨str, room, got, rfl⟩ := hh' <;> simp at hnext
  | _ =>
      obtain rfl | ⟨str, room, got, rfl⟩ := hh' <;>
        simp [goto, Proc.exit, Proc.dropUnix, Proc.dropInet] at hpc

end Handler

/-- `recvmsg` that does not fail or find the end of the stream returns something. -/
theorem Handle.data_ne_nil {str bs : List UInt8} {room got added : Bool}
    {desc : Option (Fd × Obj)}
    (hh : Handle p fe rest (.recv str room got) (.recvmsg (.data bs desc) added) p') :
    bs ≠ [] := by
  cases hh with
  | recvClose hr => simp at hr
  | recvPlain _ hne => exact hne
  | recvDesc _ hne => exact hne

/-! ## the lists are complete -/

theorem handleUnixEvent_cases (h : p.branch fe.fd = .unixEvent) :
    Dispatched p fe rest (p.handleUnixEvent fe rest) := by
  unfold handleUnixEvent
  split
  · next hmask => exact .dropUnix h (hmask.elim .inl fun hup => .inr (.inl hup))
  · split
    · next huc => exact .dropUnix h (.inr (.inr huc))
    · next huc =>
        split
        · exact .recv h huc
        · exact .skip

theorem handleNetEvent_eq (h : p.branch fe.fd = .netEvent) :
    ∃ pc, p.handleNetEvent fe rest = p.goto pc ∧ Dispatched p fe rest pc := by
  unfold handleNetEvent
  split
  · exact ⟨_, rfl, .dropInet h⟩
  · cases hconn : p.inetConnMap fe.fd with
    | none => exact ⟨_, rfl, .dropInet h⟩
    | some conn =>
        dsimp only
        split
        · next ht =>
            obtain ⟨hin, hempty, huc⟩ := ht
            exact ⟨_, rfl, .transfer h hconn hin (of_decide_eq_true hempty) huc⟩
        · split
          · next hin =>
              cases hreq : conn.getRequest with
              | header => exact ⟨_, rfl, .header h hconn hin hreq⟩
              | payload => exact ⟨_, rfl, .payload h hconn hin hreq⟩
              | done rs =>
                  rw [InetConn.eq_full_of_getRequest hreq]
                  exact ⟨_, rfl, .dropInet h⟩
          · next hin =>
              split
              · next hout =>
                  exact ⟨_, rfl, .write h hconn (by simpa using hin) hout⟩
              · exact ⟨_, rfl, .skip⟩

/-- Dispatching an event moves the program on and changes nothing else. -/
theorem dispatch_eq (p : Proc) (fe : FiredEvent) (rest : List FiredEvent) :
    ∃ pc, p.dispatch fe rest = p.goto pc ∧ Dispatched p fe rest pc := by
  unfold dispatch
  cases hb : p.branch fe.fd with
  | accept => exact ⟨_, rfl, .accept hb⟩
  | unixAccept => exact ⟨_, rfl, .unixAccept hb⟩
  | unixEvent => exact ⟨_, rfl, handleUnixEvent_cases hb⟩
  | netEvent => exact handleNetEvent_eq hb

theorem recv_cases {str : List UInt8} {room got added : Bool} {r : RecvRet}
    (hs : p.recv fe str room got rest added r = some p') :
    Handle p fe rest (.recv str room got) (.recvmsg r added) p' := by
  cases r with
  | eof =>
      cases hs
      exact .recvClose (.inl rfl)
  | err e =>
      cases e with
      | other =>
          cases hs
          exact .recvClose (.inr rfl)
      | EAGAIN =>
          cases hs
          exact .recvAgain (by decide)
      | EINTR =>
          cases hs
          exact .recvAgain (by decide)
  | data bs desc =>
      cases huc : p.unixConn with
      | none =>
          simp only [recv, huc] at hs
          contradiction
      | some uc =>
          simp only [recv, huc] at hs
          split at hs
          · contradiction
          · next hbs =>
              have hne : bs ≠ [] := fun h => hbs (.inl h)
              have hlen : bs.length ≤ msgDataBufLen := by omega
              cases desc with
              | none =>
                  cases hs
                  exact .recvPlain huc hne hlen
              | some d =>
                  obtain ⟨fd, obj⟩ := d
                  simp only at hs
                  split at hs
                  · next hroom =>
                      obtain ⟨rfl, hfresh⟩ := hroom
                      cases hs
                      exact .recvDesc huc hne hlen hfresh
                  · contradiction

theorem handle_cases {h : Handler} (hs : p.handle fe h rest i = some p') :
    Handle p fe rest h i p' := by
  unfold handle at hs
  split at hs
  · cases hs
    exact .acceptFail
  · split at hs
    · next hfresh =>
        cases hs
        exact .accept hfresh
    · contradiction
  · cases hs
    exact .unixAcceptFail (.inl rfl)
  · cases hs
    exact .unixAcceptFail (.inr rfl)
  · split at hs
    · next hfresh =>
        cases hs
        exact .unixAccept hfresh
    · contradiction
  · exact recv_cases hs
  · cases hs
    exact .commonReply
  · split at hs
    · next hsends =>
        cases hs
        exact .sendSession hsends
    · contradiction
  · cases hs
    exact .replySession
  · split at hs
    · contradiction
    · next conn hconn =>
        split at hs
        · next hfits =>
            cases hs
            exact .header hconn hfits
        · contradiction
  · split at hs
    · contradiction
    · next conn hconn =>
        split at hs
        · next hfits =>
            cases hs
            exact .payload hconn hfits
        · contradiction
  · split at hs
    · contradiction
    · next conn hconn =>
        split at hs
        · next hfits =>
            cases hs
            exact .write hconn hfits
        · contradiction
  · cases hs
    exact .dropUnix
  · cases hs
    exact .dropInet
  · contradiction

theorem step_cases (hs : p.step i = some p') : Step p i p' := by
  unfold step at hs
  split at hs
  · next hpc =>
      cases hs
      exact .access hpc
  · next hpc =>
      cases hs
      exact .connectFail hpc
  · next hpc =>
      split at hs
      · next hfresh =>
          cases hs
          exact .connect hpc hfresh
      · contradiction
  · next hpc =>
      split at hs
      · next hsends =>
          cases hs
          exact .sendListen hpc hsends
      · contradiction
  · next hpc =>
      cases hs
      exact .replyListen hpc
  · next hpc =>
      split at hs
      · next hpolls =>
          cases hs
          exact .poll hpc hpolls
      · contradiction
  · next hpc =>
      cases hs
      exact .batchEnd hpc
  · next fe rest hpc =>
      obtain ⟨pc, heq, hd⟩ := dispatch_eq p fe rest
      rw [heq] at hs
      cases hs
      exact .dispatch hpc hd
  · next hpc => exact .handle hpc (handle_cases hs)
  · contradiction

theorem step_of_dispatch (hs : p.step i = some p') (hpc : p.pc = .dispatch (fe :: rest)) :
    i = .tau ∧ ∃ pc, p' = p.goto pc ∧ Dispatched p fe rest pc := by
  cases i with
  | tau =>
      obtain ⟨pc, heq, hd⟩ := dispatch_eq p fe rest
      simp only [step, hpc, Option.some.injEq] at hs
      exact ⟨rfl, pc, hs.symm.trans heq, hd⟩
  | _ =>
      simp only [step, hpc] at hs
      contradiction

theorem step_of_handOver {n : Nat} {r : WriteRet} (hs : p.step (.sendmsg r) = some p')
    (hpc : p.pc = .handOver (.send n)) :
    p.Sends p.inetListenFd r ∧ p' = p.afterHandOver (sendLoop n r) := by
  simp only [step, hpc] at hs
  split at hs
  · next hsends =>
      cases hs
      exact ⟨hsends, rfl⟩
  · contradiction

theorem step_of_handle {h : Handler} (hs : p.step i = some p') (hpc : p.pc = .handle fe h rest) :
    Handle p fe rest h i p' := by
  simp only [step, hpc] at hs
  exact handle_cases hs

theorem step_recvmsg {r : RecvRet} {added : Bool} (hs : p.step (.recvmsg r added) = some p') :
    ∃ fe str room got rest, p.pc = .handle fe (.recv str room got) rest := by
  cases step_cases hs with
  | handle hpc hh => cases hh <;> exact ⟨_, _, _, _, _, hpc⟩

end SysDemos.HotUpgrade.Proc
