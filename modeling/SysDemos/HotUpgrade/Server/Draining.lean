import SysDemos.HotUpgrade.Server.Sessions
import SysDemos.Lib.Refinement

/-!
# SysDemos.HotUpgrade.Server.Draining

An old server after it has connected to the new one.  It goes on serving the
requests that it has read a part of; a session without one is handed over at its
next input.

* `Underway.step` — once `unix_client` is set, `GetRequest` is called only for a
  session with a part of a request in its buffer;
* `requests_completed_begun` — whatever the process does from then on, it
  completes no request but those begun before, and each of them once.
-/

namespace SysDemos.HotUpgrade.Proc

open Function (update)
open Lts

variable {p p' : Proc} {fe fe' : FiredEvent} {rest rest' : List FiredEvent} {i : Input} {fd : Fd}
variable {h h' : Handler}

/-- The session on `fd` has read a part of a request. -/
def Begun (p : Proc) (fd : Fd) : Prop := ∃ conn, p.inetConnMap fd = some conn ∧ conn.lastReadPos ≠ 0

/-- `GetRequest` is at one of its `read`s. -/
def Reads (h : Handler) : Prop := h = .header ∨ h = .payload

/-- The session whose request is complete with this step. -/
def completed (p : Proc) : Input → List Fd
  | .read r =>
    match p.pc with
    | .handle fe .payload _ =>
      match p.inetConnMap fe.fd with
      | some conn => if (conn.onPayload r).2 = .kReadAll then [fe.fd] else []
      | none => []
    | _ => []
  | _ => []

/-- Once `unix_client` is set, `GetRequest` reads only what is left of a request. -/
def Underway (p : Proc) : Prop :=
  p.unixClient ≠ none → ∀ fe h rest, p.pc = .handle fe h rest → Reads h → Begun p fe.fd

/-! ## where requests are read -/

/-- `handle_net_event` hands the session over before `GetRequest` could begin a request. -/
theorem begun_dispatch (hclient : p.unixClient ≠ none)
    (hpc : (p.dispatch fe rest).pc = .handle fe' h rest') (hreads : Reads h) :
    Begun p fe'.fd := by
  unfold dispatch at hpc
  split at hpc
  · cases hpc
    simp [Reads] at hreads
  · cases hpc
    simp [Reads] at hreads
  · unfold handleUnixEvent at hpc
    simp only [goto] at hpc
    split at hpc
    · cases hpc
      simp [Reads] at hreads
    · split at hpc
      · cases hpc
        simp [Reads] at hreads
      · split at hpc <;> cases hpc
        simp [Reads] at hreads
  · unfold handleNetEvent at hpc
    split at hpc
    · cases hpc
      simp [Reads] at hreads
    · split at hpc
      · cases hpc
        simp [Reads] at hreads
      · next conn hconn =>
          split at hpc
          · cases hpc
            simp [Reads] at hreads
          · next htransfer =>
              split at hpc
              · next hin =>
                  obtain ⟨-, rfl, -⟩ := handler_of_afterGetRequest hpc
                  refine ⟨conn, hconn, fun hzero => htransfer ⟨hin, ?_, hclient⟩⟩
                  exact decide_eq_true hzero
              · split at hpc <;> cases hpc
                simp [Reads] at hreads

/-- A `read` is followed by another one only if the first has completed the header. -/
theorem Handle.begun_next (hh : Handle p fe rest h i p') (hpc : p.pc = .handle fe h rest)
    (hpc' : p'.pc = .handle fe' h' rest') (hreads : Reads h') : Begun p' fe'.fd := by
  cases hh with
  | @header conn r =>
      unfold afterGetRequest at hpc' ⊢
      split at hpc'
      · next hheader => exact absurd hheader onHeader_ne_header
      · next hpayload =>
          cases hpc'
          have hlen := onHeader_payload hpayload
          refine ⟨_, Function.update_self _ _ _, fun hzero => ?_⟩
          rw [hzero] at hlen
          exact absurd hlen (by decide)
      · simp [goto] at hpc'
      · simp [goto] at hpc'
      · cases hpc'
        simp [Reads] at hreads
  | payload =>
      unfold afterGetRequest at hpc'
      split at hpc' <;> cases hpc'
      · contradiction
      · contradiction
      · simp [Reads] at hreads
  | recvAgain =>
      cases hpc.symm.trans hpc'
      simp [Reads] at hreads
  | recvPlain =>
      obtain ⟨hmem, -, -⟩ := handler_of_received hpc'
      obtain rfl | rfl := hreads <;> simp at hmem
  | recvDesc =>
      obtain ⟨hmem, -, -⟩ := handler_of_received hpc'
      obtain rfl | rfl := hreads <;> simp at hmem
  | sendSession =>
      obtain ⟨hmem, -, -⟩ := handler_of_afterTransfer hpc'
      obtain rfl | rfl := hreads <;> simp at hmem
  | write =>
      obtain ⟨rfl, -, -⟩ := handler_of_afterSendReply hpc'
      simp [Reads] at hreads
  | recvClose | replySession =>
      cases hpc'
      simp [Reads] at hreads
  | _ => simp [Proc.exit, goto, Proc.dropUnix, Proc.dropInet] at hpc'

theorem underway_step (hs : p.step i = some p') : Underway p' := by
  intro hclient fe' h' rest' hpc' hreads
  cases step_cases hs with
  | access =>
      unfold checkTrigger at hpc'
      split at hpc' <;> cases hpc'
  | sendListen =>
      unfold afterHandOver at hpc'
      split at hpc' <;> cases hpc'
  | dispatch hpc =>
      simp only [Proc.step, hpc, Option.some.injEq] at hs
      rw [← hs] at hpc'
      exact begun_dispatch hclient hpc' hreads
  | handle hpc hh => exact hh.begun_next hpc hpc' hreads
  | _ => cases hpc'

theorem underway_start (path : Path) (fd : Fd) : Underway (start path fd) := by
  have hclient : (start path fd).unixClient = none := by
    unfold start
    split <;> rfl
  exact fun hne => absurd hclient hne

/-! ## what becomes of a request -/

theorem unixClient_received (p : Proc) (uc : UnixConn) (str : List UInt8) (room got added : Bool) :
    (p.received uc str room got fe rest added).unixClient = p.unixClient := by
  unfold received processRequest
  split
  · rfl
  · split
    · rfl
    · split <;> rfl

theorem Handle.unixClient (hh : Handle p fe rest h i p') : p'.unixClient = p.unixClient := by
  cases hh with
  | recvPlain => exact unixClient_received _ _ _ _ _ _
  | recvDesc => exact unixClient_received _ _ _ _ _ _
  | sendSession =>
      unfold afterTransfer
      split <;> rfl
  | header =>
      unfold afterGetRequest
      split <;> rfl
  | payload =>
      unfold afterGetRequest
      split <;> rfl
  | write =>
      unfold afterSendReply
      split <;> rfl
  | _ => rfl

theorem unixClient_step (hs : p.step i = some p') (hclient : p.unixClient ≠ none) :
    p'.unixClient ≠ none := by
  cases step_cases hs with
  | access =>
      unfold checkTrigger
      split <;> exact hclient
  | connect => simp [connected]
  | sendListen =>
      unfold afterHandOver
      split <;> exact hclient
  | handle _ hh =>
      rw [hh.unixClient]
      exact hclient
  | _ => exact hclient

theorem Begun.congr (hsame : p'.inetConnMap fd = p.inetConnMap fd) (hb : Begun p' fd) :
    Begun p fd := by
  obtain ⟨conn, hconn, hpos⟩ := hb
  exact ⟨conn, hsame ▸ hconn, hpos⟩

/-- No request has begun in a session that is new. -/
theorem Begun.of_create {fd' : Fd}
    (hb : Begun { p with inetConnMap := update p.inetConnMap fd' (some (.create fd')) } fd) :
    Begun p fd := by
  obtain ⟨conn, hconn, hpos⟩ := hb
  by_cases heq : fd = fd'
  · subst heq
    have hcreate := (Function.update_self fd _ p.inetConnMap).symm.trans hconn
    cases hcreate
    exact absurd rfl hpos
  · exact ⟨conn, (Function.update_of_ne heq _ _).symm.trans hconn, hpos⟩

theorem Begun.of_received {uc : UnixConn} {str : List UInt8} {room got added : Bool}
    (hb : Begun (p.received uc str room got fe rest added) fd) : Begun p fd := by
  unfold received processRequest at hb
  split at hb
  · exact hb
  · split at hb
    · exact hb
    · split at hb
      · exact Begun.of_create hb
      · exact hb

theorem lastReadPos_sendReply (conn : InetConn) (r : WriteRet) :
    (conn.sendReply r).1.lastReadPos = conn.lastReadPos := by
  unfold InetConn.sendReply
  split
  · rfl
  · rfl
  · split <;> rfl

theorem lastReadPos_onPayload {conn : InetConn} {r : ReadRet}
    (hall : (conn.onPayload r).2 = .kReadAll) : (conn.onPayload r).1.lastReadPos = 0 := by
  cases r with
  | err e => cases e <;> contradiction
  | ret bs =>
      cases bs with
      | nil => contradiction
      | cons b bs =>
          simp only [InetConn.onPayload] at hall ⊢
          split at hall
          · contradiction
          · next hlen => rw [if_neg hlen]

/-- Handling an event begins no request, `GetRequest` apart. -/
theorem Handle.begun (hh : Handle p fe rest h i p') (hb : Begun p' fd)
    (hreads : Reads h → Begun p fe.fd) : Begun p fd := by
  cases hh with
  | accept => exact Begun.of_create hb
  | recvPlain => exact Begun.of_received hb
  | recvDesc => exact (Begun.of_received hb).congr rfl
  | sendSession =>
      unfold afterTransfer at hb
      split at hb <;> exact hb
  | header =>
      by_cases heq : fd = fe.fd
      · rw [heq]
        exact hreads (.inl rfl)
      · exact hb.congr ((sameAt_setConn _ heq).trans (sameAt_afterGetRequest _ heq)).inetConnMap
  | payload =>
      by_cases heq : fd = fe.fd
      · rw [heq]
        exact hreads (.inr rfl)
      · exact hb.congr ((sameAt_setConn _ heq).trans (sameAt_afterGetRequest _ heq)).inetConnMap
  | @write conn r hconn =>
      by_cases heq : fd = fe.fd
      · have hset : Begun (p.setConn fe.fd (conn.sendReply r).1) fd := by
          unfold afterSendReply at hb
          split at hb <;> exact hb
        obtain ⟨conn', hconn', hpos⟩ := hset
        rw [heq] at hconn' ⊢
        cases (Function.update_self fe.fd _ p.inetConnMap).symm.trans hconn'
        rw [lastReadPos_sendReply] at hpos
        exact ⟨conn, hconn, hpos⟩
      · exact hb.congr ((sameAt_setConn _ heq).trans (sameAt_afterSendReply _ heq)).inetConnMap
  | dropInet =>
      obtain ⟨conn, hconn, hpos⟩ := hb
      by_cases heq : fd = fe.fd
      · subst heq
        have hnone : update p.inetConnMap fe.fd none fe.fd = some conn := hconn
        rw [Function.update_self] at hnone
        contradiction
      · exact ⟨conn, (Function.update_of_ne heq _ _).symm.trans hconn, hpos⟩
  | _ => exact hb

theorem completed_cases (hs : p.step i = some p') (hmem : fd ∈ completed p i) :
    completed p i = [fd] ∧ ∃ fe rest, p.pc = .handle fe .payload rest ∧ fe.fd = fd ∧
      ¬ Begun p' fd := by
  unfold completed at hmem ⊢
  split at hmem
  · next r =>
      split at hmem
      · next fe rest hpc =>
          split at hmem
          · next conn hconn =>
              split at hmem
              · next hall =>
                  obtain rfl := List.mem_singleton.mp hmem
                  have hh := step_of_handle hs hpc
                  cases hh with
                  | payload hconn' =>
                      cases hconn.symm.trans hconn'
                      refine ⟨by simp [hall], fe, rest, hpc, rfl, ?_⟩
                      rw [hall]
                      rintro ⟨conn', hset, hpos⟩
                      cases (Function.update_self fe.fd _ p.inetConnMap).symm.trans hset
                      exact hpos (lastReadPos_onPayload hall)
              · contradiction
          · contradiction
      · contradiction
  · contradiction

/-- A step begins no request, and it completes only one that was begun. -/
theorem begun_step (hs : p.step i = some p') (hclient : p.unixClient ≠ none) (hu : Underway p)
    (hb : Begun p' fd) : Begun p fd := by
  cases step_cases hs with
  | access =>
      unfold checkTrigger at hb
      split at hb <;> exact hb
  | sendListen =>
      unfold afterHandOver at hb
      split at hb <;> exact hb
  | handle hpc hh => exact hh.begun hb fun hreads => hu hclient _ _ _ hpc hreads
  | _ => exact hb

/-- The requests that were begun at `p` and those completed since then, at `q`. -/
structure Drains (p : Proc) (done : List Fd) (q : Proc) : Prop where
  client : q.unixClient ≠ none
  underway : Underway q
  nodup : done.Nodup
  begun : ∀ fd ∈ done, Begun p fd
  left : ∀ fd, Begun q fd → Begun p fd ∧ fd ∉ done

theorem Drains.step {done : List Fd} {q q' : Proc} (hd : Drains p done q)
    (hs : q.step i = some q') : Drains p (done ++ completed q i) q' := by
  -- a request that is completed is one of those left before the step
  have hleft {fd : Fd} (hmem : fd ∈ completed q i) : Begun p fd ∧ fd ∉ done := by
    obtain ⟨-, fe, rest, hpc, rfl, -⟩ := completed_cases hs hmem
    exact hd.left _ (hd.underway hd.client _ _ _ hpc (.inr rfl))
  refine ⟨unixClient_step hs hd.client, underway_step hs, ?_, ?_, ?_⟩
  · refine List.nodup_append.mpr ⟨hd.nodup, ?_, ?_⟩
    · cases hc : completed q i with
      | nil => exact .nil
      | cons fd fds =>
          have hmem : fd ∈ completed q i := by simp [hc]
          rw [← hc, (completed_cases hs hmem).1]
          exact List.nodup_singleton fd
    · rintro fd hmem fd' hmem' rfl
      exact (hleft hmem').2 hmem
  · intro fd hmem
    obtain hmem | hmem := List.mem_append.mp hmem
    · exact hd.begun fd hmem
    · exact (hleft hmem).1
  · intro fd hb
    obtain ⟨hbegun, hnot⟩ := hd.left fd (begun_step hs hd.client hd.underway hb)
    refine ⟨hbegun, fun hmem => ?_⟩
    obtain hmem | hmem := List.mem_append.mp hmem
    · exact hnot hmem
    · obtain ⟨-, -, -, -, -, hended⟩ := completed_cases hs hmem
      exact hended hb

/-- **Draining.**  Once the process has connected to the new server, the requests that it completes
are among those that it had read a part of then, at most one in each session, whatever is accepted,
closed and accepted again meanwhile.  At any time it reads only from sessions whose request is not
completed yet. -/
theorem requests_completed_begun (path : Path) (lfd : Fd) (is js : List Input) (p q : Proc)
    (hrun : Run step any (start path lfd) is p) (hclient : p.unixClient ≠ none)
    (hrest : Run step any p js q) :
    (outputs step completed p js).Nodup ∧ (∀ fd ∈ outputs step completed p js, Begun p fd) ∧
      ∀ fe h rest, q.pc = .handle fe h rest → Reads h →
        Begun p fe.fd ∧ fe.fd ∉ outputs step completed p js := by
  have hunder : Underway p :=
    hrun.inv (I := Underway) (underway_start path lfd) fun _ _ _ _ _ hs => underway_step hs
  have hdrains : Drains p (outputs step completed p js) q :=
    hrest.inv_outputs (I := Drains p)
      ⟨hclient, hunder, .nil, by simp, fun fd hb => ⟨hb, by simp⟩⟩
      fun _ _ _ _ hd _ hs => hd.step hs
  refine ⟨hdrains.nodup, hdrains.begun, fun fe h rest hpc hreads => ?_⟩
  exact hdrains.left _ (hdrains.underway hdrains.client _ _ _ hpc hreads)

/-- A client sends half a header, then the trigger file appears. -/
def beginInputs : List Input :=
  [.access false, .epollWait [.onFd 3 { epollin := true }], .tau,
    .accept (some (4, 0)) true, .tau, .access false, .epollWait [.onFd 4 { epollin := true }], .tau,
    .read (.ret [3, 0]), .tau, .access true, .unixClientConn (some 5)]

/-- The listener is handed over, and the rest of the request arrives. -/
def completeInputs : List Input :=
  [.sendmsg (.ret msgDataBufLen), .getReply (some msgReplyLen),
    .epollWait [.onFd 4 { epollin := true }], .tau, .read (.ret [0, 0]), .read (.ret [97, 98, 99])]

/-- The request that was begun is completed by the old server. -/
theorem requests_completed_begun_half : ∃ p q, Run step any (start .clientTrigger 3) beginInputs p ∧
    Run step any p completeInputs q ∧ outputs step completed p completeInputs = [4] ∧
    Begun p 4 := by
  let obs (p _ : Proc) := (p.unixClient, outputs step completed p completeInputs)
  have hexec : ((exec step (fun _ _ => true) (start .clientTrigger 3) beginInputs).bind fun p =>
      (exec step (fun _ _ => true) p completeInputs).map (obs p)) = some (some 5, [4]) := by
    decide +kernel
  obtain ⟨p, q, hrun, hrest, hobs⟩ := exists_runs_of_exec obs _ hexec
  simp only [obs, Prod.mk.injEq] at hobs
  obtain ⟨hclient, hout⟩ := hobs
  have hbegun := (requests_completed_begun _ _ _ _ p q hrun.toAny (by simp [hclient])
    hrest.toAny).2.1
  exact ⟨p, q, hrun.toAny, hrest.toAny, hout, hbegun 4 (by simp [hout])⟩

end SysDemos.HotUpgrade.Proc
