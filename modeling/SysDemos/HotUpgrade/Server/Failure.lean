import SysDemos.HotUpgrade.Server.Frame
import SysDemos.Lib.Lts

/-!
# SysDemos.HotUpgrade.Server.Failure

A hand-over that fails.  `main` keeps the listener when `TransferListenFd` returns
`kSendMsgError`; `handle_net_event` returns `-1` whatever `TransferSessionFd`
returns, and `main` then closes the session.

* `failed_transfer_keeps_iff` — a failed transfer leaves everything the old server
  serves in place exactly when it is the transfer of the listener.
-/

namespace SysDemos.HotUpgrade.Proc

open Lts

variable {p p' q : Proc} {fe : FiredEvent} {rest : List FiredEvent} {i : Input}

/-! ## a transfer whose `sendmsg` calls give `rs` -/

theorem goto_self {pc : Pc} (h : p.pc = pc) : p.goto pc = p := by
  subst h
  rfl

/-- The send loop runs in the same way in both callers: `f` gives the state of
the caller for each point of the loop. -/
theorem run_sendLoop {f : Transfer → Proc}
    (hstep : ∀ n r s, (f (.send n)).step (.sendmsg r) = some s → s = f (sendLoop n r))
    (hstop : ∀ sms r, (f (.done sms)).step (.sendmsg r) = none) {rs : List WriteRet} {n : Nat}
    {sms : SendMsgStatus} (hdone : sendLoopRun n rs = .done sms)
    (hrun : Run step any (f (.send n)) (rs.map .sendmsg) q) : q = f (.done sms) := by
  induction rs generalizing n with
  | nil => contradiction
  | cons r rs ih =>
      obtain ⟨s, -, hs, hrest⟩ := hrun.uncons
      rw [hstep _ _ _ hs] at hrest
      unfold sendLoopRun at hdone
      cases hloop : sendLoop n r with
      | send m =>
          rw [hloop] at hdone hrest
          exact ih hdone hrest
      | getReply =>
          rw [hloop] at hdone
          contradiction
      | done sms' =>
          rw [hloop] at hdone hrest
          cases hdone
          cases rs with
          | nil => exact hrest.eq_of_nil
          | cons r rs =>
              obtain ⟨s, -, hs, -⟩ := hrest.uncons
              rw [hstop] at hs
              contradiction

theorem run_transferListenFd {rs : List WriteRet} (hpc : p.pc = .handOver (.send 0))
    (hfail : sendLoopRun 0 rs = .done .kSendMsgError)
    (hrun : Run step any p (rs.map .sendmsg) q) : q = p.goto .poll := by
  have hstart : p.afterHandOver (.send 0) = p := goto_self hpc
  rw [← hstart] at hrun
  refine run_sendLoop (f := p.afterHandOver) ?_ ?_ hfail hrun
  · intro n r s hs
    rw [(step_of_handOver hs rfl).2]
    cases sendLoop n r with
    | send => rfl
    | getReply => rfl
    | done sms => cases sms <;> rfl
  · intro sms r
    cases sms <;> rfl

theorem run_transferSessionFd {rs : List WriteRet}
    (hpc : p.pc = .handle fe (.transfer (.send 0)) rest)
    (hfail : sendLoopRun 0 rs = .done .kSendMsgError)
    (hrun : Run step any p (rs.map .sendmsg) q) : q = p.goto (.handle fe .dropInet rest) := by
  have hstart : p.afterTransfer fe rest (.send 0) = p := goto_self hpc
  rw [← hstart] at hrun
  refine run_sendLoop (f := p.afterTransfer fe rest) ?_ ?_ hfail hrun
  · intro n r s hs
    cases step_of_handle hs rfl with
    | sendSession => cases sendLoop n r <;> rfl
  · intro sms r
    rfl

/-! ## the session that is handed over -/

/-- While a session is handed over, it is served here. -/
def Served (p : Proc) : Prop :=
  ∀ fe t rest, p.pc = .handle fe (.transfer t) rest → p.inetConnMap fe.fd ≠ none

theorem Served.step (hserved : Served p) (hs : p.step i = some p') : Served p' := by
  intro fe t rest hpc'
  obtain ⟨-, rfl, -, hd⟩ | ⟨h₀, hpc, hh⟩ := step_to_handle hs hpc'
  · cases hd with
    | transfer _ hconn => simp [goto, hconn]
  · cases hh with
    | recvAgain => exact hserved _ _ _ hpc'
    | sendSession =>
        unfold afterTransfer
        split <;> exact hserved _ _ _ hpc
    | recvPlain => exact absurd (handler_of_received hpc').1 (by simp)
    | recvDesc => exact absurd (handler_of_received hpc').1 (by simp)
    | header => exact absurd (handler_of_afterGetRequest hpc').1 (by simp)
    | payload => exact absurd (handler_of_afterGetRequest hpc').1 (by simp)
    | write => exact absurd (handler_of_afterSendReply hpc').1 (by simp)
    | _ => simp [goto, Proc.exit, Proc.dropUnix, Proc.dropInet] at hpc'

/-! ## failed transfers -/

/-- Every session and the listener of `p` are still open, entered and registered
in `q`. -/
def KeepsAll (p q : Proc) : Prop :=
  (∀ fd, p.inetConnMap fd ≠ none → SameAt fd p q) ∧
    q.inetListenFd = p.inetListenFd ∧ SameAt p.inetListenFd p q

/-- The calls of a transfer and of what follows it until the event that caused it
is done: the listener is handed over outside the loop over the events. -/
def transferInputs (p : Proc) (rs : List WriteRet) : List Input :=
  rs.map .sendmsg ++ if p.pc = .handOver (.send 0) then [] else [.tau]

/-- **A failed transfer keeps everything exactly when it is the transfer of the
listener.** -/
theorem failed_transfer_keeps_iff (fd : Fd) (ls : List Input) (p q : Proc) (rs : List WriteRet)
    (hreach : Run step any (start .clientTrigger fd) ls p)
    (hstart : p.pc = .handOver (.send 0) ∨ ∃ fe rest, p.pc = .handle fe (.transfer (.send 0)) rest)
    (hfail : sendLoopRun 0 rs = .done .kSendMsgError)
    (hrun : Run step any p (transferInputs p rs) q) :
    KeepsAll p q ↔ p.pc = .handOver (.send 0) := by
  obtain hpc | ⟨fe, rest, hpc⟩ := hstart
  · have hq : q = p.goto .poll := by
      simp only [transferInputs, hpc, if_pos, List.append_nil] at hrun
      exact run_transferListenFd hpc hfail hrun
    rw [hq]
    exact ⟨fun _ => hpc, fun _ => ⟨fun _ _ => sameAt_goto _, rfl, sameAt_goto _⟩⟩
  · have hserved : Served p := by
      refine Run.inv (I := Served) ?_ (fun _ _ _ h _ hs => h.step hs) hreach
      intro fe t rest hpc
      rw [pc_start] at hpc
      contradiction
    simp only [transferInputs, hpc, reduceCtorEq, if_neg, not_false_eq_true] at hrun
    obtain ⟨s, hs, -, hdrop⟩ := hrun.unsnoc
    rw [run_transferSessionFd hpc hfail hs] at hdrop
    have hq : q.inetConnMap fe.fd = none := by
      cases step_of_handle hdrop rfl
      simp [dropInet]
    refine ⟨fun hkeeps => ?_, fun h => by simp [hpc] at h⟩
    have hmap := (hkeeps.1 fe.fd (hserved _ _ _ hpc)).inetConnMap
    exact absurd (hmap.symm.trans hq) (hserved _ _ _ hpc)

/-- An old server with one session, connected to the new one. -/
def handingListener : Proc := ((start .clientTrigger 3).acceptInet 4 0 true).connected 5

/-- The same server, once it has handed its listener over, about to hand over its
session. -/
def handingSession : Proc :=
  handingListener.detachInetListenFd.goto
    (.handle (.onFd 4 { epollin := true }) (.transfer (.send 0)) [])

/-- A client connects and the trigger file appears. -/
def triggerInputs : List Input :=
  [.access false, .epollWait [.onFd 3 { epollin := true }], .tau,
    .accept (some (4, 0)) true, .tau, .access true, .unixClientConn (some 5)]

theorem reaches_handingListener :
    Run step any (start .clientTrigger 3) triggerInputs handingListener := by
  have hexec : exec step (fun _ _ => true) (start .clientTrigger 3) triggerInputs =
      some handingListener := rfl
  exact (run_of_exec hexec).toAny

theorem reaches_handingSession : Run step any (start .clientTrigger 3)
    (triggerInputs ++ [.sendmsg (.ret msgDataBufLen)] ++ [.getReply (some msgReplyLen)] ++
      [.epollWait [.onFd 4 { epollin := true }]] ++ [.tau]) handingSession :=
  (((reaches_handingListener.snoc trivial rfl).snoc trivial rfl).snoc trivial rfl).snoc trivial rfl

/-- When the unix connection is broken, the session is closed: it was not handed
over and is served no longer. -/
theorem not_keepsAll_broken_pipe : ¬ ∀ (fd : Fd) (ls : List Input) (p q : Proc)
    (rs : List WriteRet), Run step any (start .clientTrigger fd) ls p →
    (p.pc = .handOver (.send 0) ∨ ∃ fe rest, p.pc = .handle fe (.transfer (.send 0)) rest) →
    sendLoopRun 0 rs = .done .kSendMsgError → Run step any p (transferInputs p rs) q →
    KeepsAll p q := by
  intro hall
  have hrun : Run step any handingSession (transferInputs handingSession [.fail .other])
      (handingSession.dropInet (.onFd 4 { epollin := true }) []) :=
    .snoc (.snoc .nil trivial rfl) trivial rfl
  have hkeeps := hall _ _ _ _ _ reaches_handingSession (.inr ⟨_, _, rfl⟩) rfl hrun
  exact absurd (hkeeps.1 4 (by decide)).inetConnMap (by decide)

/-- The transfer of the listener fails, after an `EINTR`, and everything stays. -/
theorem failed_transfer_keeps_iff_listener :
    Run step any (start .clientTrigger 3) triggerInputs handingListener ∧
      Run step any handingListener (transferInputs handingListener [.fail .EINTR, .fail .other])
        (handingListener.goto .poll) ∧
      handingListener.inetConnMap 4 ≠ none ∧
      KeepsAll handingListener (handingListener.goto .poll) := by
  have hrun : Run step any handingListener
      (transferInputs handingListener [.fail .EINTR, .fail .other]) (handingListener.goto .poll) :=
    .snoc (.snoc .nil trivial rfl) trivial rfl
  have hkeeps := failed_transfer_keeps_iff _ _ _ _ _ reaches_handingListener (.inl rfl) rfl hrun
  exact ⟨reaches_handingListener, hrun, by decide, hkeeps.mpr rfl⟩

end SysDemos.HotUpgrade.Proc
