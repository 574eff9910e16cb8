import SysDemos.HotUpgrade.Server.Dispatch

/-!
# SysDemos.HotUpgrade.Server.Roles

The two roles of the program in an upgrade.  An old server has no unix listener, so
it never accepts or receives on a unix connection; a new server never becomes a unix
client, so it never transfers anything.

* `OldRole.step`, `NewRole.step` — the roles are kept;
* `OldRole.inv` — the dispatch of an old server is always sound.
-/

namespace SysDemos.HotUpgrade

/-- Points of the program that only a process with a unix listener reaches. -/
def Pc.isUnix : Pc → Bool
  | .handle _ .unixAccept _ => true
  | .handle _ (.recv _ _ _) _ => true
  | .handle _ .commonReply _ => true
  | .handle _ .dropUnix _ => true
  | _ => false

/-- Points of the program that only a unix client reaches. -/
def Pc.isClient : Pc → Bool
  | .connect => true
  | .handOver _ => true
  | .handle _ (.transfer _) _ => true
  | _ => false

namespace Proc

open Lts

variable {p p' : Proc} {fe : FiredEvent} {rest : List FiredEvent} {i : Input} {fd : Fd}

/-- A server without unix listener. -/
structure OldRole (p : Proc) : Prop where
  unixListenFd : p.unixListenFd = -1
  unixConnFd : p.unixConnFd = -1
  unixConn : p.unixConn = none
  pc : p.pc.isUnix = false

/-- A server that does not become a unix client. -/
structure NewRole (p : Proc) : Prop where
  path : p.path = .unixServer
  unixClient : p.unixClient = none
  pc : p.pc.isClient = false

theorem Wf.nonneg_of_pending (hw : Wf p) (hmem : fe ∈ p.pc.pending) : 0 ≤ fe.fd := by
  obtain ⟨m, hm, -⟩ := hw.fires fe hmem
  exact hw.nonneg fe.fd (hw.regOpen _ (by simp [hm]))

/-! ## the inet listener -/

/-- A whole request to take over the listener. -/
def IsListenRequest (requestStr : List UInt8) : Prop :=
  msgDataBufLen ≤ requestStr.length ∧
    msgTypeOf requestStr = MsgRequestType.kTransferListenFd.code

theorem inetListenFd_received (p : Proc) (uc : UnixConn) (str : List UInt8)
    (room got added : Bool) {p' : Proc} (hp' : p' = p.received uc str room got fe rest added)
    (huc : p.unixConn = some uc) :
    p'.inetListenFd = p.inetListenFd ∨
      p'.unixConn.map (·.cmptr) = some p'.inetListenFd ∧ p'.pc = .handle fe .commonReply rest ∧
        IsListenRequest str := by
  subst hp'
  unfold received processRequest
  split
  · exact .inl rfl
  · next hlen =>
      split
      · next htype =>
          exact .inr ⟨by simp [goto, attachInetListenFd, addEvent, huc], rfl, by omega, htype⟩
      · split <;> exact .inl rfl

/-- `inet_listen_fd` changes when a listener has been handed over and when one is
received, as the descriptor in the control buffer. -/
theorem inetListenFd_step (hs : p.step i = some p') :
    p'.inetListenFd = p.inetListenFd ∨ (∃ r, i = .getReply r) ∧ p.pc = .handOver .getReply ∨
      p'.unixConn.map (·.cmptr) = some p'.inetListenFd ∧ ∃ bs desc added,
        i = .recvmsg (.data bs desc) added ∧ ∃ fe str room got rest,
          p.pc = .handle fe (.recv str room got) rest ∧ p'.pc = .handle fe .commonReply rest ∧
            IsListenRequest (str ++ bs) := by
  cases step_cases hs with
  | replyListen hpc => exact .inr (.inl ⟨⟨_, rfl⟩, hpc⟩)
  | access =>
      unfold checkTrigger
      split <;> exact .inl rfl
  | sendListen =>
      unfold afterHandOver
      split
      · next hok => exact absurd hok (sendLoop_ne_ok _ _)
      · exact .inl rfl
      · exact .inl rfl
  | handle hpc hh =>
      cases hh with
      | recvPlain huc =>
          obtain hsame | ⟨hattached, hpc'⟩ := inetListenFd_received _ _ _ _ _ _ rfl huc
          · exact .inl hsame
          · exact .inr (.inr ⟨hattached, _, _, _, rfl, _, _, _, _, _, hpc, hpc'⟩)
      | recvDesc =>
          obtain hsame | ⟨hattached, hpc'⟩ :=
            inetListenFd_received (p.install _ _ _) _ _ _ _ _ rfl rfl
          · exact .inl hsame
          · exact .inr (.inr ⟨hattached, _, _, _, rfl, _, _, _, _, _, hpc, hpc'⟩)
      | sendSession =>
          unfold afterTransfer
          split <;> exact .inl rfl
      | header =>
          unfold afterGetRequest
          split <;> exact .inl rfl
      | payload =>
          unfold afterGetRequest
          split <;> exact .inl rfl
      | write =>
          unfold afterSendReply
          split <;> exact .inl rfl
      | _ => exact .inl rfl
  | _ => exact .inl rfl

/-! ## old servers -/

theorem OldRole.branch (h : OldRole p) (hfd : 0 ≤ fd) :
    p.branch fd = .accept ∨ p.branch fd = .netEvent := by
  have hne : fd ≠ -1 := by
    rintro rfl
    exact absurd hfd (by decide)
  unfold Proc.branch
  rw [h.unixListenFd, h.unixConnFd]
  simp only [hne, if_false]
  split
  · exact .inl rfl
  · exact .inr rfl

theorem OldRole.goto (h : OldRole p) {pc : Pc} (hpc : pc.isUnix = false) : OldRole (p.goto pc) :=
  ⟨h.unixListenFd, h.unixConnFd, h.unixConn, hpc⟩

theorem OldRole.setConn (h : OldRole p) (fd : Fd) (conn : InetConn) :
    OldRole (p.setConn fd conn) :=
  ⟨h.unixListenFd, h.unixConnFd, h.unixConn, h.pc⟩

theorem OldRole.afterGetRequest (h : OldRole p) (g : InetConn.GetRequest) :
    OldRole (p.afterGetRequest fe rest g) := by
  unfold Proc.afterGetRequest
  split <;> exact ⟨h.unixListenFd, h.unixConnFd, h.unixConn, rfl⟩

theorem OldRole.afterSendReply (h : OldRole p) (ws : WriteStatus) :
    OldRole (p.afterSendReply fe rest ws) := by
  unfold Proc.afterSendReply
  split <;> exact ⟨h.unixListenFd, h.unixConnFd, h.unixConn, rfl⟩

theorem OldRole.afterTransfer (h : OldRole p) (t : Transfer) :
    OldRole (p.afterTransfer fe rest t) := by
  unfold Proc.afterTransfer
  split <;> exact h.goto rfl

theorem OldRole.dispatched (h : OldRole p) (hfd : 0 ≤ fe.fd) {pc : Pc}
    (hd : Dispatched p fe rest pc) : OldRole (p.goto pc) := by
  have hb := h.branch hfd
  refine h.goto ?_
  cases hd with
  | unixAccept hb' => simp [hb'] at hb
  | recv hb' => simp [hb'] at hb
  | dropUnix hb' => simp [hb'] at hb
  | accept => rfl
  | transfer => rfl
  | header => rfl
  | payload => rfl
  | write => rfl
  | dropInet => rfl
  | skip => rfl

theorem OldRole.step (h : OldRole p) (hw : Wf p) (hs : p.step i = some p') : OldRole p' := by
  have hpcRole := h.pc
  cases step_cases hs with
  | access =>
      unfold checkTrigger
      split <;> exact h.goto rfl
  | connectFail => exact ⟨h.unixListenFd, h.unixConnFd, h.unixConn, rfl⟩
  | connect => exact ⟨h.unixListenFd, h.unixConnFd, h.unixConn, rfl⟩
  | sendListen =>
      unfold afterHandOver
      split <;> exact ⟨h.unixListenFd, h.unixConnFd, h.unixConn, rfl⟩
  | replyListen => exact ⟨h.unixListenFd, h.unixConnFd, h.unixConn, rfl⟩
  | poll => exact h.goto rfl
  | batchEnd => exact h.goto rfl
  | dispatch hpc hd =>
      exact h.dispatched (hw.nonneg_of_pending (by simp [hpc, Pc.pending])) hd
  | handle hpc hh =>
      rw [hpc] at hpcRole
      cases hh with
      | acceptFail => exact ⟨h.unixListenFd, h.unixConnFd, h.unixConn, rfl⟩
      | accept => exact ⟨h.unixListenFd, h.unixConnFd, h.unixConn, rfl⟩
      | sendSession => exact h.afterTransfer _
      | replySession => exact h.goto rfl
      | header => exact (h.setConn _ _).afterGetRequest _
      | payload => exact (h.setConn _ _).afterGetRequest _
      | write => exact (h.setConn _ _).afterSendReply _
      | dropInet => exact ⟨h.unixListenFd, h.unixConnFd, h.unixConn, rfl⟩
      | _ => contradiction

theorem oldRole_start (fd : Fd) : OldRole (start .clientTrigger fd) := ⟨rfl, rfl, rfl, rfl⟩

/-- The dispatch of an old server stays sound, whatever happens. -/
theorem OldRole.inv (h : OldRole p) (hinv : Inv p) (hs : p.step i = some p') : Inv p' := by
  have hpcRole := h.pc
  refine hinv.step ?_ ⟨?_, ?_⟩ hs
  · intro fe str room got rest bs desc added hpc
    rw [hpc] at hpcRole
    contradiction
  · intro fe rest hpc
    rw [hpc] at hpcRole
    contradiction
  · intro _ _ _ _ _
    exact h.unixConnFd

/-- An old server gives up its listener when `TransferListenFd` has succeeded. -/
theorem OldRole.inetListenFd_step (h : OldRole p) (hw : Wf p) (hs : p.step i = some p') :
    p'.inetListenFd = p.inetListenFd ∨ (∃ r, i = .getReply r) ∧ p.pc = .handOver .getReply := by
  obtain hsame | hreply | ⟨hattached, -⟩ := Proc.inetListenFd_step hs
  · exact .inl hsame
  · exact .inr hreply
  · obtain ⟨uc, huc, -⟩ := Option.map_eq_some_iff.mp hattached
    have hnone := (h.step hw hs).unixConn
    simp [huc] at hnone

/-! ## new servers -/

theorem NewRole.goto (h : NewRole p) {pc : Pc} (hpc : pc.isClient = false) :
    NewRole (p.goto pc) :=
  ⟨h.path, h.unixClient, hpc⟩

theorem NewRole.setConn (h : NewRole p) (fd : Fd) (conn : InetConn) :
    NewRole (p.setConn fd conn) :=
  ⟨h.path, h.unixClient, h.pc⟩

theorem NewRole.install (h : NewRole p) (uc : UnixConn) (fd : Fd) (obj : Obj) :
    NewRole (p.install uc fd obj) :=
  ⟨h.path, h.unixClient, h.pc⟩

theorem NewRole.received (h : NewRole p) (uc : UnixConn) (str : List UInt8)
    (room got added : Bool) : NewRole (p.received uc str room got fe rest added) := by
  unfold Proc.received processRequest
  split
  · exact h.goto rfl
  · split
    · exact ⟨h.path, h.unixClient, rfl⟩
    · split <;> exact ⟨h.path, h.unixClient, rfl⟩

theorem NewRole.afterGetRequest (h : NewRole p) (g : InetConn.GetRequest) :
    NewRole (p.afterGetRequest fe rest g) := by
  unfold Proc.afterGetRequest
  split <;> exact ⟨h.path, h.unixClient, rfl⟩

theorem NewRole.afterSendReply (h : NewRole p) (ws : WriteStatus) :
    NewRole (p.afterSendReply fe rest ws) := by
  unfold Proc.afterSendReply
  split <;> exact ⟨h.path, h.unixClient, rfl⟩

theorem NewRole.dispatched (h : NewRole p) {pc : Pc} (hd : Dispatched p fe rest pc) :
    NewRole (p.goto pc) := by
  refine h.goto ?_
  cases hd with
  | transfer _ _ _ _ hclient => exact absurd h.unixClient hclient
  | _ => rfl

theorem NewRole.step (h : NewRole p) (hs : p.step i = some p') : NewRole p' := by
  have hpcRole := h.pc
  cases step_cases hs with
  | access =>
      unfold checkTrigger
      split
      · next htrigger =>
          rw [h.path] at htrigger
          simp at htrigger
      · exact h.goto rfl
  | poll => exact h.goto rfl
  | batchEnd => exact h.goto rfl
  | dispatch _ hd => exact h.dispatched hd
  | handle hpc hh =>
      rw [hpc] at hpcRole
      cases hh with
      | recvClose => exact h.goto rfl
      | recvAgain => exact h
      | recvPlain => exact h.received _ _ _ _ _
      | recvDesc => exact (h.install _ _ _).received _ _ _ _ _
      | commonReply => exact h.goto rfl
      | sendSession => contradiction
      | replySession => contradiction
      | header => exact (h.setConn _ _).afterGetRequest _
      | payload => exact (h.setConn _ _).afterGetRequest _
      | write => exact (h.setConn _ _).afterSendReply _
      | _ => exact ⟨h.path, h.unixClient, rfl⟩
  | connectFail hpc =>
      rw [hpc] at hpcRole
      contradiction
  | connect hpc =>
      rw [hpc] at hpcRole
      contradiction
  | sendListen hpc =>
      rw [hpc] at hpcRole
      contradiction
  | replyListen hpc =>
      rw [hpc] at hpcRole
      contradiction

theorem newRole_start (fd : Fd) : NewRole (start .unixServer fd) := ⟨rfl, rfl, rfl⟩

end Proc
end SysDemos.HotUpgrade
