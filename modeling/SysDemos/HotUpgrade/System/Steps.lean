import SysDemos.HotUpgrade.Server.Roles
import SysDemos.HotUpgrade.System

/-!
# SysDemos.HotUpgrade.System.Steps

What a step of a hot upgrade can do.  `OldServed` and `NewServed` list what the
calls of the two servers do to the unix connection, and `Base` collects what holds
in every state of every run.

* `served_old`, `served_new` — the lists are complete;
* `Base.step` — the servers keep their roles and the old server's dispatch is sound.
-/

namespace SysDemos.HotUpgrade

open Lts Proc

variable {p p' : Proc} {ch ch' : Chan} {i : Input} {w w' : System} {l : Label}

/-! ## the system's steps -/

namespace System

theorem step_proc {pid : Pid} (hs : w.step (.proc pid i) = some w') :
    ∃ p' ch' n', (w.proc pid).step i = some p' ∧
      w.chan.serve pid (w.proc pid) p' i = some ch' ∧ w.net.serve pid (w.proc pid) i = some n' ∧
      w' = { w.setProc pid p' with chan := ch', net := n' } := by
  simp only [System.step] at hs
  split at hs
  · contradiction
  · next p' hp' =>
      split at hs
      · next ch' n' hch hn =>
          cases hs
          exact ⟨p', ch', n', hp', hch, hn, rfl⟩
      · contradiction

/-- A step of a server, seen from the server that moves. -/
theorem proc_step {pid : Pid} (hs : w.step (.proc pid i) = some w') :
    (w.proc pid).step i = some (w'.proc pid) ∧ (∀ pid' ≠ pid, w'.proc pid' = w.proc pid') ∧
      w.chan.serve pid (w.proc pid) (w'.proc pid) i = some w'.chan ∧
      w.net.serve pid (w.proc pid) i = some w'.net := by
  obtain ⟨p', ch', n', hp', hch, hn, rfl⟩ := step_proc hs
  cases pid with
  | old =>
      refine ⟨hp', fun pid' hne => ?_, hch, hn⟩
      cases pid' with
      | old => contradiction
      | new => rfl
  | new =>
      refine ⟨hp', fun pid' hne => ?_, hch, hn⟩
      cases pid' with
      | old => rfl
      | new => contradiction

/-- What a step of the system does: a server moves, a client acts, which changes
nothing but the TCP connections, or a server ends. -/
inductive Moves (w : System) : Label → System → Prop
  | old {i p' ch' n'} : w.old.step i = some p' → w.chan.serve .old w.old p' i = some ch' →
      Moves w (.proc .old i) { w with old := p', chan := ch', net := n' }
  | new {i p' ch' n'} : w.new.step i = some p' → w.chan.serve .new w.new p' i = some ch' →
      Moves w (.proc .new i) { w with new := p', chan := ch', net := n' }
  | client {l n'} : n'.accepted = w.net.accepted → Moves w l { w with net := n' }
  | kill (pid : Pid) :
      Moves w (.kill pid) { w.setProc pid (w.proc pid).exit with chan := w.chan.hangUp pid }

theorem moves_of_step (hs : w.step l = some w') : Moves w l w' := by
  cases l with
  | proc pid i =>
      obtain ⟨p', ch', n', hp', hch, -, rfl⟩ := step_proc hs
      cases pid with
      | old => exact .old hp' hch
      | new => exact .new hp' hch
  | connect =>
      cases hs
      exact .client rfl
  | send c payload =>
      obtain ⟨-, ⟨⟩⟩ := Option.ite_none_right_eq_some.mp hs
      exact .client rfl
  | shut c =>
      cases hs
      exact .client rfl
  | kill pid =>
      cases hs
      exact .kill pid

/-- What holds in every state of every run. -/
structure Base (w : System) : Prop where
  oldInv : Inv w.old
  oldRole : OldRole w.old
  newWf : Wf w.new
  newRole : NewRole w.new

/-- **Step**: `Base` is kept, whatever happens. -/
theorem Base.step (h : Base w) (hs : w.step l = some w') : Base w' := by
  cases moves_of_step hs with
  | old hp' =>
      exact ⟨h.oldRole.inv h.oldInv hp', h.oldRole.step h.oldInv.toWf hp', h.newWf, h.newRole⟩
  | new hp' => exact ⟨h.oldInv, h.oldRole, h.newWf.step hp', h.newRole.step hp'⟩
  | client => exact ⟨h.oldInv, h.oldRole, h.newWf, h.newRole⟩
  | kill pid =>
      cases pid with
      | old =>
          have hwf : Wf w.old.exit := h.oldInv.toTables.exit.wf rfl
          refine ⟨{ hwf with pcInv := trivial }, ?_, h.newWf, h.newRole⟩
          exact ⟨h.oldRole.unixListenFd, h.oldRole.unixConnFd, h.oldRole.unixConn, rfl⟩
      | new =>
          refine ⟨h.oldInv, h.oldRole, h.newWf.toTables.exit.wf rfl, ?_⟩
          exact ⟨h.newRole.path, h.newRole.unixClient, rfl⟩

/-- Only the new server receives requests. -/
theorem Base.recv_new (h : Base w) {pid : Pid} {r : RecvRet} {added : Bool}
    (hp : (w.proc pid).step (.recvmsg r added) = some p') : pid = .new := by
  cases pid with
  | new => rfl
  | old =>
      obtain ⟨fe, str, room, got, rest, hpc⟩ := step_recvmsg hp
      have hpcRole := h.oldRole.pc
      rw [show w.old.pc = _ from hpc] at hpcRole
      contradiction

theorem base_init {lfd ufd : Fd} (hlfd : 0 ≤ lfd) (hufd : 0 ≤ ufd) : Base (init lfd ufd) := by
  have hold : Inv (start .clientTrigger lfd) := inv_start hlfd
  have hnew : Wf (start .unixServer ufd) := wf_start hufd
  exact ⟨hold, oldRole_start lfd, hnew, newRole_start ufd⟩

end System

/-! ## the old server -/

namespace Proc

/-- Where the transfer that is going on stands. -/
def transferring (p : Proc) : Option Transfer :=
  match p.pc with
  | .handOver t => some t
  | .handle _ (.transfer t) _ => some t
  | _ => none

end Proc

/-- What a call of the old server does to its transfer and to the connection. -/
inductive OldServed (p : Proc) (ch : Chan) : Input → Proc → Chan → Prop
  | quiet {i : Input} {p' : Proc} : p.transferring ≠ some .getReply →
      (p'.transferring = none ∨ p'.transferring = some (.send 0) ∨
        p'.transferring = p.transferring) →
      OldServed p ch i p' ch
  | connect {fd : Fd} : p.transferring = none → ch.newEnd = .absent →
      OldServed p ch (.unixClientConn (some fd)) (p.connected fd)
        { ch with oldEnd := true, newEnd := .queued }
  | send {m n : Nat} {t : MsgRequestType} {obj : Obj} {p' : Proc} :
      p.transferring = some (.send m) → p.passing = some (t, obj) →
      ch.newEnd = .queued ∨ ch.newEnd = .accepted →
      ((∃ sms, sendLoop m (.ret n) = .done sms) ∧ p'.transferring = none ∨
        p'.transferring = some (sendLoop m (.ret n)) ∧ p'.passing = p.passing) →
      OldServed p ch (.sendmsg (.ret n)) p' (ch.send n t obj)
  | reply {r : Option Nat} {p' : Proc} : p.transferring = some .getReply → ch.Replies r →
      p'.transferring = none →
      OldServed p ch (.getReply r) p'
        { ch with toOld := ch.toOld - r.getD 0, acked := ch.acked ++ p.passing.toList }
  | exit {i : Input} : p.transferring = none → OldServed p ch i p.exit (ch.hangUp .old)

theorem transferring_afterGetRequest (p : Proc) (fe : FiredEvent) (rest : List FiredEvent)
    (g : InetConn.GetRequest) : (p.afterGetRequest fe rest g).transferring = none := by
  unfold afterGetRequest
  split <;> rfl

theorem transferring_afterSendReply (p : Proc) (fe : FiredEvent) (rest : List FiredEvent)
    (ws : WriteStatus) : (p.afterSendReply fe rest ws).transferring = none := by
  unfold afterSendReply
  split <;> rfl

theorem transferring_of_pc {pc : Pc} (hpc : p.pc = pc) (hclient : pc.isClient = false) :
    p.transferring = none := by
  unfold transferring
  rw [hpc]
  split
  · contradiction
  · contradiction
  · rfl

theorem transferring_getReply {r : Option Nat} (hs : p.step (.getReply r) = some p') :
    p.transferring = some .getReply := by
  cases step_cases hs with
  | replyListen hpc => simp [transferring, hpc]
  | handle hpc hh =>
      cases hh
      simp [transferring, hpc]

/-- The send loop of either transfer, seen from the connection. -/
theorem served_sendmsg {m : Nat} {r : WriteRet} {p' : Proc}
    (hm : p.transferring = some (.send m))
    (hnext : (∃ sms, sendLoop m r = .done sms) ∧ p'.transferring = none ∨
      (∀ sms, sendLoop m r ≠ .done sms) ∧ p'.transferring = some (sendLoop m r) ∧
        p'.passing = p.passing)
    (hserve : ch.serve .old p p' (.sendmsg r) = some ch') :
    OldServed p ch (.sendmsg r) p' ch' := by
  cases r with
  | fail e =>
      cases hserve
      refine .quiet (by simp [hm]) ?_
      obtain ⟨-, hdone⟩ | ⟨hne, hnext, -⟩ := hnext
      · exact .inl hdone
      · cases e with
        | other => exact absurd rfl (hne _)
        | EAGAIN => exact .inr (.inr (hnext.trans hm.symm))
        | EINTR => exact .inr (.inr (hnext.trans hm.symm))
  | ret n =>
      simp only [Chan.serve] at hserve
      split at hserve
      · contradiction
      · next t obj hpass =>
          split at hserve
          · next hend =>
              cases hserve
              exact .send hm hpass hend (hnext.imp_right And.right)
          · contradiction

theorem sent_afterHandOver {m : Nat} {r : WriteRet} (hpc : p.pc = .handOver (.send m)) :
    (∃ sms, sendLoop m r = .done sms) ∧ (p.afterHandOver (sendLoop m r)).transferring = none ∨
      (∀ sms, sendLoop m r ≠ .done sms) ∧
        (p.afterHandOver (sendLoop m r)).transferring = some (sendLoop m r) ∧
        (p.afterHandOver (sendLoop m r)).passing = p.passing := by
  cases hloop : sendLoop m r with
  | done sms => exact .inl ⟨⟨sms, rfl⟩, by cases sms <;> rfl⟩
  | send k => exact .inr ⟨by simp, rfl, by simp [passing, hpc, afterHandOver, goto]⟩
  | getReply => exact .inr ⟨by simp, rfl, by simp [passing, hpc, afterHandOver, goto]⟩

theorem sent_afterTransfer {m : Nat} {r : WriteRet} {fe : FiredEvent} {rest : List FiredEvent}
    (hpc : p.pc = .handle fe (.transfer (.send m)) rest) :
    (∃ sms, sendLoop m r = .done sms) ∧
        (p.afterTransfer fe rest (sendLoop m r)).transferring = none ∨
      (∀ sms, sendLoop m r ≠ .done sms) ∧
        (p.afterTransfer fe rest (sendLoop m r)).transferring = some (sendLoop m r) ∧
        (p.afterTransfer fe rest (sendLoop m r)).passing = p.passing := by
  cases hloop : sendLoop m r with
  | done sms => exact .inl ⟨⟨sms, rfl⟩, rfl⟩
  | send k => exact .inr ⟨by simp, rfl, by simp [passing, hpc, afterTransfer, goto]⟩
  | getReply => exact .inr ⟨by simp, rfl, by simp [passing, hpc, afterTransfer, goto]⟩

theorem served_getReply {r : Option Nat} {p' : Proc} (hp : p.transferring = some .getReply)
    (hp' : p'.transferring = none) (hserve : ch.serve .old p p' (.getReply r) = some ch') :
    OldServed p ch (.getReply r) p' ch' := by
  simp only [Chan.serve] at hserve
  split at hserve
  · next hr =>
      cases hserve
      exact .reply hp hr hp'
  · contradiction

theorem isUnixConn_dropInet {fe : FiredEvent} {rest : List FiredEvent} (hinv : Inv p)
    (hpc : p.pc = .handle fe .dropInet rest) : isUnixConn (p.fds fe.fd) = false := by
  have hpcInv := hinv.pcInv
  rw [hpc] at hpcInv
  cases hobj : p.fds fe.fd with
  | none => rfl
  | some obj =>
      cases obj with
      | unixConn k =>
          have hne := (other_of_branch hpcInv.1).2.2
          exact absurd (hpcInv.2.unixOnly _ _ hobj) hne
      | _ => rfl

/-- A unix connection is closed by its own clean-up. -/
theorem dropUnix_of_closing (hinv : Inv p) (h : isUnixConn p.closing = true) :
    ∃ fe rest, p.pc = .handle fe .dropUnix rest := by
  unfold closing at h
  split at h
  · next fe rest hpc => exact ⟨fe, rest, hpc⟩
  · next hpc =>
      rw [isUnixConn_dropInet hinv hpc] at h
      contradiction
  · contradiction

/-- What an old server closes is no unix connection. -/
theorem closing_old (hinv : Inv p) (hrole : OldRole p) : isUnixConn p.closing = false := by
  rw [Bool.eq_false_iff]
  intro hclosing
  obtain ⟨fe, rest, hpc⟩ := dropUnix_of_closing hinv hclosing
  have hpcRole := hrole.pc
  rw [hpc] at hpcRole
  contradiction

theorem transferring_dispatched {fe : FiredEvent} {rest : List FiredEvent} {pc : Pc}
    (hd : Dispatched p fe rest pc) :
    (p.goto pc).transferring = none ∨ (p.goto pc).transferring = some (.send 0) := by
  cases hd with
  | transfer => exact .inr rfl
  | _ => exact .inl rfl

theorem served_old (hinv : Inv p) (hrole : OldRole p) (hs : p.step i = some p')
    (hserve : ch.serve .old p p' i = some ch') : OldServed p ch i p' ch' := by
  have hclosing := closing_old hinv hrole
  have quiet {i : Input} {p' : Proc} (hp : p.pc.isClient = false)
      (hp' : p'.transferring = none ∨ p'.transferring = some (.send 0)) :
      OldServed p ch i p' ch :=
    .quiet (by simp [transferring_of_pc rfl hp]) (hp'.imp_right .inl)
  have tau {p' : Proc} (h : ch.serve .old p p' .tau = some ch') : ch' = ch := by
    simpa [Chan.serve, hclosing] using h.symm
  cases step_cases hs with
  | access hpc =>
      cases hserve
      refine quiet (by rw [hpc]; rfl) (.inl ?_)
      unfold checkTrigger
      split <;> rfl
  | connectFail hpc =>
      cases hserve
      exact .exit (by simp [transferring, hpc])
  | connect hpc hfresh =>
      simp only [Chan.serve] at hserve
      split at hserve
      · next habsent =>
          cases hserve
          exact .connect (by simp [transferring, hpc]) habsent
      · contradiction
  | sendListen hpc =>
      exact served_sendmsg (by simp [transferring, hpc]) (sent_afterHandOver hpc) hserve
  | replyListen hpc => exact served_getReply (by simp [transferring, hpc]) rfl hserve
  | poll hpc =>
      simp only [Chan.serve] at hserve
      split at hserve
      · cases hserve
        exact quiet (by rw [hpc]; rfl) (.inl rfl)
      · contradiction
  | batchEnd hpc =>
      rw [tau hserve]
      exact quiet (by rw [hpc]; rfl) (.inl rfl)
  | dispatch hpc hd =>
      rw [tau hserve]
      exact quiet (by rw [hpc]; rfl) (transferring_dispatched hd)
  | handle hpc hh =>
      have hpcRole := hrole.pc
      rw [hpc] at hpcRole
      cases hh with
      | acceptFail =>
          cases hserve
          exact .exit (by simp [transferring, hpc])
      | accept =>
          cases hserve
          exact quiet (by rw [hpc]; rfl) (.inl rfl)
      | sendSession =>
          exact served_sendmsg (by simp [transferring, hpc]) (sent_afterTransfer hpc) hserve
      | replySession => exact served_getReply (by simp [transferring, hpc]) rfl hserve
      | header =>
          cases hserve
          exact quiet (by rw [hpc]; rfl) (.inl (transferring_afterGetRequest _ _ _ _))
      | payload =>
          cases hserve
          exact quiet (by rw [hpc]; rfl) (.inl (transferring_afterGetRequest _ _ _ _))
      | write =>
          cases hserve
          exact quiet (by rw [hpc]; rfl) (.inl (transferring_afterSendReply _ _ _ _))
      | dropInet =>
          rw [tau hserve]
          exact quiet (by rw [hpc]; rfl) (.inl rfl)
      | _ => contradiction

/-- What an old server passes is the listener or a session. -/
theorem carries_passing (hinv : Inv p) {t : MsgRequestType} {obj : Obj}
    (hpass : p.passing = some (t, obj)) : Carries t obj := by
  have hpcInv := hinv.pcInv
  unfold passing at hpass
  split at hpass
  · next hpc =>
      rw [hpc] at hpcInv
      obtain ⟨obj', hobj, heq⟩ := Option.map_eq_some_iff.mp hpass
      cases heq
      obtain hneg | hl := Core.inetListen hpcInv
      · have hnonneg := hinv.nonneg p.inetListenFd (by simp [hobj])
        rw [hneg] at hnonneg
        exact absurd hnonneg (by decide)
      · rw [hobj] at hl
        exact .inl ⟨rfl, Option.some.inj hl⟩
  · next fe t' rest hpc =>
      rw [hpc] at hpcInv
      obtain ⟨obj', hobj, heq⟩ := Option.map_eq_some_iff.mp hpass
      cases heq
      obtain ⟨⟨c, hc⟩, -⟩ := (hpcInv.2.1.keys fe.fd).mp hpcInv.2.2
      rw [hobj] at hc
      exact .inr ⟨rfl, c, Option.some.inj hc⟩
  · contradiction

/-! ## the new server -/

namespace Proc

/-- The process has no request in hand. -/
structure Free (p : Proc) : Prop where
  requestStr : p.requestStr = []
  replying : p.replying = false

theorem requestStr_of_pc {fe : FiredEvent} {rest : List FiredEvent} {str : List UInt8}
    {room got : Bool} (hpc : p.pc = .handle fe (.recv str room got) rest) : p.requestStr = str := by
  simp [requestStr, hpc]

theorem free_of_pc {pc : Pc} (hpc : p.pc = pc) (hunix : pc.isUnix = false) : Free p := by
  constructor
  · unfold requestStr
    rw [hpc]
    split
    · contradiction
    · rfl
  · unfold replying
    rw [hpc]
    split
    · contradiction
    · rfl

theorem free_afterGetRequest (p : Proc) (fe : FiredEvent) (rest : List FiredEvent)
    (g : InetConn.GetRequest) : Free (p.afterGetRequest fe rest g) := by
  unfold afterGetRequest
  split <;> exact ⟨rfl, rfl⟩

theorem free_afterSendReply (p : Proc) (fe : FiredEvent) (rest : List FiredEvent)
    (ws : WriteStatus) : Free (p.afterSendReply fe rest ws) := by
  unfold afterSendReply
  split <;> exact ⟨rfl, rfl⟩

theorem free_dispatched {fe : FiredEvent} {rest : List FiredEvent} {pc : Pc}
    (hd : Dispatched p fe rest pc) : Free (p.goto pc) := by
  cases hd <;> exact ⟨rfl, rfl⟩

end Proc

/-- What a call of the new server does to the connection. -/
inductive NewServed (p : Proc) (ch : Chan) : Input → Proc → Chan → Prop
  | quiet {i : Input} {p' : Proc} : Free p → Free p' →
      (∀ fe rest, p.pc = .handle fe .dropUnix rest → isUnixConn (p.fds fe.fd) = false) →
      (∀ fd k cmptr added, i ≠ .unixAccept (.accepted fd k cmptr) added) →
      (∀ r added, i ≠ .recvmsg r added) → NewServed p ch i p' ch
  | accept {fe : FiredEvent} {rest : List FiredEvent} {fd : Fd} {k : Nat} {cmptr : Fd}
      {added : Bool} : p.pc = .handle fe .unixAccept rest → ch.newEnd = .queued →
      NewServed p ch (.unixAccept (.accepted fd k cmptr) added)
        ((p.acceptUnix fd k cmptr added).goto (.dispatch rest)) { ch with newEnd := .accepted }
  | again {fe : FiredEvent} {rest : List FiredEvent} {str : List UInt8} {room got : Bool}
      {e : Errno} {added : Bool} : p.pc = .handle fe (.recv str room got) rest → e ≠ .other →
      NewServed p ch (.recvmsg (.err e) added) p ch
  | gone {fe : FiredEvent} {rest : List FiredEvent} {str : List UInt8} {room got : Bool}
      {r : RecvRet} {added : Bool} : p.pc = .handle fe (.recv str room got) rest →
      (r = .eof ∧ ch.toNew = [] ∧ ch.oldEnd = false ∨ r = .err .other) →
      NewServed p ch (.recvmsg r added) (p.goto (.handle fe .dropUnix rest)) ch
  | data {fe : FiredEvent} {rest : List FiredEvent} {str : List UInt8} {room got : Bool}
      {bs : List UInt8} {desc : Option (Fd × Obj)} {added : Bool} {p' : Proc} :
      p.pc = .handle fe (.recv str room got) rest →
      Handle p fe rest (.recv str room got) (.recvmsg (.data bs desc) added) p' →
      ch.newEnd = .accepted → (ch.toNew.take bs.length).map (·.byte) = bs →
      (desc = none ∨ room = true ∧
        desc.map (·.2) = ((ch.toNew.take bs.length).filterMap (·.desc)).head?) →
      NewServed p ch (.recvmsg (.data bs desc) added) p'
        { ch with
          toNew := ch.toNew.drop bs.length, handled := ch.handled ++ Chan.handledNow p p' bs }
  | reply {fe : FiredEvent} {rest : List FiredEvent} {n : Nat} :
      p.pc = .handle fe .commonReply rest →
      ch.newEnd = .accepted ∧ ch.oldEnd = true ∧ n ≤ msgReplyLen →
      NewServed p ch (.sendReply (.ret n)) (p.goto (.dispatch rest))
        { ch with toOld := ch.toOld + n }
  | noReply {fe : FiredEvent} {rest : List FiredEvent} {e : Errno} :
      p.pc = .handle fe .commonReply rest →
      NewServed p ch (.sendReply (.fail e)) (p.goto (.dispatch rest)) ch
  | close {i : Input} {p' : Proc} : Free p → Free p' → (∀ r added, i ≠ .recvmsg r added) →
      (p'.pc = .exited ∨ isUnixConn p.closing = true) → NewServed p ch i p' (ch.hangUp .new)

theorem served_recv {fe : FiredEvent} {rest : List FiredEvent} {str : List UInt8}
    {room got added : Bool} {r : RecvRet} (hpc : p.pc = .handle fe (.recv str room got) rest)
    (hh : Handle p fe rest (.recv str room got) (.recvmsg r added) p')
    (hserve : ch.serve .new p p' (.recvmsg r added) = some ch') :
    NewServed p ch (.recvmsg r added) p' ch' := by
  cases r with
  | eof =>
      simp only [Chan.serve, Chan.recv] at hserve
      split at hserve
      · next heof =>
          cases hserve
          cases hh with
          | recvClose => exact .gone hpc (.inl ⟨rfl, heof⟩)
      · contradiction
  | err e =>
      cases hserve
      cases hh with
      | recvClose hr =>
          refine .gone hpc (.inr ?_)
          obtain hr | hr := hr
          · contradiction
          · exact hr
      | recvAgain he => exact .again hpc he
  | data bs desc =>
      simp only [Chan.serve, Chan.recv, Proc.room, hpc] at hserve
      obtain ⟨⟨hend, hbs, -, hdesc⟩, heq⟩ := Option.ite_none_right_eq_some.mp hserve
      cases heq
      exact .data hpc hh hend hbs hdesc

theorem served_tau {p' : Proc} (hfree : Free p) (hfree' : Free p')
    (hserve : ch.serve .new p p' .tau = some ch') : NewServed p ch .tau p' ch' := by
  cases hserve
  split
  · next hclosing => exact .close hfree hfree' nofun (.inr hclosing)
  · next hclosing =>
      refine .quiet hfree hfree' (fun fe rest hpc => ?_) nofun nofun
      simpa [closing, hpc] using hclosing

theorem served_handle {fe : FiredEvent} {rest : List FiredEvent} {h : Handler}
    (hpc : p.pc = .handle fe h rest) (hclient : p.pc.isClient = false)
    (hh : Handle p fe rest h i p') (hserve : ch.serve .new p p' i = some ch') :
    NewServed p ch i p' ch' := by
  cases hh with
  | acceptFail =>
      cases hserve
      exact .close (free_of_pc hpc rfl) ⟨rfl, rfl⟩ nofun (.inl rfl)
  | accept =>
      cases hserve
      exact .quiet (free_of_pc hpc rfl) ⟨rfl, rfl⟩ (by simp [hpc]) nofun nofun
  | unixAcceptFail hr =>
      have hfree : Free p := ⟨by simp [requestStr, hpc], by simp [replying, hpc]⟩
      obtain rfl | rfl := hr <;>
      · cases hserve
        exact .close hfree ⟨rfl, rfl⟩ nofun (.inl rfl)
  | unixAccept =>
      simp only [Chan.serve] at hserve
      split at hserve
      · next hqueued =>
          cases hserve
          exact .accept hpc hqueued
      · contradiction
  | recvClose hr => exact served_recv hpc (.recvClose hr) hserve
  | recvAgain he => exact served_recv hpc (.recvAgain he) hserve
  | recvPlain huc hne hlen => exact served_recv hpc (.recvPlain huc hne hlen) hserve
  | recvDesc huc hne hlen hfresh => exact served_recv hpc (.recvDesc huc hne hlen hfresh) hserve
  | @commonReply r =>
      cases r with
      | fail e =>
          cases hserve
          exact .noReply hpc
      | ret n =>
          simp only [Chan.serve] at hserve
          split at hserve
          · next hend =>
              cases hserve
              exact .reply hpc hend
          · contradiction
  | sendSession =>
      rw [hpc] at hclient
      contradiction
  | replySession =>
      rw [hpc] at hclient
      contradiction
  | header =>
      cases hserve
      exact .quiet (free_of_pc hpc rfl) (free_afterGetRequest _ _ _ _) (by simp [hpc]) nofun nofun
  | payload =>
      cases hserve
      exact .quiet (free_of_pc hpc rfl) (free_afterGetRequest _ _ _ _) (by simp [hpc]) nofun nofun
  | write =>
      cases hserve
      exact .quiet (free_of_pc hpc rfl) (free_afterSendReply _ _ _ _) (by simp [hpc]) nofun nofun
  | dropUnix =>
      exact served_tau ⟨by simp [requestStr, hpc], by simp [replying, hpc]⟩ ⟨rfl, rfl⟩ hserve
  | dropInet => exact served_tau (free_of_pc hpc rfl) ⟨rfl, rfl⟩ hserve

theorem served_new (hrole : NewRole p) (hs : p.step i = some p')
    (hserve : ch.serve .new p p' i = some ch') : NewServed p ch i p' ch' := by
  have hpcRole := hrole.pc
  cases step_cases hs with
  | access hpc =>
      cases hserve
      refine .quiet (free_of_pc hpc rfl) ?_ (by simp [hpc]) nofun nofun
      unfold checkTrigger
      split <;> exact ⟨rfl, rfl⟩
  | poll hpc =>
      simp only [Chan.serve] at hserve
      split at hserve
      · cases hserve
        exact .quiet (free_of_pc hpc rfl) ⟨rfl, rfl⟩ (by simp [hpc]) nofun nofun
      · contradiction
  | batchEnd hpc => exact served_tau (free_of_pc hpc rfl) ⟨rfl, rfl⟩ hserve
  | dispatch hpc hd => exact served_tau (free_of_pc hpc rfl) (free_dispatched hd) hserve
  | connectFail hpc =>
      rw [hpc] at hpcRole
      contradiction
  | connect hpc =>
      rw [hpc] at hpcRole
      contradiction
  | sendListen hpc =>
      rw [hpc] at hpcRole
      contradiction
  | replyListen hpc =>
      rw [hpc] at hpcRole
      contradiction
  | handle hpc hh => exact served_handle hpc hpcRole hh hserve

end SysDemos.HotUpgrade
