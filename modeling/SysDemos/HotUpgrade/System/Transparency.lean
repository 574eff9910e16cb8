import SysDemos.HotUpgrade.System.Listener
import SysDemos.HotUpgrade.System.Owners

/-!
# SysDemos.HotUpgrade.System.Transparency

A hot upgrade does not show: every client gets back what it has sent, whenever its
session is handed over and however short the reads and writes are.

* `Echoes.step` — every session in the hands of a server is being served, and every
  other one is between two requests;
* `hot_upgrade_transparent` — what this means for the clients.
-/

namespace SysDemos.HotUpgrade

open Lts Proc

variable {p p' : Proc} {i : Input} {fe : FiredEvent} {rest : List FiredEvent} {n n' : Net}
  {pid : Pid} {c : ConnId} {conn : InetConn}

/-! ## reads and writes -/

/-- A server touches the connection of the session it handles only. -/
theorem Net.tcp_serve (hserve : n.serve pid p i = some n')
    (hne : ∀ conn, p.session ≠ some (c, conn)) : n'.tcp c = n.tcp c := by
  have other {c' : ConnId} {conn : InetConn} (hsession : p.session = some (c', conn)) (t : Tcp) :
      (n.setTcp c' t).tcp c = n.tcp c := by
    refine Function.update_of_ne ?_ _ _
    rintro rfl
    exact hne conn hsession
  unfold serve at hserve
  split at hserve
  · split at hserve
    · contradiction
    · split at hserve
      · cases hserve
        rfl
      · contradiction
  · split at hserve
    · contradiction
    · next hsession =>
        simp only [read] at hserve
        split at hserve
        · split at hserve
          · cases hserve
            rfl
          · contradiction
        · split at hserve
          · cases hserve
            exact other hsession _
          · contradiction
  · split at hserve
    · contradiction
    · next hsession =>
        cases hserve
        exact other hsession _
  · cases hserve
    rfl

theorem Net.tcp_read {bs : List UInt8} (hserve : n.serve pid p (.read (.ret bs)) = some n')
    (hsession : p.session = some (c, conn)) :
    bs = [] ∧ n'.tcp c = n.tcp c ∨
      bs ≠ [] ∧ bs <+: (n.tcp c).inbox ∧ n'.tcp c = (n.tcp c).read pid bs := by
  simp only [serve, hsession, Net.read] at hserve
  split at hserve
  · next hnil =>
      obtain ⟨-, hsame⟩ := Option.ite_none_right_eq_some.mp hserve
      cases hsame
      exact .inl ⟨hnil, rfl⟩
  · next hne =>
      obtain ⟨hfront, heq⟩ := Option.ite_none_right_eq_some.mp hserve
      cases heq
      exact .inr ⟨hne, hfront, Function.update_self _ _ _⟩

theorem Net.tcp_write {k : Nat} (hserve : n.serve pid p (.write (.ret k)) = some n')
    (hsession : p.session = some (c, conn)) :
    n'.tcp c = (n.tcp c).write (conn.unsent.take k) := by
  simp only [serve, hsession, Option.some.injEq] at hserve
  rw [← hserve]
  exact Function.update_self _ _ _

theorem inetConnMap_afterGetRequest (p : Proc) (g : InetConn.GetRequest) :
    (p.afterGetRequest fe rest g).inetConnMap = p.inetConnMap := by
  unfold afterGetRequest
  split <;> rfl

theorem interest_afterGetRequest {g : InetConn.GetRequest} (hg : g ≠ .done .kReadAll) :
    (p.afterGetRequest fe rest g).interest = p.interest := by
  unfold afterGetRequest
  split
  · rfl
  · rfl
  · contradiction
  · rfl
  · rfl

theorem interest_modEvent {fd : Fd} {m m' : Interest}
    (h : (p.modEvent fd m).interest fd = some m') : m' = m := by
  simp only [modEvent] at h
  split at h
  · next hnone => simp [hnone] at h
  · rw [Function.update_self] at h
    exact (Option.some.inj h).symm

theorem inetConnMap_afterSendReply (p : Proc) (ws : WriteStatus) :
    (p.afterSendReply fe rest ws).inetConnMap = p.inetConnMap := by
  unfold afterSendReply
  split <;> rfl

theorem interest_afterSendReply {ws : WriteStatus} (hws : ws ≠ .kWriteAll) :
    (p.afterSendReply fe rest ws).interest = p.interest := by
  unfold afterSendReply
  split
  · contradiction
  · rfl
  · rfl

/-- What a read or a write of a session that is being served leads to. -/
structure Served (pid : Pid) (p' : Proc) (fd : Fd) (t t' : Tcp) : Prop where
  serving : ∃ conn', p'.inetConnMap fd = some conn' ∧ Serving (p'.interest fd) conn' t'
  wf : t'.Wf
  readBy : t.ReadBy pid → t'.ReadBy pid

theorem served_getRequest {conn' : InetConn} {t t' : Tcp} {g : InetConn.GetRequest}
    (hserving : g ≠ .done .kReadAll ∧ Serving (p.interest fe.fd) conn' t' ∨
      g = .done .kReadAll ∧ ∀ reg' : Option Interest,
        (∀ m, reg' = some m → m.epollin = false) → Serving reg' conn' t')
    (hwf : t'.Wf) (hreadBy : t.ReadBy pid → t'.ReadBy pid) :
    Served pid ((p.setConn fe.fd conn').afterGetRequest fe rest g) fe.fd t t' := by
  refine ⟨⟨conn', ?_, ?_⟩, hwf, hreadBy⟩
  · rw [inetConnMap_afterGetRequest]
    exact Function.update_self _ _ _
  · obtain ⟨hne, hserving⟩ | ⟨rfl, hserving⟩ := hserving
    · rw [interest_afterGetRequest hne]
      exact hserving
    · refine hserving _ fun m hm => ?_
      rw [interest_modEvent hm]

theorem served_sendReply {conn' : InetConn} {t t' : Tcp} {ws : WriteStatus}
    (hserving : ws ≠ .kWriteAll ∧ Serving (p.interest fe.fd) conn' t' ∨
      ws = .kWriteAll ∧ ∀ reg' : Option Interest,
        (∀ m, reg' = some m → m.epollout = false) → Serving reg' conn' t')
    (hwf : t'.Wf) (hreadBy : t.ReadBy pid → t'.ReadBy pid) :
    Served pid ((p.setConn fe.fd conn').afterSendReply fe rest ws) fe.fd t t' := by
  refine ⟨⟨conn', ?_, ?_⟩, hwf, hreadBy⟩
  · rw [inetConnMap_afterSendReply]
    exact Function.update_self _ _ _
  · obtain ⟨hne, hserving⟩ | ⟨rfl, hserving⟩ := hserving
    · rw [interest_afterSendReply hne]
      exact hserving
    · refine hserving _ fun m hm => ?_
      rw [interest_modEvent hm]

theorem readFailure_ne (e : Errno) : InetConn.readFailure e ≠ .kReadAll := by
  cases e <;> simp [InetConn.readFailure]

/-- **A read or a write serves the session on.** -/
theorem Proc.Handle.served {h : Handler} (hh : Handle p fe rest h i p')
    (hpc : p.pc = .handle fe h rest) (hio : isIo h = true) (hw : Wf p) (hatt : Attended p)
    (hconn : p.inetConnMap fe.fd = some conn) (hsession : p.session = some (c, conn))
    (hserve : n.serve pid p i = some n') (hserving : Serving (p.interest fe.fd) conn (n.tcp c))
    (hwf : (n.tcp c).Wf) : HotUpgrade.Served pid p' fe.fd (n.tcp c) (n'.tcp c) := by
  obtain ⟨m, hm, hmin, hmout⟩ := hw.fires fe (by simp [hpc, Pc.pending])
  have htested := hatt.tested fe h conn (handling_of_pc hpc) hconn
  cases hh with
  | @header conn' r hconn' hfits =>
      cases hconn.symm.trans hconn'
      obtain ⟨hin, hpos⟩ := htested
      cases r with
      | err e =>
          cases hserve
          exact served_getRequest
            (.inl ⟨by simpa [InetConn.onHeader] using readFailure_ne e, hserving⟩) hwf id
      | ret bs =>
          obtain ⟨rfl, hsame⟩ | ⟨hne, hbs, hread⟩ := Net.tcp_read hserve hsession
          · rw [hsame]
            exact served_getRequest (.inl ⟨by simp [InetConn.onHeader], hserving⟩) hwf id
          · have hcount : bs.length ≤ conn.headerCount := by
              simp only [readFits, Bool.and_eq_true, decide_eq_true_eq] at hfits
              exact hfits.1
            obtain ⟨hserving', hg⟩ :=
              hserving.onHeader hwf hm (hmin hin) hpos hcount hne hbs pid
            rw [hread]
            refine served_getRequest (.inl ⟨?_, hserving'⟩) (hwf.read pid hbs) (·.read bs)
            obtain hg | hg := hg <;> simp [hg]
  | @payload conn' r hconn' hfits =>
      cases hconn.symm.trans hconn'
      obtain ⟨hin, hpos⟩ := htested
      cases r with
      | err e =>
          cases hserve
          exact served_getRequest
            (.inl ⟨by simpa [InetConn.onPayload] using readFailure_ne e, hserving⟩) hwf id
      | ret bs =>
          obtain ⟨rfl, hsame⟩ | ⟨hne, hbs, hread⟩ := Net.tcp_read hserve hsession
          · rw [hsame]
            exact served_getRequest (.inl ⟨by simp [InetConn.onPayload], hserving⟩) hwf id
          · have hcount : bs.length ≤ conn.payloadCount := by
              simp only [readFits, Bool.and_eq_true, decide_eq_true_eq] at hfits
              exact hfits.1
            have hserving' := hserving.onPayload hwf hm (hmin hin) hpos hcount hne hbs pid
            rw [hread]
            refine served_getRequest ?_ (hwf.read pid hbs) (·.read bs)
            obtain ⟨hg, hhalf⟩ | ⟨hg, hall⟩ := hserving'
            · exact .inl ⟨by simp [hg], hhalf⟩
            · exact .inr ⟨by rw [hg], hall⟩
  | @write conn' r hconn' hfits =>
      cases hconn.symm.trans hconn'
      cases r with
      | fail e =>
          cases hserve
          have hws : (conn.sendReply (.fail e)).2 ≠ .kWriteAll := by
            cases e <;> simp [InetConn.sendReply]
          have hsame : (conn.sendReply (.fail e)).1 = conn := by cases e <;> rfl
          exact served_sendReply (.inl ⟨hws, by rw [hsame]; exact hserving⟩) hwf id
      | ret k =>
          rw [Net.tcp_write hserve hsession]
          refine served_sendReply ?_ (hwf.write _) id
          obtain ⟨hws, hhalf⟩ | ⟨hws, hall⟩ := hserving.sendReply hm (hmout htested) k
          · exact .inl ⟨by simp [hws], hhalf⟩
          · exact .inr ⟨hws, hall⟩
  | _ => contradiction

/-! ## the clients -/

/-- What a client does to its connection. -/
inductive Tcp.Client (t : Tcp) : Tcp → Prop
  | same : Client t t
  | send {payload : List UInt8} : 1 ≤ payload.length ∧ payload.length ≤ System.maxPayload →
      Client t (t.send payload)
  | shut : Client t { t with shut := true }

namespace Tcp.Client

variable {t t' : Tcp}

theorem wf (h : t.Client t') (hwf : t.Wf) : t'.Wf := by
  cases h with
  | same => exact hwf
  | send hsize => exact hwf.send hsize
  | shut => exact ⟨hwf.stream, hwf.sizes⟩

theorem at_same (h : t.Client t') {k : Nat} {part out : List UInt8} (hat : t.At k part out) :
    t'.At k part out := by
  cases h with
  | same => exact hat
  | send => exact hat.send _
  | shut => exact ⟨hat.le, hat.consumed, hat.received⟩

theorem readBy (h : t.Client t') (hreadBy : t.ReadBy pid) : t'.ReadBy pid := by
  cases h with
  | same => exact hreadBy
  | send => exact hreadBy.send _
  | shut => cases pid <;> exact hreadBy

theorem received (h : t.Client t') (hreceived : t.received <+: t.payloads.flatten) :
    t'.received <+: t'.payloads.flatten := by
  cases h with
  | same => exact hreceived
  | @send payload =>
      have hflatten : (t.send payload).payloads.flatten = t.payloads.flatten ++ payload := by
        simp [Tcp.send]
      rw [hflatten]
      exact hreceived.trans (List.prefix_append _ _)
  | shut => exact hreceived

theorem serving (h : t.Client t') (hwf : t.Wf) {reg : Option Interest}
    (hserving : Serving reg conn t) : Serving reg conn t' := by
  cases h with
  | same => exact hserving
  | send => exact hserving.send hwf _
  | shut =>
      cases hserving with
      | reading hat hreading hpart hreg =>
          exact .reading ⟨hat.le, hat.consumed, hat.received⟩ hreading hpart hreg
      | writing hk hat hreply hread hwritten hreg =>
          exact .writing hk ⟨hat.le, hat.consumed, hat.received⟩ hreply hread hwritten hreg

end Tcp.Client

theorem Net.client_setTcp {t' : Tcp} (h : (n.tcp c).Client t') (c' : ConnId) :
    (n.tcp c').Client ((n.setTcp c t').tcp c') := by
  by_cases hc : c' = c
  · subst hc
    simpa [Net.setTcp] using h
  · simpa [Net.setTcp, hc] using Tcp.Client.same

namespace System

variable {w w' : System} {l : Label} {fd : Fd}

/-- Every session that a server has, and has not sent, is being served by it; all others
are between two requests. -/
structure Echoes (w : System) : Prop where
  attended : ∀ pid, Attended (w.proc pid)
  wf : ∀ c, (w.net.tcp c).Wf
  received : ∀ c, (w.net.tcp c).received <+: (w.net.tcp c).payloads.flatten
  readBy : ∀ c, ∃ pid, (w.net.tcp c).ReadBy pid
  served : ∀ pid fd c conn, (w.proc pid).fds fd = some (.inet c) →
    (w.proc pid).inetConnMap fd = some conn → (pid = .old → ¬ Sent w c) →
    Serving ((w.proc pid).interest fd) conn (w.net.tcp c) ∧ (w.net.tcp c).ReadBy pid
  flying : ∀ c, (.kTransferSessionFd, .inet c) ∈ w.chan.pending →
    ∃ k, (w.net.tcp c).At k [] [] ∧ (w.net.tcp c).ReadBy .old
  waiting : ∀ c, c ∉ w.net.acceptedIds → (w.net.tcp c).At 0 [] []

theorem Live.wf (h : Live w) (pid : Pid) : Wf (w.proc pid) := by
  cases pid with
  | old => exact h.locked.base.oldInv.toWf
  | new => exact h.locked.base.newWf

namespace Echoes

/-- A session that is about to be read or written is served on by the step. -/
theorem touched (h : Echoes w) (howned : Owned w) (hlive : Live w)
    (hs : w.step (.proc pid i) = some w') (hsession : (w.proc pid).session = some (c, conn)) :
    ∃ fe hd, (w.proc pid).handling = some (fe, hd) ∧ isIo hd = true ∧
      (w.proc pid).fds fe.fd = some (.inet c) ∧ (w.proc pid).inetConnMap fe.fd = some conn ∧
      (w.net.tcp c).ReadBy pid ∧
      Served pid (w'.proc pid) fe.fd (w.net.tcp c) (w'.net.tcp c) := by
  have hw := hlive.wf pid
  obtain ⟨hp, -, -, hn⟩ := proc_step hs
  obtain ⟨fe, hd, hpc, hio, hconn, hfd⟩ := session_eq_some hw.toTables hsession
  have hunsent : pid = .old → ¬ Sent w c := by
    rintro rfl hsent
    exact howned.not_touching hw.toTables hsent conn hsession
  obtain ⟨hserving, hreadBy⟩ := h.served pid fe.fd c conn hfd hconn hunsent
  obtain ⟨rest, hpc'⟩ := pc_of_handling hpc
  refine ⟨fe, hd, hpc, hio, hfd, hconn, hreadBy, ?_⟩
  exact (step_of_handle hp hpc').served hpc' hio hw (h.attended pid) hconn hsession hn hserving
    (h.wf c)

/-- The connections change by reads and writes. -/
theorem tcp_cases (h : Echoes w) (howned : Owned w) (hlive : Live w)
    (hs : w.step (.proc pid i) = some w') (c : ConnId) :
    w'.net.tcp c = w.net.tcp c ∨
      ∃ fe, (w.proc pid).fds fe = some (.inet c) ∧ (w.proc pid).inetConnMap fe ≠ none ∧
        (pid = .old → ¬ Sent w c) ∧ (w.net.tcp c).ReadBy pid ∧
        Served pid (w'.proc pid) fe (w.net.tcp c) (w'.net.tcp c) := by
  by_cases htouch : ∃ conn, (w.proc pid).session = some (c, conn)
  · obtain ⟨conn, hsession⟩ := htouch
    obtain ⟨fe, hd, -, -, hfd, hconn, hreadBy, hserved⟩ := h.touched howned hlive hs hsession
    refine .inr ⟨fe.fd, hfd, by simp [hconn], ?_, hreadBy, hserved⟩
    rintro rfl hsent
    exact howned.not_touching (hlive.wf .old).toTables hsent conn hsession
  · push Not at htouch
    exact .inl (Net.tcp_serve (proc_step hs).2.2.2 htouch)

/-- The sessions of the server that moves. -/
theorem served_own (h : Echoes w) (howned : Owned w) (hlive : Live w) (hlive' : Live w')
    (hclients : Clients w) (hd : Delivers w (.proc pid i)) (hs : w.step (.proc pid i) = some w')
    {conn' : InetConn} (hfd : (w'.proc pid).fds fd = some (.inet c))
    (hconn : (w'.proc pid).inetConnMap fd = some conn') (hunsent : pid = .old → ¬ Sent w' c) :
    Serving ((w'.proc pid).interest fd) conn' (w'.net.tcp c) ∧ (w'.net.tcp c).ReadBy pid := by
  have hunsent₀ : pid = .old → ¬ Sent w c := fun hpid hsent =>
    hunsent hpid (Owned.sent_mono hlive hd hs hsent)
  obtain ⟨hp, -, -, hn⟩ := proc_step hs
  cases Owned.session_step_live hlive hlive' hd hs hconn with
  | same hsame hconn₀ hio =>
      have hfd₀ := hsame.fds.symm.trans hfd
      have htcp : w'.net.tcp c = w.net.tcp c := by
        refine Net.tcp_serve hn fun conn hsession => ?_
        obtain ⟨fe, hd', hpc, hio', -, hfe⟩ := session_eq_some (hlive.wf pid).toTables hsession
        exact hio fe hd' hpc hio' (howned.unique pid fd fe.fd c hfd₀ hfe)
      rw [htcp, hsame.interest]
      exact h.served pid fd c conn' hfd₀ hconn₀ hunsent₀
  | io hpc hio hfe hconn₀ hfds =>
      subst hfe
      have hfd₀ := (congrFun hfds _).symm.trans hfd
      have hsession :=
        session_of_handling (hlive.wf pid).toTables (handling_of_pc hpc) hio hconn₀ hfd₀
      obtain ⟨fe', hd', hpc', -, -, -, hreadBy, hserved⟩ := h.touched howned hlive hs hsession
      cases (handling_of_pc hpc).symm.trans hpc'
      obtain ⟨conn'', hconn'', hserving⟩ := hserved.serving
      cases hconn.symm.trans hconn''
      exact ⟨hserving, hserved.readBy hreadBy⟩
  | create hcreate hnone hreg hi =>
      subst hcreate
      have hout (m : Interest) (hm : (w'.proc pid).interest fd = some m) : m.epollout = false := by
        obtain hsame | hnew := hreg
        · rw [hsame] at hm
          by_contra hout
          exact (h.attended pid).out fd m hm (by simpa using hout) hnone
        · rw [hnew] at hm
          cases hm
          rfl
      obtain ⟨c', added, rfl⟩ | ⟨bs, desc, added, rfl, hcmptr, hreplying⟩ := hi
      · obtain ⟨-, hfd', -⟩ := hclients.accept hs
        cases hfd.symm.trans hfd'
        have hat : (w'.net.tcp c).At 0 [] [] := by
          obtain hsame | ⟨fe, hfe, -⟩ := h.tcp_cases howned hlive hs c
          · rw [hsame]
            exact h.waiting c (hclients.accept_new hn)
          · exact absurd (hclients.held pid fe c hfe) (hclients.accept_new hn)
        exact ⟨.create hat hout fd, Tcp.readBy_of_nil hat pid⟩
      · obtain rfl := hlive.locked.base.recv_new hp
        have hsent : w'.chan.sent = w.chan.sent := by
          obtain ⟨hsame, -⟩ | ⟨_, _, hl, -⟩ := hlive.chan_step hd hs
          · exact hsame
          · simp at hl
        obtain ⟨-, s, hmem, hobj⟩ := hlive.pending_of_replying hd hs hreplying hsent
        have hc : s.2 = .inet c := by
          replace hcmptr : w'.new.cmptr = some fd := hcmptr
          rw [cmptrObj, hcmptr] at hobj
          exact (Option.some.inj (hobj.symm.trans hfd))
        have hpend : (.kTransferSessionFd, .inet c) ∈ w.chan.pending := by
          obtain ⟨-, hlisten⟩ | ⟨htype, -⟩ :=
            hlive.locked.framed.carries s (List.mem_of_mem_drop hmem)
          · simp [hc] at hlisten
          · rw [← htype, ← hc]
            exact hmem
        obtain ⟨k, hat, hreadBy⟩ := h.flying c hpend
        have htcp : w'.net.tcp c = w.net.tcp c := by
          obtain hsame | ⟨fe, hfe, hentered, -⟩ := h.tcp_cases howned hlive hs c
          · exact hsame
          · exact absurd (howned.transit fe c hpend hfe) hentered
        rw [htcp]
        exact ⟨.create hat hout fd, hreadBy.handOver hat⟩

/-- The sessions of the other server. -/
theorem served_other (h : Echoes w) (howned : Owned w) (hlive : Live w)
    (hd : Delivers w (.proc pid i)) (hs : w.step (.proc pid i) = some w') {pid' : Pid}
    (hne : pid' ≠ pid) (hfd : (w'.proc pid').fds fd = some (.inet c))
    (hconn : (w'.proc pid').inetConnMap fd = some conn) (hunsent : pid' = .old → ¬ Sent w' c) :
    Serving ((w'.proc pid').interest fd) conn (w'.net.tcp c) ∧ (w'.net.tcp c).ReadBy pid' := by
  rw [(proc_step hs).2.1 pid' hne] at hfd hconn ⊢
  have hunsent₀ : pid' = .old → ¬ Sent w c := fun hpid hsent =>
    hunsent hpid (Owned.sent_mono hlive hd hs hsent)
  obtain hsame | ⟨fe, hfe, -, hown, -⟩ := h.tcp_cases howned hlive hs c
  · rw [hsame]
    exact h.served pid' fd c conn hfd hconn hunsent₀
  · -- both servers have the session, so it has been sent
    cases pid with
    | old =>
        cases pid' with
        | old => contradiction
        | new => exact absurd (howned.apart fe fd c hfe hfd) (hown rfl)
    | new =>
        cases pid' with
        | old => exact absurd (howned.apart fd fe c hfd hfe) (hunsent₀ rfl)
        | new => contradiction

/-- The sessions in flight. -/
theorem flying_step (h : Echoes w) (howned : Owned w) (hlive : Live w)
    (hd : Delivers w (.proc pid i)) (hs : w.step (.proc pid i) = some w')
    (hmem : (.kTransferSessionFd, .inet c) ∈ w'.chan.pending) :
    ∃ k, (w'.net.tcp c).At k [] [] ∧ (w'.net.tcp c).ReadBy .old := by
  obtain hpend | ⟨hl, fe, m, hpc, hfd⟩ := Owned.pending_step hlive hd hs hmem
  · obtain hsame | ⟨fe, hfe, hentered, hunsent, -⟩ := h.tcp_cases howned hlive hs c
    · rw [hsame]
      exact h.flying c hpend
    · cases pid with
      | old => exact absurd (List.mem_of_mem_drop hpend) (hunsent rfl)
      | new => exact absurd (howned.transit fe c hpend hfe) hentered
  · -- the session is sent between two requests
    cases hl
    have hinv := hlive.locked.base.oldInv
    have htcp : w'.net.tcp c = w.net.tcp c := by
      refine Net.tcp_serve (proc_step hs).2.2.2 fun conn hsession => ?_
      obtain ⟨fe', hd', hpc', hio, -⟩ := session_eq_some hinv.toTables hsession
      cases hpc.symm.trans hpc'
      contradiction
    obtain ⟨rest, hpc'⟩ := pc_of_handling hpc
    have hpcInv := hinv.pcInv
    rw [hpc'] at hpcInv
    obtain ⟨conn, hconn⟩ := Option.ne_none_iff_exists'.mp hpcInv.2.2
    obtain ⟨hserving, hreadBy⟩ :=
      h.served .old fe.fd c conn hfd hconn fun _ => howned.not_sent hpc hfd
    obtain ⟨hin, hpos⟩ := (h.attended .old).tested fe _ conn hpc hconn
    obtain ⟨m', hm', hmin, -⟩ := hinv.fires fe (by simp [hpc', Pc.pending])
    obtain ⟨k, hat⟩ := hserving.between hm' (hmin hin) hpos
    rw [htcp]
    exact ⟨k, hat, hreadBy⟩

theorem waiting_step (h : Echoes w) (howned : Owned w) (hlive : Live w) (hclients : Clients w)
    (hs : w.step (.proc pid i) = some w') (hc : c ∉ w'.net.acceptedIds) :
    (w'.net.tcp c).At 0 [] [] := by
  have hmono := (hclients.of_serve (proc_step hs).2.2.2).2.2.1
  have hc₀ : c ∉ w.net.acceptedIds := fun hmem => hc (hmono c hmem)
  obtain hsame | ⟨fe, hfe, -⟩ := h.tcp_cases howned hlive hs c
  · rw [hsame]
    exact h.waiting c hc₀
  · exact absurd (hclients.held pid fe c hfe) hc₀

theorem attended_step (h : Echoes w) (hs : w.step (.proc pid i) = some w') (pid' : Pid) :
    Attended (w'.proc pid') := by
  obtain ⟨hp, hother, -, -⟩ := proc_step hs
  by_cases heq : pid' = pid
  · subst heq
    exact (h.attended pid').step hp
  · rw [hother pid' heq]
    exact h.attended pid'

theorem server_step (h : Echoes w) (howned : Owned w) (hlive : Live w) (hlive' : Live w')
    (hclients : Clients w) (hd : Delivers w (.proc pid i)) (hs : w.step (.proc pid i) = some w') :
    Echoes w' := by
  have htcp := h.tcp_cases howned hlive hs
  refine ⟨h.attended_step hs, fun c => ?_, fun c => ?_, fun c => ?_,
    fun pid' fd c conn hfd hconn hunsent => ?_, fun _ => h.flying_step howned hlive hd hs,
    fun _ => h.waiting_step howned hlive hclients hs⟩
  · obtain hsame | ⟨fe, -, -, -, -, hserved⟩ := htcp c
    · rw [hsame]
      exact h.wf c
    · exact hserved.wf
  · obtain hsame | ⟨fe, -, -, -, -, hserved⟩ := htcp c
    · rw [hsame]
      exact h.received c
    · obtain ⟨conn', -, hserving⟩ := hserved.serving
      exact hserving.received_prefix
  · obtain hsame | ⟨fe, -, -, -, hreadBy, hserved⟩ := htcp c
    · rw [hsame]
      exact h.readBy c
    · exact ⟨pid, hserved.readBy hreadBy⟩
  · by_cases heq : pid' = pid
    · subst heq
      exact h.served_own howned hlive hlive' hclients hd hs hfd hconn hunsent
    · exact h.served_other howned hlive hd hs heq hfd hconn hunsent

theorem client_step (h : Echoes w) (heq : w'.old = w.old ∧ w'.new = w.new ∧ w'.chan = w.chan)
    (hnet : w'.net.accepted = w.net.accepted)
    (htcp : ∀ c, (w.net.tcp c).Client (w'.net.tcp c)) : Echoes w' := by
  obtain ⟨hold, hnew, hchan⟩ := heq
  obtain ⟨old', new', chan', net'⟩ := w'
  subst hold hnew hchan
  refine ⟨fun pid => ?_, fun c => (htcp c).wf (h.wf c), fun c => (htcp c).received (h.received c),
    fun c => (h.readBy c).imp fun _ => (htcp c).readBy, fun pid fd c conn hfd hconn hunsent => ?_,
    fun c hmem => ?_, fun c hc => ?_⟩
  · have hatt := h.attended pid
    cases pid <;> exact hatt
  · have hserved : Serving ((w.proc pid).interest fd) conn (w.net.tcp c) ∧
        (w.net.tcp c).ReadBy pid := by
      cases pid with
      | old => exact h.served .old fd c conn hfd hconn hunsent
      | new => exact h.served .new fd c conn hfd hconn hunsent
    have hserving := (htcp c).serving (h.wf c) hserved.1
    cases pid <;> exact ⟨hserving, (htcp c).readBy hserved.2⟩
  · obtain ⟨k, hat, hreadBy⟩ := h.flying c hmem
    exact ⟨k, (htcp c).at_same hat, (htcp c).readBy hreadBy⟩
  · refine (htcp c).at_same (h.waiting c fun hmem => hc ?_)
    rw [Net.acceptedIds, hnet]
    exact hmem

/-- **Step**: in a live upgrade sessions are served on. -/
theorem step (h : Echoes w) (howned : Owned w) (hlive : Live w) (hclients : Clients w)
    (hd : Delivers w l) (hs : w.step l = some w') : Echoes w' := by
  cases l with
  | proc pid i => exact h.server_step howned hlive (hlive.step hd hs) hclients hd hs
  | kill pid => exact absurd rfl (hd.noKill pid)
  | connect =>
      cases hs
      exact h.client_step ⟨rfl, rfl, rfl⟩ rfl fun c => .same
  | send c payload =>
      obtain ⟨hsize, heq⟩ := Option.ite_none_right_eq_some.mp hs
      cases heq
      exact h.client_step ⟨rfl, rfl, rfl⟩ rfl (Net.client_setTcp (.send hsize.2.2))
  | shut c =>
      cases hs
      exact h.client_step ⟨rfl, rfl, rfl⟩ rfl (Net.client_setTcp .shut)

end Echoes

theorem echoes_init (lfd ufd : Fd) : Echoes (init lfd ufd) := by
  have hclients := clients_init lfd ufd
  refine ⟨fun pid => ?_, fun c => ⟨rfl, nofun⟩, fun c => List.nil_prefix,
    fun c => ⟨.old, [], rfl⟩, fun pid fd c conn hfd => ?_, nofun,
    fun c _ => ⟨Nat.le_refl 0, rfl, rfl⟩⟩
  · cases pid with
    | old => exact attended_start .clientTrigger lfd
    | new => exact attended_start .unixServer ufd
  · exact nomatch hclients.held pid fd c hfd

/-! ## transparency -/

/-- **Transparency**: in a live upgrade every client has received the first of the payload
bytes it has sent; its bytes are read in order, the first frames by the old server and what
follows by the new one; and the old server does not read or write a session it has sent.
Reads, writes and receipts may be short or fail, and descriptors hang up. -/
theorem hot_upgrade_transparent (lfd ufd : Fd) (ls : List Label) (w : System) (hlfd : 0 ≤ lfd)
    (hufd : 0 ≤ ufd) (hrun : Run System.step Delivers (init lfd ufd) ls w) :
    (∀ c, (w.net.tcp c).received <+: (w.net.tcp c).payloads.flatten) ∧
      (∀ c, (w.net.tcp c).consumed ++ (w.net.tcp c).inbox =
        (w.net.tcp c).payloads.flatMap frame ∧ ∃ pid, (w.net.tcp c).ReadBy pid) ∧
      ∀ c, Sent w c → ∀ conn, w.old.session ≠ some (c, conn) := by
  have hinv : Live w ∧ Clients w ∧ Owned w ∧ Echoes w := by
    refine Run.inv (I := fun w => Live w ∧ Clients w ∧ Owned w ∧ Echoes w)
      ⟨live_init hlfd hufd, clients_init lfd ufd, owned_init lfd ufd, echoes_init lfd ufd⟩ ?_ hrun
    rintro w l w' ⟨hlive, hclients, howned, hechoes⟩ hd hs
    exact ⟨hlive.step hd hs, hclients.step hlive.locked.base hs,
      howned.step hlive hclients hd hs, hechoes.step howned hlive hclients hd hs⟩
  obtain ⟨hlive, -, howned, hechoes⟩ := hinv
  exact ⟨hechoes.received, fun c => ⟨(hechoes.wf c).stream, hechoes.readBy c⟩,
    fun c hsent conn => howned.not_touching (hlive.wf .old).toTables hsent conn⟩

/-- The client sends two frames, of which the old server answers the first. -/
def requestLabels : List Label :=
  [.send 0 [7], .send 0 [8], .proc .old (.access false),
    .proc .old (.epollWait [.onFd 5 { epollin := true }]), .proc .old .tau,
    .proc .old (.read (.ret [1, 0])), .proc .old .tau, .proc .old (.access false),
    .proc .old (.epollWait [.onFd 5 { epollin := true }]), .proc .old .tau,
    .proc .old (.read (.ret [0, 0])), .proc .old (.read (.ret [7])), .proc .old .tau,
    .proc .old (.access false), .proc .old (.epollWait [.onFd 5 { epollout := true }]),
    .proc .old .tau, .proc .old (.write (.ret 1)), .proc .old .tau]

/-- The session is handed over, and the new server answers the second frame. -/
def secondLabels : List Label :=
  [.proc .old (.epollWait [.onFd 5 { epollin := true }]), .proc .old .tau,
    .proc .old (.sendmsg (.ret 1024)), .proc .new .tau, .proc .new (.access false),
    .proc .new (.epollWait [.onFd 4 { epollin := true }]), .proc .new .tau,
    .proc .new (.recvmsg (.data (msgDataBuf .kTransferSessionFd) (some (6, .inet 0))) true),
    .proc .new (.sendReply (.ret 8)), .proc .old (.getReply (some 8)), .proc .old .tau,
    .proc .new .tau, .proc .new (.access false),
    .proc .new (.epollWait [.onFd 6 { epollin := true }]), .proc .new .tau,
    .proc .new (.read (.ret [1, 0, 0, 0])), .proc .new (.read (.ret [8])), .proc .new .tau,
    .proc .new (.access false), .proc .new (.epollWait [.onFd 6 { epollout := true }]),
    .proc .new .tau, .proc .new (.write (.ret 1))]

/-- Of two pipelined frames the old server answers the first and the new one the second. -/
theorem hot_upgrade_transparent_pipelined : ∃ w,
    Run System.step Delivers (init 3 3)
      (clientLabels ++ requestLabels ++ sendLabels ++ acceptLabels ++ replyLabels ++
        secondLabels) w ∧
    (w.net.tcp 0).received = [7, 8] ∧ Sent w 0 ∧
    ∀ conn, w.old.session ≠ some (0, conn) := by
  have hexec : (exec System.step deliversb (init 3 3)
      (clientLabels ++ requestLabels ++ sendLabels ++ acceptLabels ++ replyLabels ++
        secondLabels)).map
      (fun w => ((w.net.tcp 0).received, w.chan.sent)) =
        some ([7, 8], [(.kTransferListenFd, .inetListen), (.kTransferSessionFd, .inet 0)]) := by
    decide +kernel
  obtain ⟨w, hrun, hobs⟩ := exists_run_of_exec _ _ hexec
  simp only [Prod.mk.injEq] at hobs
  obtain ⟨hreceived, hsent⟩ := hobs
  replace hrun := hrun.mono fun _ _ => delivers_of_deliversb
  have hgiven : Sent w 0 := by
    rw [Sent, hsent]
    simp
  exact ⟨w, hrun, hreceived, hgiven,
    (hot_upgrade_transparent 3 3 _ w (by decide) (by decide) hrun).2.2 0 hgiven⟩

end System

end SysDemos.HotUpgrade
