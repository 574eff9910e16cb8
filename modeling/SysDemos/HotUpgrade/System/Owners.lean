import SysDemos.HotUpgrade.Server.Sessions
import SysDemos.HotUpgrade.System.Clients
import SysDemos.HotUpgrade.System.Live

/-!
# SysDemos.HotUpgrade.System.Owners

Who has a session.  A server has one descriptor for it at most; both servers have one
only after it has been sent, and then the old server is about to close its own.

* `Owned.step` — this holds throughout a live upgrade;
* `Owned.not_touching` — the old server neither reads nor writes a session it has sent.
-/

namespace SysDemos.HotUpgrade

open Lts Proc
open Function (update)

variable {p p' : Proc} {i : Input}

/-! ## received descriptors -/

theorem Proc.unixConn_received (p : Proc) (uc : UnixConn) (str : List UInt8) (room got : Bool)
    (fe : FiredEvent) (rest : List FiredEvent) (added : Bool) :
    (p.received uc str room got fe rest added).unixConn = p.unixConn := by
  unfold received processRequest
  split
  · rfl
  · split
    · rfl
    · split <;> rfl

/-- A descriptor that is received is in the control buffer. -/
theorem Proc.cmptrObj_received {bs : List UInt8} {fd : Fd} {obj : Obj} {added : Bool}
    (hs : p.step (.recvmsg (.data bs (some (fd, obj))) added) = some p') :
    p'.cmptrObj = some obj := by
  cases step_cases hs with
  | handle _ hh =>
      cases hh with
      | recvClose hr => simp at hr
      | recvDesc =>
          rw [cmptrObj, cmptr, unixConn_received, fds_received]
          exact Function.update_self _ _ _

namespace System

variable {w w' : System} {l : Label} {pid : Pid} {fd : Fd} {c : ConnId}

/-- In a live upgrade, what `recvmsg` returns is a piece of a request. -/
theorem Live.handOver (h : Live w) (hd : Delivers w (.proc pid i))
    (hs : w.step (.proc pid i) = some w') : HandOver (w.proc pid) i := by
  intro fe str room got rest bs desc added hpc hi
  subst hi
  cases pid with
  | old =>
      have hpcRole := h.locked.base.oldRole.pc
      rw [show w.old.pc = _ from hpc] at hpcRole
      contradiction
  | new =>
      have haligned := h.locked.framed.aligned h.locked.base h.locked.phase.pending_le hs
      obtain ⟨p', ch', n', hp', hch, -, rfl⟩ := step_proc hs
      cases HotUpgrade.served_new h.locked.base.newRole hp' hch with
      | quiet _ _ _ _ hrecv => exact absurd rfl (hrecv _ _)
      | gone _ hr => simp at hr
      | close _ _ hrecv => exact absurd rfl (hrecv _ _)
      | data hpc' hh haccepted hbs hdesc =>
          obtain ⟨s, pend, -, hover, -⟩ :=
            h.locked.framed.receipt hpc' hh haccepted hbs hdesc haligned hd.installs
          exact hover _ _ _ _ _ _ _ _ hpc rfl

/-- A session that arrives is the one in flight, and there is no hole in the map yet. -/
theorem Live.brought (h : Live w) {bs : List UInt8} {added : Bool}
    (hd : Delivers w (.proc .new (.recvmsg (.data bs (some (fd, .inet c))) added)))
    (hs : w.step (.proc .new (.recvmsg (.data bs (some (fd, .inet c))) added)) = some w') :
    (.kTransferSessionFd, .inet c) ∈ w.chan.pending ∧ Core w.new none := by
  obtain ⟨s, pend, hpend, hcmptr, -⟩ := h.locked.data_step hd.installs hs
  have hover := h.handOver hd hs
  obtain ⟨p', ch', n', hp', -, -, rfl⟩ := step_proc hs
  obtain ⟨fe, str, room, got, rest, hpc⟩ := step_recvmsg hp'
  constructor
  · have hmem : s ∈ w.chan.pending := hpend ▸ List.mem_cons_self
    have hcarries := h.locked.framed.carries s (List.mem_of_mem_drop hmem)
    have hobj : s.2 = .inet c := by
      have hsame := hcmptr.symm.trans (Proc.cmptrObj_received hp')
      exact Option.some.inj hsame
    obtain ⟨-, hlisten⟩ | ⟨htype, -⟩ := hcarries
    · simp [hobj] at hlisten
    · rw [← htype, ← hobj]
      exact hmem
  · obtain ⟨obj, hobj, -⟩ := hover _ _ _ _ _ _ _ _ hpc rfl
    have hpcInv := h.isOpen.inv.pcInv
    rw [show w.new.pc = _ from hpc] at hpcInv
    obtain ⟨-, hgot, -, -, uc, -, hcore⟩ := hpcInv
    split at hobj
    · next hstr =>
        rwa [if_neg (by simpa [hgot] using hstr)] at hcore
    · exact absurd hobj.1 (by simp)

/-! ## what is sent -/

/-- The session `c` has been sent to the new server. -/
def Sent (w : System) (c : ConnId) : Prop := (.kTransferSessionFd, .inet c) ∈ w.chan.sent

/-- Messages are added by a `sendmsg` of the old server, and handled by the new one. -/
theorem Live.chan_step (h : Live w) (hd : Delivers w l) (hs : w.step l = some w') :
    w'.chan.sent = w.chan.sent ∧ (∀ s ∈ w'.chan.pending, s ∈ w.chan.pending) ∨
      ∃ s m, l = .proc .old (.sendmsg (.ret msgDataBufLen)) ∧
        w.old.transferring = some (.send m) ∧ w.old.passing = some s ∧
        w'.chan.sent = w.chan.sent ++ [s] ∧ w'.chan.pending = w.chan.pending ++ [s] := by
  have hbase := h.locked.base
  have hhandled := h.locked.handled_step hd.installs hs
  cases moves_of_step hs with
  | old hp' hch =>
      cases HotUpgrade.served_old hbase.oldInv hbase.oldRole hp' hch with
      | @send m n t obj _ hm hpass =>
          have hn := hd.wholeSend n rfl
          subst hn
          refine .inr ⟨(t, obj), m, rfl, hm, hpass, by simp [Chan.send], ?_⟩
          simp only [Chan.pending, Chan.send, if_pos]
          exact List.drop_append_of_le_length h.locked.framed.handled_le
      | _ => exact .inl ⟨rfl, fun _ hmem => hmem⟩
  | @new _ _ ch' _ hp' hch =>
      have hsent := (ends_served (HotUpgrade.served_new hbase.newRole hp' hch)).2.2
      replace hhandled : ch'.handled = w.chan.handled ∨
        ∃ hd, ch'.handled = w.chan.handled ++ [hd] ∧ _ := hhandled
      refine .inl ⟨hsent, fun s hmem => ?_⟩
      replace hmem : s ∈ ch'.sent.drop ch'.handled.length := hmem
      rw [hsent] at hmem
      obtain hsame | ⟨hd, hnow, -⟩ := hhandled
      · rwa [hsame] at hmem
      · rw [hnow, List.length_append, ← List.drop_drop] at hmem
        exact List.mem_of_mem_drop hmem
  | client => exact .inl ⟨rfl, fun _ hmem => hmem⟩
  | kill pid => exact absurd rfl (hd.noKill pid)

theorem handling_of_passing {m : Nat} (hpass : p.passing = some (.kTransferSessionFd, .inet c))
    (hm : p.transferring = some (.send m)) :
    ∃ fe, p.handling = some (fe, .transfer (.send m)) ∧ p.fds fe.fd = some (.inet c) := by
  unfold passing at hpass
  split at hpass
  · obtain ⟨obj, -, heq⟩ := Option.map_eq_some_iff.mp hpass
    simp at heq
  · next fe t rest hpc =>
      obtain ⟨obj, hobj, heq⟩ := Option.map_eq_some_iff.mp hpass
      cases heq
      have ht : t = .send m := by simpa [transferring, hpc] using hm
      subst ht
      exact ⟨fe, handling_of_pc hpc, hobj⟩
  · contradiction

/-- Handling a request leaves none in flight. -/
theorem Live.pending_of_replying (h : Live w) {bs : List UInt8} {desc : Option (Fd × Obj)}
    {added : Bool} (hd : Delivers w (.proc .new (.recvmsg (.data bs desc) added)))
    (hs : w.step (.proc .new (.recvmsg (.data bs desc) added)) = some w')
    (hreplying : w'.new.replying = true) (hsent : w'.chan.sent = w.chan.sent) :
    w'.chan.pending = [] ∧ ∃ s ∈ w.chan.pending, w'.new.cmptrObj = some s.2 := by
  obtain ⟨s, pend, hpend, hcmptr, -, hhandled⟩ := h.locked.data_step hd.installs hs
  have hle := h.locked.phase.pending_le
  refine ⟨?_, s, by rw [hpend]; exact List.mem_cons_self, hcmptr⟩
  rw [Chan.handledNow, if_pos hreplying] at hhandled
  rw [Chan.pending, hsent, hhandled, List.length_append, List.length_singleton, ← List.tail_drop]
  have htail := congrArg List.tail hpend
  rw [Chan.pending] at htail
  rw [htail]
  rw [hpend, List.length_cons] at hle
  exact List.length_eq_zero_iff.mp (by simpa using hle)

/-! ## the invariant -/

/-- Who has which session. -/
structure Owned (w : System) : Prop where
  unique : ∀ pid fd fd' c, (w.proc pid).fds fd = some (.inet c) →
    (w.proc pid).fds fd' = some (.inet c) → fd = fd'
  apart : ∀ fd fd' c, w.old.fds fd = some (.inet c) → w.new.fds fd' = some (.inet c) → Sent w c
  given : ∀ fd c, Sent w c → w.old.fds fd = some (.inet c) →
    ∃ fe h, w.old.handling = some (fe, h) ∧ fe.fd = fd ∧
      (h = .transfer .getReply ∨ h = .dropInet)
  transit : ∀ fd c, (.kTransferSessionFd, .inet c) ∈ w.chan.pending →
    w.new.fds fd = some (.inet c) → w.new.inetConnMap fd = none
  accepted : ∀ c, Sent w c → c ∈ w.net.acceptedIds

/-- How a server has got a session. -/
theorem Live.held_step (hlive : Live w) (hclients : Clients w) (hd : Delivers w (.proc pid i))
    (hs : w.step (.proc pid i) = some w') (hfd : (w'.proc pid).fds fd = some (.inet c)) :
    (w.proc pid).fds fd = some (.inet c) ∨
      (∃ added, i = .accept (some (fd, c)) added) ∧ c ∉ w.net.acceptedIds ∨
      (∃ bs added, i = .recvmsg (.data bs (some (fd, .inet c))) added) ∧ pid = .new ∧
        (.kTransferSessionFd, .inet c) ∈ w.chan.pending ∧ Core w.new none := by
  obtain ⟨hp, -, -, hn⟩ := proc_step hs
  obtain hold | ⟨added, rfl⟩ | ⟨bs, added, rfl⟩ := inet_step hp hfd
  · exact .inl hold
  · exact .inr (.inl ⟨⟨added, rfl⟩, hclients.accept_new hn⟩)
  · obtain rfl := hlive.locked.base.recv_new hp
    exact .inr (.inr ⟨⟨bs, added, rfl⟩, rfl, hlive.brought hd hs⟩)

namespace Owned

theorem unique_step (h : Owned w) (hlive : Live w) (hclients : Clients w)
    (hd : Delivers w (.proc pid i)) (hs : w.step (.proc pid i) = some w') {fd' : Fd}
    (hfd : (w'.proc pid).fds fd = some (.inet c)) (hfd' : (w'.proc pid).fds fd' = some (.inet c)) :
    fd = fd' := by
  -- a session that has just been accepted or received is on no descriptor yet
  have entered (hmem : (.kTransferSessionFd, .inet c) ∈ w.chan.pending) (hcore : Core w.new none)
      (fd : Fd) : w.new.fds fd ≠ some (.inet c) := fun hold =>
    (hcore.keys fd).mpr ⟨⟨c, hold⟩, by simp⟩ (h.transit fd c hmem hold)
  obtain hold | ⟨⟨added, rfl⟩, hnew⟩ | ⟨⟨bs, added, rfl⟩, rfl, hmem, hcore⟩ :=
    hlive.held_step hclients hd hs hfd
  · obtain hold' | ⟨-, hnew⟩ | ⟨-, rfl, hmem, hcore⟩ := hlive.held_step hclients hd hs hfd'
    · exact h.unique pid fd fd' c hold hold'
    · exact absurd (hclients.held pid fd c hold) hnew
    · exact absurd hold (entered hmem hcore fd)
  · obtain hold' | ⟨⟨added', heq⟩, -⟩ | ⟨⟨bs, added', heq⟩, -⟩ :=
      hlive.held_step hclients hd hs hfd'
    · exact absurd (hclients.held pid fd' c hold') hnew
    · cases heq
      rfl
    · contradiction
  · obtain hold' | ⟨⟨added', heq⟩, -⟩ | ⟨⟨bs', added', heq⟩, -⟩ :=
      hlive.held_step hclients hd hs hfd'
    · exact absurd hold' (entered hmem hcore fd')
    · contradiction
    · cases heq
      rfl

theorem sent_mono (hlive : Live w) (hd : Delivers w l) (hs : w.step l = some w')
    (hsent : Sent w c) : Sent w' c := by
  obtain ⟨hsame, -⟩ | ⟨s, m, -, -, -, happend, -⟩ := hlive.chan_step hd hs
  · rwa [Sent, hsame]
  · rw [Sent, happend]
    exact List.mem_append_left _ hsent

/-- A session that is about to be sent has not been sent, and the old server has it. -/
theorem not_sent (h : Owned w) {fe : FiredEvent} {m : Nat}
    (hpc : w.old.handling = some (fe, .transfer (.send m)))
    (hfd : w.old.fds fe.fd = some (.inet c)) : ¬ Sent w c := by
  intro hsent
  obtain ⟨fe', h', hpc', -, hgiven⟩ := h.given fe.fd c hsent hfd
  cases hpc.symm.trans hpc'
  simp at hgiven

/-- How a session has come to be sent. -/
theorem sent_step (hlive : Live w) (hd : Delivers w l) (hs : w.step l = some w')
    (hsent : Sent w' c) : Sent w c ∨
      l = .proc .old (.sendmsg (.ret msgDataBufLen)) ∧
      ∃ fe m, w.old.handling = some (fe, .transfer (.send m)) ∧
        w.old.fds fe.fd = some (.inet c) := by
  obtain ⟨hsame, -⟩ | ⟨s, m, hl, hm, hpass, happend, -⟩ := hlive.chan_step hd hs
  · exact .inl (by rwa [Sent, hsame] at hsent)
  · rw [Sent, happend, List.mem_append, List.mem_singleton] at hsent
    obtain hold | rfl := hsent
    · exact .inl hold
    · obtain ⟨fe, hpc, hfd⟩ := handling_of_passing hpass hm
      exact .inr ⟨hl, fe, m, hpc, hfd⟩

/-- How a session has come to be in flight. -/
theorem pending_step (hlive : Live w) (hd : Delivers w l) (hs : w.step l = some w')
    (hmem : (.kTransferSessionFd, .inet c) ∈ w'.chan.pending) :
    (.kTransferSessionFd, .inet c) ∈ w.chan.pending ∨
      l = .proc .old (.sendmsg (.ret msgDataBufLen)) ∧
      ∃ fe m, w.old.handling = some (fe, .transfer (.send m)) ∧
        w.old.fds fe.fd = some (.inet c) := by
  obtain ⟨-, hsub⟩ | ⟨s, m, hl, hm, hpass, -, happend⟩ := hlive.chan_step hd hs
  · exact .inl (hsub _ hmem)
  · rw [happend, List.mem_append, List.mem_singleton] at hmem
    obtain hold | rfl := hmem
    · exact .inl hold
    · obtain ⟨fe, hpc, hfd⟩ := handling_of_passing hpass hm
      exact .inr ⟨hl, fe, m, hpc, hfd⟩

theorem apart_step (h : Owned w) (hlive : Live w) (hclients : Clients w) (hd : Delivers w l)
    (hs : w.step l = some w') (hl : l = .proc pid i) {fd' : Fd}
    (hfd : w'.old.fds fd = some (.inet c)) (hfd' : w'.new.fds fd' = some (.inet c)) :
    Sent w' c := by
  subst hl
  obtain ⟨-, hother, -, -⟩ := proc_step hs
  cases pid with
  | old =>
      have hsame : w'.new = w.new := hother .new (by simp)
      rw [hsame] at hfd'
      obtain hold | ⟨-, hnew⟩ | ⟨-, hpid, -⟩ := hlive.held_step hclients hd hs hfd
      · exact sent_mono hlive hd hs (h.apart fd fd' c hold hfd')
      · exact absurd (hclients.held .new fd' c hfd') hnew
      · contradiction
  | new =>
      have hsame : w'.old = w.old := hother .old (by simp)
      rw [hsame] at hfd
      obtain hold | ⟨-, hnew⟩ | ⟨-, -, hmem, -⟩ := hlive.held_step hclients hd hs hfd'
      · exact sent_mono hlive hd hs (h.apart fd fd' c hfd hold)
      · exact absurd (hclients.held .old fd c hfd) hnew
      · exact sent_mono hlive hd hs (List.mem_of_mem_drop hmem)

theorem given_step (h : Owned w) (hlive : Live w) (hclients : Clients w)
    (hd : Delivers w (.proc .old i)) (hs : w.step (.proc .old i) = some w') (hsent : Sent w' c)
    (hfd : w'.old.fds fd = some (.inet c)) :
    ∃ fe h, w'.old.handling = some (fe, h) ∧ fe.fd = fd ∧
      (h = .transfer .getReply ∨ h = .dropInet) := by
  have hp : w.old.step i = some w'.old := (proc_step hs).1
  have hcases := sent_step hlive hd hs hsent
  have hold : w.old.fds fd = some (.inet c) := by
    obtain hold | ⟨⟨added, rfl⟩, hnew⟩ | ⟨-, hpid, -⟩ := hlive.held_step hclients hd hs hfd
    · exact hold
    · obtain hbefore | ⟨hl, -⟩ := hcases
      · exact absurd (h.accepted c hbefore) hnew
      · simp at hl
    · contradiction
  obtain hbefore | ⟨hl, fe, m, hpc, hfe⟩ := hcases
  · obtain ⟨fe, hd, hpc, rfl, rfl | rfl⟩ := h.given fd c hbefore hold
    · obtain ⟨rest, hpc⟩ := pc_of_handling hpc
      generalize w'.old = p' at hp ⊢
      cases step_of_handle hp hpc with
      | replySession => exact ⟨fe, .dropInet, rfl, rfl, .inr rfl⟩
    · obtain ⟨rest, hpc⟩ := pc_of_handling hpc
      generalize w'.old = p' at hp hfd
      cases step_of_handle hp hpc with
      | dropInet => simp [Proc.dropInet, delClose] at hfd
  · cases hl
    obtain rfl := h.unique .old fd fe.fd c hold hfe
    obtain ⟨rest, hpc⟩ := pc_of_handling hpc
    generalize w'.old = p' at hp ⊢
    cases step_of_handle hp hpc with
    | sendSession =>
        by_cases hzero : m = 0
        · subst hzero
          exact ⟨fe, .transfer .getReply, rfl, rfl, .inl rfl⟩
        · have hloop : sendLoop m (.ret msgDataBufLen) = .done .kSendMsgError := by
            rw [sendLoop, if_neg (by omega), if_pos (by omega)]
          rw [hloop]
          exact ⟨fe, .dropInet, rfl, rfl, .inr rfl⟩

/-- How a step of a server in a live upgrade changes a session. -/
theorem session_step_live (hlive : Live w) (hlive' : Live w') {conn' : InetConn}
    (hd : Delivers w (.proc pid i)) (hs : w.step (.proc pid i) = some w')
    (hconn : (w'.proc pid).inetConnMap fd = some conn') :
    SessionStep (w.proc pid) (w'.proc pid) i fd conn' := by
  have hover := hlive.handOver hd hs
  obtain ⟨hp, -⟩ := proc_step hs
  cases pid with
  | old =>
      refine session_step hp hlive.locked.base.oldInv hover hlive'.old (fun fe rest hpc => ?_) hconn
      have hpcRole := hlive.locked.base.oldRole.pc
      rw [show w.old.pc = _ from hpc] at hpcRole
      contradiction
  | new => exact session_step hp hlive.isOpen.inv hover hlive'.new hlive.keeps hconn

theorem transit_step (h : Owned w) (hlive : Live w) (hlive' : Live w') (hclients : Clients w)
    (hd : Delivers w (.proc .new i)) (hs : w.step (.proc .new i) = some w')
    (hmem : (.kTransferSessionFd, .inet c) ∈ w'.chan.pending)
    (hfd : w'.new.fds fd = some (.inet c)) : w'.new.inetConnMap fd = none := by
  have hbefore : (.kTransferSessionFd, .inet c) ∈ w.chan.pending := by
    obtain hbefore | ⟨hl, -⟩ := pending_step hlive hd hs hmem
    · exact hbefore
    · simp at hl
  have hsent : w'.chan.sent = w.chan.sent := by
    obtain ⟨hsame, -⟩ | ⟨_, _, hl, -⟩ := hlive.chan_step hd hs
    · exact hsame
    · simp at hl
  by_contra hne
  obtain ⟨conn', hconn⟩ := Option.ne_none_iff_exists'.mp hne
  have held (hold : w.new.fds fd = some (.inet c)) {conn : InetConn}
      (hmap : w.new.inetConnMap fd = some conn) : False := by
    simp [h.transit fd c hbefore hold] at hmap
  have hsession : SessionStep w.new w'.new i fd conn' := session_step_live hlive hlive' hd hs hconn
  cases hsession with
  | same hsame hmap => exact held (hsame.fds.symm.trans hfd) hmap
  | create _ _ _ hi =>
      obtain ⟨c', added, rfl⟩ | ⟨bs, desc, added, rfl, -, hreplying⟩ := hi
      · obtain ⟨-, hfd', -⟩ := hclients.accept hs
        cases hfd.symm.trans hfd'
        exact hclients.accept_new (proc_step hs).2.2.2
          (h.accepted c (List.mem_of_mem_drop hbefore))
      · rw [(hlive.pending_of_replying hd hs hreplying hsent).1] at hmem
        contradiction
  | io _ _ _ hmap hfds => exact held ((congrFun hfds fd).symm.trans hfd) hmap

theorem accepted_step (h : Owned w) (hlive : Live w) (hclients : Clients w)
    (hd : Delivers w (.proc pid i)) (hs : w.step (.proc pid i) = some w') (hsent : Sent w' c) :
    c ∈ w'.net.acceptedIds := by
  have hmono := (hclients.of_serve (proc_step hs).2.2.2).2.2.1
  obtain hold | ⟨-, fe, m, -, hfd⟩ := sent_step hlive hd hs hsent
  · exact hmono c (h.accepted c hold)
  · exact hmono c (hclients.held .old fe.fd c hfd)

/-- The server that does not move keeps what it has, and what has been sent stays sent. -/
theorem old_step (h : Owned w) (hlive : Live w) (hclients : Clients w)
    (hd : Delivers w (.proc .old i)) (hs : w.step (.proc .old i) = some w') : Owned w' := by
  have hnew : w'.new = w.new := (proc_step hs).2.1 .new (by simp)
  refine ⟨fun pid fd fd' c hfd hfd' => ?_, fun _ _ _ => h.apart_step hlive hclients hd hs rfl,
    fun _ _ => h.given_step hlive hclients hd hs, fun fd c hmem hfd => ?_,
    fun _ => h.accepted_step hlive hclients hd hs⟩
  · cases pid with
    | old => exact h.unique_step hlive hclients hd hs hfd hfd'
    | new =>
        rw [show w'.proc .new = w.proc .new from hnew] at hfd hfd'
        exact h.unique .new fd fd' c hfd hfd'
  · rw [hnew] at hfd ⊢
    obtain hold | ⟨-, fe, m, hpc, hfe⟩ := pending_step hlive hd hs hmem
    · exact h.transit fd c hold hfd
    · exact absurd (h.apart fe.fd fd c hfe hfd) (h.not_sent hpc hfe)

theorem new_step (h : Owned w) (hlive : Live w) (hlive' : Live w') (hclients : Clients w)
    (hd : Delivers w (.proc .new i)) (hs : w.step (.proc .new i) = some w') : Owned w' := by
  have hold : w'.old = w.old := (proc_step hs).2.1 .old (by simp)
  refine ⟨fun pid fd fd' c hfd hfd' => ?_, fun _ _ _ => h.apart_step hlive hclients hd hs rfl,
    fun fd c hsent hfd => ?_, fun _ _ => h.transit_step hlive hlive' hclients hd hs,
    fun _ => h.accepted_step hlive hclients hd hs⟩
  · cases pid with
    | old =>
        rw [show w'.proc .old = w.proc .old from hold] at hfd hfd'
        exact h.unique .old fd fd' c hfd hfd'
    | new => exact h.unique_step hlive hclients hd hs hfd hfd'
  · obtain hbefore | ⟨hl, -⟩ := sent_step hlive hd hs hsent
    · rw [hold] at hfd ⊢
      exact h.given fd c hbefore hfd
    · simp at hl

/-- **Step**: in a live upgrade sessions keep their owners. -/
theorem step (h : Owned w) (hlive : Live w) (hclients : Clients w) (hd : Delivers w l)
    (hs : w.step l = some w') : Owned w' := by
  cases moves_of_step hs with
  | old => exact h.old_step hlive hclients hd hs
  | new => exact h.new_step hlive (hlive.step hd hs) hclients hd hs
  | client hnet =>
      refine ⟨h.unique, h.apart, h.given, h.transit, fun c hsent => ?_⟩
      rw [Net.acceptedIds, hnet]
      exact h.accepted c hsent
  | kill pid => exact absurd rfl (hd.noKill pid)

/-- **The old server neither reads nor writes a session it has sent.** -/
theorem not_touching (h : Owned w) (ht : Tables w.old) (hsent : Sent w c) (conn : InetConn) :
    w.old.session ≠ some (c, conn) := by
  intro hsession
  obtain ⟨fe, hd, hpc, hio, -, hfd⟩ := session_eq_some ht hsession
  obtain ⟨fe', hd', hpc', -, hgiven⟩ := h.given fe.fd c hsent hfd
  cases hpc.symm.trans hpc'
  obtain rfl | rfl := hgiven <;> contradiction

end Owned

theorem owned_init (lfd ufd : Fd) : Owned (init lfd ufd) := by
  have hclients := clients_init lfd ufd
  have hnone (pid : Pid) (fd : Fd) (c : ConnId) :
      ((init lfd ufd).proc pid).fds fd ≠ some (.inet c) :=
    fun hfd => nomatch hclients.held pid fd c hfd
  exact ⟨fun pid fd _ c hfd => absurd hfd (hnone pid fd c),
    fun fd _ c hfd => absurd hfd (hnone .old fd c), nofun, nofun, nofun⟩

end System

end SysDemos.HotUpgrade
