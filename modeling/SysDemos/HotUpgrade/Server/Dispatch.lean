import SysDemos.HotUpgrade.Server.Frame
import SysDemos.Lib.Lts

/-!
# SysDemos.HotUpgrade.Server.Dispatch

The dispatch of events goes by descriptor numbers kept in `unix_conn_fd`,
`inet_listen_fd`, `unix_listen_fd` and the keys of `inet_conn_map`.  `Sound` says
that they denote what the dispatch takes them for.

`main` does not reset `unix_conn_fd` when it closes the unix connection, and keeps
only one connection when it accepts another.  Soundness holds exactly until the
first of these (`Steady`).

* `sound_while_steady` — states reached by steady steps are sound, and the first
  step that is not steady leads to a state that is not.
-/

namespace SysDemos.HotUpgrade.Proc

open Lts
open Function (update)

variable {p p' : Proc} {fe : FiredEvent} {rest : List FiredEvent} {i : Input} {fd : Fd}

/-- `unix_conn_fd` and the keys of `inet_conn_map` denote what they should, and an
event on a session or a unix connection reaches the handler for it. -/
structure Sound (p : Proc) : Prop where
  unixConnFd : p.unixConnFd = -1 ∨ ∃ uc k, p.unixConn = some uc ∧ uc.fd = p.unixConnFd ∧
    p.fds p.unixConnFd = some (.unixConn k)
  keys : ∀ fd, p.inetConnMap fd ≠ none ↔ ∃ c, p.fds fd = some (.inet c)
  session : ∀ fd c, p.fds fd = some (.inet c) → p.branch fd = .netEvent
  unixConn : ∀ fd k, p.fds fd = some (.unixConn k) → p.branch fd = .unixEvent

/-- The process is between two events. -/
def InLoop (p : Proc) : Prop := p.pc = .top ∨ p.pc = .poll ∨ ∃ evs, p.pc = .dispatch evs

/-- A type of request and what its descriptor denotes. -/
def Carries (t : MsgRequestType) (obj : Obj) : Prop :=
  t = .kTransferListenFd ∧ obj = .inetListen ∨
    t = .kTransferSessionFd ∧ ∃ c, obj = .inet c

/-- What a `recvmsg` of a hand-over returns: the first piece of a request comes
with the descriptor, the others without, and the whole is one of the requests of
an old server. -/
def HandOver (p : Proc) (i : Input) : Prop :=
  ∀ fe str room got rest bs desc added, p.pc = .handle fe (.recv str room got) rest →
    i = .recvmsg (.data bs desc) added →
    ∃ obj, (if str = [] then ∃ fd, desc = some (fd, obj)
        else desc = none ∧ ∃ uc, p.unixConn = some uc ∧ p.fds uc.cmptr = some obj) ∧
      ∃ t, Carries t obj ∧ (msgDataBufLen ≤ (str ++ bs).length → str ++ bs = msgDataBuf t)

/-- No unix connection is closed, and none is accepted after the first. -/
def Steady (p : Proc) (i : Input) : Prop :=
  (∀ fe rest, p.pc ≠ .handle fe .dropUnix rest) ∧
    ∀ fd k cmptr added, i = .unixAccept (.accepted fd k cmptr) added → p.unixConnFd = -1

/-! ## the variables of the dispatch -/

/-- The variables and tables agree.  `hole` is a session that a request has
brought but that is not entered yet. -/
structure Core (p : Proc) (hole : Option Fd) : Prop where
  unix : p.unixConnFd = -1 ∧ p.unixConn = none ∨ ∃ uc k, p.unixConn = some uc ∧
    uc.fd = p.unixConnFd ∧ p.fds p.unixConnFd = some (.unixConn k)
  unixOnly : ∀ fd k, p.fds fd = some (.unixConn k) → fd = p.unixConnFd
  inetListen : p.inetListenFd = -1 ∨ p.fds p.inetListenFd = some .inetListen
  unixListen : p.unixListenFd = -1 ∨ p.fds p.unixListenFd = some .unixListen
  keys : ∀ fd, p.inetConnMap fd ≠ none ↔ (∃ c, p.fds fd = some (.inet c)) ∧ hole ≠ some fd

/-- `fd` is none of the three descriptors the dispatch compares with. -/
def Other (p : Proc) (fd : Fd) : Prop :=
  fd ≠ p.inetListenFd ∧ fd ≠ p.unixListenFd ∧ fd ≠ p.unixConnFd

namespace Core

variable {hole : Option Fd}

/-- Only six fields matter. -/
theorem congr (h : Core p hole) (hcfd : p'.unixConnFd = p.unixConnFd)
    (hc : p'.unixConn = p.unixConn) (hil : p'.inetListenFd = p.inetListenFd)
    (hul : p'.unixListenFd = p.unixListenFd) (hfds : p'.fds = p.fds)
    (hmap : p'.inetConnMap = p.inetConnMap) : Core p' hole := by
  refine ⟨?_, ?_, ?_, ?_, ?_⟩
  · rw [hcfd, hc, hfds]
    exact h.unix
  · rw [hcfd, hfds]
    exact h.unixOnly
  · rw [hil, hfds]
    exact h.inetListen
  · rw [hul, hfds]
    exact h.unixListen
  · rw [hfds, hmap]
    exact h.keys

theorem goto (h : Core p hole) (pc : Pc) : Core (p.goto pc) hole :=
  h.congr rfl rfl rfl rfl rfl rfl

theorem other_of_fresh (h : Core p hole) (hfresh : p.Fresh fd) : Other p fd := by
  have hne {fd' : Fd} (hfd' : fd' = -1 ∨ p.fds fd' ≠ none) : fd ≠ fd' := by
    rintro rfl
    obtain hneg | hopen := hfd'
    · exact absurd (hneg ▸ hfresh.1) (by decide)
    · exact hopen hfresh.2
  refine ⟨hne ?_, hne ?_, hne ?_⟩
  · exact h.inetListen.imp_right fun hl => by simp [hl]
  · exact h.unixListen.imp_right fun hl => by simp [hl]
  · exact h.unix.imp And.left fun ⟨_, _, _, _, hu⟩ => by simp [hu]

/-- What descriptor `fd` denotes changes, and its entry in the map with it. -/
theorem setFd (h : Core p hole) (hother : Other p fd) (hole' : Option Fd) (obj : Option Obj)
    (m : Fd → Option InetConn) (hobj : ∀ k, obj ≠ some (.unixConn k))
    (hm : ∀ fd', fd' ≠ fd → m fd' = p.inetConnMap fd')
    (hfd : m fd ≠ none ↔ (∃ c, obj = some (.inet c)) ∧ hole' ≠ some fd)
    (hhole : ∀ fd', fd' ≠ fd → (hole' = some fd' ↔ hole = some fd')) :
    Core { p with fds := update p.fds fd obj, inetConnMap := m } hole' := by
  obtain ⟨hil, hul, huc⟩ := hother
  refine ⟨?_, ?_, ?_, ?_, ?_⟩
  · simp only [Function.update_of_ne huc.symm]
    exact h.unix
  · intro fd' k hk
    by_cases heq : fd' = fd
    · rw [heq] at hk
      simp only [Function.update_self] at hk
      exact absurd hk (hobj k)
    · simp only [Function.update_of_ne heq] at hk
      exact h.unixOnly fd' k hk
  · simp only [Function.update_of_ne hil.symm]
    exact h.inetListen
  · simp only [Function.update_of_ne hul.symm]
    exact h.unixListen
  · intro fd'
    by_cases heq : fd' = fd
    · rw [heq]
      simpa only [Function.update_self] using hfd
    · simp only [Function.update_of_ne heq, hm fd' heq, ne_eq, hhole fd' heq]
      exact h.keys fd'

theorem map_eq_none (h : Core p hole) (hfd : ∀ c, p.fds fd ≠ some (.inet c)) :
    p.inetConnMap fd = none := by
  by_contra hne
  obtain ⟨⟨c, hc⟩, -⟩ := (h.keys fd).mp hne
  exact hfd c hc

theorem setConn (h : Core p hole) (hfd : p.inetConnMap fd ≠ none) (conn : InetConn) :
    Core (p.setConn fd conn) hole := by
  refine ⟨h.unix, h.unixOnly, h.inetListen, h.unixListen, fun fd' => ?_⟩
  by_cases heq : fd' = fd
  · rw [heq]
    simpa [Proc.setConn] using (h.keys fd).mp hfd
  · simpa only [Proc.setConn, Function.update_of_ne heq] using h.keys fd'

theorem acceptInet (h : Core p none) (hfresh : p.Fresh fd) (c : ConnId) (added : Bool) :
    Core (p.acceptInet fd c added) none := by
  have hset := h.setFd (h.other_of_fresh hfresh) none (some (.inet c))
    (update p.inetConnMap fd (some (InetConn.create fd))) (by simp)
    (fun _ hne => Function.update_of_ne hne _ _) (by simp) (by simp)
  exact hset.congr rfl rfl rfl rfl rfl rfl

theorem connected (h : Core p none) (hfresh : p.Fresh fd) : Core (p.connected fd) none := by
  have hnone : p.inetConnMap fd = none := h.map_eq_none (by simp [hfresh.2])
  have hset := h.setFd (h.other_of_fresh hfresh) none (some .unixClient) p.inetConnMap (by simp)
    (fun _ _ => rfl) (by simp [hnone]) (by simp)
  exact hset.congr rfl rfl rfl rfl rfl rfl

/-- A descriptor that comes with a request is a hole in the map if it is a
session. -/
theorem install (h : Core p none) (hfresh : p.Fresh fd) {uc : UnixConn}
    (huc : p.unixConn = some uc) {obj : Obj} (hobj : ∀ k, obj ≠ .unixConn k) :
    Core (p.install uc fd obj) (some fd) := by
  have hnone : p.inetConnMap fd = none := h.map_eq_none (by simp [hfresh.2])
  have hset := h.setFd (h.other_of_fresh hfresh) (some fd) (some obj) p.inetConnMap
    (by simpa using hobj) (fun _ _ => rfl) (by simp [hnone]) (by simp [eq_comm])
  refine ⟨.inr ?_, hset.unixOnly, hset.inetListen, hset.unixListen, hset.keys⟩
  obtain ⟨-, hnil⟩ | ⟨uc', k, huc', hfd, hk⟩ := hset.unix
  · simp [huc] at hnil
  · cases huc.symm.trans huc'
    exact ⟨_, k, rfl, hfd, hk⟩

/-- The hole is a session, and is entered. -/
theorem addInetConn (h : Core p (some fd)) {c : ConnId} (hc : p.fds fd = some (.inet c))
    (added : Bool) : Core (p.addInetConn fd added) none := by
  refine ⟨h.unix, h.unixOnly, h.inetListen, h.unixListen, fun fd' => ?_⟩
  by_cases heq : fd' = fd
  · rw [heq]
    simp [Proc.addInetConn, Proc.addEvent, hc]
  · have hkeys := h.keys fd'
    simpa [Proc.addInetConn, Proc.addEvent, Function.update_of_ne heq, Ne.symm heq] using hkeys

/-- The hole is a listener, and is attached. -/
theorem attachInetListenFd (h : Core p (some fd)) (hl : p.fds fd = some .inetListen)
    (added : Bool) : Core (p.attachInetListenFd fd added) none := by
  refine ⟨h.unix, h.unixOnly, .inr hl, h.unixListen, fun fd' => ?_⟩
  have hkeys := h.keys fd'
  by_cases heq : fd' = fd
  · rw [heq] at hkeys ⊢
    simpa [Proc.attachInetListenFd, Proc.addEvent, hl] using hkeys
  · simpa [Proc.attachInetListenFd, Proc.addEvent, Ne.symm heq] using hkeys

theorem dropInet (h : Core p none) (hother : Other p fe.fd) :
    Core (p.dropInet fe rest) none := by
  have hset := h.setFd hother none none (update p.inetConnMap fe.fd none) (by simp)
    (fun _ hne => Function.update_of_ne hne _ _) (by simp) (by simp)
  exact hset.congr rfl rfl rfl rfl rfl rfl

theorem acceptUnix (h : Core p none) (ht : Tables p) (hfresh : p.Fresh fd)
    (hfirst : p.unixConnFd = -1) (k : Nat) (cmptr : Fd) (added : Bool) :
    Core (p.acceptUnix fd k cmptr added) none := by
  obtain ⟨hil, hul, -⟩ := h.other_of_fresh hfresh
  refine ⟨.inr ⟨_, k, rfl, rfl, Function.update_self _ _ _⟩, ?_, ?_, ?_, ?_⟩
  · intro fd' k' hk
    by_contra hne
    replace hne : fd' ≠ fd := hne
    replace hk : update p.fds fd (some (.unixConn k)) fd' = some (.unixConn k') := hk
    rw [Function.update_of_ne hne] at hk
    have hneg := ht.nonneg fd' (by simp [hk])
    rw [h.unixOnly _ _ hk, hfirst] at hneg
    exact absurd hneg (by decide)
  · show _ ∨ update p.fds fd _ p.inetListenFd = _
    rw [Function.update_of_ne hil.symm]
    exact h.inetListen
  · show _ ∨ update p.fds fd _ p.unixListenFd = _
    rw [Function.update_of_ne hul.symm]
    exact h.unixListen
  · intro fd'
    show p.inetConnMap fd' ≠ none ↔ (∃ c, update p.fds fd _ fd' = _) ∧ _
    by_cases heq : fd' = fd
    · rw [heq, h.map_eq_none (by simp [hfresh.2])]
      simp
    · rw [Function.update_of_ne heq]
      exact h.keys fd'

theorem detachInetListenFd (h : Core p none) (ht : Tables p) :
    Core p.detachInetListenFd none := by
  have hobj : p.fds p.inetListenFd = none ∨ p.fds p.inetListenFd = some .inetListen := by
    obtain hneg | hl := h.inetListen
    · by_contra hopen
      push Not at hopen
      have hnonneg := ht.nonneg _ hopen.1
      rw [hneg] at hnonneg
      exact absurd hnonneg (by decide)
    · exact .inr hl
  have hne {fd' : Fd} {obj : Obj} (hfd' : p.fds fd' = some obj) (hdiff : obj ≠ .inetListen) :
      fd' ≠ p.inetListenFd := by
    rintro rfl
    rw [hfd'] at hobj
    simp [hdiff] at hobj
  refine ⟨?_, ?_, .inl rfl, ?_, ?_⟩
  · obtain hnone | ⟨uc, k, huc, hfd, hk⟩ := h.unix
    · exact .inl hnone
    · exact .inr ⟨uc, k, huc, hfd, (Function.update_of_ne (hne hk (by simp)) _ _).trans hk⟩
  · intro fd' k hk
    replace hk : update p.fds p.inetListenFd none fd' = some (.unixConn k) := hk
    by_cases heq : fd' = p.inetListenFd
    · simp [heq] at hk
    · rw [Function.update_of_ne heq] at hk
      exact h.unixOnly _ _ hk
  · obtain hneg | hl := h.unixListen
    · exact .inl hneg
    · exact .inr ((Function.update_of_ne (hne hl (by simp)) _ _).trans hl)
  · intro fd'
    show p.inetConnMap fd' ≠ none ↔ (∃ c, update p.fds p.inetListenFd none fd' = _) ∧ _
    by_cases heq : fd' = p.inetListenFd
    · rw [heq, h.map_eq_none (by obtain ho | ho := hobj <;> simp [ho])]
      simp
    · rw [Function.update_of_ne heq]
      exact h.keys fd'

end Core

/-! ## the invariant -/

/-- What is known at each point of the program. -/
def PcInv (p : Proc) : Pc → Prop
  | .handle fe h _ =>
    match h with
    | .accept => Core p none
    | .unixAccept => Core p none
    | .recv str room got =>
      p.branch fe.fd = .unixEvent ∧ (got = true ↔ str ≠ []) ∧ (str = [] → room = true) ∧
        str.length < msgDataBufLen ∧
        ∃ uc, p.unixConn = some uc ∧ Core p (if got = true then some uc.cmptr else none)
    | .commonReply => Core p none
    | .dropUnix => p.branch fe.fd = .unixEvent ∧ ∃ hole, Core p hole
    | .dropInet => p.branch fe.fd = .netEvent ∧ Core p none
    | _ => p.branch fe.fd = .netEvent ∧ Core p none ∧ p.inetConnMap fe.fd ≠ none
  | .exited => True
  | _ => Core p none

/-- The inductive invariant of steady processes. -/
structure Inv (p : Proc) : Prop extends Wf p where
  pcInv : PcInv p p.pc

theorem Carries.ne_unixConn {t : MsgRequestType} {obj : Obj} (h : Carries t obj) (k : Nat) :
    obj ≠ .unixConn k := by
  obtain ⟨-, rfl⟩ | ⟨-, c, rfl⟩ := h <;> simp

/-- The descriptor of a request is entered when the request is complete. -/
theorem pcInv_received {uc : UnixConn} {str : List UInt8} {room added : Bool} {obj : Obj}
    {t : MsgRequestType} (hcore : Core p (some uc.cmptr)) (huc : p.unixConn = some uc)
    (hbranch : p.branch fe.fd = .unixEvent) (hobj : p.fds uc.cmptr = some obj)
    (hcarries : Carries t obj) (hne : str ≠ [])
    (hwhole : msgDataBufLen ≤ str.length → str = msgDataBuf t) :
    PcInv (p.received uc str room true fe rest added)
      (p.received uc str room true fe rest added).pc := by
  unfold received
  split
  · next hlen => exact ⟨hbranch, by simp [hne], by simp [hne], hlen, uc, huc, hcore.goto _⟩
  · next hlen =>
      rw [hwhole (by omega)]
      obtain ⟨rfl, rfl⟩ | ⟨rfl, c, rfl⟩ := hcarries
      · rw [processRequest_listen]
        exact (hcore.attachInetListenFd hobj added).goto _
      · rw [processRequest_session]
        exact (hcore.addInetConn hobj added).goto _

theorem Other.branch (h : Other p fd) : p.branch fd = .netEvent := by
  obtain ⟨hil, hul, huc⟩ := h
  simp [Proc.branch, hil, hul, huc]

theorem other_of_branch (h : p.branch fd = .netEvent) : Other p fd := by
  unfold Proc.branch at h
  split at h
  · contradiction
  · split at h
    · contradiction
    · split at h
      · contradiction
      · next hil hul huc => exact ⟨hil, hul, huc⟩

theorem pcInv_dispatched {pc : Pc} (hcore : Core p none) (hd : Dispatched p fe rest pc) :
    PcInv (p.goto pc) pc := by
  have hgoto := hcore.goto pc
  cases hd with
  | accept => exact hgoto
  | unixAccept => exact hgoto
  | recv hb huc =>
      obtain ⟨uc, huc⟩ := Option.ne_none_iff_exists'.mp huc
      exact ⟨hb, by simp, by simp, by decide, uc, huc, hgoto⟩
  | dropUnix hb => exact ⟨hb, none, hgoto⟩
  | transfer hb hconn => exact ⟨hb, hgoto, by simp [goto, hconn]⟩
  | header hb hconn => exact ⟨hb, hgoto, by simp [goto, hconn]⟩
  | payload hb hconn => exact ⟨hb, hgoto, by simp [goto, hconn]⟩
  | write hb hconn => exact ⟨hb, hgoto, by simp [goto, hconn]⟩
  | dropInet hb => exact ⟨hb, hgoto⟩
  | skip => exact hgoto

theorem pcInv_afterGetRequest (hcore : Core p none) (hb : p.branch fe.fd = .netEvent)
    (hconn : p.inetConnMap fe.fd ≠ none) (g : InetConn.GetRequest) :
    PcInv (p.afterGetRequest fe rest g) (p.afterGetRequest fe rest g).pc := by
  unfold afterGetRequest
  split
  · exact ⟨hb, hcore.goto _, hconn⟩
  · exact ⟨hb, hcore.goto _, hconn⟩
  · exact hcore.congr rfl rfl rfl rfl rfl rfl
  · exact hcore.goto _
  · exact ⟨hb, hcore.goto _⟩

theorem pcInv_afterSendReply (hcore : Core p none) (hb : p.branch fe.fd = .netEvent)
    (ws : WriteStatus) :
    PcInv (p.afterSendReply fe rest ws) (p.afterSendReply fe rest ws).pc := by
  unfold afterSendReply
  split
  · exact hcore.congr rfl rfl rfl rfl rfl rfl
  · exact hcore.goto _
  · exact ⟨hb, hcore.goto _⟩

theorem Inv.handle (hinv : Inv p) (hover : HandOver p i) (hsteady : Steady p i) {h : Handler}
    (hpc : p.pc = .handle fe h rest) (hh : Handle p fe rest h i p') : PcInv p' p'.pc := by
  have hpcInv := hinv.pcInv
  rw [hpc] at hpcInv
  cases hh with
  | acceptFail => trivial
  | accept hfresh => exact (Core.acceptInet hpcInv hfresh _ _).goto _
  | unixAcceptFail => trivial
  | unixAccept hfresh =>
      have hfirst := hsteady.2 _ _ _ _ rfl
      exact (Core.acceptUnix hpcInv hinv.toTables hfresh hfirst _ _ _).goto _
  | recvClose =>
      obtain ⟨hb, -, -, -, uc, -, hcore⟩ := hpcInv
      exact ⟨hb, _, hcore.goto _⟩
  | recvAgain =>
      rw [hpc]
      exact hpcInv
  | recvPlain huc hbs =>
      obtain ⟨hb, hgot, -, -, uc', huc', hcore⟩ := hpcInv
      cases huc.symm.trans huc'
      obtain ⟨obj, hobj, t, hcarries, hwhole⟩ := hover _ _ _ _ _ _ _ _ hpc rfl
      split at hobj
      · obtain ⟨_, hdesc⟩ := hobj
        contradiction
      · next hstr =>
          obtain ⟨-, uc'', huc'', hobj⟩ := hobj
          cases huc.symm.trans huc''
          rw [hgot.mpr hstr, if_pos rfl] at hcore
          rw [hgot.mpr hstr]
          exact pcInv_received hcore huc hb hobj hcarries (by simp [hbs]) hwhole
  | recvDesc huc hbs _ hfresh =>
      obtain ⟨hb, hgot, -, -, uc', huc', hcore⟩ := hpcInv
      obtain ⟨obj, hobj, t, hcarries, hwhole⟩ := hover _ _ _ _ _ _ _ _ hpc rfl
      split at hobj
      · next hstr =>
          obtain ⟨fd, hdesc⟩ := hobj
          cases hdesc
          rw [if_neg (by simpa [hgot] using hstr)] at hcore
          have hinst := hcore.install hfresh huc hcarries.ne_unixConn
          exact pcInv_received hinst rfl hb (Function.update_self _ _ _) hcarries (by simp [hbs])
            hwhole
      · obtain ⟨hdesc, -⟩ := hobj
        contradiction
  | commonReply => exact Core.goto hpcInv _
  | sendSession =>
      unfold afterTransfer
      obtain ⟨hb, hcore, hconn⟩ := hpcInv
      split
      · exact ⟨hb, hcore.goto _⟩
      · exact ⟨hb, hcore.goto _, hconn⟩
  | replySession => exact ⟨hpcInv.1, hpcInv.2.1.goto _⟩
  | header =>
      obtain ⟨hb, hcore, hconn⟩ := hpcInv
      exact pcInv_afterGetRequest (hcore.setConn hconn _) hb (by simp [setConn]) _
  | payload =>
      obtain ⟨hb, hcore, hconn⟩ := hpcInv
      exact pcInv_afterGetRequest (hcore.setConn hconn _) hb (by simp [setConn]) _
  | write =>
      obtain ⟨hb, hcore, hconn⟩ := hpcInv
      exact pcInv_afterSendReply (hcore.setConn hconn _) hb _
  | dropUnix => exact absurd hpc (hsteady.1 _ _)
  | dropInet => exact hpcInv.2.dropInet (other_of_branch hpcInv.1)

/-- **Step**: a steady step keeps the invariant. -/
theorem Inv.step (hinv : Inv p) (hover : HandOver p i) (hsteady : Steady p i)
    (hs : p.step i = some p') : Inv p' := by
  refine { hinv.toWf.step hs with pcInv := ?_ }
  have hpcInv := hinv.pcInv
  cases step_cases hs with
  | access hpc =>
      rw [hpc] at hpcInv
      unfold checkTrigger
      split <;> exact Core.goto hpcInv _
  | connectFail => trivial
  | connect hpc hfresh =>
      rw [hpc] at hpcInv
      exact Core.connected hpcInv hfresh
  | sendListen hpc =>
      rw [hpc] at hpcInv
      unfold afterHandOver
      split
      · exact (Core.detachInetListenFd hpcInv hinv.toTables).goto _
      · exact Core.goto hpcInv _
      · exact Core.goto hpcInv _
  | replyListen hpc =>
      rw [hpc] at hpcInv
      exact (Core.detachInetListenFd hpcInv hinv.toTables).goto _
  | poll hpc =>
      rw [hpc] at hpcInv
      exact Core.goto hpcInv _
  | batchEnd hpc =>
      rw [hpc] at hpcInv
      exact Core.goto hpcInv _
  | dispatch hpc hd =>
      rw [hpc] at hpcInv
      exact pcInv_dispatched hpcInv hd
  | handle hpc hh => exact hinv.handle hover hsteady hpc hh

/-- A process with one descriptor open, which is a listener. -/
theorem core_listener {obj : Obj} (hfds : p.fds = update (fun _ => none) fd (some obj))
    (hobj : obj = .inetListen ∨ obj = .unixListen) (hcfd : p.unixConnFd = -1)
    (hc : p.unixConn = none) (hil : p.inetListenFd = -1 ∨ p.fds p.inetListenFd = some .inetListen)
    (hul : p.unixListenFd = -1 ∨ p.fds p.unixListenFd = some .unixListen)
    (hmap : p.inetConnMap = fun _ => none) : Core p none := by
  have hne {fd' : Fd} {obj' : Obj} (hopen : p.fds fd' = some obj') : obj' = obj := by
    rw [hfds] at hopen
    by_cases heq : fd' = fd
    · simp_all
    · simp [Function.update_of_ne heq] at hopen
  refine ⟨.inl ⟨hcfd, hc⟩, fun fd' k hk => ?_, hil, hul, fun fd' => ?_⟩
  · rw [← hne hk] at hobj
    simp at hobj
  · refine ⟨fun h => absurd (by rw [hmap]) h, fun ⟨⟨c, hopen⟩, _⟩ => ?_⟩
    rw [← hne hopen] at hobj
    simp at hobj

theorem inv_start {path : Path} (hfd : 0 ≤ fd) : Inv (start path fd) := by
  refine { wf_start hfd with pcInv := ?_ }
  rw [pc_start]
  show Core (start path fd) none
  unfold start
  split
  · exact core_listener rfl (.inr rfl) rfl rfl (.inl rfl) (.inr (Function.update_self _ _ _)) rfl
  · exact core_listener rfl (.inl rfl) rfl rfl (.inr (Function.update_self _ _ _)) (.inl rfl) rfl

/-- An open descriptor that is no listener is none of the listeners. -/
theorem Core.ne_listener (h : Core p none) (ht : Tables p) {obj : Obj}
    (hopen : p.fds fd = some obj) (hil : obj ≠ .inetListen) (hul : obj ≠ .unixListen) :
    fd ≠ p.inetListenFd ∧ fd ≠ p.unixListenFd := by
  have hnonneg := ht.nonneg fd (by simp [hopen])
  constructor
  · rintro rfl
    obtain hneg | hl := h.inetListen
    · rw [hneg] at hnonneg
      exact absurd hnonneg (by decide)
    · exact hil (Option.some.inj (hopen.symm.trans hl))
  · rintro rfl
    obtain hneg | hl := h.unixListen
    · rw [hneg] at hnonneg
      exact absurd hnonneg (by decide)
    · exact hul (Option.some.inj (hopen.symm.trans hl))

theorem Core.sound (h : Core p none) (ht : Tables p) : Sound p := by
  refine ⟨h.unix.imp_left And.left, fun fd => ?_, fun fd c hopen => ?_, fun fd k hopen => ?_⟩
  · simpa using h.keys fd
  · obtain ⟨hil, hul⟩ := h.ne_listener ht hopen (by simp) (by simp)
    refine Other.branch ⟨hil, hul, ?_⟩
    rintro rfl
    obtain ⟨hneg, -⟩ | ⟨uc, k, -, -, hk⟩ := h.unix
    · have hnonneg := ht.nonneg _ (by rw [hopen]; simp)
      rw [hneg] at hnonneg
      exact absurd hnonneg (by decide)
    · rw [hopen] at hk
      simp at hk
  · obtain ⟨hil, hul⟩ := h.ne_listener ht hopen (by simp) (by simp)
    rw [branch, if_neg hil, if_neg hul, if_pos (h.unixOnly fd k hopen)]

theorem eq_of_branch (h : p.branch fd = .unixEvent) : fd = p.unixConnFd := by
  unfold Proc.branch at h
  split at h
  · contradiction
  · split at h
    · contradiction
    · split at h
      · next heq => exact heq
      · contradiction

/-- Closing a unix connection leaves its number in `unix_conn_fd`. -/
theorem Inv.unsound_dropUnix (hinv : Inv p) (hpc : p.pc = .handle fe .dropUnix rest) :
    ¬ Sound (p.dropUnix fe rest) := by
  have hpcInv := hinv.pcInv
  rw [hpc] at hpcInv
  have hfd : fe.fd = p.unixConnFd := eq_of_branch hpcInv.1
  intro hsound
  obtain hneg | ⟨uc, k, huc, -⟩ := hsound.unixConnFd
  · obtain ⟨m, hm, -⟩ := hinv.fires fe (by simp [hpc, Pc.pending])
    have hnonneg := hinv.nonneg fe.fd (hinv.regOpen _ (by simp [hm]))
    rw [hfd, show p.unixConnFd = -1 from hneg] at hnonneg
    exact absurd hnonneg (by decide)
  · cases huc

/-- Accepting a second unix connection takes the first one away from its
handler. -/
theorem Inv.unsound_acceptUnix (hinv : Inv p) (hcore : Core p none) (hfresh : p.Fresh fd)
    (hsecond : p.unixConnFd ≠ -1) (k : Nat) (cmptr : Fd) (added : Bool) (pc : Pc) :
    ¬ Sound ((p.acceptUnix fd k cmptr added).goto pc) := by
  obtain ⟨hneg, -⟩ | ⟨uc, k', -, -, hopen⟩ := hcore.unix
  · exact absurd hneg hsecond
  have hne : p.unixConnFd ≠ fd := (hcore.other_of_fresh hfresh).2.2.symm
  obtain ⟨hil, hul⟩ := hcore.ne_listener hinv.toTables hopen (by simp) (by simp)
  intro hsound
  have hb := hsound.unixConn p.unixConnFd k' ((Function.update_of_ne hne _ _).trans hopen)
  simp only [branch, goto, acceptUnix, addEvent, hil, hul, hne, if_false] at hb
  contradiction

/-- **Dispatch soundness**: between two events a steady process is sound, and the
first step that is not steady makes it unsound. -/
theorem sound_while_steady (path : Path) (fd : Fd) (ls : List Input) (p : Proc) (hfd : 0 ≤ fd)
    (hrun : Run step (fun p i => HandOver p i ∧ Steady p i) (start path fd) ls p) :
    (InLoop p → Sound p) ∧
      ∀ i p', p.step i = some p' → ¬ Steady p i → InLoop p' ∧ ¬ Sound p' := by
  have hinv : Inv p :=
    Run.inv (I := Inv) (inv_start hfd) (fun _ _ _ h hok hs => h.step hok.1 hok.2 hs) hrun
  have hpcInv := hinv.pcInv
  constructor
  · rintro (hpc | hpc | ⟨evs, hpc⟩)
    all_goals
      rw [hpc] at hpcInv
      exact Core.sound hpcInv hinv.toTables
  · intro i p' hs hnot
    rw [Steady, not_and_or] at hnot
    push Not at hnot
    obtain ⟨fe, rest, hpc⟩ | ⟨fd, k, cmptr, added, rfl, hsecond⟩ := hnot
    · cases step_of_handle hs hpc
      exact ⟨.inr (.inr ⟨rest, rfl⟩), hinv.unsound_dropUnix hpc⟩
    · cases step_cases hs with
      | handle hpc hh =>
          cases hh with
          | unixAcceptFail hr => simp at hr
          | unixAccept hfresh =>
              rw [hpc] at hpcInv
              exact ⟨.inr (.inr ⟨_, rfl⟩),
                hinv.unsound_acceptUnix hpcInv hfresh hsecond _ _ _ _⟩

/-! ## a reused descriptor -/

/-- A new server, listening on descriptor 3, that has accepted the connection of an
old server as descriptor 4 and is about to receive from it. -/
def receiving : Proc :=
  ((start .unixServer 3).acceptUnix 4 0 0 true).goto
    (.handle (.onFd 4 { epollin := true }) (.recv [] true false) [])

/-- The same server once it has received the inet listener as descriptor 5. -/
def listening : Proc :=
  ((receiving.install { fd := 4, cmptr := 0 } 5 .inetListen).attachInetListenFd 5 true).goto
    (.handle (.onFd 4 { epollin := true }) .commonReply [])

/-- The old server has gone, and a client has been accepted on the number that its
connection had. -/
def reused : Proc :=
  ((listening.dropUnix (.onFd 4 { epollhup := true }) []).acceptInet 4 0 true).goto (.dispatch [])

/-- The receipt of the listener. -/
def listenerInput : Input :=
  .recvmsg (.data (msgDataBuf .kTransferListenFd) (some (5, .inetListen))) true

theorem step_receiving : receiving.step listenerInput = some listening := by
  have hlen : ¬ ([] ++ msgDataBuf .kTransferListenFd).length < msgDataBufLen := by simp
  have hne : ¬ (msgDataBuf .kTransferListenFd = [] ∨
      msgDataBufLen < (msgDataBuf .kTransferListenFd).length) := by
    rw [length_msgDataBuf]
    simp [msgDataBuf, transferMsg, Bytes.ofNat]
  have hfresh : receiving.Fresh 5 := by decide
  have hreceived : (receiving.install { fd := 4, cmptr := 0 } 5 .inetListen).received
      { fd := 4, cmptr := 5 } ([] ++ msgDataBuf .kTransferListenFd) true true
      (.onFd 4 { epollin := true }) [] true = listening := by
    rw [received, if_neg hlen, List.nil_append, processRequest_listen]
    rfl
  show receiving.recv (.onFd 4 { epollin := true }) [] true false [] true
    (.data (msgDataBuf .kTransferListenFd) (some (5, .inetListen))) = _
  unfold recv
  show (if _ then none else if true = true ∧ receiving.Fresh 5 then some _ else none) = _
  rw [if_neg hne, if_pos ⟨rfl, hfresh⟩]
  exact congrArg some hreceived

theorem handOver_receiving : HandOver receiving listenerInput := by
  intro fe str room got rest bs desc added hpc hi
  cases hpc
  cases hi
  exact ⟨.inetListen, by simp, .kTransferListenFd, .inl ⟨rfl, rfl⟩, by simp⟩

/-- Steps that receive nothing are hand-overs in the trivial sense. -/
theorem handOver_of_exec {q : Proc} {ls : List Input}
    (h : exec step (fun _ i => match i with | .recvmsg _ _ => false | _ => true) p ls = some q) :
    Run step HandOver p ls q := by
  refine (run_of_exec h).mono fun s i hi => ?_
  intro fe str room got rest bs desc added _ heq
  subst heq
  contradiction

/-- An old server connects. -/
def connectInputs : List Input :=
  [.access false, .epollWait [.onFd 3 { epollin := true }], .tau,
    .unixAccept (.accepted 4 0 0) true, .tau, .access false,
    .epollWait [.onFd 4 { epollin := true }], .tau]

/-- The old server has gone; a client connects. -/
def reuseInputs : List Input :=
  [.sendReply (.ret 8), .tau, .access false, .epollWait [.onFd 4 { epollhup := true }], .tau, .tau,
    .tau, .access false, .epollWait [.onFd 5 { epollin := true }], .tau, .accept (some (4, 0)) true]

theorem reaches_receiving : Run step HandOver (start .unixServer 3) connectInputs receiving :=
  handOver_of_exec rfl

/-- The unix connection is closed and its number given to a session: events on the
session go to `handle_unix_event`, which closes it. -/
theorem not_sound_reused : ¬ ∀ (path : Path) (fd : Fd) (ls : List Input) (p : Proc), 0 ≤ fd →
    Run step HandOver (start path fd) ls p → InLoop p → Sound p := by
  intro hall
  have hreused : Run step HandOver listening reuseInputs reused := handOver_of_exec rfl
  have hrun := (reaches_receiving.snoc handOver_receiving step_receiving).append hreused
  have hsound := hall _ _ _ _ (by decide) hrun (.inr (.inr ⟨_, rfl⟩))
  exact absurd (hsound.session 4 0 rfl) (by decide)

/-- A test for steady steps that receive nothing. -/
def quiet (p : Proc) (i : Input) : Bool :=
  match p.pc, i with
  | .handle _ .dropUnix _, _ => false
  | _, .recvmsg _ _ => false
  | _, .unixAccept _ _ => p.unixConnFd = -1
  | _, _ => true

theorem steady_of_quiet (h : quiet p i = true) : HandOver p i ∧ Steady p i := by
  refine ⟨?_, ?_, ?_⟩
  · intro fe str room got rest bs desc added hpc heq
    simp [quiet, hpc, heq] at h
  · intro fe rest hpc
    simp [quiet, hpc] at h
  · intro fd k cmptr added heq
    subst heq
    unfold quiet at h
    split at h <;> simp_all

/-- A new server that has received the listener is sound. -/
theorem sound_while_steady_listening :
    Run step (fun p i => HandOver p i ∧ Steady p i) (start .unixServer 3)
        (connectInputs ++ [listenerInput] ++ [.sendReply (.ret 8)])
        (listening.goto (.dispatch [])) ∧
      Sound (listening.goto (.dispatch [])) := by
  have hexec : exec step quiet (start .unixServer 3) connectInputs = some receiving := rfl
  have hconnect := (run_of_exec hexec).mono fun _ _ => steady_of_quiet
  have hsteady : Steady receiving listenerInput := ⟨nofun, nofun⟩
  have hreply : listening.step (.sendReply (.ret 8)) = some (listening.goto (.dispatch [])) := rfl
  have hrun := (hconnect.snoc ⟨handOver_receiving, hsteady⟩ step_receiving).snoc
    (steady_of_quiet rfl) hreply
  exact ⟨hrun, (sound_while_steady _ _ _ _ (by decide) hrun).1 (.inr (.inr ⟨_, rfl⟩))⟩

end SysDemos.HotUpgrade.Proc
