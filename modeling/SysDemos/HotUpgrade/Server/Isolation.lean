import SysDemos.HotUpgrade.Server.Frame
import SysDemos.Lib.Lts

/-!
# SysDemos.HotUpgrade.Server.Isolation

Handling one fired event concerns one session.  From the dispatch of an event to
its end, whatever the system calls return, the state of every other session stays
as it is and the process keeps running, except that it exits on an accept that
gives no connection.

A request that comes without a descriptor is outside this result: `processRecv`
then uses the number that an earlier request has left in the control buffer.

* `handling_isolated` — the other sessions, and when the process exits.
-/

namespace SysDemos.HotUpgrade.Proc

open Lts

variable {p p' : Proc} {fe : FiredEvent} {rest : List FiredEvent} {i : Input} {fd : Fd}

/-- The process is about to handle `fe` or handling it. -/
def Handling (fe : FiredEvent) (rest : List FiredEvent) (p : Proc) : Prop :=
  p.pc = .dispatch (fe :: rest) ∨ ∃ h, p.pc = .handle fe h rest

/-- A request that gets completed has received a descriptor in this call of
`processRecv`. -/
def Carried (p : Proc) (i : Input) : Prop :=
  ∀ fe str room got rest bs added, p.pc = .handle fe (.recv str room got) rest →
    i = .recvmsg (.data bs none) added → msgDataBufLen ≤ (str ++ bs).length → got = true

/-! ## where the descriptor of a request comes from -/

theorem received_got {uc : UnixConn} {str str' : List UInt8} {room room' got got' added : Bool}
    (hpc : (p.received uc str room got fe rest added).pc =
      .handle fe (.recv str' room' got') rest) :
    got' = got ∧ (p.received uc str room got fe rest added).unixConn = p.unixConn := by
  unfold received processRequest at hpc ⊢
  split at hpc
  · next hlt =>
      simp only [goto, Pc.handle.injEq, Handler.recv.injEq, true_and, and_true] at hpc
      rw [if_pos hlt]
      exact ⟨hpc.2.2.symm, rfl⟩
  · split at hpc
    · simp [goto] at hpc
    · split at hpc
      · simp [goto] at hpc
      · simp [goto] at hpc

/-- A process in the middle of a request with a descriptor has received it just
now, or has had it before. -/
theorem Handle.got {h : Handler} (hh : Handle p fe rest h i p') (hpc : p.pc = .handle fe h rest)
    {str : List UInt8} {room : Bool} (hpc' : p'.pc = .handle fe (.recv str room true) rest) :
    (∃ uc, p'.unixConn = some uc ∧ p.Fresh uc.cmptr) ∨
      p'.unixConn = p.unixConn ∧ ∃ str room, p.pc = .handle fe (.recv str room true) rest := by
  cases hh with
  | recvPlain =>
      obtain ⟨rfl, huc⟩ := received_got hpc'
      exact .inr ⟨huc, _, _, hpc⟩
  | recvDesc _ _ _ hfresh => exact .inl ⟨_, (received_got hpc').2, hfresh⟩
  | recvAgain => exact .inr ⟨rfl, _, _, hpc'⟩
  | header => exact absurd (handler_of_afterGetRequest hpc').1 (by simp)
  | payload => exact absurd (handler_of_afterGetRequest hpc').1 (by simp)
  | write => exact absurd (handler_of_afterSendReply hpc').1 (by simp)
  | sendSession => exact absurd (handler_of_afterTransfer hpc').1 (by simp)
  | acceptFail => exact nomatch hpc'
  | accept => exact nomatch hpc'
  | unixAcceptFail => exact nomatch hpc'
  | unixAccept => exact nomatch hpc'
  | recvClose => exact nomatch hpc'
  | commonReply => exact nomatch hpc'
  | replySession => exact nomatch hpc'
  | dropUnix => exact nomatch hpc'
  | dropInet => exact nomatch hpc'

/-! ## isolation -/

/-- While `fe` is handled: what is known of another descriptor `fd`, which was
open when the handling began in `p₀`. -/
structure Kept (p₀ : Proc) (fe : FiredEvent) (rest : List FiredEvent) (fd : Fd) (p : Proc) :
    Prop where
  same : p.pc ≠ .exited → SameAt fd p₀ p
  cmptr : ∀ str room uc, p.pc = .handle fe (.recv str room true) rest → p.unixConn = some uc →
    fd ≠ uc.cmptr

theorem Kept.step {p₀ : Proc} (hk : Kept p₀ fe rest fd p) (hfd : fd ≠ fe.fd)
    (hopen : p₀.fds fd ≠ none) (hh : Handling fe rest p) (hc : Carried p i)
    (hs : p.step i = some p') : Kept p₀ fe rest fd p' := by
  obtain hpc | ⟨h, hpc⟩ := hh
  · obtain ⟨-, pc, rfl, hd⟩ := step_of_dispatch hs hpc
    have hsame := hk.same (by simp [hpc])
    refine ⟨fun _ => hsame.trans (sameAt_goto pc), fun str room uc hpc' _ => ?_⟩
    simp only [goto] at hpc'
    subst hpc'
    cases hd
  · have hhandle := step_of_handle hs hpc
    have hsame := hk.same (by simp [hpc])
    have hstale : NotStale p fd h i := by
      intro str room got bs added uc hh hi huc hlen
      subst hh
      have hgot := hc _ _ _ _ _ _ _ hpc hi hlen
      subst hgot
      exact hk.cmptr _ _ _ hpc huc
    refine ⟨fun hrun => ?_, fun str room uc hpc' huc => ?_⟩
    · exact hsame.trans (hhandle.sameAt hrun hfd (hsame.fds ▸ hopen) hstale)
    · obtain ⟨uc', huc', hfresh⟩ | ⟨hsameUc, str', room', hpc₀⟩ := hhandle.got hpc hpc'
      · cases huc.symm.trans huc'
        rintro rfl
        exact hopen (hsame.fds ▸ hfresh.2)
      · exact hk.cmptr _ _ _ hpc₀ (hsameUc ▸ huc)

theorem Handling.running (hh : Handling fe rest p) : p.pc ≠ .exited := by
  obtain hpc | ⟨h, hpc⟩ := hh <;> simp [hpc]

theorem Handling.exited_iff (hh : Handling fe rest p) (hs : p.step i = some p') :
    p'.pc = .exited ↔ FailedAccept i := by
  obtain hpc | ⟨h, hpc⟩ := hh
  · obtain ⟨rfl, pc, rfl, hd⟩ := step_of_dispatch hs hpc
    obtain rfl | ⟨h, rfl⟩ := hd.pc_cases
    · exact ⟨nofun, nofun⟩
    · exact ⟨nofun, nofun⟩
  · obtain ⟨hfail, rfl⟩ | ⟨hok, hnext⟩ := (step_of_handle hs hpc).next hpc
    · exact ⟨fun _ => hfail, fun _ => rfl⟩
    · cases hnext with
      | done hpc' => exact ⟨fun he => by simp [hpc'] at he, fun hf => absurd hf hok⟩
      | more hpc' => exact ⟨fun he => by simp [hpc'] at he, fun hf => absurd hf hok⟩

/-- **Isolation**: while an event is handled, the sessions it is not for keep
their entry, their positions, their buffers, their reply and their registration;
the process exits on an accept that gives no connection, and only then. -/
theorem handling_isolated (p q : Proc) (fe : FiredEvent) (rest : List FiredEvent)
    (ls : List Input) (hpc : p.pc = .dispatch (fe :: rest))
    (hrun : Run step (fun s i => Handling fe rest s ∧ Carried s i) p ls q) :
    (q.pc = .exited ↔ ∃ i ∈ ls, FailedAccept i) ∧
      (q.pc ≠ .exited → ∀ fd c, fd ≠ fe.fd → p.fds fd = some (.inet c) →
        q.fds fd = some (.inet c) ∧ q.inetConnMap fd = p.inetConnMap fd ∧
          q.interest fd = p.interest fd) := by
  constructor
  · induction hrun with
    | nil => simp [hpc]
    | snoc _ hok hs ih =>
        obtain ⟨hh, -⟩ := hok
        have hearlier : ¬ ∃ i ∈ _, FailedAccept i := ih.not.mp hh.running
        rw [hh.exited_iff hs]
        simp only [List.mem_append, List.mem_singleton]
        constructor
        · exact fun hf => ⟨_, .inr rfl, hf⟩
        · rintro ⟨i, hmem | rfl, hf⟩
          · exact absurd ⟨i, hmem, hf⟩ hearlier
          · exact hf
  · intro hq fd c hfd hopen
    have hkept : Kept p fe rest fd q := by
      refine Run.inv (I := Kept p fe rest fd) ⟨fun _ => .refl fd p, ?_⟩ ?_ hrun
      · intro str room uc hpc'
        rw [hpc] at hpc'
        contradiction
      · intro s i s' hk hok hs
        exact hk.step hfd (by simp [hopen]) hok.1 hok.2 hs
    have hsame := hkept.same hq
    exact ⟨hsame.fds.trans hopen, hsame.inetConnMap, hsame.interest⟩

/-- A server with one session, on descriptor 4, about to handle an event on its
listener. -/
def oneSession : Proc :=
  ((start .other 3).acceptInet 4 0 true).goto (.dispatch [.onFd 3 { epollin := true }])

/-- A client connects, and there is another event on the listener. -/
def oneSessionInputs : List Input :=
  [.access false, .epollWait [.onFd 3 { epollin := true }], .tau, .accept (some (4, 0)) true, .tau,
    .access false, .epollWait [.onFd 3 { epollin := true }]]

theorem reaches_oneSession : Run step any (start .other 3) oneSessionInputs oneSession := by
  have hexec :
      exec step (fun _ _ => true) (start .other 3) oneSessionInputs = some oneSession := rfl
  exact (run_of_exec hexec).toAny

/-- A failed accept ends the process, and with it a session that has nothing to
do with the event. -/
theorem not_isolated_failed_accept : ¬ ∀ (path : Path) (fd : Fd) (ls is : List Input) (p q : Proc)
    (fe : FiredEvent) (rest : List FiredEvent), 0 ≤ fd → Run step any (start path fd) ls p →
    p.pc = .dispatch (fe :: rest) → Run step (fun s _ => Handling fe rest s) p is q →
    q.pc ≠ .exited ∧ ∀ fd' c, fd' ≠ fe.fd → p.fds fd' = some (.inet c) → SameAt fd' p q := by
  intro hall
  have hrun : Run step (fun s _ => Handling (.onFd 3 { epollin := true }) [] s) oneSession
      [.tau, .accept none true] oneSession.exit :=
    .snoc (.snoc .nil (.inl rfl) rfl) (.inr ⟨_, rfl⟩) rfl
  exact (hall _ _ _ _ _ _ _ _ (by decide) reaches_oneSession rfl hrun).1 rfl

/-- A second client is accepted next to the session. -/
theorem handling_isolated_accept : ∃ q : Proc,
    Run step (fun s i => Handling (.onFd 3 { epollin := true }) [] s ∧ Carried s i) oneSession
      [.tau, .accept (some (5, 1)) true] q ∧
    q.inetConnMap 5 = some (InetConn.create 5) ∧ q.pc ≠ .exited ∧
      q.fds 4 = some (.inet 0) ∧ q.inetConnMap 4 = oneSession.inetConnMap 4 ∧
      q.interest 4 = oneSession.interest 4 := by
  have hrun : Run step (fun s i => Handling (.onFd 3 { epollin := true }) [] s ∧ Carried s i)
      oneSession [.tau, .accept (some (5, 1)) true]
      ((oneSession.acceptInet 5 1 true).goto (.dispatch [])) :=
    .snoc (.snoc .nil ⟨.inl rfl, nofun⟩ rfl) ⟨.inr ⟨_, rfl⟩, nofun⟩ rfl
  have hiso := handling_isolated _ _ _ _ _ rfl hrun
  exact ⟨_, hrun, rfl, by decide, hiso.2 (by decide) 4 0 (by decide) rfl⟩

end SysDemos.HotUpgrade.Proc
