import SysDemos.HotUpgrade.System.Steps

/-!
# SysDemos.HotUpgrade.System.Clients

The clients' connections: which of them have been accepted, and who can hold them.

* `Clients.step` — no connection is accepted twice, and servers and messages hold
  accepted connections only, in every run.
-/

namespace SysDemos.HotUpgrade

open Lts Proc

variable {p p' : Proc} {i : Input} {n n' : Net} {pid : Pid}

namespace Net

/-- The connections that have been accepted. -/
def acceptedIds (n : Net) : List ConnId := n.accepted.map (·.2)

/-- What a call does to the queue of connections. -/
theorem serve_cases (hserve : n.serve pid p i = some n') :
    n'.nconn = n.nconn ∧
      (n'.backlog = n.backlog ∧ n'.accepted = n.accepted ∧
          (∀ fd c added, i ≠ .accept (some (fd, c)) added) ∨
        ∃ fd c added, i = .accept (some (fd, c)) added ∧ n.backlog = c :: n'.backlog ∧
          n'.accepted = n.accepted ++ [(pid, c)] ∧ n'.tcp = n.tcp) := by
  unfold serve at hserve
  split at hserve
  · next fd c added =>
      split at hserve
      · contradiction
      · next c' backlog hbacklog =>
          split at hserve
          · next heq =>
              subst heq
              cases hserve
              exact ⟨rfl, .inr ⟨fd, c, added, rfl, hbacklog, rfl, rfl⟩⟩
          · contradiction
  · split at hserve
    · contradiction
    · next c conn _ =>
        unfold read at hserve
        dsimp only at hserve
        split at hserve
        · split at hserve
          · cases hserve
            exact ⟨rfl, .inl ⟨rfl, rfl, nofun⟩⟩
          · contradiction
        · split at hserve
          · cases hserve
            exact ⟨rfl, .inl ⟨rfl, rfl, nofun⟩⟩
          · contradiction
  · split at hserve
    · contradiction
    · cases hserve
      exact ⟨rfl, .inl ⟨rfl, rfl, nofun⟩⟩
  · next hne _ _ =>
      cases hserve
      exact ⟨rfl, .inl ⟨rfl, rfl, fun fd c added heq => hne _ _ _ heq⟩⟩

end Net

namespace System

variable {w w' : System} {l : Label}

/-- Connections are accepted once, and only accepted ones are held by a server or on their
way between the servers. -/
structure Clients (w : System) : Prop where
  bound : ∀ c ∈ w.net.backlog ++ w.net.acceptedIds, c < w.net.nconn
  nodup : (w.net.backlog ++ w.net.acceptedIds).Nodup
  held : ∀ pid fd c, (w.proc pid).fds fd = some (.inet c) → c ∈ w.net.acceptedIds
  queued : ∀ cell ∈ w.chan.toNew, ∀ c, cell.desc = some (.inet c) → c ∈ w.net.acceptedIds

/-- The queue of connections changes by an `accept` or a new client. -/
theorem Clients.of_serve (h : Clients w) (hserve : w.net.serve pid p i = some n') :
    (∀ c ∈ n'.backlog ++ n'.acceptedIds, c < n'.nconn) ∧
      (n'.backlog ++ n'.acceptedIds).Nodup ∧
      (∀ c ∈ w.net.acceptedIds, c ∈ n'.acceptedIds) ∧
      ∀ fd c added, i = .accept (some (fd, c)) added → c ∈ n'.acceptedIds := by
  obtain ⟨hnconn, ⟨hbacklog, haccepted, hne⟩ | ⟨fd, c, added, rfl, hbacklog, haccepted, -⟩⟩ :=
    Net.serve_cases hserve
  · have hids : n'.acceptedIds = w.net.acceptedIds := by
      rw [Net.acceptedIds, haccepted, Net.acceptedIds]
    rw [hbacklog, hids, hnconn]
    exact ⟨h.bound, h.nodup, fun _ hc => hc, fun fd c added heq => absurd heq (hne fd c added)⟩
  · have hids : n'.acceptedIds = w.net.acceptedIds ++ [c] := by
      rw [Net.acceptedIds, haccepted, List.map_append]
      rfl
    have hperm : (n'.backlog ++ n'.acceptedIds).Perm (w.net.backlog ++ w.net.acceptedIds) := by
      rw [hids, hbacklog, ← List.append_assoc, List.cons_append]
      exact List.perm_append_singleton _ _
    refine ⟨fun c' hc' => ?_, hperm.nodup_iff.mpr h.nodup, fun c' hc' => ?_, ?_⟩
    · rw [hnconn]
      exact h.bound c' (hperm.mem_iff.mp hc')
    · rw [hids]
      exact List.mem_append_left _ hc'
    · rintro fd' c' added' heq
      cases heq
      rw [hids]
      exact List.mem_append_right _ (List.mem_singleton_self _)

theorem desc_of_mem_cellsOf {obj : Option Obj} {bs : List UInt8} {cell : Cell}
    (h : cell ∈ cellsOf obj bs) : cell.desc = obj ∨ cell.desc = none := by
  cases bs with
  | nil => simp [cellsOf] at h
  | cons b bs =>
      simp only [cellsOf, List.mem_cons, List.mem_map] at h
      obtain rfl | ⟨b', -, rfl⟩ := h
      · exact .inl rfl
      · exact .inr rfl

theorem fds_of_passing {t : MsgRequestType} {obj : Obj} (h : p.passing = some (t, obj)) :
    ∃ fd, p.fds fd = some obj := by
  unfold passing at h
  split at h
  · obtain ⟨obj', hobj, heq⟩ := Option.map_eq_some_iff.mp h
    cases heq
    exact ⟨_, hobj⟩
  · obtain ⟨obj', hobj, heq⟩ := Option.map_eq_some_iff.mp h
    cases heq
    exact ⟨_, hobj⟩
  · contradiction

/-- What the old server puts on the connection it holds. -/
theorem Clients.queued_old (h : Clients w) {ch' : Chan}
    (hserved : OldServed w.old w.chan i p' ch') :
    ∀ cell ∈ ch'.toNew, ∀ c, cell.desc = some (.inet c) → c ∈ w.net.acceptedIds := by
  cases hserved with
  | @send m n t obj _ _ hpass =>
      intro cell hmem c hdesc
      obtain hold | hnew := List.mem_append.mp hmem
      · exact h.queued cell hold c hdesc
      · obtain hobj | hnone := desc_of_mem_cellsOf hnew
        · obtain ⟨fd, hfd⟩ := fds_of_passing hpass
          rw [hdesc] at hobj
          cases hobj
          exact h.held .old fd c hfd
        · simp [hdesc] at hnone
  | _ => exact h.queued

theorem Clients.queued_new (h : Clients w) {ch' : Chan}
    (hserved : NewServed w.new w.chan i p' ch') :
    ∀ cell ∈ ch'.toNew, ∀ c, cell.desc = some (.inet c) → c ∈ w.net.acceptedIds := by
  cases hserved with
  | data => exact fun cell hmem => h.queued cell (List.mem_of_mem_drop hmem)
  | close => exact nofun
  | _ => exact h.queued

/-- A descriptor that is received was on the connection. -/
theorem Clients.received (h : Clients w) {ch' : Chan} {bs : List UInt8} {fd : Fd} {c : ConnId}
    {added : Bool}
    (hserved : NewServed w.new w.chan (.recvmsg (.data bs (some (fd, .inet c))) added) p' ch') :
    c ∈ w.net.acceptedIds := by
  cases hserved with
  | quiet _ _ _ _ hrecv => exact absurd rfl (hrecv _ _)
  | gone _ hr => simp at hr
  | close _ _ hrecv => exact absurd rfl (hrecv _ _)
  | data _ _ _ _ hdesc =>
      obtain hnone | ⟨-, hhead⟩ := hdesc
      · contradiction
      · have hmem := List.mem_of_mem_head? hhead.symm
        obtain ⟨cell, hcell, hobj⟩ := List.mem_filterMap.mp hmem
        exact h.queued cell (List.mem_of_mem_take hcell) c hobj

theorem Clients.held_step (h : Clients w) (hbase : Base w) {ch' : Chan}
    (hp' : (w.proc pid).step i = some p') (hch : w.chan.serve pid (w.proc pid) p' i = some ch')
    {fd : Fd} {c : ConnId} (hfd : p'.fds fd = some (.inet c)) :
    c ∈ w.net.acceptedIds ∨ ∃ added, i = .accept (some (fd, c)) added := by
  obtain hold | haccept | ⟨bs, added, rfl⟩ := inet_step hp' hfd
  · exact .inl (h.held pid fd c hold)
  · exact .inr haccept
  · obtain rfl := hbase.recv_new hp'
    exact .inl (h.received (served_new hbase.newRole hp' hch))

/-- **Step**: connections are accepted once, whatever happens. -/
theorem Clients.step (h : Clients w) (hbase : Base w) (hs : w.step l = some w') : Clients w' := by
  cases l with
  | proc pid i =>
      obtain ⟨p', ch', n', hp', hch, hn, rfl⟩ := step_proc hs
      obtain ⟨hbound, hnodup, hmono, haccept⟩ := h.of_serve hn
      have hheld (fd : Fd) (c : ConnId) (hfd : p'.fds fd = some (.inet c)) :
          c ∈ n'.acceptedIds := by
        obtain hold | ⟨added, hi⟩ := h.held_step hbase hp' hch hfd
        · exact hmono c hold
        · exact haccept fd c added hi
      cases pid with
      | old =>
          have hqueued := h.queued_old (served_old hbase.oldInv hbase.oldRole hp' hch)
          refine ⟨hbound, hnodup, fun pid fd c hfd => ?_,
            fun cell hmem c hdesc => hmono c (hqueued cell hmem c hdesc)⟩
          cases pid with
          | old => exact hheld fd c hfd
          | new => exact hmono c (h.held .new fd c hfd)
      | new =>
          have hqueued := h.queued_new (served_new hbase.newRole hp' hch)
          refine ⟨hbound, hnodup, fun pid fd c hfd => ?_,
            fun cell hmem c hdesc => hmono c (hqueued cell hmem c hdesc)⟩
          cases pid with
          | old => exact hmono c (h.held .old fd c hfd)
          | new => exact hheld fd c hfd
  | kill pid =>
      cases hs
      cases pid with
      | old =>
          refine ⟨h.bound, h.nodup, fun pid fd c hfd => ?_, h.queued⟩
          cases pid with
          | old => simp [proc, setProc, Proc.exit] at hfd
          | new => exact h.held .new fd c hfd
      | new =>
          refine ⟨h.bound, h.nodup, fun pid fd c hfd => ?_,
            fun cell hmem => absurd hmem List.not_mem_nil⟩
          cases pid with
          | old => exact h.held .old fd c hfd
          | new => simp [proc, setProc, Proc.exit] at hfd
  | connect =>
      cases hs
      refine ⟨fun c hc => ?_, ?_, h.held, h.queued⟩
      · replace hc : c ∈ (w.net.backlog ++ [w.net.nconn]) ++ w.net.acceptedIds := hc
        show c < w.net.nconn + 1
        simp only [List.mem_append, List.mem_singleton] at hc
        obtain (hold | rfl) | hold := hc
        · exact Nat.lt_succ_of_lt (h.bound c (List.mem_append_left _ hold))
        · exact Nat.lt_succ_self _
        · exact Nat.lt_succ_of_lt (h.bound c (List.mem_append_right _ hold))
      · show ((w.net.backlog ++ [w.net.nconn]) ++ w.net.acceptedIds).Nodup
        have hfresh : w.net.nconn ∉ w.net.backlog ++ w.net.acceptedIds := fun hmem =>
          Nat.lt_irrefl _ (h.bound _ hmem)
        have hperm : (w.net.backlog ++ w.net.nconn :: w.net.acceptedIds).Perm
            (w.net.nconn :: (w.net.backlog ++ w.net.acceptedIds)) := List.perm_middle
        rw [List.append_assoc]
        exact hperm.nodup_iff.mpr (List.nodup_cons.mpr ⟨hfresh, h.nodup⟩)
  | send c payload =>
      simp only [System.step] at hs
      split at hs
      · cases hs
        exact ⟨h.bound, h.nodup, h.held, h.queued⟩
      · contradiction
  | shut c =>
      cases hs
      exact ⟨h.bound, h.nodup, h.held, h.queued⟩

theorem clients_init (lfd ufd : Fd) : Clients (init lfd ufd) := by
  refine ⟨nofun, List.nodup_nil, fun pid fd c hfd => ?_, nofun⟩
  cases pid with
  | old =>
      have hnone : (boot .clientTrigger).fds fd = some (.inet c) := inet_of_update (by simp) hfd
      exact nomatch hnone
  | new =>
      have hnone : (boot .unixServer).fds fd = some (.inet c) := inet_of_update (by simp) hfd
      exact nomatch hnone

/-- A connection that is accepted had not been accepted before. -/
theorem Clients.accept_new (h : Clients w) {fd : Fd} {c : ConnId} {added : Bool}
    (hn : w.net.serve pid p (.accept (some (fd, c)) added) = some n') :
    c ∉ w.net.acceptedIds := by
  obtain ⟨-, ⟨-, -, hne⟩ | ⟨_, _, _, heq, hbacklog, -⟩⟩ := Net.serve_cases hn
  · exact absurd rfl (hne _ _ _)
  · cases heq
    have hnodup := h.nodup
    rw [hbacklog, List.cons_append, List.nodup_cons] at hnodup
    exact fun hmem => hnodup.1 (List.mem_append_right _ hmem)

/-- On acceptance a connection is entered in the map of the server that accepts it, and
nobody else has it. -/
theorem Clients.accept (h : Clients w) {fd : Fd} {c : ConnId} {added : Bool}
    (hs : w.step (.proc pid (.accept (some (fd, c)) added)) = some w') :
    (w'.proc pid).inetConnMap fd = some (.create fd) ∧ (w'.proc pid).fds fd = some (.inet c) ∧
      ∀ pid' fd', (w'.proc pid').fds fd' = some (.inet c) → pid' = pid ∧ fd' = fd := by
  obtain ⟨p', ch', n', hp', -, hn, rfl⟩ := step_proc hs
  have hnew := h.accept_new hn
  have hnone (pid' : Pid) (fd' : Fd) : (w.proc pid').fds fd' ≠ some (.inet c) := fun hfd =>
    hnew (h.held pid' fd' c hfd)
  have hp : ∃ rest, p' = ((w.proc pid).acceptInet fd c added).goto (.dispatch rest) := by
    cases step_cases hp' with
    | handle _ hh =>
        cases hh
        exact ⟨_, rfl⟩
  obtain ⟨rest, rfl⟩ := hp
  have hfds (fd' : Fd) (hfd' : Function.update (w.proc pid).fds fd (some (.inet c)) fd' =
      some (.inet c)) : fd' = fd := by
    by_contra hne
    rw [Function.update_of_ne hne] at hfd'
    exact hnone pid fd' hfd'
  cases pid with
  | old =>
      refine ⟨Function.update_self _ _ _, Function.update_self _ _ _, fun pid' fd' hfd' => ?_⟩
      cases pid' with
      | old => exact ⟨rfl, hfds fd' hfd'⟩
      | new => exact absurd hfd' (hnone .new fd')
  | new =>
      refine ⟨Function.update_self _ _ _, Function.update_self _ _ _, fun pid' fd' hfd' => ?_⟩
      cases pid' with
      | old => exact absurd hfd' (hnone .old fd')
      | new => exact ⟨rfl, hfds fd' hfd'⟩

end System

end SysDemos.HotUpgrade
