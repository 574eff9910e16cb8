import SysDemos.HotUpgrade.System.InFlight

/-!
# SysDemos.HotUpgrade.System.Live

Upgrades in which nothing goes wrong on the unix connection: neither server ends, and
messages, with their descriptors, and replies are delivered whole (`Delivers`).  Then
the new server never gives up the connection, so the dispatch of both servers is sound
throughout.

* `Live.step` — the invariant of such upgrades.
-/

namespace SysDemos.HotUpgrade

open Lts Proc

variable {p p' : Proc} {i : Input}

/-- When a process ends. -/
theorem Proc.exit_step (hs : p.step i = some p') (hpc' : p'.pc = .exited) :
    FailedAccept i ∨ i = .unixClientConn none := by
  cases step_cases hs with
  | connectFail => exact .inr rfl
  | access =>
      unfold checkTrigger at hpc'
      split at hpc' <;> simp [goto] at hpc'
  | sendListen =>
      unfold afterHandOver at hpc'
      split at hpc' <;> simp [goto] at hpc'
  | dispatch _ hd =>
      obtain hskip | ⟨h, hh⟩ := hd.pc_cases
      · simp [goto, hskip] at hpc'
      · simp [goto, hh] at hpc'
  | handle hpc hh =>
      obtain ⟨hfail, -⟩ | ⟨-, hnext⟩ := hh.next hpc
      · exact .inl hfail
      · cases hnext with
        | done hdone => simp [hpc'] at hdone
        | more hmore => simp [hpc'] at hmore
  | _ => simp [goto, connected] at hpc'

namespace System

variable {w w' : System} {l : Label}

/-- Neither server ends, and messages, with their descriptors, and replies are delivered whole. -/
structure Delivers (w : System) (l : Label) : Prop where
  noKill : ∀ pid, l ≠ .kill pid
  noExit : ∀ pid i, l = .proc pid i → ¬ FailedAccept i ∧ i ≠ .unixClientConn none
  wholeSend : WholeSend l
  wholeReply : WholeReply l
  installs : Installs w l
  noError : ∀ added, l ≠ .proc .new (.recvmsg (.err .other) added)

/-- Both servers run and the connection is not given up. -/
structure Live (w : System) : Prop where
  locked : Locked w
  undropped : Undropped w
  old : w.old.pc ≠ .exited
  new : w.new.pc ≠ .exited
  newEnd : w.chan.newEnd ≠ .closed
  keeps : ∀ fe rest, w.new.pc ≠ .handle fe .dropUnix rest

namespace Live

theorem isOpen (h : Live w) : Open w := h.locked.framed.isOpen h.newEnd

/-- The old end is open once there is a connection. -/
theorem oldEnd (h : Live w) (hend : w.chan.newEnd = .accepted) : w.chan.oldEnd ≠ false :=
  fun hgone => h.old (h.undropped.oldGone (.inr hend) hgone)

/-- No hang-up of the unix connection is reported. -/
theorem reads (h : Live w) (hd : Delivers w l) : Reads w l := by
  refine ⟨fun _ fe rest hpc hb hmask => ?_, hd.noError⟩
  have hpcInv := h.isOpen.inv.pcInv
  rw [hpc] at hpcInv
  have hmem : fe ∈ w.new.pc.pending := by simp [hpc, Pc.pending]
  have hnonneg := h.isOpen.inv.toWf.nonneg_of_pending hmem
  rw [eq_of_branch hb] at hnonneg
  obtain ⟨hneg, -⟩ | ⟨uc, k, -, -, hk⟩ := Core.unix hpcInv
  · rw [hneg] at hnonneg
    exact absurd hnonneg (by decide)
  have hunix : isUnixConn (w.new.fds fe.fd) = true := by
    rw [eq_of_branch hb, hk]
    rfl
  have haccepted : w.chan.newEnd = .accepted := by
    by_contra hend
    rw [h.isOpen.isUnixConn hend h.new] at hunix
    contradiction
  exact absurd (h.undropped.hangUps fe hmem hmask hunix) (h.oldEnd haccepted)

theorem newEnd_step (h : Live w) {ch' : Chan} (hserved : NewServed w.new w.chan i p' ch')
    (hrun : p'.pc ≠ .exited) : ch'.newEnd ≠ .closed := by
  cases hserved with
  | accept => simp
  | close _ _ _ hwhy =>
      obtain hexited | hclosing := hwhy
      · exact absurd hexited hrun
      · obtain ⟨fe, rest, hpc⟩ := dropUnix_of_closing h.isOpen.inv hclosing
        exact absurd hpc (h.keeps fe rest)
  | _ => exact h.newEnd

/-- **Step**: a live upgrade stays live. -/
theorem step (h : Live w) (hd : Delivers w l) (hs : w.step l = some w') : Live w' := by
  have hbase := h.locked.base
  have hlocked : Locked w' :=
    h.locked.step hd.wholeSend (h.locked.drains hd.wholeReply hs) hd.installs hs
  have hundropped : Undropped w' :=
    h.undropped.step hbase h.locked.framed
      (h.locked.framed.aligned hbase h.locked.phase.pending_le hs) hd.installs (h.reads hd) hs
  cases moves_of_step hs with
  | @old i p' _ _ hp' hch =>
      obtain ⟨hfail, hconnect⟩ := hd.noExit .old i rfl
      have hrun : p'.pc ≠ .exited := fun hexited =>
        (Proc.exit_step hp' hexited).elim hfail hconnect
      refine ⟨hlocked, hundropped, hrun, h.new, ?_, h.keeps⟩
      cases HotUpgrade.served_old hbase.oldInv hbase.oldRole hp' hch with
      | connect => simp
      | exit => exact absurd rfl hrun
      | _ => exact h.newEnd
  | @new i p' _ _ hp' hch =>
      obtain ⟨hfail, hconnect⟩ := hd.noExit .new i rfl
      have hrun : p'.pc ≠ .exited := fun hexited =>
        (Proc.exit_step hp' hexited).elim hfail hconnect
      have hend := h.newEnd_step (HotUpgrade.served_new hbase.newRole hp' hch) hrun
      refine ⟨hlocked, hundropped, h.old, hrun, hend, fun fe rest hpc' => ?_⟩
      have haccepted := (hlocked.framed.isOpen hend).accepted_of_dropUnix hpc'
      obtain hclosed | hgone := (hundropped.dropping fe rest hpc').2
      · exact hend hclosed
      · exact h.old (hundropped.oldGone (.inr haccepted) hgone)
  | client => exact ⟨hlocked, hundropped, h.old, h.new, h.newEnd, h.keeps⟩
  | kill pid => exact absurd rfl (hd.noKill pid)

end Live

theorem live_init {lfd ufd : Fd} (hlfd : 0 ≤ lfd) (hufd : 0 ≤ ufd) : Live (init lfd ufd) :=
  ⟨locked_init hlfd hufd, undropped_init, by simp [init, pc_start], by simp [init, pc_start], nofun,
    by simp [init, pc_start]⟩

end System

end SysDemos.HotUpgrade
