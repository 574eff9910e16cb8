import Mathlib

/-!
# SysDemos.Lib.Children

The children of a process as the kernel keeps them: those that run, those that
have terminated and have not been waited for, and whether `SIGCHLD` is pending.
A signal that is pending already is not remembered a second time.
-/

namespace Posix

/-- The children of a process.  A process id is positive and belongs to one child
until that child has been waited for. -/
structure Children where
  running : Finset Int
  zombies : Finset Int
  /-- `SIGCHLD` is pending -/
  pending : Bool
  disjoint : Disjoint running zombies
  pos : ∀ pid ∈ running ∪ zombies, 0 < pid
  deriving DecidableEq

namespace Children

variable {k k' : Children} {pid : Int}

/-- A process that has no children. -/
def childless : Children :=
  { running := ∅, zombies := ∅, pending := false, disjoint := by simp, pos := by simp }

/-- The children that have not been waited for. -/
def unreaped (k : Children) : Finset Int := k.running ∪ k.zombies

/-- `fork` makes a child with a process id that is not in use. -/
def fork (k : Children) (pid : Int) : Option Children :=
  if h : 0 < pid ∧ pid ∉ k.unreaped then
    some { k with
      running := insert pid k.running
      disjoint := by
        have hnot : pid ∉ k.zombies := fun hz => h.2 (Finset.mem_union_right _ hz)
        exact Finset.disjoint_insert_left.mpr ⟨hnot, k.disjoint⟩
      pos := by
        intro p hp
        rw [Finset.insert_union] at hp
        obtain rfl | hp := Finset.mem_insert.mp hp
        · exact h.1
        · exact k.pos p hp }
  else none

/-- A child terminates, which makes `SIGCHLD` pending. -/
def exit (k : Children) (pid : Int) : Option Children :=
  if h : pid ∈ k.running then
    some {
      running := k.running.erase pid
      zombies := insert pid k.zombies
      pending := true
      disjoint := Finset.disjoint_insert_right.mpr
        ⟨Finset.notMem_erase pid _, k.disjoint.mono_left (Finset.erase_subset _ _)⟩
      pos := by
        intro p hp
        rw [Finset.union_insert, ← Finset.insert_union, Finset.insert_erase h] at hp
        exact k.pos p hp }
  else none

/-- `waitpid` reaps a child that has terminated. -/
def reap (k : Children) (pid : Int) : Option Children :=
  if pid ∈ k.zombies then
    some { k with
      zombies := k.zombies.erase pid
      disjoint := k.disjoint.mono_right (Finset.erase_subset _ _)
      pos := fun p hp => k.pos p (Finset.union_subset_union_right (Finset.erase_subset _ _) hp) }
  else none

/-- A pending `SIGCHLD` is delivered. -/
def deliver (k : Children) : Option Children :=
  if k.pending then some { k with pending := false } else none

/-! ## what the operations do -/

theorem pos_of_unreaped (h : pid ∈ k.unreaped) : 0 < pid := k.pos pid h

theorem fork_spec (h : k.fork pid = some k') :
    0 < pid ∧ pid ∉ k.unreaped ∧ k'.unreaped = insert pid k.unreaped ∧ k'.zombies = k.zombies ∧
      k'.pending = k.pending := by
  unfold fork at h
  split at h
  · next hpid =>
      rw [Option.some.injEq] at h
      subst h
      exact ⟨hpid.1, hpid.2, Finset.insert_union _ _ _, rfl, rfl⟩
  · contradiction

theorem exit_spec (h : k.exit pid = some k') :
    k'.unreaped = k.unreaped ∧ k'.pending = true := by
  unfold exit at h
  split at h
  · next hpid =>
      rw [Option.some.injEq] at h
      subst h
      refine ⟨?_, rfl⟩
      show k.running.erase pid ∪ insert pid k.zombies = k.running ∪ k.zombies
      rw [Finset.union_insert, ← Finset.insert_union, Finset.insert_erase hpid]
  · contradiction

theorem reap_spec (h : k.reap pid = some k') :
    pid ∈ k.unreaped ∧ k'.unreaped = k.unreaped.erase pid ∧ k'.pending = k.pending := by
  unfold reap at h
  split at h
  · next hpid =>
      rw [Option.some.injEq] at h
      subst h
      refine ⟨Finset.mem_union_right _ hpid, ?_, rfl⟩
      -- a child that has terminated does not run
      have hnot : pid ∉ k.running := fun hr => Finset.disjoint_left.mp k.disjoint hr hpid
      show k.running ∪ k.zombies.erase pid = (k.running ∪ k.zombies).erase pid
      rw [Finset.erase_union_distrib, Finset.erase_eq_of_notMem hnot]
  · contradiction

theorem deliver_spec (h : k.deliver = some k') :
    k.pending = true ∧ k'.unreaped = k.unreaped ∧ k'.pending = false := by
  unfold deliver at h
  split at h
  · next hpending =>
      rw [Option.some.injEq] at h
      subst h
      exact ⟨hpending, rfl, rfl⟩
  · contradiction

/-! ## the two sets -/

theorem fork_sets (h : k.fork pid = some k') :
    pid ∉ k.running ∧ k'.running = insert pid k.running ∧ k'.zombies = k.zombies := by
  unfold fork at h
  split at h
  · next hpid =>
      rw [Option.some.injEq] at h
      subst h
      exact ⟨fun hr => hpid.2 (Finset.mem_union_left _ hr), rfl, rfl⟩
  · contradiction

theorem exit_sets (h : k.exit pid = some k') :
    pid ∈ k.running ∧ pid ∉ k.zombies ∧ k'.running = k.running.erase pid ∧
      k'.zombies = insert pid k.zombies := by
  unfold exit at h
  split at h
  · next hpid =>
      rw [Option.some.injEq] at h
      subst h
      exact ⟨hpid, Finset.disjoint_left.mp k.disjoint hpid, rfl, rfl⟩
  · contradiction

theorem reap_sets (h : k.reap pid = some k') :
    pid ∈ k.zombies ∧ k'.running = k.running ∧ k'.zombies = k.zombies.erase pid := by
  unfold reap at h
  split at h
  · next hpid =>
      rw [Option.some.injEq] at h
      subst h
      exact ⟨hpid, rfl, rfl⟩
  · contradiction

theorem deliver_sets (h : k.deliver = some k') :
    k'.running = k.running ∧ k'.zombies = k.zombies := by
  unfold deliver at h
  split at h
  · rw [Option.some.injEq] at h
    subst h
    exact ⟨rfl, rfl⟩
  · contradiction

/-! ## when they are possible -/

/-- There is always a process id that is not in use. -/
theorem exists_fork (k : Children) : ∃ pid k', k.fork pid = some k' := by
  obtain ⟨pid, hpid⟩ :=
    Infinite.exists_notMem_finset ((k.unreaped ∪ Finset.image (-·) k.unreaped) ∪ {0})
  simp only [Finset.mem_union, Finset.mem_image, Finset.mem_singleton, not_or, not_exists, not_and]
    at hpid
  obtain hneg | hpos : pid < 0 ∨ 0 < pid := by omega
  · have hfree : 0 < -pid ∧ -pid ∉ k.unreaped :=
      ⟨by omega, fun hmem => hpid.1.2 (-pid) hmem (by omega)⟩
    exact ⟨-pid, _, by rw [fork, dif_pos hfree]⟩
  · exact ⟨pid, _, by rw [fork, dif_pos ⟨hpos, hpid.1.1⟩]⟩

theorem exists_exit (h : pid ∈ k.running) : ∃ k', k.exit pid = some k' :=
  ⟨_, by rw [exit, dif_pos h]⟩

theorem exists_reap (h : pid ∈ k.zombies) : ∃ k', k.reap pid = some k' :=
  ⟨_, by rw [reap, if_pos h]⟩

theorem exists_deliver (h : k.pending = true) : ∃ k', k.deliver = some k' :=
  ⟨_, by rw [deliver, if_pos h]⟩

end Children

end Posix
