import SysDemos.Lib.Refinement

/-!
# SysDemos.Csapp.Select

The loop of `csapp/concurrent_program/select.cc`, which should wait for standard
input and for connections at once.

`select` overwrites the set it is given.  The loop gives it `read_set` and tests
the copy `ready_set` that it took before the call, so it acts on all descriptors
that were *watched* and goes on watching those that were *ready*.  Nor is
`read_set` ever cleared: `FD_ZERO` is applied to `ready_set`.

* `watches_both_iff` — the loop does what it should exactly if `read_set` had no
  other bits at the start and `select` has always reported both descriptors.
-/

namespace SysDemos.Select

open Lts

/-- `STDIN_FILENO`. -/
def stdinFileno : Int := 0

/-- `main` at the top of its loop; `running` is false once `command` has called `exit`. -/
structure Main where
  listenfd : Int
  readSet : Finset Int
  running : Bool

/-- `main` before its first iteration; `garbage` are the bits that the variable `read_set`
happens to have. -/
def start (listenfd : Int) (garbage : Finset Int) : Main :=
  { listenfd, readSet := insert listenfd (insert stdinFileno garbage), running := true }

/-- What happens in an iteration: the set that `select` reports, and whether `fgets`
returns `NULL` should `command` be called. -/
structure Event where
  reported : Finset Int
  eof : Bool
  deriving DecidableEq

/-- What an iteration does: the set given to `select`, the set it reports, and whether
`command`, and `accept` with `echo`, are called. -/
structure Iteration where
  given : Finset Int
  reported : Finset Int
  command : Bool
  echo : Bool
  deriving DecidableEq

/-- The test of standard input, on the copy of `read_set`. -/
def Main.commands (s : Main) : Bool := stdinFileno ∈ s.readSet

/-- `command` calls `exit`. -/
def Main.exits (s : Main) (e : Event) : Bool := s.commands && e.eof

/-- One iteration of the loop; `select` reports at least one descriptor of those it is
given. -/
def step (s : Main) (e : Event) : Option Main :=
  if s.running ∧ e.reported.Nonempty ∧ e.reported ⊆ s.readSet then
    some { s with readSet := e.reported, running := !s.exits e }
  else none

/-- The record of an iteration. -/
def log (s : Main) (e : Event) : List Iteration :=
  [{ given := s.readSet
     reported := e.reported
     command := s.commands
     echo := decide (s.listenfd ∈ s.readSet) && !s.exits e }]

/-- An iteration as it should be: both descriptors are watched, and a descriptor is acted on
only if `select` has reported it. -/
structure Iteration.Sound (listenfd : Int) (it : Iteration) : Prop where
  given : it.given = {stdinFileno, listenfd}
  command : it.command → stdinFileno ∈ it.reported
  echo : it.echo → listenfd ∈ it.reported

/-- `select` has reported both descriptors, or standard input, at whose end the program
exits. -/
def Event.Covers (listenfd : Int) (e : Event) : Prop :=
  stdinFileno ∈ e.reported ∧ (e.eof ∨ listenfd ∈ e.reported)

/-- An iteration that watches both descriptors is sound exactly if `select` reports them. -/
theorem sound_iff_covers {s : Main} {e : Event} (h : s.readSet = {stdinFileno, s.listenfd}) :
    (∀ it ∈ log s e, it.Sound s.listenfd) ↔ e.Covers s.listenfd := by
  have hcommands : s.commands = true := by simp [Main.commands, h]
  simp only [log, List.mem_singleton, forall_eq, Main.exits, hcommands, Bool.true_and]
  constructor
  · rintro ⟨-, hcommand, hecho⟩
    refine ⟨hcommand rfl, ?_⟩
    cases heof : e.eof with
    | true => exact .inl rfl
    | false => exact .inr (hecho (by simp [h, heof]))
  · rintro ⟨hstdin, hlisten⟩
    refine ⟨h, fun _ => hstdin, fun hecho => hlisten.resolve_left fun heof => ?_⟩
    simp [heof] at hecho

/-- The set after an iteration in which both descriptors were watched and reported. -/
theorem readSet_of_covers {s s' : Main} {e : Event} (h : s.readSet = {stdinFileno, s.listenfd})
    (hs : step s e = some s') (hc : e.Covers s.listenfd) (hrun : s'.running) :
    s'.readSet = {stdinFileno, s'.listenfd} := by
  obtain ⟨⟨-, -, hsub⟩, ⟨⟩⟩ := Option.ite_none_right_eq_some.mp hs
  have heof : e.eof = false := by simpa [Main.exits, Main.commands, h] using hrun
  obtain ⟨hstdin, hlisten⟩ := hc
  rw [heof] at hlisten
  refine Finset.Subset.antisymm (h ▸ hsub) ?_
  rw [Finset.insert_subset_iff, Finset.singleton_subset_iff]
  exact ⟨hstdin, hlisten.resolve_left (by decide)⟩

theorem start_readSet_iff (listenfd : Int) (garbage : Finset Int) :
    (start listenfd garbage).readSet = {stdinFileno, listenfd} ↔
      garbage ⊆ {stdinFileno, listenfd} := by
  simp only [start]
  constructor
  · intro h
    rw [← h]
    exact (Finset.subset_insert _ _).trans (Finset.subset_insert _ _)
  · intro h
    refine Finset.Subset.antisymm ?_ ?_
    · simp only [Finset.insert_subset_iff]
      exact ⟨by simp, by simp, h⟩
    · simp [Finset.insert_subset_iff]

/-- The loop watches both descriptors as long as it has been sound. -/
theorem watching_of_covers {listenfd : Int} {garbage : Finset Int} {events : List Event} {s : Main}
    (h : Run step any (start listenfd garbage) events s)
    (hg : garbage ⊆ {stdinFileno, listenfd}) (hc : ∀ e ∈ events, e.Covers listenfd) :
    s.listenfd = listenfd ∧ (s.running → s.readSet = {stdinFileno, listenfd}) := by
  induction h with
  | nil => exact ⟨rfl, fun _ => (start_readSet_iff listenfd garbage).mpr hg⟩
  | @snoc events s s' e hrun _ hs ih =>
      obtain ⟨rfl, hread⟩ := ih fun e he => hc e (List.mem_append_left _ he)
      have hrunning := (Option.ite_none_right_eq_some.mp hs).1.1
      have hlisten : s'.listenfd = s.listenfd := by
        obtain ⟨-, ⟨⟩⟩ := Option.ite_none_right_eq_some.mp hs
        rfl
      refine ⟨hlisten, fun hrun' => hlisten ▸ ?_⟩
      exact readSet_of_covers (hread hrunning) hs (hc e (by simp)) hrun'

/-- **When the loop keeps watching both inputs**: for every number of iterations and all
results of `select`, exactly if `read_set` had no other bits at first and every `select` so
far has reported both descriptors (or standard input, at whose end the program exits). -/
theorem watches_both_iff (listenfd : Int) (garbage : Finset Int) (events : List Event) (s : Main)
    (h : Run step any (start listenfd garbage) events s) :
    (∀ it ∈ outputs step log (start listenfd garbage) events, it.Sound listenfd) ↔
      (events ≠ [] → garbage ⊆ {stdinFileno, listenfd}) ∧ ∀ e ∈ events, e.Covers listenfd := by
  induction h with
  | nil => simp [outputs]
  | @snoc events s s' e hrun _ hs ih =>
      rw [hrun.outputs_append, outputs_singleton hs]
      simp only [List.mem_append, or_imp, forall_and, ih, List.mem_singleton, forall_eq]
      have hrunning := (Option.ite_none_right_eq_some.mp hs).1.1
      constructor
      · rintro ⟨⟨hg, hc⟩, hlog⟩
        have hg' : garbage ⊆ {stdinFileno, listenfd} := by
          cases events with
          | nil =>
              rw [hrun.eq_of_nil] at hlog
              exact (start_readSet_iff listenfd garbage).mp
                (hlog _ (List.mem_singleton_self _)).given
          | cons e' events => exact hg (List.cons_ne_nil _ _)
        obtain ⟨rfl, hread⟩ := watching_of_covers hrun hg' hc
        exact ⟨fun _ => hg', hc, (sound_iff_covers (hread hrunning)).mp hlog⟩
      · rintro ⟨hg, hc, he⟩
        have hg' := hg (by simp)
        obtain ⟨rfl, hread⟩ := watching_of_covers hrun hg' hc
        exact ⟨⟨fun _ => hg', hc⟩, (sound_iff_covers (hread hrunning)).mpr he⟩

/-- A connection alone is ready, with `read_set` clear at first: the program waits for a line
of standard input, and then no longer watches standard input. -/
theorem command_without_input : ¬ ∀ listenfd garbage events s,
    Run step any (start listenfd garbage) events s →
      ∀ it ∈ outputs step log (start listenfd garbage) events, it.Sound listenfd := by
  intro hall
  have hexec : (exec step (fun _ _ => true) (start 3 ∅) [⟨{3}, false⟩, ⟨{3}, false⟩]).map
      (·.readSet) = some {3} := by decide
  obtain ⟨s, hrun, -⟩ := exists_run_of_exec _ _ hexec
  have hsound := hall 3 ∅ _ s hrun.toAny ⟨{3, 0}, {3}, true, true⟩ (by decide)
  exact absurd (hsound.command rfl) (by decide)

/-- Both descriptors are ready, twice. -/
theorem watches_both_iff_both_ready : ∃ s,
    Run step any (start 3 ∅) [⟨{0, 3}, false⟩, ⟨{0, 3}, false⟩] s ∧
      ∀ it ∈ outputs step log (start 3 ∅) [⟨{0, 3}, false⟩, ⟨{0, 3}, false⟩], it.Sound 3 := by
  have hexec : (exec step (fun _ _ => true) (start 3 ∅)
      [⟨{0, 3}, false⟩, ⟨{0, 3}, false⟩]).map (·.readSet) = some {0, 3} := by decide
  obtain ⟨s, hrun, -⟩ := exists_run_of_exec _ _ hexec
  refine ⟨s, hrun.toAny, (watches_both_iff 3 ∅ _ s hrun.toAny).mpr ⟨fun _ => by simp, ?_⟩⟩
  simp [Event.Covers, stdinFileno]

end SysDemos.Select
