import SysDemos.Csapp.EchoServerp.Steps
import SysDemos.Csapp.EchoSession.Progress
import SysDemos.Lib.Measure
import SysDemos.Lib.Threads

/-!
# SysDemos.Csapp.EchoSession.Forking

`main` of `csapp/concurrent_program/echo_serverp.cc`, its children and any number
of clients.

`main` and `sigchld_handler` are those of `SysDemos.Csapp.EchoServerp`.  The child
that is forked for a connection runs `echo` on it, closes it and exits; the
children and the clients run side by side with `main`.  `fork` succeeds.

* `forking_outcome` — whatever other clients do, a client whose input consists of
  whole lines gets all of it back, and its child is reaped.
-/

namespace SysDemos.EchoSession

open Posix Rio Lts
open EchoServerp (Event)

/-- The server, its children and its clients. -/
structure Forking (n : Nat) where
  parent : EchoServerp.Server
  sessions : Fin n → Session
  /-- the connections that have not been accepted -/
  backlog : List (Fin n)
  /-- the connection that `main` has accepted and not closed -/
  current : Option (Fin n)
  /-- the child that serves each connection, until it has exited -/
  child : Fin n → Option Int

namespace Forking

variable {n cap : Nat}

/-- What happens next: a call of a client or of the child that serves it, the end of a child, or a
call of `main` or `sigchld_handler`. -/
inductive Move (n : Nat) where
  | session (i : Fin n) (l : Label)
  | exit (i : Fin n)
  | parent (e : Event)

/-- A call that has been interrupted. -/
def Move.interrupted : Move n → Bool
  | .session _ l => l.interrupted
  | _ => false

/-- Before the first client has connected. -/
def start (rp : RioT) (inputs : Fin n → Input) : Forking n :=
  { parent := EchoServerp.start, sessions := fun i => .start rp (inputs i).stdin, backlog := []
    current := none, child := fun _ => none }

/-- The child that serves connection `i` runs. -/
def runs (w : Forking n) (i : Fin n) : Bool :=
  match w.child i with
  | some pid => pid ∈ w.parent.children.running
  | none => false

/-- The backlog after a call of client `i`. -/
def queue (w : Forking n) (i : Fin n) : Label → List (Fin n)
  | .connect _ => w.backlog ++ [i]
  | _ => w.backlog

/-- A call of `main` or `sigchld_handler` that has left it in the state `p`: `accept` takes the
first connection of the backlog, `fork` makes a child for the one that has been accepted. -/
def moved (w : Forking n) (p : EchoServerp.Server) : Event → Option (Forking n)
  | .accept _ =>
    match w.backlog with
    | i :: rest => some { w with parent := p, backlog := rest, current := some i }
    | [] => none
  | .fork (some pid) =>
    w.current.map fun i => { w with parent := p, child := Function.update w.child i (some pid) }
  | .fork none => none
  | .close => some { w with parent := p, current := none }
  | .exit _ => none
  | _ => some { w with parent := p }

/-- A step.  What is called for a connection on the server's side, its child calls. -/
def step (cap : Nat) (w : Forking n) : Move n → Option (Forking n)
  | .session i l =>
    if l.byServer = true → w.runs i = true then
      ((w.sessions i).step cap l).map fun s =>
        { w with sessions := Function.update w.sessions i s, backlog := w.queue i l }
    else none
  | .exit i =>
    match w.child i with
    | some pid =>
      if (w.sessions i).server.pc = .closed then
        (EchoServerp.step w.parent (.exit pid)).map fun p =>
          { w with parent := p, child := Function.update w.child i none }
      else none
    | none => none
  | .parent e => (EchoServerp.step w.parent e).bind fun p => w.moved p e

/-! ## connections and children -/

variable {inputs : Fin n → Input} {w w' : Forking n} {i j : Fin n} {l : Label} {s : Session}

/-- Every connection that the server has to do with is in the backlog, in the hands of `main`, or in
those of a child, and each child that runs has its own connection. -/
structure Inv (inputs : Fin n → Input) (w : Forking n) : Prop where
  printed : ∀ i, ∃ done todo, Printed (inputs i) (w.sessions i) done todo
  remembered : EchoServerp.Remembered w.parent
  nodup : w.backlog.Nodup
  listed : ∀ i ∈ w.backlog, (w.sessions i).server.service = .backlog ∧ w.child i = none
  accepted : w.parent.pc = .fork → ∃ i, w.current = some i ∧
    (w.sessions i).server.service = .backlog ∧ w.child i = none ∧ i ∉ w.backlog
  fresh : ∀ i, (w.sessions i).server.service = .absent → w.child i = none
  waiting : ∀ i, (w.sessions i).server.service = .backlog →
    i ∈ w.backlog ∨ (w.current = some i ∧ w.parent.pc = .fork) ∨ ∃ pid, w.child i = some pid
  served : ∀ i, (w.sessions i).server.service = .active → ∃ pid, w.child i = some pid
  running : ∀ i pid, w.child i = some pid → pid ∈ w.parent.children.running
  distinct : ∀ i j pid, w.child i = some pid → w.child j = some pid → i = j
  own : ∀ pid ∈ w.parent.children.running, ∃ i, w.child i = some pid

theorem inv_start (rp : RioT) (inputs : Fin n → Input) : Inv inputs (start rp inputs) where
  printed i := ⟨[], _, printed_start rp (inputs i)⟩
  remembered hne := absurd rfl hne
  nodup := List.nodup_nil
  listed i hi := absurd hi List.not_mem_nil
  accepted hpc := by contradiction
  fresh _ _ := rfl
  waiting i hi := by simp [start, Session.start, Server.service] at hi
  served i hi := by simp [start, Session.start, Server.service] at hi
  running i pid hi := by contradiction
  distinct i j pid hi := by contradiction
  own pid hpid := absurd hpid (Finset.notMem_empty pid)

/-- A session that moves and stays where it is for the server. -/
theorem Inv.session_same (h : Inv inputs w)
    (hprinted : ∃ done todo, Printed (inputs i) s done todo)
    (hsame : s.server.service = (w.sessions i).server.service) :
    Inv inputs { w with sessions := Function.update w.sessions i s } := by
  have hservice : ∀ j, (Function.update w.sessions i s j).server.service =
      (w.sessions j).server.service :=
    forall_update w.sessions i s
      (P := fun j s => s.server.service = (w.sessions j).server.service) hsame
      fun _ _ => rfl
  refine { h with
    printed := ?_, listed := ?_, accepted := ?_, fresh := ?_, waiting := ?_, served := ?_ }
  · exact forall_update w.sessions i s
      (P := fun j s => ∃ done todo, Printed (inputs j) s done todo) hprinted
      fun j _ => h.printed j
  all_goals simp only [hservice]
  · exact h.listed
  · exact h.accepted
  · exact h.fresh
  · exact h.waiting
  · exact h.served

/-- A child begins with a connection, or ends with it. -/
theorem Inv.session_moved (h : Inv inputs w) {pid : Int}
    (hprinted : ∃ done todo, Printed (inputs i) s done todo) (hchild : w.child i = some pid)
    (hservice : s.server.service = .active ∨ s.server.service = .closed) :
    Inv inputs { w with sessions := Function.update w.sessions i s } := by
  have hne : ∀ j, w.child j = none → j ≠ i := by
    rintro j hj rfl
    rw [hchild] at hj
    contradiction
  have hother : ∀ j, w.child j = none →
      (Function.update w.sessions i s j).server.service = (w.sessions j).server.service :=
    fun j hj => by rw [Function.update_of_ne (hne j hj)]
  refine { h with
    printed := ?_, listed := ?_, accepted := ?_, fresh := ?_, waiting := ?_, served := ?_ }
  · exact forall_update w.sessions i s
      (P := fun j s => ∃ done todo, Printed (inputs j) s done todo) hprinted
      fun j _ => h.printed j
  · intro j hj
    obtain ⟨hback, hnone⟩ := h.listed j hj
    exact ⟨(hother j hnone).trans hback, hnone⟩
  · intro hpc
    obtain ⟨j, hcurrent, hback, hnone, hnot⟩ := h.accepted hpc
    exact ⟨j, hcurrent, (hother j hnone).trans hback, hnone, hnot⟩
  · refine forall_update w.sessions i s
      (P := fun j s => s.server.service = .absent → w.child j = none)
      (fun habsent => ?_) fun j _ => h.fresh j
    simp [habsent] at hservice
  · refine forall_update w.sessions i s
      (P := fun j s => s.server.service = .backlog → j ∈ w.backlog ∨
      (w.current = some j ∧ w.parent.pc = .fork) ∨ ∃ pid, w.child j = some pid)
      (fun _ => .inr (.inr ⟨pid, hchild⟩)) fun j _ => h.waiting j
  · exact forall_update w.sessions i s
      (P := fun j s => s.server.service = .active → ∃ pid, w.child j = some pid)
      (fun _ => ⟨pid, hchild⟩) fun j _ => h.served j

/-- A client connects. -/
theorem Inv.session_connect (h : Inv inputs w)
    (hprinted : ∃ done todo, Printed (inputs i) s done todo)
    (habsent : (w.sessions i).server.service = .absent) (hback : s.server.service = .backlog) :
    Inv inputs
      { w with sessions := Function.update w.sessions i s, backlog := w.backlog ++ [i] } := by
  have hnew : i ∉ w.backlog := fun hi => by simp [(h.listed i hi).1] at habsent
  have hother : ∀ j, (w.sessions j).server.service = .backlog →
      (Function.update w.sessions i s j).server.service = .backlog := fun j hj => by
    rw [Function.update_of_ne (by rintro rfl; simp [hj] at habsent)]
    exact hj
  refine { h with
    printed := ?_, nodup := ?_, listed := ?_, accepted := ?_, fresh := ?_, waiting := ?_,
    served := ?_ }
  · exact forall_update w.sessions i s
      (P := fun j s => ∃ done todo, Printed (inputs j) s done todo) hprinted
      fun j _ => h.printed j
  · refine List.nodup_append.mpr ⟨h.nodup, by simp, ?_⟩
    rintro a ha b hb rfl
    rw [List.mem_singleton.mp hb] at ha
    exact hnew ha
  · intro j hj
    obtain hj | hj := List.mem_append.mp hj
    · obtain ⟨hservice, hnone⟩ := h.listed j hj
      exact ⟨hother j hservice, hnone⟩
    · rw [List.mem_singleton.mp hj]
      exact ⟨by simp [hback], h.fresh i habsent⟩
  · intro hpc
    obtain ⟨j, hcurrent, hservice, hnone, hnot⟩ := h.accepted hpc
    refine ⟨j, hcurrent, hother j hservice, hnone, ?_⟩
    rintro hj
    obtain rfl := List.mem_singleton.mp ((List.mem_append.mp hj).resolve_left hnot)
    simp [hservice] at habsent
  · exact forall_update w.sessions i s
      (P := fun j s => s.server.service = .absent → w.child j = none)
      (fun hi => by simp [hi] at hback) fun j _ => h.fresh j
  · refine forall_update w.sessions i s
      (P := fun j s => s.server.service = .backlog → j ∈ w.backlog ++ [i] ∨
      (w.current = some j ∧ w.parent.pc = .fork) ∨ ∃ pid, w.child j = some pid)
      (fun _ => .inl (by simp)) fun j _ hj => ?_
    exact (h.waiting j hj).imp_left (List.mem_append_left _)
  · exact forall_update w.sessions i s
      (P := fun j s => s.server.service = .active → ∃ pid, w.child j = some pid)
      (fun hi => by simp [hi] at hback) fun j _ => h.served j

/-- A call of a client or of a child. -/
theorem Inv.session (h : Inv inputs w) (hallow : l.byServer = true → w.runs i = true)
    (hs : (w.sessions i).step cap l = some s) :
    Inv inputs { w with sessions := Function.update w.sessions i s, backlog := w.queue i l } := by
  obtain ⟨done, todo, hprinted⟩ := h.printed i
  obtain ⟨hnext, -⟩ := hprinted.step hs
  have hservice := service_step hs
  have hchild : l.byServer = true → ∃ pid, w.child i = some pid := fun hl => by
    have hruns := hallow hl
    unfold runs at hruns
    split at hruns
    · next pid hpid => exact ⟨pid, hpid⟩
    · contradiction
  cases l with
  | connect clientfd =>
      exact h.session_connect hnext
        (hprinted.stage.absent_of_connect (Option.ite_none_right_eq_some.mp hs).1) hservice
  | accept rp connfd =>
      obtain ⟨pid, hpid⟩ := hchild rfl
      exact h.session_moved hnext hpid (.inl hservice.2)
  | close =>
      obtain ⟨pid, hpid⟩ := hchild rfl
      exact h.session_moved hnext hpid (.inr hservice.2)
  | serverRead r => exact h.session_same hnext (hservice.2.trans hservice.1.symm)
  | serverWrite r => exact h.session_same hnext (hservice.2.trans hservice.1.symm)
  | fgets => exact h.session_same hnext (congrArg Server.service hservice)
  | clientWrite r => exact h.session_same hnext (congrArg Server.service hservice)
  | clientRead r => exact h.session_same hnext (congrArg Server.service hservice)

/-- The end of a child. -/
theorem Inv.exit (h : Inv inputs w) {pid : Int} {p : EchoServerp.Server}
    (hchild : w.child i = some pid) (hclosed : (w.sessions i).server.pc = .closed)
    (hs : EchoServerp.step w.parent (.exit pid) = some p) :
    Inv inputs { w with parent := p, child := Function.update w.child i none } := by
  have hremembered := h.remembered.step hs
  have hservice : (w.sessions i).server.service = .closed := by simp only [Server.service, hclosed]
  cases EchoServerp.step_cases hs with
  | exit hk =>
      obtain ⟨-, -, hrunning, -⟩ := Children.exit_sets hk
      -- the other connections keep their child
      have hkept : ∀ j, j ≠ i → Function.update w.child i none j = w.child j := fun j hj =>
        Function.update_of_ne hj ..
      have hold : ∀ j pid', Function.update w.child i none j = some pid' →
          j ≠ i ∧ w.child j = some pid' := fun j pid' hj => by
        by_cases hji : j = i
        · simp [hji] at hj
        · exact ⟨hji, (hkept j hji).symm.trans hj⟩
      have hnone : ∀ j, w.child j = none → Function.update w.child i none j = none := fun j hj => by
        by_cases hji : j = i
        · simp [hji]
        · exact (hkept j hji).trans hj
      have hsome : ∀ j, (w.sessions j).server.service ≠ .closed →
          ∀ pid', w.child j = some pid' → Function.update w.child i none j = some pid' :=
        fun j hj pid' hpid' => (hkept j (by rintro rfl; exact hj hservice)).trans hpid'
      refine { h with
        remembered := hremembered, listed := ?_, accepted := ?_, fresh := ?_, waiting := ?_,
        served := ?_, running := ?_, distinct := ?_, own := ?_ }
      · exact fun j hj => ⟨(h.listed j hj).1, hnone j (h.listed j hj).2⟩
      · intro hpc
        obtain ⟨j, hcurrent, hback, hfree, hnot⟩ := h.accepted hpc
        exact ⟨j, hcurrent, hback, hnone j hfree, hnot⟩
      · exact fun j hj => hnone j (h.fresh j hj)
      · intro j hj
        obtain hin | hmain | ⟨pid', hpid'⟩ := h.waiting j hj
        · exact .inl hin
        · exact .inr (.inl hmain)
        · exact .inr (.inr ⟨pid', hsome j (by simp [hj]) pid' hpid'⟩)
      · intro j hj
        obtain ⟨pid', hpid'⟩ := h.served j hj
        exact ⟨pid', hsome j (by simp [hj]) pid' hpid'⟩
      · intro j pid' hj
        obtain ⟨hji, hpid'⟩ := hold j pid' hj
        show pid' ∈ Children.running _
        rw [hrunning]
        refine Finset.mem_erase.mpr ⟨?_, h.running j pid' hpid'⟩
        rintro rfl
        exact hji (h.distinct j i _ hpid' hchild)
      · exact fun j k pid' hj hk => h.distinct j k pid' (hold j pid' hj).2 (hold k pid' hk).2
      · intro pid' hpid'
        rw [show Children.running _ = _ from hrunning] at hpid'
        obtain ⟨hne, hin⟩ := Finset.mem_erase.mp hpid'
        obtain ⟨j, hj⟩ := h.own pid' hin
        refine ⟨j, (hkept j ?_).trans hj⟩
        rintro rfl
        exact hne (Option.some.inj (hj.symm.trans hchild))

/-- A call of `main` or `sigchld_handler`. -/
theorem Inv.parent (h : Inv inputs w) {p : EchoServerp.Server} {e : Event}
    (hs : EchoServerp.step w.parent e = some p) (hmoved : w.moved p e = some w') :
    Inv inputs w' := by
  have hremembered := h.remembered.step hs
  cases EchoServerp.step_cases hs with
  | accept hh hpc =>
      simp only [moved] at hmoved
      split at hmoved
      · next i rest hbacklog =>
          cases hmoved
          have hnodup := hbacklog ▸ h.nodup
          obtain ⟨hback, hfree⟩ := h.listed i (by rw [hbacklog]; exact List.mem_cons_self)
          refine { h with
            remembered := hremembered, nodup := ?_, listed := ?_, accepted := ?_, waiting := ?_ }
          · exact (List.nodup_cons.mp hnodup).2
          · exact fun j hj => h.listed j (by rw [hbacklog]; exact List.mem_cons_of_mem _ hj)
          · exact fun _ => ⟨i, rfl, hback, hfree, (List.nodup_cons.mp hnodup).1⟩
          · intro j hj
            obtain hin | ⟨-, hfork⟩ | hchild := h.waiting j hj
            · rw [hbacklog] at hin
              obtain rfl | hin := List.mem_cons.mp hin
              · exact .inr (.inl ⟨rfl, rfl⟩)
              · exact .inl hin
            · simp [hpc] at hfork
            · exact .inr (.inr hchild)
      · contradiction
  | @fork pid k hh hpc hk =>
      obtain ⟨hnew, hrunning, -⟩ := Children.fork_sets hk
      obtain ⟨i, hcurrent, hback, hfree, hnot⟩ := h.accepted hpc
      simp only [moved, hcurrent, Option.map_some, Option.some.injEq] at hmoved
      subst hmoved
      have hkept : ∀ j, j ≠ i → Function.update w.child i (some pid) j = w.child j := fun j hj =>
        Function.update_of_ne hj ..
      have hold : ∀ j pid', Function.update w.child i (some pid) j = some pid' →
          (j = i ∧ pid' = pid) ∨ (j ≠ i ∧ w.child j = some pid') := fun j pid' hj => by
        by_cases hji : j = i
        · rw [hji, Function.update_self] at hj
          exact .inl ⟨hji, (Option.some.inj hj).symm⟩
        · exact .inr ⟨hji, (hkept j hji).symm.trans hj⟩
      have hsome : ∀ j pid', w.child j = some pid' →
          Function.update w.child i (some pid) j = some pid' := fun j pid' hj =>
        (hkept j (by rintro rfl; simp [hfree] at hj)).trans hj
      refine { h with
        remembered := hremembered, listed := ?_, accepted := ?_, fresh := ?_, waiting := ?_,
        served := ?_, running := ?_, distinct := ?_, own := ?_ }
      · intro j hj
        refine ⟨(h.listed j hj).1, (hkept j ?_).trans (h.listed j hj).2⟩
        rintro rfl
        exact hnot hj
      · intro hfork
        contradiction
      · intro j hj
        refine (hkept j ?_).trans (h.fresh j hj)
        rintro rfl
        rw [show (w.sessions j).server.service = .absent from hj] at hback
        contradiction
      · intro j hj
        obtain hin | ⟨hj', -⟩ | ⟨pid', hpid'⟩ := h.waiting j hj
        · exact .inl hin
        · obtain rfl : i = j := Option.some.inj (hcurrent.symm.trans hj')
          exact .inr (.inr ⟨pid, Function.update_self ..⟩)
        · exact .inr (.inr ⟨pid', hsome j pid' hpid'⟩)
      · intro j hj
        obtain ⟨pid', hpid'⟩ := h.served j hj
        exact ⟨pid', hsome j pid' hpid'⟩
      · intro j pid' hj
        show pid' ∈ Children.running _
        rw [hrunning]
        obtain ⟨-, rfl⟩ | ⟨-, hj⟩ := hold j pid' hj
        · exact Finset.mem_insert_self ..
        · exact Finset.mem_insert_of_mem (h.running j pid' hj)
      · intro j j' pid' hj hj'
        obtain ⟨hji, hpid⟩ | ⟨-, hchild⟩ := hold j pid' hj
        · obtain ⟨hji', -⟩ | ⟨-, hchild'⟩ := hold j' pid' hj'
          · exact hji.trans hji'.symm
          · exact absurd (h.running j' pid' hchild') (hpid ▸ hnew)
        · obtain ⟨-, hpid⟩ | ⟨-, hchild'⟩ := hold j' pid' hj'
          · exact absurd (h.running j pid' hchild) (hpid ▸ hnew)
          · exact h.distinct j j' pid' hchild hchild'
      · intro pid' hpid'
        rw [show Children.running _ = _ from hrunning] at hpid'
        obtain rfl | hin := Finset.mem_insert.mp hpid'
        · exact ⟨i, Function.update_self ..⟩
        · obtain ⟨j, hj⟩ := h.own pid' hin
          exact ⟨j, hsome j pid' hj⟩
  | forkFail => contradiction
  | close hh hpc =>
      cases hmoved
      refine { h with remembered := hremembered, accepted := ?_, waiting := ?_ }
      · intro hfork
        contradiction
      · intro j hj
        obtain hin | ⟨-, hfork⟩ | hchild := h.waiting j hj
        · exact .inl hin
        · simp [hpc] at hfork
        · exact .inr (.inr hchild)
  | exit => contradiction
  | deliver hh hk =>
      cases hmoved
      obtain ⟨hrunning, -⟩ := Children.deliver_sets hk
      refine { h with remembered := hremembered, running := ?_, own := ?_ }
      · exact fun j pid hj => hrunning ▸ h.running j pid hj
      · exact fun pid hpid => h.own pid (hrunning ▸ hpid)
  | waitpid hh hk =>
      cases hmoved
      obtain ⟨-, hrunning, -⟩ := Children.reap_sets hk
      refine { h with remembered := hremembered, running := ?_, own := ?_ }
      · exact fun j pid hj => hrunning ▸ h.running j pid hj
      · exact fun pid hpid => h.own pid (hrunning ▸ hpid)
  | waitpidNone =>
      cases hmoved
      exact { h with remembered := hremembered }
  | sigreturn =>
      cases hmoved
      exact { h with remembered := hremembered }

/-! ## what is left to do -/

/-- The steps that a session and, as long as it is not in the backlog, `main` have before them. -/
def debt (s : Session) : Nat := s.work + if s.server.service = .absent then 8 else 0

/-- A bound on the steps still to come, interrupted calls apart. -/
def work (w : Forking n) : Nat :=
  Threads.count debt w.sessions + 8 * w.backlog.length + w.parent.work

theorem work_start (rp : RioT) (inputs : Fin n → Input) :
    (start rp inputs).work = ∑ i, (5 * (inputs i).stdin.length + 14) := rfl

/-- A session and the backlog. -/
theorem debt_step (h : Inv inputs w) (hs : (w.sessions i).step cap l = some s) :
    if l.interrupted then
      debt s + 8 * (w.queue i l).length = debt (w.sessions i) + 8 * w.backlog.length
    else debt s + 8 * (w.queue i l).length < debt (w.sessions i) + 8 * w.backlog.length := by
  obtain ⟨done, todo, hprinted⟩ := h.printed i
  obtain ⟨-, hwork⟩ := hprinted.step hs
  have hservice := service_step hs
  -- every call but `connect` leaves the backlog as it is
  have hsame : (s.server.service = .absent ↔ (w.sessions i).server.service = .absent) →
      w.queue i l = w.backlog →
      if l.interrupted then
        debt s + 8 * (w.queue i l).length = debt (w.sessions i) + 8 * w.backlog.length
      else debt s + 8 * (w.queue i l).length < debt (w.sessions i) + 8 * w.backlog.length := by
    intro hiff hqueue
    simp only [debt, hiff, hqueue]
    split
    · next hidle =>
        rw [if_pos hidle] at hwork
        omega
    · next hbusy =>
        rw [if_neg hbusy] at hwork
        omega
  cases l with
  | connect clientfd =>
      have habsent := hprinted.stage.absent_of_connect (Option.ite_none_right_eq_some.mp hs).1
      simp only [Label.interrupted, Bool.false_eq_true, if_false] at hwork ⊢
      simp only [debt, habsent, show s.server.service = .backlog from hservice, queue,
        List.length_append, List.length_singleton, if_true, reduceCtorEq, if_false]
      omega
  | accept rp connfd => exact hsame (by simp [hservice]) rfl
  | close => exact hsame (by simp [hservice]) rfl
  | serverRead r => exact hsame (by simp [hservice]) rfl
  | serverWrite r => exact hsame (by simp [hservice]) rfl
  | fgets => exact hsame (by rw [show s.server = _ from hservice]) rfl
  | clientWrite r => exact hsame (by rw [show s.server = _ from hservice]) rfl
  | clientRead r => exact hsame (by rw [show s.server = _ from hservice]) rfl

/-- `main` and `sigchld_handler`. -/
theorem work_moved {p : EchoServerp.Server} {e : Event}
    (hs : EchoServerp.step w.parent e = some p) (hmoved : w.moved p e = some w') :
    w'.work < w.work := by
  have hwork := EchoServerp.work_step (EchoServerp.step_cases hs)
  cases e with
  | accept connfd =>
      simp only [moved] at hmoved
      split at hmoved
      · next i rest hbacklog =>
          cases hmoved
          simp only [work, hbacklog, List.length_cons]
          omega
      · contradiction
  | fork pid =>
      cases pid with
      | none => contradiction
      | some pid =>
          obtain ⟨i, -, rfl⟩ := Option.map_eq_some_iff.mp hmoved
          simp only [work]
          omega
  | exit pid => contradiction
  | close | deliver | waitpid | sigreturn =>
      cases hmoved
      simp only [work]
      omega

theorem Inv.step {m : Move n} (h : Inv inputs w) (hs : w.step cap m = some w') :
    Inv inputs w' ∧ if m.interrupted then w'.work = w.work else w'.work < w.work := by
  cases m with
  | session i l =>
      obtain ⟨hallow, hs⟩ := Option.ite_none_right_eq_some.mp hs
      obtain ⟨s, hs', rfl⟩ := Option.map_eq_some_iff.mp hs
      refine ⟨h.session hallow hs', ?_⟩
      have hdebt := debt_step h hs'
      have hsum := Threads.count_update debt w.sessions i s
      by_cases hidle : l.interrupted = true
      · rw [if_pos hidle] at hdebt
        rw [if_pos (show (Move.session i l).interrupted = true from hidle)]
        simp only [work]
        omega
      · rw [if_neg hidle] at hdebt
        rw [if_neg (show ¬ (Move.session i l).interrupted = true from hidle)]
        simp only [work]
        omega
  | exit i =>
      simp only [Forking.step] at hs
      split at hs
      · next pid hchild =>
          obtain ⟨hclosed, hs⟩ := Option.ite_none_right_eq_some.mp hs
          obtain ⟨p, hp, rfl⟩ := Option.map_eq_some_iff.mp hs
          refine ⟨h.exit hchild hclosed hp, ?_⟩
          have hwork : p.work < w.parent.work :=
            EchoServerp.work_step (EchoServerp.step_cases hp)
          simp only [Move.interrupted, Bool.false_eq_true, if_false, work]
          omega
      · contradiction
  | parent e =>
      obtain ⟨p, hp, hmoved⟩ := Option.bind_eq_some_iff.mp hs
      exact ⟨h.parent hp hmoved, work_moved hp hmoved⟩

theorem inv_of_run {rp : RioT} {ms : List (Move n)}
    (h : Run (step cap) any (start rp inputs) ms w) : Inv inputs w :=
  Run.inv (I := Inv inputs) (inv_start rp inputs) (fun _ _ _ h _ hs => (h.step hs).1) h

/-! ## when nothing more happens -/

/-- Only interrupted calls are possible. -/
def Quiescent (cap : Nat) (w : Forking n) : Prop :=
  ∀ m : Move n, m.interrupted = false → w.step cap m = none

section Quiescent

variable (hq : Quiescent cap w)
include hq

/-- A call of `main` or `sigchld_handler` that is possible is made. -/
theorem Quiescent.parent_none {e : Event} {p : EchoServerp.Server}
    (hp : EchoServerp.step w.parent e = some p) : w.moved p e = none := by
  have hnone := hq (.parent e) rfl
  rwa [step, hp, Option.bind_some] at hnone

/-- `sigchld_handler` has returned, every child that has terminated is reaped, and `main` waits for
a connection. -/
theorem Quiescent.parent_idle (h : Inv inputs w) :
    w.parent.handler = none ∧ w.parent.children.zombies = ∅ ∧ w.parent.pc = .accept := by
  have hhandler : w.parent.handler = none := by
    cases hh : w.parent.handler with
    | none => rfl
    | some pc =>
        cases pc with
        | waitpid =>
            by_cases hempty : w.parent.children.zombies = ∅
            · have hp : EchoServerp.step w.parent (.waitpid none) =
                  some { w.parent with handler := some .ret } := by
                simp only [EchoServerp.step, hh, if_pos hempty, if_true]
              exact absurd (hq.parent_none hp) (by simp [moved])
            · obtain ⟨pid, hpid⟩ := Finset.nonempty_iff_ne_empty.mpr hempty
              obtain ⟨k, hk⟩ := Children.exists_reap hpid
              have hp : EchoServerp.step w.parent (.waitpid (some pid)) =
                  some { w.parent with children := k } := by
                simp only [EchoServerp.step, hh, if_true, hk, Option.map_some]
              exact absurd (hq.parent_none hp) (by simp [moved])
        | ret =>
            have hp : EchoServerp.step w.parent .sigreturn =
                some { w.parent with handler := none } := by
              simp only [EchoServerp.step, hh, if_true]
            exact absurd (hq.parent_none hp) (by simp [moved])
  refine ⟨hhandler, ?_, ?_⟩
  · by_contra hne
    obtain hpending | hwait := h.remembered hne
    · obtain ⟨k, hk⟩ := Children.exists_deliver hpending
      have hp : EchoServerp.step w.parent .deliver =
          some { w.parent with handler := some .waitpid, children := k } := by
        simp only [EchoServerp.step, hhandler, if_true, hk, Option.map_some]
      exact absurd (hq.parent_none hp) (by simp [moved])
    · simp [hhandler] at hwait
  · cases hpc : w.parent.pc with
    | accept => rfl
    | fork =>
        obtain ⟨i, hcurrent, -⟩ := h.accepted hpc
        obtain ⟨pid, k, hk⟩ := w.parent.children.exists_fork
        have hp : EchoServerp.step w.parent (.fork (some pid)) =
            some { w.parent with pc := .close, children := k } := by
          simp only [EchoServerp.step, hhandler, hpc, and_self, if_true, hk, Option.map_some]
        exact absurd (hq.parent_none hp) (by simp [moved, hcurrent])
    | close =>
        have hp : EchoServerp.step w.parent .close = some { w.parent with pc := .accept } := by
          simp only [EchoServerp.step, hhandler, hpc, and_self, if_true]
        exact absurd (hq.parent_none hp) (by simp [moved])

/-- A call of a client, or of a child that runs, that is possible is made. -/
theorem Quiescent.session_none (hl : l.interrupted = false)
    (hallow : l.byServer = true → w.runs i = true) : (w.sessions i).step cap l = none := by
  have hnone := hq (.session i l) hl
  rw [step, if_pos hallow, Option.map_eq_none_iff] at hnone
  exact hnone

/-- What becomes of a client. -/
theorem Quiescent.client (hcap : 0 < cap) (h : Inv inputs w) (i : Fin n) :
    (Complete (inputs i) (w.sessions i) ∧ w.child i = none) ∨
      ((inputs i).tail ≠ [] ∧ (w.sessions i).client.stdout = (inputs i).lines.flatten ∧
        ∃ pid, w.child i = some pid) := by
  obtain ⟨hhandler, -, hpc⟩ := hq.parent_idle h
  obtain ⟨done, todo, hprinted⟩ := h.printed i
  have hruns : ∀ pid, w.child i = some pid → w.runs i = true := fun pid hpid => by
    simp only [runs, hpid, h.running i pid hpid, decide_true]
  cases hservice : (w.sessions i).server.service with
  | absent =>
      have hconnect : (w.sessions i).client.pc = .connect :=
        hprinted.stage.connecting_of_absent hservice
      have hnone := hq.session_none (i := i) (l := .connect 3) rfl (by simp [Label.byServer])
      simp [Session.step, hconnect] at hnone
  | backlog =>
      have hback := Server.pc_of_backlog hservice
      obtain hin | ⟨-, hfork⟩ | ⟨pid, hpid⟩ := h.waiting i hservice
      · obtain ⟨j, rest, hbacklog⟩ := List.exists_cons_of_ne_nil (List.ne_nil_of_mem hin)
        have hp : EchoServerp.step w.parent (.accept 4) =
            some { w.parent with pc := .fork, connfd := 4 } := by
          simp only [EchoServerp.step, hhandler, hpc, and_self, if_true]
        exact absurd (hq.parent_none hp) (by simp [moved, hbacklog])
      · simp [hpc] at hfork
      · have hnone := hq.session_none (i := i) (l := .accept (w.sessions i).server.rio 4) rfl
          fun _ => hruns pid hpid
        simp [Session.step, hback] at hnone
  | active =>
      obtain ⟨pid, hpid⟩ := h.served i hservice
      have hne : (w.sessions i).server.pc ≠ .backlog := fun hback => by
        simp [Server.service, hback] at hservice
      obtain hfinished | ⟨rfl, htail⟩ | ⟨l, hidle, -, hs⟩ := hprinted.stage.progress hcap hne
      · simp [Server.service, hfinished.2] at hservice
      · refine .inr ⟨htail, ?_, pid, hpid⟩
        rw [hprinted.stdout, hprinted.lines, List.append_nil]
      · rw [hq.session_none hidle fun _ => hruns pid hpid] at hs
        contradiction
  | closed =>
      refine .inl ⟨hprinted.of_closed hservice, ?_⟩
      cases hchild : w.child i with
      | none => rfl
      | some pid =>
          obtain ⟨k, hk⟩ := Children.exists_exit (h.running i pid hchild)
          have hclosed := (hprinted.of_closed hservice).finished.2
          have hnone := hq (.exit i) rfl
          simp [step, hchild, hclosed, EchoServerp.step, hk] at hnone

end Quiescent

/-- **The outcome of a run of `echo_serverp.cc` with any number of clients.**  At any time each
client has printed the first lines of its input.  The number of steps, interrupted calls apart, is
bounded; and when no more are possible, every client whose input consists of whole lines has got
back all of it, whatever the others do, and every other one the lines before the end that is
missing.  No child is a zombie then, and those that run are the ones that serve such a client. -/
theorem forking_outcome (hcap : 0 < cap) (rp : RioT) (inputs : Fin n → Input) (ms : List (Move n))
    (w : Forking n) (hrun : Run (step cap) any (start rp inputs) ms w) :
    (∀ i, ∃ k, (w.sessions i).client.stdout = ((inputs i).lines.take k).flatten) ∧
      ms.countP (fun m => !m.interrupted) ≤ ∑ i, (5 * (inputs i).stdin.length + 14) ∧
      (Quiescent cap w →
        (∀ i, (inputs i).tail = [] → Complete (inputs i) (w.sessions i)) ∧
        (∀ i, (inputs i).tail ≠ [] →
          (w.sessions i).client.stdout = (inputs i).lines.flatten) ∧
        w.parent.children.zombies = ∅ ∧
        ∀ pid, pid ∈ w.parent.children.running ↔
          ∃ i, (inputs i).tail ≠ [] ∧ w.child i = some pid) := by
  have hinv := inv_of_run hrun
  refine ⟨fun i => ?_, ?_, fun hq => ⟨fun i htail => ?_, fun i htail => ?_, ?_, fun pid => ?_⟩⟩
  · obtain ⟨done, todo, hprinted⟩ := hinv.printed i
    exact hprinted.stdout_eq
  · have hbound := hrun.countP_add_le (I := Inv inputs) work Move.interrupted
      (inv_start rp inputs) (fun _ _ _ h _ hs => h.step hs)
    rw [work_start] at hbound
    omega
  · obtain ⟨hcomplete, -⟩ | ⟨hne, -⟩ := hq.client hcap hinv i
    · exact hcomplete
    · exact absurd htail hne
  · obtain ⟨hcomplete, -⟩ | ⟨-, hout, -⟩ := hq.client hcap hinv i
    · exact absurd hcomplete.tail htail
    · exact hout
  · exact (hq.parent_idle hinv).2.1
  · constructor
    · intro hpid
      obtain ⟨i, hi⟩ := hinv.own pid hpid
      obtain ⟨-, hnone⟩ | ⟨hne, -⟩ := hq.client hcap hinv i
      · rw [hi] at hnone
        contradiction
      · exact ⟨i, hne, hi⟩
    · rintro ⟨i, -, hi⟩
      exact hinv.running i pid hi

/-- The first client hangs.  The second one comes later and is served all the same, while `main` is
back at `accept`; its child is reaped. -/
def hangingRun : List (Move 2) :=
  [.session hanging (.connect 3), .parent (.accept 4), .parent (.fork (some 10)), .parent .close,
    .session hanging (.accept noRio 4), .session hanging .fgets,
    .session hanging (.clientWrite (.ret 1)), .session hanging (.serverRead (.ret [98])),
    .session closing (.connect 3), .session closing .fgets,
    .session closing (.clientWrite (.ret 2)), .parent (.accept 4), .parent (.fork (some 11)),
    .session closing (.accept noRio 4), .session closing (.serverRead (.ret [97, newline])),
    .session closing (.serverWrite (.ret 2)), .session closing (.clientRead (.ret [97, newline])),
    .session closing .fgets, .session closing (.serverRead (.ret [])), .session closing .close,
    .exit closing,
    .parent .deliver, .parent (.waitpid (some 11)), .parent (.waitpid none), .parent .sigreturn,
    .parent .close]

/-- A `main` that waits for a connection does nothing while there is none. -/
theorem parent_waits {e : Event} (hhandler : w.parent.handler = none) (hpc : w.parent.pc = .accept)
    (hpending : w.parent.children.pending = false) (hbacklog : w.backlog = []) :
    w.step cap (.parent e) = none := by
  have hdeliver : w.parent.children.deliver = none := by simp [Children.deliver, hpending]
  cases e with
  | exit pid => simp [step, moved]
  | accept | fork | close | deliver | waitpid | sigreturn =>
      simp [step, EchoServerp.step, moved, hhandler, hpc, hdeliver, hbacklog]

theorem forking_outcome_hanging : ∃ w : Forking 2,
    Run (step 2) any (start noRio inputsOfTwo) hangingRun w ∧ Quiescent 2 w ∧
      Complete lineInput (w.sessions closing) ∧ (w.sessions hanging).client.stdout = [] ∧
      w.parent.children.zombies = ∅ ∧ w.parent.children.running = {10} := by
  have hexec : (exec (step 2) (fun _ _ => true) (start noRio inputsOfTwo)
      hangingRun).map (fun w =>
        (w.parent, w.backlog, w.child closing, (w.sessions closing).view,
          (w.sessions hanging).view)) =
      some (⟨.accept, 4, none, ⟨{10}, ∅, false, by simp, by simp⟩⟩, [], none,
        ⟨.exited, .closed, ⟨[], true⟩, ⟨[], true⟩⟩,
        ⟨.readlineb [], .readlineb [.ret [98]], .opened, .opened⟩) := by
    decide +kernel
  obtain ⟨w, hrun, hobs⟩ := exists_run_of_exec _ _ hexec
  simp only [Prod.mk.injEq] at hobs
  obtain ⟨hparent, hbacklog, hchild, hview₀, hview⟩ := hobs
  have hfinished : (w.sessions closing).Finished :=
    ⟨congrArg View.client hview₀, congrArg View.server hview₀⟩
  have hstuck : (w.sessions hanging).server.pc ≠ .closed := by
    rw [show (w.sessions hanging).server.pc = _ from congrArg View.server hview]
    simp
  have hq : Quiescent 2 w := by
    intro m hm
    cases m with
    | session i l =>
        have hnone : (w.sessions i).step 2 l = none := by
          obtain rfl | rfl := closing_or_hanging i
          · exact finished_step hfinished
          · exact stuck_step (by rw [hview]) hm
        simp [step, hnone]
    | exit i =>
        obtain rfl | rfl := closing_or_hanging i
        · simp [step, hchild]
        · simp only [step, if_neg hstuck]
          split <;> rfl
    | parent e => exact parent_waits (by rw [hparent]) (by rw [hparent]) (by rw [hparent]) hbacklog
  have houtcome := (forking_outcome (by decide) noRio _ _ w hrun.toAny).2.2 hq
  exact ⟨w, hrun.toAny, hq, houtcome.1 closing rfl, houtcome.2.1 hanging (by decide),
    houtcome.2.2.1, by rw [hparent]⟩

end Forking
end SysDemos.EchoSession
