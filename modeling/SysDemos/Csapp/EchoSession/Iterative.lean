import SysDemos.Csapp.EchoSession.Progress
import SysDemos.Lib.Measure
import SysDemos.Lib.Threads

/-!
# SysDemos.Csapp.EchoSession.Iterative

`main` of `csapp/network_program/server.cc` and any number of clients.

The server accepts a connection, runs `echo` on it and closes it before it accepts
the next one; connections that have not been accepted wait in the order in which
they have been made.  Their clients may write meanwhile.

* `iterative_outcome` — the system stops after a bounded number of steps, and it
  stops with every client served or with one that hangs;
* `hanging_client_kept` — a client that hangs is served for ever, and no other.
-/

namespace SysDemos.EchoSession

open Posix Rio Lts

/-- The server with its clients. -/
structure Iterative (n : Nat) where
  sessions : Fin n → Session
  /-- the connections that have not been accepted -/
  backlog : List (Fin n)
  /-- the connection that `main` has accepted and not closed -/
  serving : Option (Fin n)

namespace Iterative

variable {n cap : Nat}

/-- Before the first client has connected. -/
def start (rp : RioT) (inputs : Fin n → Input) : Iterative n :=
  { sessions := fun i => .start rp (inputs i).stdin, backlog := [], serving := none }

/-- A session moves. -/
def set (w : Iterative n) (i : Fin n) (s : Session) : Iterative n :=
  { w with sessions := Function.update w.sessions i s }

/-- What the server may do: it accepts the first connection of the backlog when it serves none, and
reads, writes and closes the one it serves. -/
def allows (w : Iterative n) (i : Fin n) : Label → Bool
  | .accept _ _ => w.serving = none ∧ w.backlog.head? = some i
  | .serverRead _ => w.serving = some i
  | .serverWrite _ => w.serving = some i
  | .close => w.serving = some i
  | _ => true

/-- `main` after a call for connection `i`. -/
def after (w : Iterative n) (i : Fin n) : Label → Iterative n
  | .connect _ => { w with backlog := w.backlog ++ [i] }
  | .accept _ _ => { w with backlog := w.backlog.tail, serving := some i }
  | .close => { w with serving := none }
  | _ => w

/-- A step of client `i`, or of the server with the connection of client `i`. -/
def step (cap : Nat) (w : Iterative n) (l : Fin n × Label) : Option (Iterative n) :=
  if w.allows l.1 l.2 then
    ((w.sessions l.1).step cap l.2).map fun s => (w.after l.1 l.2).set l.1 s
  else none

/-! ## the server's view of its connections -/

/-- The backlog and the connection that is served are as the sessions have it, and each session has
printed lines of its input. -/
structure Inv (inputs : Fin n → Input) (w : Iterative n) : Prop where
  nodup : w.backlog.Nodup
  backlog : ∀ i, i ∈ w.backlog ↔ (w.sessions i).server.service = .backlog
  serving : ∀ i, w.serving = some i ↔ (w.sessions i).server.service = .active
  printed : ∀ i, ∃ done todo, Printed (inputs i) (w.sessions i) done todo

variable {inputs : Fin n → Input} {w w' : Iterative n} {i j : Fin n} {l : Label} {s : Session}

theorem inv_start (rp : RioT) (inputs : Fin n → Input) : Inv inputs (start rp inputs) :=
  ⟨List.nodup_nil, fun i => by simp [start, Session.start, Server.service],
    fun i => by simp [start, Session.start, Server.service],
    fun i => ⟨[], _, printed_start rp (inputs i)⟩⟩

theorem sessions_set_after (w : Iterative n) (i : Fin n) (l : Label) (s : Session) :
    ((w.after i l).set i s).sessions = Function.update w.sessions i s := by
  cases l <;> rfl

theorem step_eq {l : Fin n × Label} (hs : w.step cap l = some w') :
    w.allows l.1 l.2 = true ∧ ∃ s, (w.sessions l.1).step cap l.2 = some s ∧
      w' = (w.after l.1 l.2).set l.1 s := by
  obtain ⟨hallow, hs⟩ := Option.ite_none_right_eq_some.mp hs
  obtain ⟨s, hs', rfl⟩ := Option.map_eq_some_iff.mp hs
  exact ⟨hallow, s, hs', rfl⟩

/-- A call that does not move the connection on in the server. -/
theorem view_same (h : Inv inputs w) (hsame : s.server.service = (w.sessions i).server.service) :
    (∀ j, j ∈ w.backlog ↔ (Function.update w.sessions i s j).server.service = .backlog) ∧
      ∀ j, w.serving = some j ↔ (Function.update w.sessions i s j).server.service = .active :=
  ⟨forall_update w.sessions i s (P := fun j s => j ∈ w.backlog ↔ s.server.service = .backlog)
      (by rw [hsame]; exact h.backlog i) fun j _ => h.backlog j,
    forall_update w.sessions i s (P := fun j s => w.serving = some j ↔ s.server.service = .active)
      (by rw [hsame]; exact h.serving i) fun j _ => h.serving j⟩

/-- The server's variables are right again after a step. -/
theorem view_step (h : Inv inputs w) (hallow : w.allows i l = true)
    (hs : (w.sessions i).step cap l = some s) :
    (w.after i l).backlog.Nodup ∧
      (∀ j, j ∈ (w.after i l).backlog ↔
        (Function.update w.sessions i s j).server.service = .backlog) ∧
      ∀ j, (w.after i l).serving = some j ↔
        (Function.update w.sessions i s j).server.service = .active := by
  have hservice := service_step hs
  cases l with
  | connect clientfd =>
      obtain ⟨done, todo, hprinted⟩ := h.printed i
      have habsent : (w.sessions i).server.service = .absent :=
        hprinted.stage.absent_of_connect (Option.ite_none_right_eq_some.mp hs).1
      have hnew : i ∉ w.backlog := by simp [h.backlog, habsent]
      refine ⟨List.nodup_append.mpr ⟨h.nodup, by simp, ?_⟩, ?_, ?_⟩
      · rintro a ha b hb rfl
        rw [List.mem_singleton.mp hb] at ha
        exact hnew ha
      · refine forall_update w.sessions i s
          (P := fun j s => j ∈ w.backlog ++ [i] ↔ s.server.service = .backlog)
          (by simp [show s.server.service = .backlog from hservice]) fun j hj => ?_
        rw [← h.backlog j]
        simp [hj]
      · refine forall_update w.sessions i s
          (P := fun j s => w.serving = some j ↔ s.server.service = .active)
          ?_ fun j _ => h.serving j
        rw [h.serving i, habsent, show s.server.service = .backlog from hservice]
        simp
  | accept rp connfd =>
      obtain ⟨hnone, hhead⟩ := of_decide_eq_true hallow
      obtain ⟨rest, hrest⟩ := List.head?_eq_some_iff.mp hhead
      have hnodup := hrest ▸ h.nodup
      simp only [after, hrest, List.tail_cons]
      refine ⟨(List.nodup_cons.mp hnodup).2, ?_, ?_⟩
      · refine forall_update w.sessions i s (P := fun j s => j ∈ rest ↔ s.server.service = .backlog)
          (by simp [hservice.2, (List.nodup_cons.mp hnodup).1]) fun j hj => ?_
        rw [← h.backlog j, hrest]
        simp [hj]
      · refine forall_update w.sessions i s
          (P := fun j s => some i = some j ↔ s.server.service = .active)
          (by simp [hservice.2]) fun j hj => ?_
        rw [← h.serving j, hnone]
        simpa using hj.symm
  | close =>
      have hserving : w.serving = some i := of_decide_eq_true hallow
      refine ⟨h.nodup, ?_, ?_⟩
      · refine forall_update w.sessions i s
          (P := fun j s => j ∈ w.backlog ↔ s.server.service = .backlog)
          ?_ fun j _ => h.backlog j
        rw [h.backlog i, hservice.1, hservice.2]
        simp
      · refine forall_update w.sessions i s
          (P := fun j s => none = some j ↔ s.server.service = .active)
          (by simp [hservice.2]) fun j hj => ?_
        rw [← h.serving j, hserving]
        simpa using hj.symm
  | serverRead r => exact ⟨h.nodup, view_same h (hservice.2.trans hservice.1.symm)⟩
  | serverWrite r => exact ⟨h.nodup, view_same h (hservice.2.trans hservice.1.symm)⟩
  | fgets => exact ⟨h.nodup, view_same h (congrArg Server.service hservice)⟩
  | clientWrite r => exact ⟨h.nodup, view_same h (congrArg Server.service hservice)⟩
  | clientRead r => exact ⟨h.nodup, view_same h (congrArg Server.service hservice)⟩

/-- The steps that all sessions together have before them. -/
def work (w : Iterative n) : Nat := Threads.count Session.work w.sessions

theorem work_start (rp : RioT) (inputs : Fin n → Input) :
    (start rp inputs).work = ∑ i, (5 * (inputs i).stdin.length + 6) := rfl

theorem Inv.step {l : Fin n × Label} (h : Inv inputs w) (hs : w.step cap l = some w') :
    Inv inputs w' ∧ if l.2.interrupted then w'.work = w.work else w'.work < w.work := by
  obtain ⟨i, l⟩ := l
  obtain ⟨hallow, s, hs', rfl⟩ := step_eq hs
  obtain ⟨done, todo, hprinted⟩ := h.printed i
  obtain ⟨hnext, hwork⟩ := hprinted.step hs'
  obtain ⟨hnodup, hbacklog, hserving⟩ := view_step h hallow hs'
  refine ⟨⟨hnodup, ?_, ?_, ?_⟩, ?_⟩
  · rw [sessions_set_after]
    exact hbacklog
  · rw [sessions_set_after]
    exact hserving
  · rw [sessions_set_after]
    exact forall_update w.sessions i s
      (P := fun j s => ∃ done todo, Printed (inputs j) s done todo) hnext
      fun j _ => h.printed j
  · have hsum := Threads.count_update Session.work w.sessions i s
    simp only [work, sessions_set_after]
    split
    · next hidle =>
        rw [if_pos hidle] at hwork
        omega
    · next hbusy =>
        rw [if_neg hbusy] at hwork
        omega

theorem inv_of_run {rp : RioT} {ls : List (Fin n × Label)}
    (h : Run (step cap) any (start rp inputs) ls w) : Inv inputs w :=
  Run.inv (I := Inv inputs) (inv_start rp inputs) (fun _ _ _ h _ hs => (h.step hs).1) h

/-! ## when nothing more happens -/

/-- Only interrupted calls are possible. -/
def Quiescent (cap : Nat) (w : Iterative n) : Prop :=
  ∀ l : Fin n × Label, l.2.interrupted = false → w.step cap l = none

/-- A call that a session can make and that the server allows. -/
theorem step_ne_none (hallow : w.allows i l = true)
    (hs : ((w.sessions i).step cap l).isSome) : w.step cap (i, l) ≠ none := by
  obtain ⟨s, hs⟩ := Option.isSome_iff_exists.mp hs
  rw [step, if_pos hallow, hs]
  simp

/-- Every client has connected. -/
theorem Quiescent.connected (hq : Quiescent cap w) (h : Inv inputs w) (i : Fin n) :
    (w.sessions i).server.service ≠ .absent := by
  intro habsent
  obtain ⟨done, todo, hprinted⟩ := h.printed i
  have hconnect := hprinted.stage.connecting_of_absent habsent
  exact step_ne_none (i := i) (l := .connect 3) rfl (by simp [Session.step, hconnect]) (hq _ rfl)

/-- What becomes of a client that is not served at the end. -/
theorem Quiescent.others (hq : Quiescent cap w) (h : Inv inputs w) (hi : w.serving ≠ some i) :
    Complete (inputs i) (w.sessions i) ∨
      (i ∈ w.backlog ∧ (w.sessions i).client.stdout = []) := by
  obtain ⟨done, todo, hprinted⟩ := h.printed i
  cases hservice : (w.sessions i).server.service with
  | absent => exact absurd hservice (hq.connected h i)
  | active => exact absurd ((h.serving i).mpr hservice) hi
  | closed => exact .inl (hprinted.of_closed hservice)
  | backlog =>
      refine .inr ⟨(h.backlog i).mpr hservice, ?_⟩
      rw [hprinted.stdout, hprinted.unserved (.inr hservice)]
      rfl

/-- A client that is served at the end hangs. -/
theorem Quiescent.served (hq : Quiescent cap w) (hcap : 0 < cap) (h : Inv inputs w)
    (hj : w.serving = some j) :
    (inputs j).tail ≠ [] ∧ (w.sessions j).client.stdout = (inputs j).lines.flatten := by
  obtain ⟨done, todo, hprinted⟩ := h.printed j
  have hactive := (h.serving j).mp hj
  have hpc : (w.sessions j).server.pc ≠ .backlog := fun hpc => by
    simp [Server.service, hpc] at hactive
  obtain hfinished | ⟨rfl, htail⟩ | ⟨l, hidle, haccept, hs⟩ := hprinted.stage.progress hcap hpc
  · simp [Server.service, hfinished.2] at hactive
  · exact ⟨htail, by rw [hprinted.stdout, hprinted.lines, List.append_nil]⟩
  · refine absurd (hq (j, l) hidle) (step_ne_none ?_ hs)
    cases l with
    | accept rp connfd => exact absurd rfl (haccept rp connfd)
    | serverRead r => simp [allows, hj]
    | serverWrite r => simp [allows, hj]
    | close => simp [allows, hj]
    | connect | fgets | clientWrite | clientRead => rfl

/-- When the server waits for a connection there is none. -/
theorem Quiescent.backlog_nil (hq : Quiescent cap w) (h : Inv inputs w) (hnone : w.serving = none) :
    w.backlog = [] := by
  cases hbacklog : w.backlog with
  | nil => rfl
  | cons i rest =>
      have hservice := (h.backlog i).mp (by rw [hbacklog]; exact List.mem_cons_self)
      have hpc := Server.pc_of_backlog hservice
      refine absurd (hq (i, .accept (w.sessions i).server.rio 4) rfl) (step_ne_none ?_ ?_)
      · simp [allows, hnone, hbacklog]
      · simp [Session.step, hpc]

/-- **The outcome of a run of `server.cc` with any number of clients.**  At any time each client has
printed the first lines of its input.  The number of system calls, interrupted ones apart, is
bounded; and when no more are possible, either every client has got back all of its input, or the
server is with a client whose input does not end as it should and which has got back the lines
before that, the clients served earlier have got back all of their input, and the others nothing. -/
theorem iterative_outcome (hcap : 0 < cap) (rp : RioT) (inputs : Fin n → Input)
    (ls : List (Fin n × Label)) (w : Iterative n)
    (hrun : Run (step cap) any (start rp inputs) ls w) :
    (∀ i, ∃ k, (w.sessions i).client.stdout = ((inputs i).lines.take k).flatten) ∧
      ls.countP (fun l => !l.2.interrupted) ≤ ∑ i, (5 * (inputs i).stdin.length + 6) ∧
      (Quiescent cap w →
        (∀ i, Complete (inputs i) (w.sessions i)) ∨
        ∃ j, w.serving = some j ∧ (inputs j).tail ≠ [] ∧
          (w.sessions j).client.stdout = (inputs j).lines.flatten ∧
          ∀ i, i ≠ j → Complete (inputs i) (w.sessions i) ∨
            (i ∈ w.backlog ∧ (w.sessions i).client.stdout = [])) := by
  have hinv := inv_of_run hrun
  refine ⟨fun i => ?_, ?_, fun hq => ?_⟩
  · obtain ⟨done, todo, hprinted⟩ := hinv.printed i
    exact hprinted.stdout_eq
  · have hbound := hrun.countP_add_le (I := Inv inputs) work (fun l => l.2.interrupted)
      (inv_start rp inputs) (fun _ _ _ h _ hs => h.step hs)
    rw [work_start] at hbound
    omega
  · cases hserving : w.serving with
    | none =>
        refine .inl fun i => (hq.others hinv (by simp [hserving])).resolve_right ?_
        simp [hq.backlog_nil hinv hserving]
    | some j =>
        obtain ⟨htail, hout⟩ := hq.served hcap hinv hserving
        refine .inr ⟨j, rfl, htail, hout, fun i hi => hq.others hinv ?_⟩
        simpa [hserving] using hi.symm

/-- The first client is served.  The second one sends its byte, and then both sides wait. -/
def hangingRun : List (Fin 2 × Label) :=
  [(closing, .connect 3), (hanging, .connect 3), (closing, .fgets),
    (closing, .clientWrite (.ret 1)), (closing, .accept noRio 4),
    (closing, .serverRead (.ret [97])),
    (closing, .clientWrite (.fail .EINTR)), (closing, .clientWrite (.ret 1)),
    (closing, .serverRead (.ret [newline])), (closing, .serverWrite (.ret 1)),
    (closing, .clientRead (.ret [97])), (closing, .serverWrite (.ret 1)),
    (closing, .clientRead (.ret [newline])), (closing, .fgets), (closing, .serverRead (.ret [])),
    (closing, .close), (hanging, .accept noRio 4), (hanging, .fgets),
    (hanging, .clientWrite (.ret 1)), (hanging, .serverRead (.ret [98]))]

/-- One client is served, and the next one leaves the server waiting for the end of a line. -/
theorem iterative_outcome_hanging : ∃ w : Iterative 2,
    Run (step 1) any (start noRio inputsOfTwo) hangingRun w ∧ Quiescent 1 w ∧
      w.serving = some hanging ∧ (w.sessions closing).client.stdout = [97, newline] ∧
      ∃ k, (w.sessions hanging).client.stdout = (openInput.lines.take k).flatten := by
  have hexec : (exec (step 1) (fun _ _ => true) (start noRio inputsOfTwo)
      hangingRun).map (fun w => (w.serving, (w.sessions closing).client.pc,
        (w.sessions closing).server.pc, (w.sessions closing).client.stdout,
        (w.sessions hanging).view)) =
      some (some hanging, .exited, .closed, [97, newline],
        ⟨.readlineb [], .readlineb [.ret [98]], .opened, .opened⟩) := by
    decide +kernel
  obtain ⟨w, hrun, hobs⟩ := exists_run_of_exec _ _ hexec
  simp only [Prod.mk.injEq] at hobs
  obtain ⟨hserving, hc, hv, hout, hview⟩ := hobs
  have hq : Quiescent 1 w := by
    rintro ⟨i, l⟩ hl
    have hnone : (w.sessions i).step 1 l = none := by
      obtain rfl | rfl := closing_or_hanging i
      · exact finished_step ⟨hc, hv⟩
      · exact stuck_step (by rw [hview]) hl
    rw [step, hnone]
    simp
  have houtcome := iterative_outcome (by decide) noRio _ _ w hrun.toAny
  exact ⟨w, hrun.toAny, hq, hserving, hout, houtcome.1 hanging⟩

/-! ## a client that hangs -/

/-- What one step does while a client is served whose input does not end as it should. -/
theorem kept_step {l : Fin n × Label} (h : Inv inputs w) (hj : w.serving = some j)
    (htail : (inputs j).tail ≠ []) (hs : w.step cap l = some w') :
    w'.serving = some j ∧ ∀ i, (w.sessions i).Unserved → (w'.sessions i).Unserved := by
  obtain ⟨i, l⟩ := l
  obtain ⟨hallow, s, hs', rfl⟩ := step_eq hs
  have hservice := service_step hs'
  -- the server does not call anything for another client
  have hother : ∀ P : Prop, w.serving = some i → (w.sessions i).Unserved → P := by
    intro P hi hun
    have hactive := (h.serving i).mp hi
    simp [Session.Unserved, hactive] at hun
  rw [sessions_set_after]
  cases l with
  | accept rp connfd =>
      obtain ⟨hnone, -⟩ := of_decide_eq_true hallow
      rw [hnone] at hj
      contradiction
  | close =>
      have hi : w.serving = some i := of_decide_eq_true hallow
      obtain rfl : i = j := Option.some.inj (hi.symm.trans hj)
      obtain ⟨done, todo, hprinted⟩ := h.printed i
      obtain ⟨hpc, -⟩ := Option.ite_none_right_eq_some.mp hs'
      exact absurd hpc (hprinted.stage.server_open htail).1
  | connect clientfd =>
      exact ⟨hj, forall_update w.sessions i s (P := fun k t => (w.sessions k).Unserved → t.Unserved)
        (fun _ => .inr hservice) fun _ _ hun => hun⟩
  | serverRead r =>
      exact ⟨hj, forall_update w.sessions i s (P := fun k t => (w.sessions k).Unserved → t.Unserved)
        (hother _ (of_decide_eq_true hallow)) fun _ _ hun => hun⟩
  | serverWrite r =>
      exact ⟨hj, forall_update w.sessions i s (P := fun k t => (w.sessions k).Unserved → t.Unserved)
        (hother _ (of_decide_eq_true hallow)) fun _ _ hun => hun⟩
  | fgets | clientWrite | clientRead =>
      refine ⟨hj, forall_update w.sessions i s
        (P := fun k t => (w.sessions k).Unserved → t.Unserved)
        (fun hun => ?_) fun _ _ hun => hun⟩
      rw [Session.Unserved, show s.server = (w.sessions i).server from hservice]
      exact hun

/-- **A client that hangs**: once the server has accepted a connection whose client sends something
that is not a whole line at the end of its input, it never accepts another one, and the clients that
have not been accepted never print anything. -/
theorem hanging_client_kept (rp : RioT) (inputs : Fin n → Input) (ls ls' : List (Fin n × Label))
    (w w' : Iterative n) (j : Fin n) (hrun : Run (step cap) any (start rp inputs) ls w)
    (hj : w.serving = some j) (htail : (inputs j).tail ≠ [])
    (hrun' : Run (step cap) any w ls' w') :
    w'.serving = some j ∧
      ∀ i, (w.sessions i).Unserved → (w'.sessions i).client.stdout = [] := by
  have hinv : Inv inputs w' ∧ w'.serving = some j ∧
      ∀ i, (w.sessions i).Unserved → (w'.sessions i).Unserved := by
    refine Run.inv (I := fun w' => Inv inputs w' ∧ w'.serving = some j ∧
      ∀ i, (w.sessions i).Unserved → (w'.sessions i).Unserved)
      ⟨inv_of_run hrun, hj, fun _ h => h⟩ ?_ hrun'
    rintro w₁ l w₂ ⟨h, hserving, hun⟩ - hs
    obtain ⟨hserving', hun'⟩ := kept_step h hserving htail hs
    exact ⟨(h.step hs).1, hserving', fun i hi => hun' i (hun i hi)⟩
  obtain ⟨hinv, hserving, hun⟩ := hinv
  refine ⟨hserving, fun i hi => ?_⟩
  obtain ⟨done, todo, hprinted⟩ := hinv.printed i
  rw [hprinted.stdout, hprinted.unserved (hun i hi)]
  rfl

/-- The client that hangs comes first. -/
def hangingFirst : List (Fin 2 × Label) := [(hanging, .connect 3), (hanging, .accept noRio 4)]

/-- The other one sends its line. -/
def closingWaits : List (Fin 2 × Label) :=
  [(closing, .connect 3), (closing, .fgets), (closing, .clientWrite (.ret 2))]

/-- It gets no answer. -/
theorem hanging_client_kept_first : ∃ w w' : Iterative 2,
    Run (step 2) any (start noRio inputsOfTwo) hangingFirst w ∧ Run (step 2) any w closingWaits w' ∧
      (w'.sessions closing).server.pc = .backlog ∧ w'.serving = some hanging ∧
      (w'.sessions closing).client.stdout = [] := by
  let obs (w w' : Iterative 2) : Option (Fin 2) × ServerPc × ServerPc :=
    (w.serving, (w.sessions closing).server.pc, (w'.sessions closing).server.pc)
  have hexec : ((exec (step 2) (fun _ _ => true) (start noRio inputsOfTwo) hangingFirst).bind
      fun w => (exec (step 2) (fun _ _ => true) w closingWaits).map (obs w)) =
      some (some hanging, .absent, .backlog) := by decide +kernel
  obtain ⟨w, w', hrun, hrun', hobs⟩ := exists_runs_of_exec obs _ hexec
  simp only [obs, Prod.mk.injEq] at hobs
  obtain ⟨hserving, hpc, hpc'⟩ := hobs
  have hkept :=
    hanging_client_kept noRio _ _ _ w w' hanging hrun.toAny hserving (by decide) hrun'.toAny
  exact ⟨w, w', hrun.toAny, hrun'.toAny, hpc', hkept.1,
    hkept.2 closing (.inl (by simp only [Server.service, hpc]))⟩

end Iterative
end SysDemos.EchoSession
