import SysDemos.Csapp.EchoServerp.Steps
import SysDemos.Lib.FdTable

/-!
# SysDemos.Csapp.EchoServerp.Descriptors

The descriptors of `csapp/concurrent_program/echo_serverp.cc`.

`main` and each child have their own table.  A child begins with a copy of `main`'s;
it closes the listener, serves the connection, closes it and exits, while `main`
closes its own descriptor for the connection right away.  `accept` and `fork` may
fail, which the code does not notice: `echo(-1)` then never returns.

* `connection_descriptors` — what is open where, at any time.
-/

namespace SysDemos.EchoServerp

open Posix Lts

/-- An open file: a standard stream, the listener or the `k`-th connection that was accepted. -/
inductive File where
  | std
  | listener
  | conn (k : Nat)
  deriving DecidableEq, Repr

/-- Where a child stands: its next call. -/
inductive ChildPc where
  | closeListen
  | echo
  | closeConn
  | exit
  deriving DecidableEq, Repr

/-- A child, with its copy of `connfd`. -/
structure Child where
  pc : ChildPc
  connfd : Int
  table : FdTable File
  /-- the connection that `main` had in hand at the `fork`; the program does not look at it -/
  conn : Option Nat
  deriving DecidableEq, Repr

/-- The server, its children that run, and their tables. -/
structure World where
  server : Server
  listenfd : Int
  table : FdTable File
  procs : Int → Option Child
  /-- the number of connections so far -/
  accepted : Nat

/-- A call of `main` or `sigchld_handler`, or the next call of a child. -/
inductive Move where
  | main (e : Event)
  | child (pid : Int)
  deriving DecidableEq, Repr

/-- The table of a process that has just been started. -/
def stdTable : FdTable File := ⟨[some .std, some .std, some .std]⟩

/-- `main` behind `open_listenfd`. -/
def World.start : World :=
  { server := EchoServerp.start, listenfd := stdTable.lowest, table := stdTable.install .listener
    procs := fun _ => none, accepted := 0 }

/-- `close(fd)`, which does nothing if `fd` is `-1`. -/
def closeFd (t : FdTable File) (fd : Int) : FdTable File := if fd = -1 then t else t.close fd.toNat

/-- The connection that `main` has accepted and not closed. -/
def World.current (w : World) : Option Nat :=
  if w.server.pc = .accept ∨ w.server.connfd = -1 then none else some (w.accepted - 1)

/-- The child that `fork` makes, with copies of `connfd` and of the table. -/
def World.forked (w : World) : Child :=
  { pc := .closeListen, connfd := w.server.connfd, table := w.table, conn := w.current }

namespace World

/-- A call of `main` or `sigchld_handler` that has left the server as `s`. -/
def main (w : World) (s : Server) : Event → Option World
  | .accept connfd =>
    if connfd = -1 then some { w with server := s }
    else if connfd = w.table.lowest then
      some { w with
        server := s, table := w.table.install (.conn w.accepted), accepted := w.accepted + 1 }
    else none
  | .fork (some pid) =>
    some { w with server := s, procs := Function.update w.procs pid (some w.forked) }
  | .close => some { w with server := s, table := closeFd w.table w.server.connfd }
  | .exit _ => none
  | _ => some { w with server := s }

/-- A child has changed. -/
def set (w : World) (pid : Int) (c : Child) : World :=
  { w with procs := Function.update w.procs pid (some c) }

/-- The next call of a child. -/
def child (w : World) (pid : Int) (c : Child) : Option World :=
  match c.pc with
  | .closeListen => some (w.set pid { c with pc := .echo, table := closeFd c.table w.listenfd })
  | .echo => if c.connfd = -1 then none else some (w.set pid { c with pc := .closeConn })
  | .closeConn => some (w.set pid { c with pc := .exit, table := closeFd c.table c.connfd })
  | .exit =>
    (EchoServerp.step w.server (.exit pid)).map fun s =>
      { w with server := s, procs := Function.update w.procs pid none }

/-- One step. -/
def step (w : World) : Move → Option World
  | .main e => (EchoServerp.step w.server e).bind fun s => w.main s e
  | .child pid => (w.procs pid).bind fun c => w.child pid c

end World

/-! ## what is open -/

/-- The tables that occur: the standard streams, the listener at 3, and a connection at 4. -/
def layout (listening : Bool) (conn : Option Nat) : Nat → Option File
  | 0 => some .std
  | 1 => some .std
  | 2 => some .std
  | 3 => if listening then some .listener else none
  | 4 => conn.map .conn
  | _ => none

/-- The connection that a child is to have open: its own, until its last `close`. -/
def Child.held (c : Child) : Option Nat := if c.pc = .exit then none else c.conn

/-- A process has a descriptor for connection `k`. -/
def World.Held (w : World) (k : Nat) : Prop :=
  (∃ fd, w.table.file fd = some (.conn k)) ∨
    ∃ pid c fd, w.procs pid = some c ∧ c.table.file fd = some (.conn k)

theorem layout_eq_conn {listening : Bool} {conn : Option Nat} {fd k : Nat}
    (h : layout listening conn fd = some (.conn k)) : fd = 4 ∧ conn = some k := by
  match fd with
  | 0 | 1 | 2 => simp [layout] at h
  | 3 =>
      simp only [layout] at h
      split at h <;> simp at h
  | 4 =>
      obtain ⟨j, hj, ⟨⟩⟩ := Option.map_eq_some_iff.mp h
      exact ⟨rfl, hj⟩
  | n + 5 => simp [layout] at h

/-- `accept` gets descriptor 4. -/
theorem lowest_of_layout {t : FdTable File} (h : t.file = layout true none) : t.lowest = 4 := by
  refine FdTable.lowest_eq (by rw [h]; rfl) fun i hi => ?_
  rw [h]
  match i with
  | 0 | 1 | 2 | 3 => simp [layout]
  | n + 4 => omega

theorem install_layout {t : FdTable File} (h : t.file = layout true none) (k : Nat) :
    (t.install (.conn k)).file = layout true (some k) := by
  funext fd
  rw [FdTable.file_install, lowest_of_layout h, h]
  match fd with
  | 0 | 1 | 2 | 3 | 4 => simp [layout]
  | n + 5 => simp [layout]

theorem close_conn_layout {t : FdTable File} {listening : Bool} {conn : Option Nat}
    (h : t.file = layout listening conn) : (closeFd t 4).file = layout listening none := by
  funext fd
  rw [closeFd, if_neg (by decide), show (4 : Int).toNat = 4 from rfl, FdTable.file_close, h]
  match fd with
  | 0 | 1 | 2 | 3 | 4 => simp [layout]
  | n + 5 => simp [layout]

theorem close_listen_layout {t : FdTable File} {listening : Bool} {conn : Option Nat}
    (h : t.file = layout listening conn) : (closeFd t 3).file = layout false conn := by
  funext fd
  rw [closeFd, if_neg (by decide), show (3 : Int).toNat = 3 from rfl, FdTable.file_close, h]
  match fd with
  | 0 | 1 | 2 | 3 | 4 => simp [layout]
  | n + 5 => simp [layout]

/-- The table of a child, and what it has been given: a connection, or nothing if `accept` has
failed. -/
structure Child.Ok (c : Child) : Prop where
  table : c.table.file = layout (c.pc = .closeListen) c.held
  conn : (c.connfd = 4 ∧ c.conn ≠ none) ∨
    (c.connfd = -1 ∧ c.conn = none ∧ (c.pc = .closeListen ∨ c.pc = .echo))

theorem Child.held_of_ne {c : Child} (hpc : c.pc ≠ .exit) : c.held = c.conn := if_neg hpc

/-- What is open in every reachable state. -/
structure Inv (w : World) : Prop where
  listen : w.listenfd = 3
  table : w.table.file = layout true w.current
  connfd : w.server.pc ≠ .accept →
    w.server.connfd = -1 ∨ (w.server.connfd = 4 ∧ 0 < w.accepted)
  child : ∀ pid c, w.procs pid = some c → c.Ok
  /-- the children have different connections, all of which have been accepted -/
  old : ∀ pid c k, w.procs pid = some c → c.conn = some k → k < w.accepted
  distinct : ∀ pid pid' c c' k, w.procs pid = some c → w.procs pid' = some c' →
    c.conn = some k → c'.conn = some k → pid = pid'
  /-- nobody serves the connection before the `fork` -/
  fresh : w.server.pc = .fork → ∀ pid c k, w.procs pid = some c → c.conn = some k →
    w.current ≠ some k

theorem inv_start : Inv .start where
  listen := rfl
  table := by
    funext fd
    match fd with
    | 0 | 1 | 2 | 3 | 4 => rfl
    | n + 5 => rfl
  connfd h := absurd rfl h
  child pid c h := by contradiction
  old pid c k h := by contradiction
  distinct pid pid' c c' k h := by contradiction
  fresh h := by contradiction

variable {w w' : World}

/-- The children after one of them has been set. -/
theorem update_some {procs : Int → Option Child} {pid q : Int} {c d : Child}
    (h : Function.update procs pid (some c) q = some d) :
    (q = pid ∧ d = c) ∨ (q ≠ pid ∧ procs q = some d) := by
  by_cases hq : q = pid
  · rw [hq, Function.update_self] at h
    exact .inl ⟨hq, (Option.some.inj h).symm⟩
  · rw [Function.update_of_ne hq] at h
    exact .inr ⟨hq, h⟩

/-- The children after one of them has exited. -/
theorem update_none {procs : Int → Option Child} {pid q : Int} {d : Child}
    (h : Function.update procs pid none q = some d) : procs q = some d := by
  by_cases hq : q = pid
  · simp [hq] at h
  · rwa [Function.update_of_ne hq] at h

/-- A child moves. -/
theorem Inv.set (h : Inv w) {pid : Int} {c c' : Child} (hc : w.procs pid = some c) (hok : c'.Ok)
    (hconn : c'.conn = c.conn) : Inv (w.set pid c') := by
  -- a child has been given its connection before
  have hold : ∀ q d k, (w.set pid c').procs q = some d → d.conn = some k →
      ∃ d', w.procs q = some d' ∧ d'.conn = some k := fun q d k hq hd => by
    obtain ⟨rfl, rfl⟩ | ⟨-, hq⟩ := update_some hq
    · exact ⟨c, hc, hconn.symm.trans hd⟩
    · exact ⟨d, hq, hd⟩
  refine { h with child := ?_, old := ?_, distinct := ?_, fresh := ?_ }
  · intro q d hq
    obtain ⟨-, rfl⟩ | ⟨-, hq⟩ := update_some hq
    · exact hok
    · exact h.child q d hq
  · intro q d k hq hd
    obtain ⟨d', hq', hd'⟩ := hold q d k hq hd
    exact h.old q d' k hq' hd'
  · intro q q' d d' k hq hq' hd hd'
    obtain ⟨e, he, hek⟩ := hold q d k hq hd
    obtain ⟨e', he', hek'⟩ := hold q' d' k hq' hd'
    exact h.distinct q q' e e' k he he' hek hek'
  · intro hpc q d k hq hd
    obtain ⟨d', hq', hd'⟩ := hold q d k hq hd
    exact h.fresh hpc q d' k hq' hd'

/-- The first call of a child. -/
theorem Child.Ok.closeListen {c : Child} (h : c.Ok) (hpc : c.pc = .closeListen) :
    ({ c with pc := .echo, table := closeFd c.table 3 } : Child).Ok := by
  refine ⟨?_, h.conn.imp_right fun ⟨hfd, hnone, _⟩ => ⟨hfd, hnone, .inr rfl⟩⟩
  have htable := close_listen_layout h.table
  rw [Child.held_of_ne (by simp [hpc])] at htable
  exact htable

/-- The end of `echo`. -/
theorem Child.Ok.echo {c : Child} (h : c.Ok) (hpc : c.pc = .echo) (hfd : c.connfd ≠ -1) :
    ({ c with pc := .closeConn } : Child).Ok := by
  refine ⟨?_, .inl (h.conn.resolve_right fun hfail => hfd hfail.1)⟩
  simpa [Child.held, hpc] using h.table

/-- The last `close` of a child. -/
theorem Child.Ok.closeConn {c : Child} (h : c.Ok) (hpc : c.pc = .closeConn) :
    ({ c with pc := .exit, table := closeFd c.table c.connfd } : Child).Ok := by
  obtain ⟨hfour, hconn⟩ | ⟨-, -, hpc' | hpc'⟩ := h.conn
  · refine ⟨?_, .inl ⟨hfour, hconn⟩⟩
    have htable := close_conn_layout h.table
    simp only [hpc, reduceCtorEq, decide_false] at htable
    simpa [Child.held, hfour] using htable
  · simp [hpc'] at hpc
  · simp [hpc'] at hpc

/-- A call of a child. -/
theorem Inv.child_step (h : Inv w) {pid : Int} {c : Child} (hc : w.procs pid = some c)
    (hs : w.child pid c = some w') : Inv w' := by
  have hok := h.child pid c hc
  unfold World.child at hs
  split at hs
  · next hpc =>
      cases hs
      rw [h.listen]
      exact h.set hc (hok.closeListen hpc) rfl
  · next hpc =>
      obtain ⟨hfd, ⟨⟩⟩ := Option.ite_none_left_eq_some.mp hs
      exact h.set hc (hok.echo hpc hfd) rfl
  · next hpc =>
      cases hs
      exact h.set hc (hok.closeConn hpc) rfl
  · next hpc =>
      obtain ⟨s, hexit, rfl⟩ := Option.map_eq_some_iff.mp hs
      cases step_cases hexit with
      | exit hk =>
          exact { h with
            child := fun q d hq => h.child q d (update_none hq)
            old := fun q d k hq => h.old q d k (update_none hq)
            distinct := fun q q' d d' k hq hq' =>
              h.distinct q q' d d' k (update_none hq) (update_none hq')
            fresh := fun hpc q d k hq => h.fresh hpc q d k (update_none hq) }

/-- `accept` succeeds. -/
theorem Inv.accepts (h : Inv w) {connfd : Int} (hpc : w.server.pc = .accept) (hok : connfd ≠ -1)
    (hlowest : connfd = w.table.lowest) :
    Inv { w with
      server := { w.server with pc := .fork, connfd := connfd }
      table := w.table.install (.conn w.accepted), accepted := w.accepted + 1 } := by
  have hnone : w.current = none := by simp [World.current, hpc]
  have htable := hnone ▸ h.table
  rw [lowest_of_layout htable] at hlowest
  have hcurrent : World.current { w with
      server := { w.server with pc := .fork, connfd := connfd }
      table := w.table.install (.conn w.accepted), accepted := w.accepted + 1 } =
      some w.accepted := by
    simp [World.current, hok]
  refine { h with
    table := ?_, connfd := fun _ => .inr ⟨hlowest, Nat.succ_pos _⟩, old := ?_, fresh := ?_ }
  · rw [hcurrent]
    exact install_layout htable w.accepted
  · exact fun q d k hq hd => Nat.lt_succ_of_lt (h.old q d k hq hd)
  · intro _ q d k hq hd heq
    rw [hcurrent] at heq
    have hlt := h.old q d k hq hd
    cases heq
    omega

/-- `main` forks a child for the connection it has in hand. -/
theorem Inv.forks (h : Inv w) {pid : Int} {k : Children} (hpc : w.server.pc = .fork) :
    Inv { w with
      server := { w.server with pc := .close, children := k }
      procs := Function.update w.procs pid (some w.forked) } := by
  have hcurrent : World.current { w with
      server := { w.server with pc := .close, children := k }
      procs := Function.update w.procs pid (some w.forked) } = w.current := by
    simp [World.current, hpc]
  have hok : w.forked.Ok := by
    refine ⟨h.table, ?_⟩
    obtain hfail | ⟨hfour, -⟩ := h.connfd (by simp [hpc])
    · exact .inr ⟨hfail, by simp [World.forked, World.current, hfail], .inl rfl⟩
    · exact .inl ⟨hfour, by simp [World.forked, World.current, hpc, hfour]⟩
  have hlt : ∀ k, w.current = some k → k < w.accepted := by
    intro k hk
    obtain hfail | ⟨hfour, hpos⟩ := h.connfd (by simp [hpc])
    · simp [World.current, hfail] at hk
    · simp only [World.current, hpc, hfour, reduceCtorEq, false_or, if_false,
        Option.some.injEq, Int.reduceNeg] at hk
      omega
  refine { h with
    table := ?_, connfd := fun _ => h.connfd (by simp [hpc]), child := ?_, old := ?_,
    distinct := ?_, fresh := fun hpc => by contradiction }
  · rw [hcurrent]
    exact h.table
  · intro q d hq
    obtain ⟨-, rfl⟩ | ⟨-, hq⟩ := update_some hq
    · exact hok
    · exact h.child q d hq
  · intro q d k hq hd
    obtain ⟨-, rfl⟩ | ⟨-, hq⟩ := update_some hq
    · exact hlt k hd
    · exact h.old q d k hq hd
  · intro q q' d d' k hq hq' hd hd'
    obtain ⟨hqp, rfl⟩ | ⟨-, hq⟩ := update_some hq
    · obtain ⟨hqp', -⟩ | ⟨-, hq'⟩ := update_some hq'
      · exact hqp.trans hqp'.symm
      · exact absurd hd (h.fresh hpc q' d' k hq' hd')
    · obtain ⟨-, rfl⟩ | ⟨-, hq'⟩ := update_some hq'
      · exact absurd hd' (h.fresh hpc q d k hq hd)
      · exact h.distinct q q' d d' k hq hq' hd hd'

/-- A call of `main` or `sigchld_handler`. -/
theorem Inv.main_step (h : Inv w) {s : Server} {e : Event}
    (hs : EchoServerp.step w.server e = some s) (hm : w.main s e = some w') : Inv w' := by
  cases step_cases hs with
  | @accept connfd hh hpc =>
      have hnone : w.current = none := by simp [World.current, hpc]
      have htable := hnone ▸ h.table
      simp only [World.main] at hm
      split at hm
      · next hfail =>
          cases hm
          refine { h with table := ?_, connfd := fun _ => .inl hfail, fresh := ?_ }
          · simpa [World.current, hfail] using htable
          · intro _ q d k _ _
            simp [World.current, hfail]
      · next hok =>
          split at hm
          · next hlowest =>
              cases hm
              exact h.accepts hpc hok hlowest
          · contradiction
  | fork hh hpc hk =>
      cases hm
      exact h.forks hpc
  | forkFail hh hpc =>
      cases hm
      refine { h with
        table := ?_, connfd := fun _ => h.connfd (by simp [hpc]),
        fresh := fun hpc => by contradiction }
      rw [h.table]
      simp [World.current, hpc]
  | close hh hpc =>
      cases hm
      refine { h with
        table := ?_, connfd := fun hne => absurd rfl hne, fresh := fun hpc => by contradiction }
      obtain hfail | ⟨hfour, -⟩ := h.connfd (by simp [hpc])
      · rw [hfail, closeFd, if_pos rfl, h.table]
        simp [World.current, hfail]
      · rw [hfour]
        simpa [World.current] using close_conn_layout h.table
  | exit hk => contradiction
  | deliver hh hk =>
      cases hm
      exact { h with }
  | waitpid hh hk =>
      cases hm
      exact { h with }
  | waitpidNone hh hempty =>
      cases hm
      exact { h with }
  | sigreturn hh =>
      cases hm
      exact { h with }

theorem Inv.world_step {m : Move} (h : Inv w) (hs : w.step m = some w') : Inv w' := by
  cases m with
  | main e =>
      obtain ⟨s, hs, hm⟩ := Option.bind_eq_some_iff.mp hs
      exact h.main_step hs hm
  | child pid =>
      obtain ⟨c, hc, hs⟩ := Option.bind_eq_some_iff.mp hs
      exact h.child_step hc hs

/-- A child serves no connection if it was forked behind an `accept` that failed. -/
theorem Child.Ok.conn_eq_none_iff {c : Child} (h : c.Ok) : c.conn = none ↔ c.connfd = -1 := by
  obtain ⟨hfd, hconn⟩ | ⟨hfd, hconn, -⟩ := h.conn <;> simp [hfd, hconn]

/-- `accept` gets descriptor 4 or fails. -/
theorem Inv.accept_fd (h : Inv w) {connfd : Int}
    (hs : w.step (.main (.accept connfd)) = some w') : connfd = -1 ∨ connfd = 4 := by
  obtain ⟨s, hs, hm⟩ := Option.bind_eq_some_iff.mp hs
  cases step_cases hs with
  | accept hh hpc =>
      have hcurrent : w.current = none := by simp [World.current, hpc]
      have hlowest := lowest_of_layout (hcurrent ▸ h.table)
      simp only [World.main] at hm
      split at hm
      · next hfail => exact .inl hfail
      · obtain ⟨hfd, -⟩ := Option.ite_none_right_eq_some.mp hm
        exact .inr (by rw [hfd, hlowest]; rfl)

theorem inv_of_run {ms : List Move} (hrun : Run World.step any .start ms w) : Inv w :=
  Run.inv (I := Inv) inv_start (fun _ _ _ h _ hs => h.world_step hs) hrun

/-! ## connections that are released -/

/-- The processes that have a connection. -/
theorem Inv.held_iff (h : Inv w) {k : Nat} :
    w.Held k ↔ w.current = some k ∨ ∃ pid c, w.procs pid = some c ∧ c.held = some k := by
  constructor
  · rintro (⟨fd, hfd⟩ | ⟨pid, c, fd, hc, hfd⟩)
    · rw [h.table] at hfd
      exact .inl (layout_eq_conn hfd).2
    · rw [(h.child pid c hc).table] at hfd
      exact .inr ⟨pid, c, hc, (layout_eq_conn hfd).2⟩
  · rintro (hcurrent | ⟨pid, c, hc, hheld⟩)
    · exact .inl ⟨4, by rw [h.table, hcurrent]; rfl⟩
    · exact .inr ⟨pid, c, 4, hc, by rw [(h.child pid c hc).table, hheld]; rfl⟩

/-- A child does not get a connection by a call of its own. -/
theorem held_child {pid : Int} {c : Child} {k : Nat} (hc : w.procs pid = some c)
    (hs : w.child pid c = some w') :
    w'.current = w.current ∧
      ∀ q d, w'.procs q = some d → d.held = some k →
        ∃ d', w.procs q = some d' ∧ d'.held = some k := by
  -- the child that moves has had what it has
  have hset : ∀ c' : Child, (c'.held = some k → c.held = some k) →
      ∀ q d, (w.set pid c').procs q = some d → d.held = some k →
        ∃ d', w.procs q = some d' ∧ d'.held = some k := fun c' hheld q d hq hd => by
    obtain ⟨rfl, rfl⟩ | ⟨-, hq⟩ := update_some hq
    · exact ⟨c, hc, hheld hd⟩
    · exact ⟨d, hq, hd⟩
  unfold World.child at hs
  split at hs
  · next hpc =>
      cases hs
      exact ⟨rfl, hset _ fun hk => by simpa [Child.held, hpc] using hk⟩
  · next hpc =>
      obtain ⟨-, ⟨⟩⟩ := Option.ite_none_left_eq_some.mp hs
      exact ⟨rfl, hset _ fun hk => by simpa [Child.held, hpc] using hk⟩
  · next hpc =>
      cases hs
      exact ⟨rfl, hset _ fun hk => by simp [Child.held] at hk⟩
  · next hpc =>
      obtain ⟨s, hexit, rfl⟩ := Option.map_eq_some_iff.mp hs
      cases step_cases hexit with
      | exit hk => exact ⟨rfl, fun q d hq hd => ⟨d, update_none hq, hd⟩⟩

/-- A connection that has been accepted is passed on by `fork` only. -/
theorem held_main {s : Server} {e : Event} {k : Nat} (hk : k < w.accepted)
    (hs : EchoServerp.step w.server e = some s) (hm : w.main s e = some w') :
    (w'.current = some k → w.current = some k) ∧
      ∀ q d, w'.procs q = some d → d.held = some k →
        w.current = some k ∨ ∃ d', w.procs q = some d' ∧ d'.held = some k := by
  have hsame : w'.procs = w.procs → ∀ q d, w'.procs q = some d → d.held = some k →
      w.current = some k ∨ ∃ d', w.procs q = some d' ∧ d'.held = some k := fun heq q d hq hd =>
    .inr ⟨d, heq ▸ hq, hd⟩
  cases step_cases hs with
  | accept hh hpc =>
      simp only [World.main] at hm
      split at hm
      · next hfail =>
          cases hm
          exact ⟨fun hcurrent => by simp [World.current, hfail] at hcurrent, hsame rfl⟩
      · next hok =>
          split at hm
          · cases hm
            refine ⟨fun hcurrent => ?_, hsame rfl⟩
            simp only [World.current, hok, reduceCtorEq, or_self, if_false, Nat.add_sub_cancel,
              Option.some.injEq] at hcurrent
            omega
          · contradiction
  | fork hh hpc hfork =>
      cases hm
      refine ⟨fun hcurrent => by simpa [World.current, hpc] using hcurrent, fun q d hq hd => ?_⟩
      obtain ⟨-, rfl⟩ | ⟨-, hq⟩ := update_some hq
      · exact .inl hd
      · exact .inr ⟨d, hq, hd⟩
  | forkFail hh hpc =>
      cases hm
      exact ⟨fun hcurrent => by simpa [World.current, hpc] using hcurrent, hsame rfl⟩
  | close hh hpc =>
      cases hm
      exact ⟨fun hcurrent => by simp [World.current] at hcurrent, hsame rfl⟩
  | exit => contradiction
  | deliver | waitpid | waitpidNone | sigreturn =>
      cases hm
      exact ⟨fun hcurrent => hcurrent, hsame rfl⟩

theorem Inv.held_of_step {m : Move} {k : Nat} (h : Inv w) (hs : w.step m = some w')
    (hk : k < w.accepted) (hheld : w'.Held k) : w.Held k := by
  have h' := h.world_step hs
  rw [h.held_iff]
  cases m with
  | main e =>
      obtain ⟨s, hs, hm⟩ := Option.bind_eq_some_iff.mp hs
      obtain ⟨hmain, hchild⟩ := held_main hk hs hm
      obtain hcurrent | ⟨pid, c, hc, hheld⟩ := h'.held_iff.mp hheld
      · exact .inl (hmain hcurrent)
      · exact (hchild pid c hc hheld).imp_right fun ⟨c', hc', hheld'⟩ => ⟨pid, c', hc', hheld'⟩
  | child pid =>
      obtain ⟨c, hc, hs⟩ := Option.bind_eq_some_iff.mp hs
      obtain ⟨hmain, hchild⟩ := held_child hc hs
      obtain hcurrent | ⟨q, d, hq, hheld⟩ := h'.held_iff.mp hheld
      · exact .inl (hmain ▸ hcurrent)
      · obtain ⟨d', hq', hheld'⟩ := hchild q d hq hheld
        exact .inr ⟨q, d', hq', hheld'⟩

/-- Connections are numbered as they come. -/
theorem accepted_le_of_step {m : Move} (hs : w.step m = some w') : w.accepted ≤ w'.accepted := by
  cases m with
  | main e =>
      obtain ⟨s, -, hm⟩ := Option.bind_eq_some_iff.mp hs
      unfold World.main at hm
      split at hm
      · split at hm
        · cases hm
          exact Nat.le_refl _
        · split at hm
          · cases hm
            exact Nat.le_succ _
          · contradiction
      · cases hm
        exact Nat.le_refl _
      · cases hm
        exact Nat.le_refl _
      · contradiction
      · cases hm
        exact Nat.le_refl _
  | child pid =>
      obtain ⟨c, -, hs⟩ := Option.bind_eq_some_iff.mp hs
      unfold World.child at hs
      split at hs
      · cases hs
        exact Nat.le_refl _
      · obtain ⟨-, ⟨⟩⟩ := Option.ite_none_left_eq_some.mp hs
        exact Nat.le_refl _
      · cases hs
        exact Nat.le_refl _
      · obtain ⟨s, -, rfl⟩ := Option.map_eq_some_iff.mp hs
        exact Nat.le_refl _

/-- **The descriptors of `echo_serverp.cc`**, whatever calls of `accept` and `fork` fail and in
whatever order `main`, its handler and the children run.  `main` has four descriptors when it waits
for a connection and a fifth one while it has one in hand, so that each `accept` gets descriptor 4.
A child has the three standard ones, the listener until its first `close`, and until its last one
the connection it was forked for, if `accept` has not failed; and no two children were forked for
the same one.  A connection that no process has any more is never open again. -/
theorem connection_descriptors (ms : List Move) (w : World)
    (hrun : Run World.step any .start ms w) :
    (∀ fd, w.table.file fd = layout true w.current fd) ∧
      (∀ connfd w', w.step (.main (.accept connfd)) = some w' → connfd = -1 ∨ connfd = 4) ∧
      (∀ pid c, w.procs pid = some c →
        (∀ fd, c.table.file fd =
          layout (c.pc = .closeListen) (if c.pc = .exit then none else c.conn) fd) ∧
        (c.conn = none ↔ c.connfd = -1)) ∧
      (∀ pid pid' c c' k, w.procs pid = some c → w.procs pid' = some c' → c.conn = some k →
        c'.conn = some k → pid = pid') ∧
      (∀ ms' w', Run World.step any w ms' w' → ∀ k < w.accepted, ¬ w.Held k → ¬ w'.Held k) := by
  have hinv := inv_of_run hrun
  refine ⟨fun fd => congrFun hinv.table fd, fun connfd w' hs => hinv.accept_fd hs,
    fun pid c hc => ?_, hinv.distinct, fun ms' w' hrun' k hk hfree => ?_⟩
  · have hok := hinv.child pid c hc
    exact ⟨fun fd => congrFun hok.table fd, hok.conn_eq_none_iff⟩
  · have hkept : Inv w' ∧ k < w'.accepted ∧ ¬ w'.Held k := by
      refine Run.inv (I := fun w' => Inv w' ∧ k < w'.accepted ∧ ¬ w'.Held k) ⟨hinv, hk, hfree⟩ ?_
        hrun'
      rintro w₁ m w₂ ⟨h, hlt, hnot⟩ - hs
      exact ⟨h.world_step hs, Nat.lt_of_lt_of_le hlt (accepted_le_of_step hs),
        fun hheld => hnot (h.held_of_step hs hlt hheld)⟩
    exact hkept.2.2

/-- A second connection comes while a child serves the first one. -/
def twoConns : List Move :=
  [.main (.accept 4), .main (.fork (some 10)), .main .close, .child 10, .main (.accept 4)]

theorem connection_descriptors_two : ∃ w, Run World.step any .start twoConns w ∧
    w.table.file 4 = some (.conn 1) ∧
      ∃ c, w.procs 10 = some c ∧ c.pc = .echo ∧ c.conn = some 0 ∧
        c.table.file 4 = some (.conn 0) := by
  have hexec : (exec World.step (fun _ _ => true) .start twoConns).map
      (fun w => (w.current, (w.procs 10).map fun c => (c.pc, c.conn))) =
      some (some 1, some (.echo, some 0)) := by
    decide +kernel
  obtain ⟨w, hrun, hobs⟩ := exists_run_of_exec _ _ hexec
  simp only [Prod.mk.injEq] at hobs
  obtain ⟨hcurrent, hchild⟩ := hobs
  obtain ⟨c, hc, hview⟩ := Option.map_eq_some_iff.mp hchild
  simp only [Prod.mk.injEq] at hview
  obtain ⟨hpc, hconn⟩ := hview
  obtain ⟨hmain, -, hchildren, -⟩ := connection_descriptors _ w hrun.toAny
  refine ⟨w, hrun.toAny, ?_, c, hc, hpc, hconn, ?_⟩
  · rw [hmain 4, hcurrent]
    rfl
  · rw [(hchildren 10 c hc).1 4, hpc, hconn]
    rfl

end SysDemos.EchoServerp
