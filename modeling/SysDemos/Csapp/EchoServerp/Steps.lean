import SysDemos.Csapp.EchoServerp

/-!
# SysDemos.Csapp.EchoServerp.Steps

The steps of `main` and of `sigchld_handler`, with what enables each of them, and
what they have before them until they wait for a connection.
-/

namespace SysDemos.EchoServerp

open Posix

variable {s s' : Server} {e : Event}

/-- The steps. -/
inductive Step (s : Server) : Event → Server → Prop
  | accept {connfd : Int} : s.handler = none → s.pc = .accept →
      Step s (.accept connfd) { s with pc := .fork, connfd := connfd }
  | fork {pid : Int} {k : Children} : s.handler = none → s.pc = .fork →
      s.children.fork pid = some k →
      Step s (.fork (some pid)) { s with pc := .close, children := k }
  | forkFail : s.handler = none → s.pc = .fork → Step s (.fork none) { s with pc := .close }
  | close : s.handler = none → s.pc = .close → Step s .close { s with pc := .accept }
  | exit {pid : Int} {k : Children} : s.children.exit pid = some k →
      Step s (.exit pid) { s with children := k }
  | deliver {k : Children} : s.handler = none → s.children.deliver = some k →
      Step s .deliver { s with handler := some .waitpid, children := k }
  | waitpid {pid : Int} {k : Children} : s.handler = some .waitpid → s.children.reap pid = some k →
      Step s (.waitpid (some pid)) { s with children := k }
  | waitpidNone : s.handler = some .waitpid → s.children.zombies = ∅ →
      Step s (.waitpid none) { s with handler := some .ret }
  | sigreturn : s.handler = some .ret → Step s .sigreturn { s with handler := none }

theorem step_cases (hs : step s e = some s') : Step s e s' := by
  cases e with
  | accept connfd =>
      obtain ⟨⟨hh, hpc⟩, ⟨⟩⟩ := Option.ite_none_right_eq_some.mp hs
      exact .accept hh hpc
  | fork pid =>
      simp only [step] at hs
      split at hs
      · next hmain =>
          cases pid with
          | none =>
              cases hs
              exact .forkFail hmain.1 hmain.2
          | some pid =>
              obtain ⟨k, hk, rfl⟩ := Option.map_eq_some_iff.mp hs
              exact .fork hmain.1 hmain.2 hk
      · contradiction
  | close =>
      obtain ⟨⟨hh, hpc⟩, ⟨⟩⟩ := Option.ite_none_right_eq_some.mp hs
      exact .close hh hpc
  | exit pid =>
      obtain ⟨k, hk, rfl⟩ := Option.map_eq_some_iff.mp hs
      exact .exit hk
  | deliver =>
      simp only [step] at hs
      split at hs
      · next hh =>
          obtain ⟨k, hk, rfl⟩ := Option.map_eq_some_iff.mp hs
          exact .deliver hh hk
      · contradiction
  | waitpid pid =>
      simp only [step] at hs
      split at hs
      · next hh =>
          cases pid with
          | some pid =>
              obtain ⟨k, hk, rfl⟩ := Option.map_eq_some_iff.mp hs
              exact .waitpid hh hk
          | none =>
              obtain ⟨hempty, ⟨⟩⟩ := Option.ite_none_right_eq_some.mp hs
              exact .waitpidNone hh hempty
      · contradiction
  | sigreturn =>
      obtain ⟨hh, ⟨⟩⟩ := Option.ite_none_right_eq_some.mp hs
      exact .sigreturn hh

/-! ## what is left to do -/

/-- The calls of `main` for the connection that it has accepted, with those that the child will
cause. -/
def MainPc.work : MainPc → Nat
  | .accept => 0
  | .fork => 7
  | .close => 1

/-- The calls that `sigchld_handler` makes before it returns, children to reap apart. -/
def handlerWork : Option HandlerPc → Nat
  | none => 0
  | some .waitpid => 2
  | some .ret => 1

/-- A bound on the steps of the server until it waits for a connection: a child that runs will
terminate, cause a signal and be reaped. -/
def Server.work (s : Server) : Nat :=
  s.pc.work + 5 * s.children.running.card + s.children.zombies.card +
    (if s.children.pending then 3 else 0) + handlerWork s.handler

/-- Every step brings the server forward, and `accept` makes it responsible for a connection. -/
theorem work_step (hs : Step s e s') :
    match e with
    | .accept _ => s'.work = s.work + 7
    | _ => s'.work < s.work := by
  cases hs with
  | accept hh hpc =>
      simp only [Server.work, hpc, MainPc.work]
      omega
  | fork hh hpc hk =>
      obtain ⟨hnot, hrunning, hzombies⟩ := Children.fork_sets hk
      obtain ⟨-, -, -, -, hpending⟩ := Children.fork_spec hk
      simp only [Server.work, hpc, MainPc.work, hrunning, hzombies, hpending,
        Finset.card_insert_of_notMem hnot]
      omega
  | forkFail hh hpc =>
      simp only [Server.work, hpc, MainPc.work]
      omega
  | close hh hpc =>
      simp only [Server.work, hpc, MainPc.work]
      omega
  | exit hk =>
      obtain ⟨hin, hnot, hrunning, hzombies⟩ := Children.exit_sets hk
      obtain ⟨-, hpending⟩ := Children.exit_spec hk
      have hcard := Finset.card_erase_add_one hin
      simp only [Server.work, hrunning, hzombies, hpending, Finset.card_insert_of_notMem hnot,
        if_true]
      omega
  | deliver hh hk =>
      obtain ⟨hrunning, hzombies⟩ := Children.deliver_sets hk
      obtain ⟨hold, -, hnew⟩ := Children.deliver_spec hk
      simp only [Server.work, hrunning, hzombies, hold, hnew, hh, handlerWork, if_true,
        Bool.false_eq_true, if_false]
      omega
  | waitpid hh hk =>
      obtain ⟨hin, hrunning, hzombies⟩ := Children.reap_sets hk
      obtain ⟨-, -, hpending⟩ := Children.reap_spec hk
      have hcard := Finset.card_erase_add_one hin
      simp only [Server.work, hrunning, hzombies, hpending]
      omega
  | waitpidNone hh =>
      simp only [Server.work, hh, handlerWork]
      omega
  | sigreturn hh =>
      simp only [Server.work, hh, handlerWork]
      omega

end SysDemos.EchoServerp
