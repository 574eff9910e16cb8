import SysDemos.HotUpgrade.UnixSocket
import SysDemos.Lib.Refinement
import Mathlib.Data.Nat.Digits.Lemmas

/-!
# SysDemos.HotUpgrade.Rendezvous

How an old server gets into contact with the new one: `unix_server_listen`,
`unix_server_accept` and `unix_client_conn` of `hot_upgrade_demo/unix_socket.cc`.

A client binds its socket to a file that is named after its process id, makes the
file accessible to its owner alone and connects.  The server looks at the file of a
connection before it takes it: it has to be there, with these permissions, and no
older than `STALE` seconds.

Any number of processes call `unix_client_conn`, each once.  A step is a system call
of one of them or of the server, or a second that passes.  Every call may fail; no
other process touches the files.

* `cliPath_injective` — different processes use different files;
* `rendezvous_decided_by_age` — the server takes a client just if it comes to look at
  the file in time and can look at it.
-/

namespace SysDemos.HotUpgrade.Rendezvous

open Function (update)
open Lts

/-! ## names -/

/-- What `%05d` prints for a process id. -/
def decimal5 (pid : Nat) : List UInt8 :=
  (Nat.digits 10 pid ++ List.replicate (5 - (Nat.digits 10 pid).length) 0).reverse.map
    fun d => UInt8.ofNat (48 + d)

/-- The file of a client: `CLI_PATH` and its process id. -/
def cliPath (pid : Nat) : List UInt8 :=
  ascii ['/', 'v', 'a', 'r', '/', 't', 'm', 'p', '/'] ++ decimal5 pid

/-- `UNIX_SOCKET_LOCK_FILE`, the name that the server listens on. -/
def lockFile : List UInt8 :=
  ascii ['.', '/', 'u', 'n', 'i', 'x', '_', 's', 'o', 'c', 'k', 'e', 't', '_', 'l', 'o', 'c', 'k',
    '_', 'f', 'i', 'l', 'e']

/-- The number that decimal digits denote. -/
def decimalValue (bs : List UInt8) : Nat := Nat.ofDigits 10 (bs.reverse.map fun b => b.toNat - 48)

/-- The process id can be read off what is printed, however many digits it has. -/
theorem decimalValue_decimal5 (pid : Nat) : decimalValue (decimal5 pid) = pid := by
  have hdigits : ∀ d ∈ Nat.digits 10 pid ++ List.replicate (5 - (Nat.digits 10 pid).length) 0,
      (UInt8.ofNat (48 + d)).toNat - 48 = d := fun d hd => by
    have hlt : d < 10 := by
      obtain hd | hd := List.mem_append.mp hd
      · exact Nat.digits_lt_base (by decide) hd
      · rw [List.eq_of_mem_replicate hd]
        decide
    rw [UInt8.toNat_ofNat', Nat.mod_eq_of_lt (by omega), Nat.add_sub_cancel_left]
  rw [decimalValue, decimal5, ← List.map_reverse, List.reverse_reverse, List.map_map,
    Function.comp_def, List.map_congr_left hdigits, List.map_id', Nat.ofDigits_append,
    Nat.ofDigits_replicate_zero, Nat.mul_zero, Nat.add_zero, Nat.ofDigits_digits]

theorem cliPath_injective : Function.Injective cliPath := fun _ _ heq =>
  Function.LeftInverse.injective decimalValue_decimal5 (List.append_cancel_left heq)

theorem cliPath_ne_lockFile (pid : Nat) : cliPath pid ≠ lockFile := by
  intro heq
  have hhead := congrArg List.head? heq
  simp [cliPath, lockFile, ascii] at hhead

/-! ## the processes and their files -/

/-- `STALE`. -/
def stale : Int := 30

/-- `S_IRWXU`, `S_IRWXG` and `S_IRWXO`. -/
def sIrwxu : Nat := 0o700
def sIrwxg : Nat := 0o070
def sIrwxo : Nat := 0o007

/-- `CLI_PERM`. -/
def cliPerm : Nat := sIrwxu

/-- What `stat` tells of a file, as far as it is looked at. -/
structure Stat where
  mode : Nat
  atime : Int
  mtime : Int
  ctime : Int
  deriving DecidableEq, Repr

/-- Where `unix_client_conn` stands. -/
inductive ClientPc where
  | socket
  | unlink
  | bind
  | chmod
  | connect
  | connected
  | failed (rval : Int)
  | exited
  deriving DecidableEq, Repr

/-- A client, with the time at which it has bound its socket. -/
structure Client where
  pc : ClientPc
  bound : Option Int
  deriving DecidableEq, Repr

/-- Where the server stands: in `unix_server_listen`, or in `unix_server_accept` with the connection
of a client and the time at which its file has been found in order. -/
inductive ServerPc where
  | socket
  | unlink
  | bind
  | listen
  | failed (rval : Int)
  | accept
  | stat (pid : Nat)
  | check (pid : Nat) (statbuf : Stat)
  | unlinkClient (pid : Nat) (checked : Int)
  | rejected (pid : Nat) (rval : Int) (checked : Int)
  | exited
  deriving DecidableEq, Repr

/-- The server has called `listen`, so that clients can connect. -/
def ServerPc.listens : ServerPc → Bool
  | .accept => true
  | .stat _ => true
  | .check _ _ => true
  | .unlinkClient _ _ => true
  | _ => false

/-- The processes, the files, the connections that have not been accepted, and the clients that the
server has taken, each with the time at which its file was looked at. -/
structure State where
  now : Int
  files : List UInt8 → Option Stat
  queue : List Nat
  clients : Nat → Client
  server : ServerPc
  accepted : List (Nat × Int)

/-- A second passes, or a process makes its next call.  `perm` are the permissions that a file gets
which `bind` makes. -/
inductive Event where
  | tick
  | client (pid : Nat) (ok : Bool) (perm : Nat)
  | server (ok : Bool) (perm : Nat)
  deriving DecidableEq, Repr

namespace State

def start (now : Int) : State :=
  { now, files := fun _ => none, queue := [], clients := fun _ => { pc := .socket, bound := none }
    server := .socket, accepted := [] }

/-- A client goes on. -/
def goto (s : State) (pid : Nat) (pc : ClientPc) : State :=
  { s with clients := update s.clients pid { s.clients pid with pc := pc } }

/-- A file is made, changed or removed. -/
def setFile (s : State) (path : List UInt8) (st : Option Stat) : State :=
  { s with files := update s.files path st }

/-- A file that is made now. -/
def made (s : State) (perm : Nat) : Stat :=
  { mode := perm, atime := s.now, mtime := s.now, ctime := s.now }

/-- The next call of `unix_client_conn` in process `pid`. -/
def clientStep (s : State) (pid : Nat) (ok : Bool) (perm : Nat) : Option State :=
  match (s.clients pid).pc, ok with
  | .socket, true => some (s.goto pid .unlink)
  | .socket, false => some (s.goto pid .exited)
  | .unlink, true => some ((s.setFile (cliPath pid) none).goto pid .bind)
  | .unlink, false => some (s.goto pid .bind)
  | .bind, true =>
    -- an address that exists is in use
    if s.files (cliPath pid) = none then
      some { s.setFile (cliPath pid) (some (s.made perm)) with
        clients := update s.clients pid { pc := .chmod, bound := some s.now } }
    else none
  | .bind, false => some (s.goto pid (.failed (-2)))
  | .chmod, true =>
    match s.files (cliPath pid) with
    | some st =>
      some ((s.setFile (cliPath pid)
        (some { st with mode := cliPerm, ctime := s.now })).goto pid .connect)
    | none => none
  | .chmod, false => some (s.goto pid (.failed (-3)))
  | .connect, true =>
    if s.server.listens then some ({ s with queue := s.queue ++ [pid] }.goto pid .connected)
    else none
  | .connect, false => some (s.goto pid (.failed (-4)))
  | _, _ => none

/-- `unix_server_accept` with the file of its client. -/
def check (s : State) (pid : Nat) (statbuf : Stat) : ServerPc :=
  let staletime := s.now - stale
  if statbuf.mode &&& (sIrwxg ||| sIrwxo) ≠ 0 ∨ statbuf.mode &&& sIrwxu ≠ sIrwxu then
    .rejected pid (-4) s.now
  else if statbuf.atime < staletime ∨ statbuf.ctime < staletime ∨ statbuf.mtime < staletime then
    .rejected pid (-5) s.now
  else .unlinkClient pid s.now

/-- The next call of the server.  `main` exits when `unix_server_listen` or `unix_server_accept`
fails. -/
def serverStep (s : State) (ok : Bool) (perm : Nat) : Option State :=
  match s.server, ok with
  | .socket, true => some { s with server := .unlink }
  | .socket, false => some { s with server := .failed (-1) }
  | .unlink, true => some { s.setFile lockFile none with server := .bind }
  | .unlink, false => some { s with server := .bind }
  | .bind, true =>
    if s.files lockFile = none then
      some { s.setFile lockFile (some (s.made perm)) with server := .listen }
    else none
  | .bind, false => some { s with server := .failed (-2) }
  | .listen, true => some { s with server := .accept }
  | .listen, false => some { s with server := .failed (-3) }
  | .accept, true =>
    match s.queue with
    | pid :: rest => some { s with queue := rest, server := .stat pid }
    | [] => none
  | .accept, false => some { s with server := .exited }
  | .stat pid, true =>
    match s.files (cliPath pid) with
    | some st => some { s with server := .check pid st }
    | none => some { s with server := .rejected pid (-2) s.now }
  | .stat pid, false => some { s with server := .rejected pid (-2) s.now }
  | .check pid st, _ => some { s with server := s.check pid st }
  | .unlinkClient pid checked, true =>
    some { s.setFile (cliPath pid) none with
      server := .accept, accepted := s.accepted ++ [(pid, checked)] }
  | .unlinkClient pid checked, false =>
    some { s with server := .accept, accepted := s.accepted ++ [(pid, checked)] }
  | _, _ => none

/-- One step. -/
def step (s : State) : Event → Option State
  | .tick => some { s with now := s.now + 1 }
  | .client pid ok perm => s.clientStep pid ok perm
  | .server ok perm => s.serverStep ok perm

end State

/-! ## what a step can do -/

/-- A client that is not at work on its file. -/
def ClientPc.idle : ClientPc → Bool
  | .chmod => false
  | .connect => false
  | .connected => false
  | _ => true

/-- The client whose connection the server has in hand. -/
def ServerPc.inHand : ServerPc → List Nat
  | .stat pid => [pid]
  | .check pid _ => [pid]
  | .unlinkClient pid _ => [pid]
  | .rejected pid _ _ => [pid]
  | _ => []

/-- The steps, with what enables each of them.  Those that concern neither the file of a client nor
its connection are put together. -/
inductive Step (s : State) : State → Prop
  | tick : Step s { s with now := s.now + 1 }
  | move {pid : Nat} {pc : ClientPc} : (s.clients pid).pc ≠ .connected → pc.idle = true →
      Step s (s.goto pid pc)
  | unlink {pid : Nat} : (s.clients pid).pc = .unlink →
      Step s ((s.setFile (cliPath pid) none).goto pid .bind)
  | bind {pid perm : Nat} : (s.clients pid).pc = .bind →
      Step s { s.setFile (cliPath pid) (some (s.made perm)) with
        clients := update s.clients pid { pc := .chmod, bound := some s.now } }
  | chmod {pid : Nat} {st : Stat} : (s.clients pid).pc = .chmod → s.files (cliPath pid) = some st →
      Step s ((s.setFile (cliPath pid)
        (some { st with mode := cliPerm, ctime := s.now })).goto pid .connect)
  | connect {pid : Nat} : (s.clients pid).pc = .connect →
      Step s ({ s with queue := s.queue ++ [pid] }.goto pid .connected)
  | server {files : List UInt8 → Option Stat} {pc : ServerPc} : s.server.inHand = [] →
      pc.inHand = [] → (∀ pid, files (cliPath pid) = s.files (cliPath pid)) →
      Step s { s with files := files, server := pc }
  | accept {pid : Nat} {rest : List Nat} : s.server = .accept → s.queue = pid :: rest →
      Step s { s with queue := rest, server := .stat pid }
  | unknown {pid : Nat} : s.server = .stat pid →
      Step s { s with server := .rejected pid (-2) s.now }
  | stat {pid : Nat} {st : Stat} : s.server = .stat pid → s.files (cliPath pid) = some st →
      Step s { s with server := .check pid st }
  | check {pid : Nat} {st : Stat} : s.server = .check pid st →
      Step s { s with server := s.check pid st }
  | taken {pid : Nat} {checked : Int} {files : List UInt8 → Option Stat} :
      s.server = .unlinkClient pid checked →
      (∀ pid', pid' ≠ pid → files (cliPath pid') = s.files (cliPath pid')) →
      Step s { s with
        files := files, server := .accept, accepted := s.accepted ++ [(pid, checked)] }

variable {s s' : State} {e : Event}

theorem clientStep_cases {pid perm : Nat} {ok : Bool} (hs : s.clientStep pid ok perm = some s') :
    Step s s' := by
  unfold State.clientStep at hs
  split at hs
  · next hpc =>
      cases hs
      exact .move (by simp [hpc]) rfl
  · next hpc =>
      cases hs
      exact .move (by simp [hpc]) rfl
  · next hpc =>
      cases hs
      exact .unlink hpc
  · next hpc =>
      cases hs
      exact .move (by simp [hpc]) rfl
  · next hpc =>
      obtain ⟨-, ⟨⟩⟩ := Option.ite_none_right_eq_some.mp hs
      exact .bind hpc
  · next hpc =>
      cases hs
      exact .move (by simp [hpc]) rfl
  · next hpc =>
      split at hs
      · next hst =>
          cases hs
          exact .chmod hpc hst
      · contradiction
  · next hpc =>
      cases hs
      exact .move (by simp [hpc]) rfl
  · next hpc =>
      obtain ⟨-, ⟨⟩⟩ := Option.ite_none_right_eq_some.mp hs
      exact .connect hpc
  · next hpc =>
      cases hs
      exact .move (by simp [hpc]) rfl
  · contradiction

theorem setFile_lockFile (s : State) (st : Option Stat) (pid : Nat) :
    (s.setFile lockFile st).files (cliPath pid) = s.files (cliPath pid) :=
  Function.update_of_ne (cliPath_ne_lockFile pid) st s.files

theorem setFile_of_ne (s : State) (st : Option Stat) {pid pid' : Nat} (h : pid' ≠ pid) :
    (s.setFile (cliPath pid) st).files (cliPath pid') = s.files (cliPath pid') :=
  Function.update_of_ne (fun heq => h (cliPath_injective heq)) _ _

theorem serverStep_cases {perm : Nat} {ok : Bool} (hs : s.serverStep ok perm = some s') :
    Step s s' := by
  -- a step of `unix_server_listen`, or one in which `main` exits
  have quiet {pc : ServerPc} (hpc : s.server.inHand = []) (hpc' : pc.inHand = []) :
      Step s { s with server := pc } := .server hpc hpc' fun _ => rfl
  unfold State.serverStep at hs
  split at hs
  · next hpc =>
      cases hs
      exact quiet (by rw [hpc]; rfl) rfl
  · next hpc =>
      cases hs
      exact quiet (by rw [hpc]; rfl) rfl
  · next hpc =>
      cases hs
      exact .server (by rw [hpc]; rfl) rfl (setFile_lockFile s _)
  · next hpc =>
      cases hs
      exact quiet (by rw [hpc]; rfl) rfl
  · next hpc =>
      obtain ⟨-, ⟨⟩⟩ := Option.ite_none_right_eq_some.mp hs
      exact .server (by rw [hpc]; rfl) rfl (setFile_lockFile s _)
  · next hpc =>
      cases hs
      exact quiet (by rw [hpc]; rfl) rfl
  · next hpc =>
      cases hs
      exact quiet (by rw [hpc]; rfl) rfl
  · next hpc =>
      cases hs
      exact quiet (by rw [hpc]; rfl) rfl
  · next hpc =>
      split at hs
      · next hqueue =>
          cases hs
          exact .accept hpc hqueue
      · contradiction
  · next hpc =>
      cases hs
      exact quiet (by rw [hpc]; rfl) rfl
  · next hpc =>
      split at hs
      · next hst =>
          cases hs
          exact .stat hpc hst
      · cases hs
        exact .unknown hpc
  · next hpc =>
      cases hs
      exact .unknown hpc
  · next hpc =>
      cases hs
      exact .check hpc
  · next hpc =>
      cases hs
      exact .taken hpc fun _ hne => setFile_of_ne s none hne
  · next hpc =>
      cases hs
      exact .taken hpc fun _ _ => rfl
  · contradiction

theorem step_cases (hs : s.step e = some s') : Step s s' := by
  cases e with
  | tick =>
      cases hs
      exact .tick
  | client => exact clientStep_cases hs
  | server => exact serverStep_cases hs

/-! ## the files of the clients -/

/-- The file of a client that has bound its socket at time `b`. -/
structure Dated (s : State) (pid : Nat) (b : Int) (st : Stat) : Prop where
  bound : (s.clients pid).bound = some b
  atime : st.atime = b
  mtime : st.mtime = b
  ctime : b ≤ st.ctime
  past : b ≤ s.now

/-- The file of a client is there. -/
def HasFile (s : State) (pid : Nat) (P : Stat → Prop) : Prop :=
  ∃ b st, s.files (cliPath pid) = some st ∧ Dated s pid b st ∧ P st

/-- What a client has done for its file. -/
def ClientOk (s : State) (pid : Nat) : Prop :=
  match (s.clients pid).pc with
  | .chmod => HasFile s pid fun _ => True
  | .connect => HasFile s pid fun st => st.mode = cliPerm
  | .connected =>
    (pid ∈ s.queue ∨ s.server = .stat pid) → HasFile s pid fun st => st.mode = cliPerm
  | _ => True

/-- The file was at most `STALE` seconds old at time `t`. -/
def InTime (s : State) (pid : Nat) (t : Int) : Prop :=
  ∃ b, (s.clients pid).bound = some b ∧ b ≤ t ∧ t ≤ b + stale

/-- The file was older than that. -/
def TooLate (s : State) (pid : Nat) (t : Int) : Prop :=
  ∃ b, (s.clients pid).bound = some b ∧ b + stale < t

/-- What the server has found out about the file of its client. -/
def ServerOk (s : State) : ServerPc → Prop
  | .check pid st => ∃ b, Dated s pid b st ∧ st.mode = cliPerm
  | .unlinkClient pid t => InTime s pid t
  | .rejected pid rval t => rval = -2 ∨ (rval = -5 ∧ TooLate s pid t)
  | _ => True

/-- The clients that have connected: those that wait, the one in hand and those that were taken. -/
def State.line (s : State) : List Nat :=
  s.queue ++ s.server.inHand ++ s.accepted.map Prod.fst

structure Inv (s : State) : Prop where
  nodup : s.line.Nodup
  line : ∀ pid, pid ∈ s.line ↔ (s.clients pid).pc = .connected
  client : ∀ pid, ClientOk s pid
  server : ServerOk s s.server
  accepted : ∀ pid t, (pid, t) ∈ s.accepted → InTime s pid t

theorem inv_start (now : Int) : Inv (.start now) where
  nodup := .nil
  line _ := by simp [State.line, State.start, ServerPc.inHand]
  client _ := trivial
  server := trivial
  accepted := nofun

section Frame

variable {pid : Nat}

theorem Dated.frame {b : Int} {st : Stat} (h : Dated s pid b st)
    (hbound : (s'.clients pid).bound = (s.clients pid).bound) (hnow : s.now ≤ s'.now) :
    Dated s' pid b st :=
  ⟨hbound.trans h.bound, h.atime, h.mtime, h.ctime, Int.le_trans h.past hnow⟩

theorem HasFile.frame {P : Stat → Prop} (h : HasFile s pid P)
    (hbound : (s'.clients pid).bound = (s.clients pid).bound)
    (hfile : s'.files (cliPath pid) = s.files (cliPath pid)) (hnow : s.now ≤ s'.now) :
    HasFile s' pid P := by
  obtain ⟨b, st, hst, hdated, hP⟩ := h
  exact ⟨b, st, hfile.trans hst, hdated.frame hbound hnow, hP⟩

theorem ClientOk.frame (h : ClientOk s pid) (hclient : s'.clients pid = s.clients pid)
    (hfile : s'.files (cliPath pid) = s.files (cliPath pid)) (hnow : s.now ≤ s'.now)
    (hwaits : pid ∈ s'.queue ∨ s'.server = .stat pid → pid ∈ s.queue ∨ s.server = .stat pid) :
    ClientOk s' pid := by
  have hbound : (s'.clients pid).bound = (s.clients pid).bound := congrArg Client.bound hclient
  unfold ClientOk at h ⊢
  rw [hclient]
  cases hpc : (s.clients pid).pc with
  | chmod =>
      rw [hpc] at h
      exact HasFile.frame h hbound hfile hnow
  | connect =>
      rw [hpc] at h
      exact HasFile.frame h hbound hfile hnow
  | connected =>
      rw [hpc] at h
      exact fun hin => (h (hwaits hin)).frame hbound hfile hnow
  | _ => trivial

theorem InTime.frame {t : Int} (h : InTime s pid t)
    (hbound : (s'.clients pid).bound = (s.clients pid).bound) : InTime s' pid t := by
  obtain ⟨b, hb, hle⟩ := h
  exact ⟨b, hbound.trans hb, hle⟩

theorem ServerOk.frame {pc : ServerPc} (h : ServerOk s pc)
    (hbound : ∀ pid ∈ pc.inHand, (s'.clients pid).bound = (s.clients pid).bound)
    (hnow : s.now ≤ s'.now) : ServerOk s' pc := by
  cases pc with
  | check pid st =>
      obtain ⟨b, hdated, hmode⟩ := h
      exact ⟨b, hdated.frame (hbound pid (by simp [ServerPc.inHand])) hnow, hmode⟩
  | unlinkClient pid t => exact InTime.frame h (hbound pid (by simp [ServerPc.inHand]))
  | rejected pid rval t =>
      refine Or.imp_right ?_ h
      rintro ⟨hrval, b, hb, hlt⟩
      exact ⟨hrval, b, (hbound pid (by simp [ServerPc.inHand])).trans hb, hlt⟩
  | _ => trivial

end Frame

/-- The verdict on a file with the right permissions depends on its age alone. -/
theorem serverOk_check {pid : Nat} {b : Int} {st : Stat} (hdated : Dated s pid b st)
    (hmode : st.mode = cliPerm) :
    ServerOk s (s.check pid st) ∧ (s.check pid st).inHand = [pid] ∧
      s.check pid st ≠ .stat pid := by
  have hperm : ¬ (st.mode &&& (sIrwxg ||| sIrwxo) ≠ 0 ∨ st.mode &&& sIrwxu ≠ sIrwxu) := by
    rw [hmode]
    decide
  unfold State.check
  dsimp only
  rw [if_neg hperm, hdated.atime, hdated.mtime]
  have hctime := hdated.ctime
  split
  · next hold => exact ⟨.inr ⟨rfl, b, hdated.bound, by omega⟩, rfl, by simp⟩
  · next hnew => exact ⟨⟨b, hdated.bound, hdated.past, by omega⟩, rfl, by simp⟩

namespace Inv

/-- A client that has not connected does something with its file. -/
theorem own (h : Inv s) {pid : Nat} {c : Client} {files : List UInt8 → Option Stat}
    (hpc : (s.clients pid).pc ≠ .connected) (hpc' : c.pc ≠ .connected)
    (hfiles : ∀ pid', pid' ≠ pid → files (cliPath pid') = s.files (cliPath pid'))
    (hok : ClientOk { s with files := files, clients := update s.clients pid c } pid) :
    Inv { s with files := files, clients := update s.clients pid c } := by
  have hother {pid' : Nat} (hne : pid' ≠ pid) : update s.clients pid c pid' = s.clients pid' :=
    Function.update_of_ne hne _ _
  have hin {pid' : Nat} (hmem : pid' ∈ s.line) : pid' ≠ pid := by
    rintro rfl
    exact hpc ((h.line _).mp hmem)
  have hbound {pid' : Nat} (hmem : pid' ∈ s.line) :
      (update s.clients pid c pid').bound = (s.clients pid').bound := by
    rw [hother (hin hmem)]
  refine ⟨h.nodup, fun pid' => ?_, fun pid' => ?_, ?_, fun pid' t hmem => ?_⟩
  · by_cases heq : pid' = pid
    · subst heq
      show _ ↔ (update s.clients pid' c pid').pc = _
      rw [Function.update_self]
      exact iff_of_false (fun hmem => hpc ((h.line _).mp hmem)) hpc'
    · show _ ↔ (update s.clients pid c pid').pc = _
      rw [hother heq]
      exact h.line pid'
  · by_cases heq : pid' = pid
    · rw [heq]
      exact hok
    · exact (h.client pid').frame (hother heq) (hfiles pid' heq) (Int.le_refl _) id
  · refine h.server.frame (fun pid' hmem => hbound ?_) (Int.le_refl _)
    simp only [State.line, List.mem_append]
    exact .inl (.inr hmem)
  · refine (h.accepted pid' t hmem).frame (hbound ?_)
    simp only [State.line, List.mem_append, List.mem_map]
    exact .inr ⟨_, hmem, rfl⟩

/-- The server does something that concerns none of the clients' files. -/
theorem serverMove (h : Inv s) {files : List UInt8 → Option Stat} {pc : ServerPc}
    (hpc : s.server.inHand = []) (hpc' : pc.inHand = [])
    (hfiles : ∀ pid, files (cliPath pid) = s.files (cliPath pid)) :
    Inv { s with files := files, server := pc } := by
  have hline : State.line { s with files := files, server := pc } = s.line := by
    simp only [State.line, hpc, hpc']
  refine ⟨hline ▸ h.nodup, fun pid => hline ▸ h.line pid, fun pid => ?_, ?_, h.accepted⟩
  · refine (h.client pid).frame rfl (hfiles pid) (Int.le_refl _) ?_
    rintro (hin | rfl)
    · exact .inl hin
    · contradiction
  · cases pc <;> trivial

/-- The file of the client whose connection the server has accepted. -/
theorem statFile (h : Inv s) {pid : Nat} (hpc : s.server = .stat pid) :
    HasFile s pid fun st => st.mode = cliPerm := by
  have hmem : pid ∈ s.line := by simp [State.line, hpc, ServerPc.inHand]
  have hok := h.client pid
  simp only [ClientOk, (h.line pid).mp hmem] at hok
  exact hok (.inr hpc)

/-- The server goes on with the client that it has in hand. -/
theorem serverNext (h : Inv s) {pid : Nat} {pc : ServerPc} (hpc : s.server.inHand = [pid])
    (hpc' : pc.inHand = [pid]) (hstat : pc ≠ .stat pid) (hok : ServerOk s pc) :
    Inv { s with server := pc } := by
  have hline : State.line { s with server := pc } = s.line := by
    simp only [State.line, hpc, hpc']
  refine ⟨hline ▸ h.nodup, fun pid' => hline ▸ h.line pid', fun pid' => ?_, ?_, h.accepted⟩
  · refine (h.client pid').frame rfl rfl (Int.le_refl _) ?_
    rintro (hin | rfl)
    · exact .inl hin
    · cases hpc'
      exact absurd rfl hstat
  · exact hok.frame (fun _ _ => rfl) (Int.le_refl _)

/-- A client connects, and waits. -/
theorem connects (h : Inv s) {pid : Nat} (hpc : (s.clients pid).pc = .connect) :
    Inv ({ s with queue := s.queue ++ [pid] }.goto pid .connected) := by
  have hfile := h.client pid
  simp only [ClientOk, hpc] at hfile
  have hnew : pid ∉ s.line := fun hmem => by simpa [hpc] using (h.line pid).mp hmem
  have hother {pid' : Nat} (hne : pid' ≠ pid) :
      (State.goto { s with queue := s.queue ++ [pid] } pid .connected).clients pid' =
        s.clients pid' := Function.update_of_ne hne _ _
  have hbound (pid' : Nat) :
      ((State.goto { s with queue := s.queue ++ [pid] } pid .connected).clients pid').bound =
        (s.clients pid').bound := by
    by_cases heq : pid' = pid
    · rw [heq]
      simp [State.goto]
    · rw [hother heq]
  have hperm : (State.goto { s with queue := s.queue ++ [pid] } pid .connected).line.Perm
      (pid :: s.line) := by
    simp only [State.line, State.goto, List.append_assoc, List.singleton_append]
    exact List.perm_middle
  refine ⟨hperm.symm.nodup (List.nodup_cons.mpr ⟨hnew, h.nodup⟩), fun pid' => ?_,
    fun pid' => ?_, h.server.frame (fun pid' _ => hbound pid') (Int.le_refl _),
    fun pid' t hmem => (h.accepted pid' t hmem).frame (hbound pid')⟩
  · rw [hperm.mem_iff, List.mem_cons]
    by_cases heq : pid' = pid
    · subst heq
      simp [State.goto]
    · rw [hother heq, h.line pid']
      exact or_iff_right heq
  · by_cases heq : pid' = pid
    · subst heq
      simp only [ClientOk, State.goto, Function.update_self]
      exact fun _ => hfile.frame (hbound pid') rfl (Int.le_refl _)
    · refine (h.client pid').frame (hother heq) rfl (Int.le_refl _) ?_
      rintro (hin | hstat)
      · obtain hin | hin := List.mem_append.mp hin
        · exact .inl hin
        · exact absurd (List.mem_singleton.mp hin) heq
      · exact .inr hstat

/-- The server takes the client that it has in hand. -/
theorem takes (h : Inv s) {pid : Nat} {checked : Int} {files : List UInt8 → Option Stat}
    (hpc : s.server = .unlinkClient pid checked)
    (hfiles : ∀ pid', pid' ≠ pid → files (cliPath pid') = s.files (cliPath pid')) :
    Inv { s with
      files := files, server := .accept, accepted := s.accepted ++ [(pid, checked)] } := by
  have hok := h.server
  rw [hpc] at hok
  have hperm : (s.queue ++ s.accepted.map Prod.fst ++ [pid]).Perm s.line := by
    simp only [State.line, hpc, ServerPc.inHand, List.append_assoc]
    exact List.Perm.append_left _ List.perm_append_comm
  have hline : State.line { s with
      files := files, server := .accept, accepted := s.accepted ++ [(pid, checked)] } |>.Perm
      s.line := by
    simpa [State.line, ServerPc.inHand] using hperm
  have hnot : pid ∉ s.queue := by
    have hnodup := h.nodup
    simp only [State.line, hpc, ServerPc.inHand, List.append_assoc] at hnodup
    intro hin
    exact (List.nodup_append.mp hnodup).2.2 pid hin pid (by simp) rfl
  refine ⟨hline.symm.nodup h.nodup, fun pid' => hline.mem_iff.trans (h.line pid'),
    fun pid' => ?_, trivial, fun pid' t hmem => ?_⟩
  · by_cases heq : pid' = pid
    · subst heq
      have hconn := (h.line pid').mp (by simp [State.line, hpc, ServerPc.inHand])
      simp only [ClientOk, hconn]
      rintro (hin | hstat)
      · exact absurd hin hnot
      · contradiction
    · refine (h.client pid').frame rfl (hfiles pid' heq) (Int.le_refl _) ?_
      rintro (hin | hstat)
      · exact .inl hin
      · contradiction
  · obtain hmem | hmem := List.mem_append.mp hmem
    · exact h.accepted pid' t hmem
    · cases List.mem_singleton.mp hmem
      exact hok

theorem step (h : Inv s) (hs : s.step e = some s') : Inv s' := by
  cases step_cases hs with
  | tick =>
      have hnow : s.now ≤ s.now + 1 := by omega
      exact ⟨h.nodup, h.line, fun pid => (h.client pid).frame rfl rfl hnow id,
        h.server.frame (fun _ _ => rfl) hnow, h.accepted⟩
  | @move pid pc hpc hidle =>
      refine h.own hpc (by rintro rfl; contradiction) (fun _ _ => rfl) ?_
      simp only [ClientOk, Function.update_self]
      cases pc <;> trivial
  | unlink hpc =>
      refine h.own (by simp [hpc]) (by simp) (fun pid' hne => setFile_of_ne s none hne) ?_
      simp only [ClientOk, Function.update_self]
  | @bind pid perm hpc =>
      refine h.own (by simp [hpc]) (by simp) (fun pid' hne => setFile_of_ne s _ hne) ?_
      simp only [ClientOk, Function.update_self]
      refine ⟨s.now, s.made perm, Function.update_self _ _ _, ?_, trivial⟩
      exact ⟨by simp, rfl, rfl, Int.le_refl _, Int.le_refl _⟩
  | @chmod pid st hpc hst =>
      have hfile := h.client pid
      simp only [ClientOk, hpc] at hfile
      obtain ⟨b, st', hst', hdated, -⟩ := hfile
      cases hst.symm.trans hst'
      refine h.own (by simp [hpc]) (by simp) (fun pid' hne => setFile_of_ne s _ hne) ?_
      simp only [ClientOk, Function.update_self]
      refine ⟨b, _, Function.update_self _ _ _, ?_, rfl⟩
      exact ⟨by simpa [State.setFile] using hdated.bound, hdated.atime, hdated.mtime, hdated.past,
        hdated.past⟩
  | connect hpc => exact h.connects hpc
  | server hpc hpc' hfiles => exact h.serverMove hpc hpc' hfiles
  | @accept pid rest hpc hqueue =>
      have hline : State.line { s with queue := rest, server := .stat pid } |>.Perm s.line := by
        simp only [State.line, hpc, hqueue, ServerPc.inHand, List.append_nil, List.cons_append,
          List.append_assoc]
        exact List.perm_middle
      refine ⟨hline.symm.nodup h.nodup, fun pid' => hline.mem_iff.trans (h.line pid'),
        fun pid' => ?_, trivial, h.accepted⟩
      refine (h.client pid').frame rfl rfl (Int.le_refl _) fun hin => .inl ?_
      rw [hqueue]
      obtain hin | hstat := hin
      · exact List.mem_cons_of_mem _ hin
      · cases hstat
        exact List.mem_cons_self
  | @unknown pid hpc => exact h.serverNext (by rw [hpc]; rfl) rfl (by simp) (.inl rfl)
  | @stat pid st hpc hst =>
      obtain ⟨b, st', hst', hdated, hmode⟩ := h.statFile hpc
      cases hst.symm.trans hst'
      exact h.serverNext (by rw [hpc]; rfl) rfl (by simp) ⟨b, hdated, hmode⟩
  | @check pid st hpc =>
      have hok := h.server
      rw [hpc] at hok
      obtain ⟨b, hdated, hmode⟩ := hok
      obtain ⟨hok', hhand, hne⟩ := serverOk_check hdated hmode
      exact h.serverNext (by rw [hpc]; rfl) hhand hne hok'
  | taken hpc hfiles => exact h.takes hpc hfiles

end Inv

/-! ## files that cannot be looked at -/

/-- `stat` fails although the file of the client is there. -/
def statFailed (s : State) : Event → List (Nat × Int)
  | .server false _ =>
    match s.server with
    | .stat pid => if (s.files (cliPath pid)).isSome then [(pid, s.now)] else []
    | _ => []
  | _ => []

theorem check_ne (s : State) (pid pid' : Nat) (st : Stat) (t : Int) :
    s.check pid st ≠ .rejected pid' (-2) t := by
  unfold State.check
  dsimp only
  split
  · simp
  · split <;> simp

theorem server_clientStep {pid perm : Nat} {ok : Bool} (hs : s.clientStep pid ok perm = some s') :
    s'.server = s.server := by
  unfold State.clientStep at hs
  split at hs
  all_goals first
    | contradiction
    | (cases hs; rfl)
    | (obtain ⟨-, ⟨⟩⟩ := Option.ite_none_right_eq_some.mp hs; rfl)
    | (split at hs <;> cases hs; rfl)

/-- The server gives up with `-2` at its `stat` only. -/
theorem Step.stat_of_rejected (h : Step s s') {pid : Nat} {t : Int}
    (hpc : s'.server = .rejected pid (-2) t) :
    s.server = .rejected pid (-2) t ∨ s.server = .stat pid ∧ t = s.now := by
  cases h with
  | tick | move | unlink | bind | chmod | connect => exact .inl hpc
  | @server _ pc' _ hhand' =>
      obtain rfl : pc' = .rejected pid (-2) t := hpc
      contradiction
  | unknown hstat =>
      cases hpc
      exact .inr ⟨hstat, rfl⟩
  | @check pid' st => exact absurd hpc (check_ne s pid' pid st t)
  | accept | stat | taken => contradiction

/-- And it does so for no other reason than that this has failed: the file is there. -/
theorem Inv.statFailed_of_rejected (h : Inv s) (hs : s.step e = some s') {pid : Nat} {t : Int}
    (hpc : s'.server = .rejected pid (-2) t) :
    s.server = .rejected pid (-2) t ∨ (pid, t) ∈ statFailed s e := by
  obtain hold | ⟨hold, rfl⟩ := (step_cases hs).stat_of_rejected hpc
  · exact .inl hold
  · obtain ⟨b, st, hst, -⟩ := h.statFile hold
    cases e with
    | tick =>
        cases hs
        exact .inl hpc
    | client => exact .inl (server_clientStep hs ▸ hpc)
    | server ok perm =>
        cases ok with
        | true =>
            simp only [State.step, State.serverStep, hold, hst, Option.some.injEq] at hs
            cases hs
            contradiction
        | false => exact .inr (by simp [statFailed, hold, hst])

/-- **Whether the server takes a client depends on the age of its file alone**, if it can look at
it, whatever else fails and in whatever order the processes run.  A client that it has taken had
bound its socket at most `STALE` seconds before the server looked.  A client that it rejects had
done so earlier, and is rejected for that reason, unless `stat` has failed on a file that is there;
it is never rejected for the permissions of its file or because that is missing.  Each client that
has connected waits, is in hand or has been taken, and it is one of these only once. -/
theorem rendezvous_decided_by_age (now : Int) (es : List Event) (s : State)
    (hrun : Run State.step any (.start now) es s) :
    (∀ pid t, (pid, t) ∈ s.accepted → InTime s pid t) ∧
      (∀ pid rval t, s.server = .rejected pid rval t →
        (rval = -5 ∧ TooLate s pid t) ∨
          (rval = -2 ∧ (pid, t) ∈ outputs State.step statFailed (.start now) es)) ∧
      s.line.Nodup ∧ ∀ pid, pid ∈ s.line ↔ (s.clients pid).pc = .connected := by
  have hinv : Inv s ∧ ∀ pid t, s.server = .rejected pid (-2) t →
      (pid, t) ∈ outputs State.step statFailed (.start now) es := by
    refine hrun.inv_outputs (I := fun failed s => Inv s ∧ ∀ pid t,
      s.server = .rejected pid (-2) t → (pid, t) ∈ failed) ⟨inv_start now, nofun⟩ ?_
    rintro failed s₁ e s₂ ⟨h, hfailed⟩ - hs
    refine ⟨h.step hs, fun pid t hpc => List.mem_append.mpr ?_⟩
    exact (h.statFailed_of_rejected hs hpc).imp_left (hfailed pid t)
  obtain ⟨hinv, hfailed⟩ := hinv
  refine ⟨hinv.accepted, fun pid rval t hpc => ?_, hinv.nodup, hinv.line⟩
  have hok := hinv.server
  rw [hpc] at hok
  obtain rfl | hlate := hok
  · exact .inr ⟨rfl, hfailed pid t hpc⟩
  · exact .inl hlate

/-- The calls that `pid` makes until it has connected. -/
def conn (pid : Nat) : List Event :=
  [.client pid true 0, .client pid false 0, .client pid true 0o755, .client pid true 0,
    .client pid true 0]

/-- Two clients connect.  The server takes the first one at once, and looks at the file of the
second one half a minute later. -/
def lateRun : List Event :=
  [.server true 0, .server false 0, .server true 0o755, .server true 0] ++ conn 4711 ++
    conn 123456 ++ List.replicate 4 (.server true 0) ++ List.replicate 31 .tick ++
    List.replicate 3 (.server true 0)

/-- One client is taken and one is rejected. -/
theorem rendezvous_decided_by_age_late : ∃ s, Run State.step any (.start 0) lateRun s ∧
    InTime s 4711 0 ∧ TooLate s 123456 31 := by
  have hexec : (exec State.step (fun _ _ => true) (.start 0) lateRun).map
      (fun s => (s.accepted, s.server)) =
        some ([(4711, 0)], .rejected 123456 (-5) 31) := by
    decide +kernel
  obtain ⟨s, hrun, hobs⟩ := exists_run_of_exec _ _ hexec
  simp only [Prod.mk.injEq] at hobs
  obtain ⟨haccepted, hserver⟩ := hobs
  obtain ⟨htaken, hrejected, -⟩ := rendezvous_decided_by_age 0 _ s hrun.toAny
  obtain ⟨-, hlate⟩ | ⟨hrval, -⟩ := hrejected _ _ _ hserver
  · exact ⟨s, hrun.toAny, htaken 4711 0 (by simp [haccepted]), hlate⟩
  · contradiction

end SysDemos.HotUpgrade.Rendezvous
