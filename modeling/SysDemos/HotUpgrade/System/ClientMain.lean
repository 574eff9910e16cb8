import SysDemos.HotUpgrade.Client
import SysDemos.HotUpgrade.System.Transparency
import SysDemos.Lib.Refinement

/-!
# SysDemos.HotUpgrade.System.ClientMain

`main` of `hot_upgrade_demo/client.cc` during a hot upgrade: it opens ten connections
and then goes round them for ever, with one `client_echo_request` at a time.

In `System` a client sends a frame at once.  Here each `write` and each `read` is a step,
and may be short.  A request that is partly written is, for the servers, one that has been
sent and has partly arrived (`World.whole`): no server can tell the difference, since it
reads what has arrived and the client does not end its streams (`Net.serve_deliver`).

* `refines_frames` — every run is one of `System` with the same calls of the servers;
* `client_served_through_upgrade` — every request that is completed has got back its
  message, and nothing is left on a connection between two requests.
-/

namespace SysDemos.HotUpgrade

open Function (update)
open Lts

/-! ## bytes that are still to arrive -/

namespace Net

variable {n n' : Net} {pid : Pid} {p : Proc} {i : Input} {c c' : ConnId}

/-- More bytes arrive on a connection. -/
def deliver (n : Net) (c : ConnId) (bs : List UInt8) : Net :=
  n.setTcp c { n.tcp c with inbox := (n.tcp c).inbox ++ bs }

theorem setTcp_self (n : Net) (c : ConnId) : n.setTcp c (n.tcp c) = n := by
  simp [setTcp]

theorem deliver_nil (n : Net) (c : ConnId) : n.deliver c [] = n := by
  rw [deliver, List.append_nil]
  exact n.setTcp_self c

theorem tcp_deliver_self (n : Net) (c : ConnId) (bs : List UInt8) :
    (n.deliver c bs).tcp c = { n.tcp c with inbox := (n.tcp c).inbox ++ bs } :=
  Function.update_self _ _ _

theorem tcp_deliver_of_ne (n : Net) (bs : List UInt8) (h : c' ≠ c) :
    (n.deliver c bs).tcp c' = n.tcp c' :=
  Function.update_of_ne h _ _

theorem deliver_setTcp_self (n : Net) (t : Tcp) (bs : List UInt8) :
    (n.setTcp c t).deliver c bs = n.setTcp c { t with inbox := t.inbox ++ bs } := by
  simp [deliver, setTcp]

theorem setTcp_deliver_self (n : Net) (t : Tcp) (bs : List UInt8) :
    (n.deliver c bs).setTcp c t = n.setTcp c t := by
  simp [deliver, setTcp]

theorem deliver_setTcp_of_ne (n : Net) (t : Tcp) (bs : List UInt8) (h : c' ≠ c) :
    (n.setTcp c' t).deliver c bs = (n.deliver c bs).setTcp c' t := by
  simp only [deliver, setTcp, Function.update_of_ne h.symm, Net.mk.injEq, and_true]
  exact Function.update_comm h _ _ _

theorem read_deliver {bs' : List UInt8} (hs : n.read pid c' bs' = some n')
    (hshut : (n.tcp c).shut = false) (bs : List UInt8) :
    (n.deliver c bs).read pid c' bs' = some (n'.deliver c bs) := by
  unfold read at hs ⊢
  by_cases hc : c' = c
  · subst hc
    dsimp only at hs ⊢
    rw [tcp_deliver_self]
    split at hs
    · -- the stream has not ended
      simp [hshut] at hs
    · next hne =>
        obtain ⟨hfront, heq⟩ := Option.ite_none_right_eq_some.mp hs
        cases heq
        rw [if_neg hne, if_pos (hfront.trans (List.prefix_append _ _)), deliver_setTcp_self,
          setTcp_deliver_self, List.drop_append_of_le_length hfront.length_le]
  · dsimp only at hs ⊢
    rw [tcp_deliver_of_ne _ _ hc]
    split at hs
    · next hnil =>
        obtain ⟨hend, heq⟩ := Option.ite_none_right_eq_some.mp hs
        cases heq
        rw [if_pos hnil, if_pos hend]
    · next hne =>
        obtain ⟨hfront, heq⟩ := Option.ite_none_right_eq_some.mp hs
        cases heq
        rw [if_neg hne, if_pos hfront, deliver_setTcp_of_ne _ _ _ hc]

/-- A server makes the same call when more has arrived, as long as the stream has not ended. -/
theorem serve_deliver (hs : n.serve pid p i = some n') (hshut : (n.tcp c).shut = false)
    (bs : List UInt8) : (n.deliver c bs).serve pid p i = some (n'.deliver c bs) := by
  cases i with
  | accept r added =>
      cases r with
      | none =>
          cases hs
          rfl
      | some r =>
          simp only [serve] at hs ⊢
          split at hs
          · contradiction
          · next c₀ backlog hbacklog =>
              obtain ⟨hc₀, heq⟩ := Option.ite_none_right_eq_some.mp hs
              cases heq
              have hsame : (n.deliver c bs).backlog = c₀ :: backlog := hbacklog
              rw [hsame]
              dsimp only
              rw [if_pos hc₀]
              rfl
  | read r =>
      cases r with
      | err e =>
          cases hs
          rfl
      | ret bs' =>
          simp only [serve] at hs ⊢
          split at hs
          · contradiction
          · exact read_deliver hs hshut bs
  | write r =>
      cases r with
      | fail e =>
          cases hs
          rfl
      | ret k =>
          simp only [serve] at hs ⊢
          split at hs
          · contradiction
          · next c₀ conn hsession =>
              cases hs
              by_cases hc : c₀ = c
              · subst hc
                rw [tcp_deliver_self, deliver_setTcp_self, setTcp_deliver_self]
              · rw [tcp_deliver_of_ne _ _ hc, deliver_setTcp_of_ne _ _ _ hc]
  | _ =>
      cases hs
      rfl

/-- A server ends no stream and sends no request for a client. -/
theorem serve_keeps (hs : n.serve pid p i = some n') (c : ConnId) :
    (n'.tcp c).payloads = (n.tcp c).payloads ∧ (n'.tcp c).shut = (n.tcp c).shut := by
  by_cases htouch : ∃ conn, p.session = some (c, conn)
  · obtain ⟨conn, hsession⟩ := htouch
    cases i with
    | read r =>
        cases r with
        | err e =>
            cases hs
            exact ⟨rfl, rfl⟩
        | ret bs =>
            obtain ⟨-, hsame⟩ | ⟨-, -, hread⟩ := tcp_read hs hsession
            · rw [hsame]
              exact ⟨rfl, rfl⟩
            · rw [hread]
              exact ⟨rfl, rfl⟩
    | write r =>
        cases r with
        | fail e =>
            cases hs
            exact ⟨rfl, rfl⟩
        | ret k =>
            rw [tcp_write hs hsession]
            exact ⟨rfl, rfl⟩
    | accept r added =>
        cases r with
        | none =>
            cases hs
            exact ⟨rfl, rfl⟩
        | some r =>
            simp only [serve] at hs
            split at hs
            · contradiction
            · obtain ⟨-, ⟨⟩⟩ := Option.ite_none_right_eq_some.mp hs
              exact ⟨rfl, rfl⟩
    | _ =>
        cases hs
        exact ⟨rfl, rfl⟩
  · push Not at htouch
    rw [tcp_serve hs htouch]
    exact ⟨rfl, rfl⟩

end Net

namespace System

variable {s s' : System} {c : ConnId}

/-- More bytes arrive on a connection. -/
def deliver (s : System) (c : ConnId) (bs : List UInt8) : System :=
  { s with net := s.net.deliver c bs }

theorem step_deliver {pid : Pid} {i : Input} (hs : s.step (.proc pid i) = some s')
    (hshut : (s.net.tcp c).shut = false) (bs : List UInt8) :
    (s.deliver c bs).step (.proc pid i) = some (s'.deliver c bs) := by
  obtain ⟨p', ch', n', hp', hch, hn, rfl⟩ := step_proc hs
  have hn' := Net.serve_deliver hn hshut bs
  have hproc : (s.deliver c bs).proc pid = s.proc pid := by cases pid <;> rfl
  have hchan : (s.deliver c bs).chan.serve pid (s.proc pid) p' i = some ch' := hch
  have hnet : (s.deliver c bs).net.serve pid (s.proc pid) i = some (n'.deliver c bs) := hn'
  simp only [step, hproc, hp', hchan, hnet]
  cases pid <;> rfl

theorem send_deliver {c' : ConnId} {payload : List UInt8} (hs : s.step (.send c' payload) = some s')
    (hne : c' ≠ c) (bs : List UInt8) :
    (s.deliver c bs).step (.send c' payload) = some (s'.deliver c bs) := by
  obtain ⟨hguard, heq⟩ := Option.ite_none_right_eq_some.mp hs
  cases heq
  simp only [step, deliver, Net.tcp_deliver_of_ne _ _ hne, Net.deliver_setTcp_of_ne _ _ _ hne]
  exact if_pos hguard

theorem shut_deliver {c' : ConnId} (hs : s.step (.shut c') = some s') (hne : c' ≠ c)
    (bs : List UInt8) : (s.deliver c bs).step (.shut c') = some (s'.deliver c bs) := by
  cases hs
  simp only [step, deliver, Net.tcp_deliver_of_ne _ _ hne, Net.deliver_setTcp_of_ne _ _ _ hne]

end System

namespace ClientMain

open Client (message writeBuf targetWritePos targetReadPos CallRet iteration countOf)

/-! ## the client -/

/-- `CLIENT_NUM`. -/
def clientNum : Nat := 10

/-- `BUFFER_SIZE`. -/
def bufferSize : Nat := 1024

/-- Where the client stands: in `inet_client_conn` for `client_fds[i]`, or in one of the loops of
`client_echo_request` for it, with `write_pos` or the part of `read_buf` that is filled. -/
inductive Pc where
  | connect (i : Nat)
  | write (i pos : Nat)
  | read (i : Nat) (buf : List UInt8)
  deriving DecidableEq, Repr

/-- The client with the system it is served by.  `taken` counts the bytes that it has read of each
connection, and `replies` lists the requests that are completed, with what they have read. -/
structure World where
  sys : System
  clientFds : List ConnId
  taken : ConnId → Nat
  pc : Pc
  exited : Bool
  replies : List (Nat × List UInt8)

/-- A step: a call of a server, an action of another client, or a call of this one. -/
inductive Move where
  | server (pid : Pid) (i : Input)
  | other (l : Label)
  | connect (ok : Bool)
  | write (r : CallRet)
  | read (r : ReadRet)
  deriving DecidableEq, Repr

namespace World

def start (lfd ufd : Fd) : World :=
  { sys := .init lfd ufd, clientFds := [], taken := fun _ => 0, pc := .connect 0
    exited := false, replies := [] }

/-- The connection of `client_fds[i]`. -/
def fd (w : World) (i : Nat) : ConnId := w.clientFds.getD i 0

/-- What has arrived at the client on a connection and has not been read. -/
def unread (w : World) (c : ConnId) : List UInt8 := (w.sys.net.tcp c).received.drop (w.taken c)

/-- What the other clients can do. -/
def Foreign (w : World) : Label → Prop
  | .connect => True
  | .send c _ => c ∉ w.clientFds
  | .shut c => c ∉ w.clientFds ∧ c < w.sys.net.nconn
  | .proc _ _ => False
  | .kill _ => False

instance (w : World) (l : Label) : Decidable (w.Foreign l) :=
  match l with
  | .connect => isTrue trivial
  | .send _ _ => inferInstanceAs (Decidable (_ ∉ _))
  | .shut _ => inferInstanceAs (Decidable (_ ∧ _))
  | .proc _ _ => isFalse id
  | .kill _ => isFalse id

/-- What a `write` may return: it takes something, and no more than it is given. -/
def Writes (pos : Nat) : CallRet → Prop
  | .count n => 0 < n ∧ pos + n ≤ targetWritePos
  | .err _ => True

instance (pos : Nat) (r : CallRet) : Decidable (Writes pos r) :=
  match r with
  | .count _ => inferInstanceAs (Decidable (_ ∧ _))
  | .err _ => isTrue trivial

/-- What a `read` of connection `c` may return: bytes that are there, or none if the server has
closed the connection. -/
def Reads (w : World) (c : ConnId) (buf : List UInt8) : ReadRet → Prop
  | .ret bs => bs <+: w.unread c ∧ bs.length ≤ bufferSize - buf.length
  | .err _ => True

instance (w : World) (c : ConnId) (buf : List UInt8) (r : ReadRet) : Decidable (w.Reads c buf r) :=
  match r with
  | .ret _ => inferInstanceAs (Decidable (_ ∧ _))
  | .err _ => isTrue trivial

/-- `client_fds[i]` gets its connection. -/
def connected (w : World) (i : Nat) (sys : System) : World :=
  { w with
    sys := sys
    clientFds := w.clientFds ++ [w.sys.net.nconn]
    pc := if i + 1 < clientNum then .connect (i + 1) else .write 0 0 }

/-- `write_pos` goes from `pos` to `pos'`. -/
def wrote (w : World) (i pos pos' : Nat) : World :=
  let c := w.fd i
  let t := w.sys.net.tcp c
  { w with
    sys := { w.sys with
      net := w.sys.net.setTcp c { t with
        inbox := t.inbox ++ (writeBuf.take pos').drop pos
        -- the request counts as sent when its first byte is
        payloads := if pos = 0 ∧ pos' ≠ 0 then t.payloads ++ [message] else t.payloads } }
    pc := if pos' < targetWritePos then .write i pos' else .read i [] }

/-- The client behind `client_echo_request` for `client_fds[i]`. -/
def next (i : Nat) : Pc := .write (if i + 1 < clientNum then i + 1 else 0) 0

/-- `read` has returned `bs`. -/
def got (w : World) (i : Nat) (buf bs : List UInt8) : World :=
  let w := { w with taken := update w.taken (w.fd i) (w.taken (w.fd i) + bs.length) }
  if (buf ++ bs).length < targetReadPos then { w with pc := .read i (buf ++ bs) }
  else { w with pc := next i, replies := w.replies ++ [(i, buf ++ bs)] }

/-- `exit(-1)`. -/
def exit (w : World) : World := { w with exited := true }

/-- One step.  The world is left alone once the client has exited. -/
def step (w : World) (m : Move) : Option World :=
  if w.exited then none
  else
    match w.pc, m with
    | _, .server pid i => (w.sys.step (.proc pid i)).map fun sys => { w with sys := sys }
    | _, .other l =>
      if w.Foreign l then (w.sys.step l).map fun sys => { w with sys := sys } else none
    | .connect _, .connect false => some w.exit
    | .connect i, .connect true => (w.sys.step .connect).map (w.connected i)
    | .write i pos, .write r =>
      if Writes pos r then
        match iteration targetWritePos pos r with
        | .goOn pos' => some (w.wrote i pos pos')
        | .leave => none
        | .exit => some w.exit
      else none
    | .read i buf, .read r =>
      if w.Reads (w.fd i) buf r then
        match iteration targetReadPos buf.length (countOf r) with
        | .goOn _ => some (w.got i buf (Receiver.bytesOf r))
        | .leave => none
        | .exit => some w.exit
      else none
    | _, _ => none

end World

/-! ## what a step can do -/

/-- The steps, with what enables each of them. -/
inductive Step (w : World) : Move → World → Prop
  | server {pid : Pid} {i : Input} {sys' : System} : w.sys.step (.proc pid i) = some sys' →
      Step w (.server pid i) { w with sys := sys' }
  | other {l : Label} {sys' : System} : w.Foreign l → w.sys.step l = some sys' →
      Step w (.other l) { w with sys := sys' }
  | connect {i : Nat} {sys' : System} : w.pc = .connect i → w.sys.step .connect = some sys' →
      Step w (.connect true) (w.connected i sys')
  | wrote {i pos pos' : Nat} {r : CallRet} : w.pc = .write i pos → pos < targetWritePos →
      pos ≤ pos' → pos' ≤ targetWritePos → Step w (.write r) (w.wrote i pos pos')
  | got {i : Nat} {buf bs : List UInt8} {r : ReadRet} : w.pc = .read i buf →
      buf.length < targetReadPos → bs <+: w.unread (w.fd i) → Step w (.read r) (w.got i buf bs)
  | exit {m : Move} : (∀ pid i, m ≠ .server pid i) → Step w m w.exit

variable {w w' : World} {m : Move}

theorem goOn_cases {target pos pos' : Nat} {r : CallRet} (h : iteration target pos r = .goOn pos') :
    pos < target ∧ (r = .err .EAGAIN ∧ pos' = pos ∨ ∃ n, r = .count n ∧ pos' = pos + n) := by
  unfold iteration at h
  split at h
  · next hlt =>
      refine ⟨hlt, ?_⟩
      split at h
      · cases h
        exact .inl ⟨rfl, rfl⟩
      · contradiction
      · cases h
        exact .inr ⟨_, rfl, rfl⟩
  · contradiction

theorem step_cases (hs : w.step m = some w') : Step w m w' := by
  replace hs := (Option.ite_none_left_eq_some.mp hs).2
  split at hs
  · obtain ⟨sys', hsys, rfl⟩ := Option.map_eq_some_iff.mp hs
    exact .server hsys
  · obtain ⟨hforeign, hs⟩ := Option.ite_none_right_eq_some.mp hs
    obtain ⟨sys', hsys, rfl⟩ := Option.map_eq_some_iff.mp hs
    exact .other hforeign hsys
  · cases hs
    exact .exit nofun
  · next hpc =>
      obtain ⟨sys', hsys, rfl⟩ := Option.map_eq_some_iff.mp hs
      exact .connect hpc hsys
  · next r hpc =>
      obtain ⟨hwrites, hs⟩ := Option.ite_none_right_eq_some.mp hs
      split at hs
      · next hgo =>
          cases hs
          obtain ⟨hlt, ⟨-, rfl⟩ | ⟨n, rfl, rfl⟩⟩ := goOn_cases hgo
          · exact .wrote hpc hlt (Nat.le_refl _) (Nat.le_of_lt hlt)
          · exact .wrote hpc hlt (Nat.le_add_right _ _) hwrites.2
      · contradiction
      · cases hs
        exact .exit nofun
  · next r hpc =>
      obtain ⟨hreads, hs⟩ := Option.ite_none_right_eq_some.mp hs
      split at hs
      · next hgo =>
          cases hs
          refine .got hpc (goOn_cases hgo).1 ?_
          cases r with
          | err e => exact List.nil_prefix
          | ret bs => exact hreads.1
      · contradiction
      · cases hs
        exact .exit nofun
  · contradiction

/-! ## whole frames -/

namespace Pc

/-- The part of a request that is begun and is still to be written. -/
def unwritten : Pc → List UInt8
  | .write _ pos => if pos = 0 then [] else writeBuf.drop pos
  | _ => []

/-- The index of the connection in hand. -/
def index : Pc → Option Nat
  | .write i _ => some i
  | .read i _ => some i
  | _ => none

/-- One if a request to `client_fds[j]` is under way. -/
def started (pc : Pc) (j : Nat) : Nat :=
  match pc with
  | .write i pos => if i = j ∧ pos ≠ 0 then 1 else 0
  | .read i _ => if i = j then 1 else 0
  | _ => 0

/-- `read_pos`, if it is that of a request to `client_fds[j]`. -/
def readPos (pc : Pc) (j : Nat) : Nat :=
  match pc with
  | .read i buf => if i = j then buf.length else 0
  | _ => 0

end Pc

/-- The system as if each request was sent at once. -/
def World.whole (w : World) : System :=
  match w.pc.index with
  | some i => w.sys.deliver (w.fd i) w.pc.unwritten
  | none => w.sys

/-! ## the client's books -/

/-- What `main` has got to. -/
def World.Place (w : World) : Pc → Prop
  | .connect i => w.clientFds.length = i ∧ i < clientNum ∧ w.replies = []
  | .write i pos =>
    w.clientFds.length = clientNum ∧ i = w.replies.length % clientNum ∧ pos < targetWritePos
  | .read i buf =>
    w.clientFds.length = clientNum ∧ i = w.replies.length % clientNum ∧ buf <+: message ∧
      buf.length < targetReadPos

/-- What the client knows of its connections: it has sent nothing but messages, as many as it has
got replies and one more if a request is under way. -/
structure Inv (w : World) : Prop where
  nodup : w.clientFds.Nodup
  known : ∀ c ∈ w.clientFds, c < w.sys.net.nconn
  unshut : ∀ c ∈ w.clientFds, (w.sys.net.tcp c).shut = false
  fresh : ∀ c, w.sys.net.nconn ≤ c →
    (w.sys.net.tcp c).payloads = [] ∧ (w.sys.net.tcp c).shut = false
  untaken : ∀ c ∉ w.clientFds, w.taken c = 0
  orderly : w.replies = (List.range w.replies.length).map fun k => (k % clientNum, message)
  place : w.Place w.pc
  books : ∀ j < w.clientFds.length, ∃ k,
    (w.sys.net.tcp (w.fd j)).payloads = List.replicate (k + w.pc.started j) message ∧
      w.taken (w.fd j) = k * targetReadPos + w.pc.readPos j

theorem inv_start (lfd ufd : Fd) : Inv (.start lfd ufd) where
  nodup := .nil
  known := nofun
  unshut := nofun
  fresh _ _ := ⟨rfl, rfl⟩
  untaken _ _ := rfl
  orderly := rfl
  place := ⟨rfl, by decide, rfl⟩
  books _ hj := absurd hj (Nat.not_lt_zero _)

namespace World

theorem fd_eq {j : Nat} (hj : j < w.clientFds.length) : w.fd j = w.clientFds[j] := by
  simp [fd, hj]

theorem fd_mem {j : Nat} (hj : j < w.clientFds.length) : w.fd j ∈ w.clientFds := by
  rw [fd_eq hj]
  exact List.getElem_mem hj

theorem fd_wrote (w : World) (i pos pos' j : Nat) : (w.wrote i pos pos').fd j = w.fd j := rfl

theorem tcp_wrote_self (w : World) (i pos pos' : Nat) :
    (w.wrote i pos pos').sys.net.tcp (w.fd i) = { w.sys.net.tcp (w.fd i) with
      inbox := (w.sys.net.tcp (w.fd i)).inbox ++ (writeBuf.take pos').drop pos
      payloads := if pos = 0 ∧ pos' ≠ 0 then (w.sys.net.tcp (w.fd i)).payloads ++ [message]
        else (w.sys.net.tcp (w.fd i)).payloads } :=
  Function.update_self _ _ _

theorem tcp_wrote_of_ne (w : World) {i : Nat} (pos pos' : Nat) {c : ConnId} (h : c ≠ w.fd i) :
    (w.wrote i pos pos').sys.net.tcp c = w.sys.net.tcp c :=
  Function.update_of_ne h _ _

end World

namespace Inv

theorem fd_ne (h : Inv w) {i j : Nat} (hi : i < w.clientFds.length) (hj : j < w.clientFds.length)
    (hne : j ≠ i) : w.fd j ≠ w.fd i := by
  rw [World.fd_eq hi, World.fd_eq hj]
  exact fun heq => hne ((h.nodup.getElem_inj_iff).mp heq)

/-- The connection in hand is one of the client's. -/
theorem index_lt (h : Inv w) {i : Nat} (hi : w.pc.index = some i) : i < w.clientFds.length := by
  have hplace := h.place
  have hmod : w.replies.length % clientNum < clientNum := Nat.mod_lt _ (by decide)
  cases hpc : w.pc with
  | connect => simp [hpc, Pc.index] at hi
  | write j pos =>
      simp only [hpc, World.Place, Pc.index, Option.some.injEq] at hi hplace
      omega
  | read j buf =>
      simp only [hpc, World.Place, Pc.index, Option.some.injEq] at hi hplace
      omega

/-- A step of a server or of another client leaves the client's books alone. -/
theorem others (h : Inv w) {sys' : System} (hnconn : w.sys.net.nconn ≤ sys'.net.nconn)
    (hown : ∀ c ∈ w.clientFds, (sys'.net.tcp c).payloads = (w.sys.net.tcp c).payloads ∧
      (sys'.net.tcp c).shut = (w.sys.net.tcp c).shut)
    (hfresh : ∀ c, sys'.net.nconn ≤ c → (sys'.net.tcp c).payloads = (w.sys.net.tcp c).payloads ∧
      (sys'.net.tcp c).shut = (w.sys.net.tcp c).shut) : Inv { w with sys := sys' } where
  nodup := h.nodup
  known c hc := Nat.lt_of_lt_of_le (h.known c hc) hnconn
  unshut c hc := (hown c hc).2.trans (h.unshut c hc)
  fresh c hc := by
    have hold := h.fresh c (Nat.le_trans hnconn hc)
    obtain ⟨hpay, hshut⟩ := hfresh c hc
    exact ⟨hpay.trans hold.1, hshut.trans hold.2⟩
  untaken := h.untaken
  orderly := h.orderly
  place := h.place
  books j hj := by
    obtain ⟨k, hpay, htaken⟩ := h.books j hj
    exact ⟨k, (hown _ (World.fd_mem hj)).1.trans hpay, htaken⟩

theorem server (h : Inv w) {pid : Pid} {i : Input} {sys' : System}
    (hs : w.sys.step (.proc pid i) = some sys') : Inv { w with sys := sys' } := by
  have hserve := (System.proc_step hs).2.2.2
  refine h.others (Nat.le_of_eq (Net.serve_cases hserve).1.symm) ?_ ?_
  · exact fun c _ => Net.serve_keeps hserve c
  · exact fun c _ => Net.serve_keeps hserve c

/-- A connection of another client changes. -/
theorem setTcp (h : Inv w) {c₀ : ConnId} (hnot : c₀ ∉ w.clientFds) (hlt : c₀ < w.sys.net.nconn)
    (t : Tcp) : Inv { w with sys := { w.sys with net := w.sys.net.setTcp c₀ t } } := by
  have hsame {c : ConnId} (hc : c ≠ c₀) : (w.sys.net.setTcp c₀ t).tcp c = w.sys.net.tcp c :=
    Function.update_of_ne hc _ _
  refine h.others (Nat.le_refl _) (fun c hc => ?_) fun c hc => ?_
  · dsimp only
    rw [hsame fun heq => hnot (heq ▸ hc)]
    exact ⟨rfl, rfl⟩
  · dsimp only
    rw [hsame (Nat.ne_of_gt (Nat.lt_of_lt_of_le hlt hc))]
    exact ⟨rfl, rfl⟩

theorem other (h : Inv w) {l : Label} {sys' : System} (hforeign : w.Foreign l)
    (hs : w.sys.step l = some sys') : Inv { w with sys := sys' } := by
  cases l with
  | connect =>
      cases hs
      exact h.others (Nat.le_succ _) (fun c _ => ⟨rfl, rfl⟩) fun c _ => ⟨rfl, rfl⟩
  | send c₀ payload =>
      obtain ⟨⟨hlt, -⟩, heq⟩ := Option.ite_none_right_eq_some.mp hs
      cases heq
      exact h.setTcp hforeign hlt _
  | shut c₀ =>
      cases hs
      exact h.setTcp hforeign.1 hforeign.2 _
  | proc => exact hforeign.elim
  | kill => exact hforeign.elim

theorem connect (h : Inv w) {i : Nat} {sys' : System} (hpc : w.pc = .connect i)
    (hs : w.sys.step .connect = some sys') : Inv (w.connected i sys') := by
  cases hs
  have hplace := h.place
  rw [hpc] at hplace
  obtain ⟨hlen, hi, hreplies⟩ := hplace
  have hnew : w.sys.net.nconn ∉ w.clientFds := fun hmem => Nat.lt_irrefl _ (h.known _ hmem)
  have hmem {c : ConnId} (hc : c ∈ w.clientFds ++ [w.sys.net.nconn]) :
      c ∈ w.clientFds ∨ c = w.sys.net.nconn := by simpa using hc
  -- no request is under way
  have hidle (j : Nat) :
      (if i + 1 < clientNum then Pc.connect (i + 1) else .write 0 0).started j = 0 ∧
      (if i + 1 < clientNum then Pc.connect (i + 1) else .write 0 0).readPos j = 0 := by
    split <;> simp [Pc.started, Pc.readPos]
  refine ⟨?_, fun c hc => ?_, fun c hc => ?_, fun c hc => ?_, fun c hc => ?_, h.orderly, ?_,
    fun j hj => ?_⟩
  · refine List.nodup_append.mpr ⟨h.nodup, List.nodup_singleton _, ?_⟩
    rintro c hc c' hc' rfl
    exact hnew (List.mem_singleton.mp hc' ▸ hc)
  · obtain hc | rfl := hmem hc
    · exact Nat.lt_succ_of_lt (h.known c hc)
    · exact Nat.lt_succ_self _
  · obtain hc | rfl := hmem hc
    · exact h.unshut c hc
    · exact (h.fresh _ (Nat.le_refl _)).2
  · exact h.fresh c (Nat.le_of_succ_le hc)
  · exact h.untaken c fun hold => hc (List.mem_append_left _ hold)
  · have hlen' : (w.clientFds ++ [w.sys.net.nconn]).length = i + 1 := by simp [hlen]
    show World.Place _ (if i + 1 < clientNum then _ else _)
    split
    · next hmore => exact ⟨hlen', hmore, hreplies⟩
    · next hlast =>
        refine ⟨hlen'.trans (by omega), ?_, by decide⟩
        show 0 = w.replies.length % clientNum
        rw [hreplies]
        rfl
  · obtain ⟨hstarted, hreadPos⟩ := hidle j
    simp only [World.connected, hstarted, hreadPos, World.fd]
    by_cases hold : j < w.clientFds.length
    · obtain ⟨k, hpay, htaken⟩ := h.books j hold
      simp only [hpc, Pc.started, Pc.readPos] at hpay htaken
      rw [List.getD_append _ _ _ _ hold]
      exact ⟨k, hpay, htaken⟩
    · have hj' : j < w.clientFds.length + 1 := by simpa [World.connected] using hj
      have hlast : (w.clientFds ++ [w.sys.net.nconn]).getD j 0 = w.sys.net.nconn := by
        rw [List.getD_append_right _ _ _ _ (Nat.le_of_not_lt hold),
          show j - w.clientFds.length = 0 by omega]
        rfl
      rw [hlast]
      refine ⟨0, (h.fresh _ (Nat.le_refl _)).1, ?_⟩
      rw [h.untaken _ hnew]
      rfl

/-- A `write` goes on with the request, or begins it. -/
theorem wrote (h : Inv w) {i pos pos' : Nat} (hpc : w.pc = .write i pos) (hle : pos ≤ pos') :
    Inv (w.wrote i pos pos') := by
  have hi : i < w.clientFds.length := h.index_lt (by rw [hpc]; rfl)
  have hplace := h.place
  rw [hpc] at hplace
  obtain ⟨hlen, hround, -⟩ := hplace
  refine ⟨h.nodup, h.known, fun c hc => ?_, fun c hc => ?_, h.untaken, h.orderly, ?_,
    fun j hj => ?_⟩
  · by_cases heq : c = w.fd i
    · rw [heq, w.tcp_wrote_self]
      exact h.unshut _ (World.fd_mem hi)
    · rw [w.tcp_wrote_of_ne _ _ heq]
      exact h.unshut c hc
  · have hne : c ≠ w.fd i := by
      rintro rfl
      exact absurd (h.known _ (World.fd_mem hi)) (Nat.not_lt.mpr hc)
    rw [w.tcp_wrote_of_ne _ _ hne]
    exact h.fresh c hc
  · show World.Place _ (if pos' < targetWritePos then _ else _)
    split
    · next hmore => exact ⟨hlen, hround, hmore⟩
    · exact ⟨hlen, hround, List.nil_prefix, by decide⟩
  · have hpc' : (w.wrote i pos pos').pc.started j = (if i = j ∧ pos' ≠ 0 then 1 else 0) ∧
        (w.wrote i pos pos').pc.readPos j = 0 := by
      simp only [World.wrote]
      split
      · exact ⟨rfl, rfl⟩
      · next hlast =>
          have hne : pos' ≠ 0 := fun hzero => hlast (hzero ▸ by decide)
          simp [Pc.started, Pc.readPos, hne]
    obtain ⟨k, hpay, htaken⟩ := h.books j hj
    simp only [hpc, Pc.started, Pc.readPos] at hpay htaken
    rw [hpc'.1, hpc'.2, World.fd_wrote]
    refine ⟨k, ?_, htaken⟩
    by_cases hij : j = i
    · subst hij
      rw [w.tcp_wrote_self]
      dsimp only
      rw [hpay]
      by_cases hbegun : pos = 0
      · by_cases hbegins : pos' = 0
        · simp [hbegun, hbegins]
        · simp [hbegun, hbegins, List.replicate_succ']
      · simp [hbegun, show pos' ≠ 0 by omega]
    · rw [w.tcp_wrote_of_ne _ _ (h.fd_ne hi hj hij), hpay]
      simp [Ne.symm hij]

theorem drop_flatten_replicate (xs : List UInt8) (k n : Nat) :
    (List.replicate (k + 1) xs).flatten.drop (k * xs.length + n) = xs.drop n := by
  rw [List.replicate_succ', List.flatten_append, ← List.drop_drop, List.drop_left' (by simp)]
  simp

/-- What is read belongs to the message that is awaited. -/
theorem append_prefix (h : Inv w) {i : Nat} {buf bs : List UInt8} (hpc : w.pc = .read i buf)
    (hreceived : (w.sys.net.tcp (w.fd i)).received <+: (w.sys.net.tcp (w.fd i)).payloads.flatten)
    (hbs : bs <+: w.unread (w.fd i)) : buf ++ bs <+: message := by
  have hi : i < w.clientFds.length := h.index_lt (by rw [hpc]; rfl)
  have hplace := h.place
  rw [hpc] at hplace
  obtain ⟨-, -, ⟨left, hleft⟩, -⟩ := hplace
  obtain ⟨k, hpay, htaken⟩ := h.books i hi
  simp only [hpc, Pc.started, Pc.readPos, if_true] at hpay htaken
  have hrest : (List.replicate (k + 1) message).flatten.drop
      (k * targetReadPos + buf.length) = left := by
    rw [show targetReadPos = message.length from rfl, drop_flatten_replicate, ← hleft,
      List.drop_left]
  have hunread : w.unread (w.fd i) <+: left := by
    rw [hpay] at hreceived
    rw [World.unread, htaken, ← hrest]
    exact hreceived.drop _
  rw [← hleft]
  exact (List.prefix_append_right_inj buf).mpr (hbs.trans hunread)

/-- A `read` goes on with the reply, or completes it. -/
theorem got (h : Inv w) {i : Nat} {buf bs : List UInt8} (hpc : w.pc = .read i buf)
    (hfront : buf ++ bs <+: message) : Inv (w.got i buf bs) := by
  have hi : i < w.clientFds.length := h.index_lt (by rw [hpc]; rfl)
  have hplace := h.place
  rw [hpc] at hplace
  obtain ⟨hlen, hround, -, -⟩ := hplace
  have huntaken : ∀ c ∉ w.clientFds,
      update w.taken (w.fd i) (w.taken (w.fd i) + bs.length) c = 0 := fun c hc => by
    have hne : c ≠ w.fd i := fun heq => hc (heq ▸ World.fd_mem hi)
    rw [Function.update_of_ne hne]
    exact h.untaken c hc
  have hbooks (pc : Pc) (hpc' : ∀ j, j ≠ i → pc.started j = 0 ∧ pc.readPos j = 0)
      (hdone : ∃ d, d + pc.started i = 1 ∧ d * targetReadPos + pc.readPos i = (buf ++ bs).length) :
      ∀ j < w.clientFds.length, ∃ k,
        (w.sys.net.tcp (w.fd j)).payloads = List.replicate (k + pc.started j) message ∧
        update w.taken (w.fd i) (w.taken (w.fd i) + bs.length) (w.fd j) =
          k * targetReadPos + pc.readPos j := by
    intro j hj
    obtain ⟨k, hpay, htaken⟩ := h.books j hj
    simp only [hpc, Pc.started, Pc.readPos] at hpay htaken
    by_cases hij : j = i
    · subst hij
      obtain ⟨d, hd, hpos⟩ := hdone
      rw [if_pos rfl] at hpay htaken
      rw [List.length_append] at hpos
      refine ⟨k + d, ?_, ?_⟩
      · rw [Nat.add_assoc, hd, hpay]
      · rw [Function.update_self, htaken, Nat.add_mul]
        omega
    · rw [if_neg (Ne.symm hij)] at hpay htaken
      obtain ⟨hstarted, hreadPos⟩ := hpc' j hij
      rw [Function.update_of_ne (h.fd_ne hi hj hij), hstarted, hreadPos]
      exact ⟨k, hpay, htaken⟩
  simp only [World.got]
  split
  · next hmore =>
      refine ⟨h.nodup, h.known, h.unshut, h.fresh, huntaken, h.orderly,
        ⟨hlen, hround, hfront, hmore⟩, hbooks _ (fun j hij => ?_) ⟨0, ?_⟩⟩
      · simp [Pc.started, Pc.readPos, Ne.symm hij]
      · simp [Pc.started, Pc.readPos]
  · next hall =>
      have hwhole : buf ++ bs = message :=
        hfront.eq_of_length_le (Nat.le_of_not_lt hall)
      refine ⟨h.nodup, h.known, h.unshut, h.fresh, huntaken, ?_, ⟨hlen, ?_, by decide⟩,
        hbooks _ (fun j hij => ?_) ⟨1, ?_⟩⟩
      · dsimp only
        rw [List.length_append, List.length_singleton, List.range_succ, List.map_append,
          ← h.orderly, hwhole, hround]
        rfl
      · dsimp only
        rw [List.length_append, List.length_singleton, ← Nat.mod_add_mod, ← hround]
        have hlt : i < clientNum := hlen ▸ hi
        split
        · next hmore => rw [Nat.mod_eq_of_lt hmore]
        · rw [show i + 1 = clientNum by omega, Nat.mod_self]
      · simp [World.next, Pc.started, Pc.readPos]
      · rw [hwhole]
        simp [World.next, Pc.started, Pc.readPos, targetReadPos]

end Inv

/-! ## the servers see whole frames -/

namespace World

theorem whole_of_unwritten (h : w.pc.unwritten = []) : w.whole = w.sys := by
  unfold whole
  split
  · rw [h, System.deliver, Net.deliver_nil]
  · rfl

theorem whole_of_index {i : Nat} (h : w.pc.index = some i) :
    w.whole = w.sys.deliver (w.fd i) w.pc.unwritten := by
  simp only [whole, h]

/-- A server's call in the system with whole frames. -/
theorem step_whole_server (h : Inv w) {pid : Pid} {i : Input} {sys' : System}
    (hs : w.sys.step (.proc pid i) = some sys') :
    w.whole.step (.proc pid i) = some { w with sys := sys' }.whole := by
  cases hindex : w.pc.index with
  | none =>
      simp only [whole, hindex]
      exact hs
  | some j =>
      simp only [whole, hindex]
      exact System.step_deliver hs (h.unshut _ (fd_mem (h.index_lt hindex))) _

/-- An action of another client in the system with whole frames. -/
theorem step_whole_other (h : Inv w) {l : Label} {sys' : System} (hforeign : w.Foreign l)
    (hs : w.sys.step l = some sys') : w.whole.step l = some { w with sys := sys' }.whole := by
  cases hindex : w.pc.index with
  | none =>
      simp only [whole, hindex]
      exact hs
  | some j =>
      have hmem := fd_mem (h.index_lt hindex)
      simp only [whole, hindex]
      cases l with
      | connect =>
          cases hs
          rfl
      | send c₀ payload =>
          exact System.send_deliver hs (fun heq => hforeign (heq ▸ hmem)) _
      | shut c₀ => exact System.shut_deliver hs (fun heq => hforeign.1 (heq ▸ hmem)) _
      | proc => exact hforeign.elim
      | kill => exact hforeign.elim

theorem unwritten_wrote (w : World) (i pos pos' : Nat) (hmax : pos' ≤ targetWritePos) :
    (w.wrote i pos pos').pc.unwritten = if pos' = 0 then [] else writeBuf.drop pos' := by
  simp only [wrote]
  split
  · rfl
  · next hlast =>
      have hall : pos' = writeBuf.length := by
        have hlen : writeBuf.length = targetWritePos := by decide
        omega
      rw [hall, List.drop_length]
      simp [Pc.unwritten]

theorem index_wrote (w : World) (i pos pos' : Nat) : (w.wrote i pos pos').pc.index = some i := by
  simp only [wrote]
  split <;> rfl

theorem take_drop_append (xs : List UInt8) {m n : Nat} (h : m ≤ n) :
    (xs.take n).drop m ++ xs.drop n = xs.drop m := by
  conv_rhs => rw [← List.take_append_drop n xs]
  by_cases hn : n ≤ xs.length
  · rw [List.drop_append_of_le_length (by rw [List.length_take]; omega)]
  · rw [List.drop_eq_nil_of_le (show xs.length ≤ n by omega), List.append_nil, List.append_nil]

/-- A first `write` sends the frame. -/
theorem step_whole_first (h : Inv w) {i pos' : Nat} (hpc : w.pc = .write i 0) (hpos : pos' ≠ 0)
    (hmax : pos' ≤ targetWritePos) :
    w.whole.step (.send (w.fd i) message) = some (w.wrote i 0 pos').whole := by
  have hmem : w.fd i ∈ w.clientFds := fd_mem (h.index_lt (by rw [hpc]; rfl))
  have hguard : w.fd i < w.sys.net.nconn ∧ (w.sys.net.tcp (w.fd i)).shut = false ∧
      1 ≤ message.length ∧ message.length ≤ System.maxPayload :=
    ⟨h.known _ hmem, h.unshut _ hmem, by decide, by decide⟩
  rw [whole_of_unwritten (by rw [hpc]; rfl), whole_of_index (index_wrote w i 0 pos'),
    unwritten_wrote w i 0 pos' hmax, if_neg hpos, fd_wrote]
  simp only [System.step, if_pos hguard, System.deliver, wrote, Net.deliver_setTcp_self,
    true_and, if_pos hpos, List.append_assoc, take_drop_append writeBuf (Nat.zero_le pos')]
  rfl

/-- The other `write`s change nothing. -/
theorem whole_wrote {i pos pos' : Nat} (hpc : w.pc = .write i pos) (hle : pos ≤ pos')
    (hmax : pos' ≤ targetWritePos) (hnot : ¬ (pos = 0 ∧ pos' ≠ 0)) :
    (w.wrote i pos pos').whole = w.whole := by
  have hindex : w.pc.index = some i := by
    rw [hpc]
    rfl
  have hbytes : (writeBuf.take pos').drop pos ++ (if pos' = 0 then [] else writeBuf.drop pos') =
      w.pc.unwritten := by
    rw [hpc, Pc.unwritten]
    by_cases hpos : pos = 0
    · have hpos' : pos' = 0 := by
        by_contra hne
        exact hnot ⟨hpos, hne⟩
      simp [hpos, hpos']
    · rw [if_neg hpos, if_neg (by omega), take_drop_append writeBuf hle]
  rw [whole_of_index (index_wrote w i pos pos'), whole_of_index hindex, fd_wrote,
    unwritten_wrote w i pos pos' hmax, ← hbytes]
  simp only [System.deliver, wrote, Net.deliver_setTcp_self, if_neg hnot, List.append_assoc]
  rfl

end World

/-! ## runs -/

/-- What the servers do. -/
def World.calls (_ : World) : Move → List (Pid × Input)
  | .server pid i => [(pid, i)]
  | _ => []

/-- What the servers do, in the system with whole frames. -/
def systemCalls (_ : System) : Label → List (Pid × Input)
  | .proc pid i => [(pid, i)]
  | _ => []

/-- Neither server ends, and messages and replies between them are delivered whole. -/
def Delivers (w : World) : Move → Prop
  | .server pid i => w.sys.Delivers (.proc pid i)
  | _ => True

/-- What holds in a live upgrade. -/
structure Upgrading (s : System) : Prop where
  live : System.Live s
  clients : System.Clients s
  owned : System.Owned s
  echoes : System.Echoes s

theorem upgrading_init {lfd ufd : Fd} (hlfd : 0 ≤ lfd) (hufd : 0 ≤ ufd) :
    Upgrading (.init lfd ufd) :=
  ⟨System.live_init hlfd hufd, System.clients_init lfd ufd, System.owned_init lfd ufd,
    System.echoes_init lfd ufd⟩

theorem Upgrading.run {s s' : System} {ls : List Label} (h : Upgrading s)
    (hrun : Run System.step System.Delivers s ls s') : Upgrading s' := by
  refine hrun.inv (I := Upgrading) h fun s l s' h hd hs => ?_
  exact ⟨h.live.step hd hs, h.clients.step h.live.locked.base hs,
    h.owned.step h.live h.clients hd hs, h.echoes.step h.owned h.live h.clients hd hs⟩

/-- Whole frames change what is to be read of a connection and nothing else of it. -/
theorem tcp_whole (w : World) (c : ConnId) :
    ∃ bs, w.whole.net.tcp c = { w.sys.net.tcp c with inbox := (w.sys.net.tcp c).inbox ++ bs } := by
  unfold World.whole
  split
  · next i _ =>
      by_cases hc : c = w.fd i
      · refine ⟨w.pc.unwritten, ?_⟩
        rw [hc, System.deliver, Net.tcp_deliver_self]
      · refine ⟨[], ?_⟩
        rw [System.deliver, Net.tcp_deliver_of_ne _ _ hc, List.append_nil]
  · refine ⟨[], ?_⟩
    rw [List.append_nil]

/-- Whole frames change nothing between the servers. -/
theorem World.delivers_whole {l : Label} (hd : w.sys.Delivers l) : w.whole.Delivers l := by
  have hsame : w.whole.new = w.sys.new ∧ w.whole.chan = w.sys.chan := by
    unfold World.whole
    split <;> exact ⟨rfl, rfl⟩
  refine { hd with installs := ?_ }
  rw [System.Installs, hsame.1, hsame.2]
  exact hd.installs

/-- The client receives the first of the bytes it has sent. -/
theorem Upgrading.received (h : Upgrading w.whole) (c : ConnId) :
    (w.sys.net.tcp c).received <+: (w.sys.net.tcp c).payloads.flatten := by
  obtain ⟨bs, hwhole⟩ := tcp_whole w c
  have hreceived := h.echoes.received c
  rwa [hwhole] at hreceived

/-- **Step**: each step is answered by one of the system with whole frames, or by none. -/
theorem step_whole (h : Inv w) (hup : Upgrading w.whole) (hd : Delivers w m)
    (hs : w.step m = some w') : Inv w' ∧ ∃ ls,
      Run System.step System.Delivers w.whole ls w'.whole ∧
      outputs System.step systemCalls w.whole ls = w.calls m := by
  have one {l : Label} (hl : w.sys.Delivers l) (hstep : w.whole.step l = some w'.whole)
      (hcalls : systemCalls w.whole l = w.calls m) : ∃ ls,
      Run System.step System.Delivers w.whole ls w'.whole ∧
      outputs System.step systemCalls w.whole ls = w.calls m :=
    ⟨[l], .snoc .nil (World.delivers_whole hl) hstep, (outputs_singleton hstep).trans hcalls⟩
  have none (hsame : w'.whole = w.whole) (hcalls : w.calls m = []) : ∃ ls,
      Run System.step System.Delivers w.whole ls w'.whole ∧
      outputs System.step systemCalls w.whole ls = w.calls m :=
    ⟨[], hsame ▸ .nil, hcalls.symm⟩
  cases step_cases hs with
  | server hsys => exact ⟨h.server hsys, one hd (World.step_whole_server h hsys) rfl⟩
  | @other l _ hforeign hsys =>
      have hl : System.deliversb w.sys l = true ∧ systemCalls w.whole l = [] := by
        cases l with
        | proc => exact hforeign.elim
        | kill => exact hforeign.elim
        | _ => exact ⟨rfl, rfl⟩
      exact ⟨h.other hforeign hsys, one (System.delivers_of_deliversb hl.1)
        (World.step_whole_other h hforeign hsys) hl.2⟩
  | @connect i sys' hpc hsys =>
      have hbefore : w.whole = w.sys := World.whole_of_unwritten (by rw [hpc]; rfl)
      have hafter : (w.connected i sys').whole = sys' := World.whole_of_unwritten (by
        simp only [World.connected]
        split <;> rfl)
      have hconnect : w.whole.step .connect = some (w.connected i sys').whole := by
        rw [hbefore, hafter]
        exact hsys
      exact ⟨h.connect hpc hsys,
        one (System.delivers_of_deliversb (w := w.sys) rfl) hconnect rfl⟩
  | @wrote i pos pos' _ hpc hlt hle hmax =>
      refine ⟨h.wrote hpc hle, ?_⟩
      by_cases hfirst : pos = 0 ∧ pos' ≠ 0
      · obtain ⟨rfl, hpos⟩ := hfirst
        exact one (System.delivers_of_deliversb (w := w.sys) rfl)
          (World.step_whole_first h hpc hpos hmax) rfl
      · exact none (World.whole_wrote hpc hle hmax hfirst) rfl
  | @got i buf bs _ hpc hlt hbs =>
      refine ⟨h.got hpc (h.append_prefix hpc (hup.received _) hbs), none ?_ rfl⟩
      have hbefore : w.whole = w.sys := World.whole_of_unwritten (by rw [hpc]; rfl)
      rw [hbefore]
      simp only [World.got]
      split
      · exact World.whole_of_unwritten rfl
      · exact World.whole_of_unwritten rfl
  | exit hclient =>
      refine ⟨⟨h.nodup, h.known, h.unshut, h.fresh, h.untaken, h.orderly, h.place, h.books⟩,
        none rfl ?_⟩
      cases m with
      | server pid i => exact absurd rfl (hclient pid i)
      | _ => rfl

/-- **Short writes make no difference**: every run is one of the system with whole frames, in which
the servers make the same calls with the same results. -/
theorem refines_frames {lfd ufd : Fd} (hlfd : 0 ≤ lfd) (hufd : 0 ≤ ufd) {ms : List Move}
    (hrun : Run World.step Delivers (.start lfd ufd) ms w) :
    ∃ ls s, Run System.step System.Delivers (.init lfd ufd) ls s ∧
      outputs System.step systemCalls (.init lfd ufd) ls =
        outputs World.step World.calls (.start lfd ufd) ms ∧
      s = w.whole ∧ Inv w ∧ Upgrading w.whole := by
  refine hrun.refines (R := fun w s => s = w.whole ∧ Inv w ∧ Upgrading w.whole) ?_ ?_
  · exact ⟨rfl, inv_start lfd ufd, upgrading_init hlfd hufd⟩
  · rintro w m w' s ⟨rfl, hinv, hup⟩ hd hs
    obtain ⟨hinv', ls, hls, hout⟩ := step_whole hinv hup hd hs
    exact ⟨ls, _, hls, hout, rfl, hinv', hup.run hls⟩

/-- **The client through a hot upgrade**, whatever the other clients do: its `k`-th completed
request has been one to `client_fds[k % 10]` and has read back exactly the message; what a request
has read so far is the beginning of the message; and on the other connections everything that was
received has been read.  Its short writes make no difference to the servers. -/
theorem client_served_through_upgrade (lfd ufd : Fd) (ms : List Move) (w : World) (hlfd : 0 ≤ lfd)
    (hufd : 0 ≤ ufd) (hrun : Run World.step Delivers (.start lfd ufd) ms w) :
    w.replies = (List.range w.replies.length).map (fun k => (k % clientNum, message)) ∧
      (∀ i buf, w.pc = .read i buf → buf <+: message) ∧
      (∀ j < w.clientFds.length, w.pc.index ≠ some j → w.unread (w.fd j) = []) ∧
      ∃ ls, Run System.step System.Delivers (.init lfd ufd) ls w.whole ∧
        outputs System.step systemCalls (.init lfd ufd) ls =
          outputs World.step World.calls (.start lfd ufd) ms := by
  obtain ⟨ls, s, hls, hout, rfl, hinv, hup⟩ := refines_frames hlfd hufd hrun
  refine ⟨hinv.orderly, fun i buf hpc => ?_, fun j hj hindex => ?_, ls, hls, hout⟩
  · have hplace := hinv.place
    rw [hpc] at hplace
    exact hplace.2.2.1
  · obtain ⟨k, hpay, htaken⟩ := hinv.books j hj
    have hidle : w.pc.started j = 0 ∧ w.pc.readPos j = 0 := by
      cases hpc : w.pc with
      | connect => exact ⟨rfl, rfl⟩
      | write i pos =>
          have hne : i ≠ j := fun heq => hindex (by rw [hpc, heq]; rfl)
          simp [Pc.started, Pc.readPos, hne]
      | read i buf =>
          have hne : i ≠ j := fun heq => hindex (by rw [hpc, heq]; rfl)
          simp [Pc.started, Pc.readPos, hne]
    rw [hidle.1] at hpay
    rw [hidle.2] at htaken
    have hlen := (hup.received (w.fd j)).length_le
    rw [hpay] at hlen
    refine List.drop_eq_nil_of_le (Nat.le_trans hlen ?_)
    rw [htaken]
    simp [targetReadPos]

/-- The calls of the servers among these labels. -/
def serverMoves (ls : List Label) : List Move :=
  ls.filterMap fun
    | .proc pid i => some (.server pid i)
    | _ => none

/-- The new server reads the request and replies in two pieces. -/
def answerLabels : List Label :=
  [.proc .new (.epollWait [.onFd 6 { epollin := true }]), .proc .new .tau,
    .proc .new (.read (.ret [7, 0, 0, 0])), .proc .new (.read (.ret message)), .proc .new .tau,
    .proc .new (.access false), .proc .new (.epollWait [.onFd 6 { epollout := true }]),
    .proc .new .tau, .proc .new (.write (.ret 4)), .proc .new .tau, .proc .new (.access false),
    .proc .new (.epollWait [.onFd 6 { epollout := true }]), .proc .new .tau,
    .proc .new (.write (.ret 3))]

/-- The client connects, and the listener is handed over.  It writes three bytes of its first
request, whereupon its session is handed over; the new server gets the rest and answers. -/
def upgradeMoves : List Move :=
  List.replicate 10 (.connect true) ++
    serverMoves (System.clientLabels ++ System.sendLabels ++ System.acceptLabels ++
      System.replyLabels) ++ [.write (.count 3)] ++ serverMoves (System.secondLabels.take 13) ++
    [.write (.err .EAGAIN), .write (.count 8)] ++ serverMoves answerLabels ++
    [.read (.ret (message.take 4)), .read (.ret (message.drop 4))]

/-- A test for steps that deliver. -/
def deliversb (w : World) : Move → Bool
  | .server pid i => System.deliversb w.sys (.proc pid i)
  | _ => true

theorem delivers_of_deliversb (h : deliversb w m = true) : Delivers w m := by
  cases m with
  | server pid i => exact System.delivers_of_deliversb (w := w.sys) h
  | _ => trivial

/-- A request that is begun with the old server and answered by the new one. -/
theorem client_served_through_upgrade_first : ∃ w,
    Run World.step Delivers (.start 3 3) upgradeMoves w ∧ w.replies = [(0, message)] ∧
      w.unread (w.fd 0) = [] := by
  have hexec : (exec World.step deliversb (.start 3 3) upgradeMoves).map
      (fun w => (w.replies.length, w.pc.index, w.clientFds.length)) = some (1, some 1, 10) := by
    decide +kernel
  obtain ⟨w, hrun, hobs⟩ := exists_run_of_exec _ _ hexec
  simp only [Prod.mk.injEq] at hobs
  obtain ⟨hreplies, hindex, hfds⟩ := hobs
  replace hrun := hrun.mono fun _ _ => delivers_of_deliversb
  obtain ⟨horder, -, hidle, -⟩ :=
    client_served_through_upgrade 3 3 _ w (by decide) (by decide) hrun
  rw [hreplies] at horder
  exact ⟨w, hrun, horder, hidle 0 (by omega) (by simp [hindex])⟩

end ClientMain
end SysDemos.HotUpgrade
