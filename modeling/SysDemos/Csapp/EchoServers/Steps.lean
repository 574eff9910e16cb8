import SysDemos.Csapp.EchoServers

/-!
# SysDemos.Csapp.EchoServers.Steps

What the loop of `check_clients` can do with a slot, said once for all the
results about the server.

* `checkClient_eq` — a slot that is not ready is skipped; otherwise the client
  behind it is served one line;
* `checkLoop_inv`, `checkLoop_returns` — the rules for the loop;
* `round_cases` — a round of `main` is an `iteration` whose calls the kernel
  allows.
-/

namespace SysDemos.EchoServers

open Rio

/-! ## one slot -/

/-- The test of `check_clients` before it serves a slot. -/
def Server.Ready (s : Server) (i : Nat) : Prop :=
  0 < s.pool.clientfd i ∧ s.pool.clientfd i ∈ s.pool.readySet

instance (s : Server) (i : Nat) : Decidable (s.Ready i) :=
  inferInstanceAs (Decidable (_ ∧ _))

/-- One line of a client, read through `rio`: the result of `rio_readlineb` and
the client after the echo. -/
def serve (rio : RioT) (client : Client) : Option (Int × Client) :=
  match rioReadlineb rio maxline client.input with
  | none => none
  | some r =>
    if r.ret ≠ 0 then
      match rioWriten r.usrbuf (sizeT r.ret) client.output with
      | none => none
      | some (_, out, rest) =>
        some (r.ret, { client.afterRead r with output := rest, echoed := client.echoed ++ out })
    else some (r.ret, client.afterRead r)

/-- How `serve` can go: the line is echoed, or the end of file is met. -/
inductive ServeEnd (rio : RioT) (client : Client) : Int → Client → Prop where
  | echoed (r : Res) (w : Int) (out : List UInt8) (rest : List WriteRet)
      (hr : rioReadlineb rio maxline client.input = some r) (hret : r.ret ≠ 0)
      (hw : rioWriten r.usrbuf (sizeT r.ret) client.output = some (w, out, rest)) :
      ServeEnd rio client r.ret
        { client.afterRead r with output := rest, echoed := client.echoed ++ out }
  | eof (r : Res) (hr : rioReadlineb rio maxline client.input = some r) (hret : r.ret = 0) :
      ServeEnd rio client r.ret (client.afterRead r)

theorem serve_cases {rio : RioT} {client client' : Client} {ret : Int}
    (h : serve rio client = some (ret, client')) : ServeEnd rio client ret client' := by
  unfold serve at h
  cases hr : rioReadlineb rio maxline client.input with
  | none => rw [hr] at h; contradiction
  | some r =>
      simp only [hr] at h
      split at h
      · next hret =>
          cases hw : rioWriten r.usrbuf (sizeT r.ret) client.output with
          | none => rw [hw] at h; contradiction
          | some p =>
              obtain ⟨w, out, rest⟩ := p
              simp only [hw, Option.some.injEq, Prod.mk.injEq] at h
              obtain ⟨rfl, rfl⟩ := h
              exact .echoed r w out rest hr hret hw
      · next hret =>
          simp only [Option.some.injEq, Prod.mk.injEq] at h
          obtain ⟨rfl, rfl⟩ := h
          exact .eof r hr (not_not.mp hret)

/-- The server after slot `i` was served: client `c` is `client` now, and the
connection is closed if the line read gave 0. -/
def Server.served (s : Server) (i c : Nat) (ret : Int) (client : Client) : Server :=
  let connfd := s.pool.clientfd i
  { s with
    pool := { s.pool with
      nready := s.pool.nready - 1
      readSet := if ret = 0 then s.pool.readSet.erase connfd else s.pool.readSet
      clientfd := if ret = 0 then Function.update s.pool.clientfd i (-1) else s.pool.clientfd }
    byteCnt := s.byteCnt + ret
    conn := if ret = 0 then Function.update s.conn connfd none else s.conn
    clients := Function.update s.clients c client }

/-- **One slot** of the loop of `check_clients`. -/
theorem checkClient_eq (s : Server) (i : Nat) :
    checkClient s i =
      if s.Ready i then
        (s.conn (s.pool.clientfd i)).bind fun c =>
          (serve (s.pool.clientrio i) (s.clients c)).map fun x => s.served i c x.1 x.2
      else some s := by
  unfold checkClient
  by_cases hready : s.Ready i
  · have hpos : s.pool.clientfd i > 0 ∧ s.pool.clientfd i ∈ s.pool.readySet := hready
    simp only [if_pos hready, if_pos hpos]
    cases hc : s.conn (s.pool.clientfd i) with
    | none => rfl
    | some c =>
        simp only [Option.bind_some, serve]
        cases hr : rioReadlineb (s.pool.clientrio i) maxline (s.clients c).input with
        | none => rfl
        | some r =>
            by_cases hret : r.ret = 0
            · simp [hret, Server.served]
            · simp only [ne_eq, hret, not_false_eq_true, if_true]
              cases hw : rioWriten r.usrbuf (sizeT r.ret) (s.clients c).output with
              | none => simp [Client.afterRead, hw]
              | some p => simp [Client.afterRead, hw, Server.served, hret]
  · have hnot : ¬ (s.pool.clientfd i > 0 ∧ s.pool.clientfd i ∈ s.pool.readySet) := hready
    simp only [if_neg hready, if_neg hnot]

/-- What `check_clients` can do with slot `i`. -/
inductive Checked (s : Server) (i : Nat) : Server → Prop where
  | idle (hready : ¬ s.Ready i) : Checked s i s
  | served (c : Nat) (ret : Int) (client : Client) (hready : s.Ready i)
      (hc : s.conn (s.pool.clientfd i) = some c)
      (hserve : serve (s.pool.clientrio i) (s.clients c) = some (ret, client)) :
      Checked s i (s.served i c ret client)

theorem checkClient_cases {s s' : Server} {i : Nat} (h : checkClient s i = some s') :
    Checked s i s' := by
  rw [checkClient_eq] at h
  split at h
  · next hready =>
      obtain ⟨c, hc, h⟩ := Option.bind_eq_some_iff.mp h
      obtain ⟨⟨ret, client⟩, hserve, rfl⟩ := Option.map_eq_some_iff.mp h
      exact .served c ret client hready hc hserve
  · next hready =>
      cases h
      exact .idle hready

/-! ## the loop -/

/-- The loop of `check_clients` goes on at slot `i`. -/
def Server.Goes (s : Server) (i : Nat) : Prop := (i : Int) ≤ s.pool.maxi ∧ 0 < s.pool.nready

/-- **Loop rule**: what one slot after the other keeps holds when the loop ends,
at the first slot where it does not go on or after the last. -/
theorem checkLoop_inv {I : Nat → Server → Prop}
    (hstep : ∀ i s s', I i s → s.Goes i → Checked s i s' → I (i + 1) s') {k i : Nat}
    {s s' : Server} (h : I i s) (hs : checkLoop k i s = some s') :
    ∃ j ≤ i + k, I j s' ∧ (j = i + k ∨ ¬ s'.Goes j) := by
  induction k generalizing i s with
  | zero =>
      simp only [checkLoop, Option.some.injEq] at hs
      subst hs
      exact ⟨i, Nat.le_refl _, h, .inl rfl⟩
  | succ k ih =>
      simp only [checkLoop] at hs
      split at hs
      · next hgoes =>
          cases hc : checkClient s i with
          | none => simp only [hc] at hs; contradiction
          | some s₁ =>
              simp only [hc] at hs
              rw [show i + (k + 1) = i + 1 + k by omega]
              exact ih (hstep i s s₁ h hgoes (checkClient_cases hc)) hs
      · next hstop =>
          rw [Option.some.injEq] at hs
          subst hs
          exact ⟨i, Nat.le_add_right _ _, h, .inr hstop⟩

/-- The loop returns if every slot it comes to does. -/
theorem checkLoop_returns {I : Nat → Server → Prop}
    (hstep : ∀ i s s', I i s → s.Goes i → Checked s i s' → I (i + 1) s')
    (hret : ∀ i s, I i s → s.Goes i → ∃ s', checkClient s i = some s') {k i : Nat} {s : Server}
    (h : I i s) : ∃ s', checkLoop k i s = some s' := by
  induction k generalizing i s with
  | zero => exact ⟨s, rfl⟩
  | succ k ih =>
      simp only [checkLoop]
      split
      · next hgoes =>
          obtain ⟨s₁, hs₁⟩ := hret i s h hgoes
          rw [hs₁]
          exact ih (hstep i s s₁ h hgoes (checkClient_cases hs₁))
      · exact ⟨s, rfl⟩

/-! ## a round of `main` -/

/-- `main` from `select` to `add_client`. -/
def Server.welcome (s : Server) (r : Round) : Server :=
  let s := s.select r.ready
  if s.listenfd ∈ s.pool.readySet then s.accept r else s

/-- A round of `main`, for every descriptor that `accept` may return. -/
def iteration (s : Server) (r : Round) : Option Server := checkClients (s.welcome r)

theorem round_cases {s s' : Server} {r : Round} (hs : round s r = some s') :
    (∀ set, r.ready = some set → set ⊆ s.pool.readSet) ∧
      (s.listenfd ∈ (s.select r.ready).pool.readySet → 0 < r.connfd ∧ r.connfd < fdSetsize ∧
        r.connfd ≠ s.listenfd ∧ s.conn r.connfd = none) ∧
      iteration s r = some s' := by
  have hsel : (s.select r.ready).listenfd = s.listenfd ∧
      (s.select r.ready).conn = s.conn := by
    unfold Server.select
    split <;> exact ⟨rfl, rfl⟩
  simp only [round] at hs
  obtain ⟨hsub, hs⟩ := Option.ite_none_right_eq_some.mp hs
  refine ⟨fun set hset => by simpa [hset] using hsub, ?_⟩
  simp only [iteration, Server.welcome]
  rw [hsel.1, hsel.2] at hs
  rw [hsel.1]
  split at hs
  · next hl =>
      obtain ⟨hfd, hs⟩ := Option.ite_none_right_eq_some.mp hs
      rw [if_pos hl]
      exact ⟨fun _ => hfd, hs⟩
  · next hl =>
      rw [if_neg hl]
      exact ⟨fun h => absurd h hl, hs⟩

end SysDemos.EchoServers
