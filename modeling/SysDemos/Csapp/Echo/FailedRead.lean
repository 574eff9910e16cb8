import SysDemos.Csapp.Echo

/-!
# SysDemos.Csapp.Echo.FailedRead

What `echo` and `check_clients` do after a `read` that fails.

`rio_readlineb` returns `-1` then.  Both callers compare its result with 0 only
and hand it to `rio_writen`, whose length parameter is a `size_t`: the failed
read is "echoed" with a length of `2 ^ 64 - 1`, and `check_clients` adds `-1` to
`byte_cnt`.

* `rioReadlineb_used` — the line read returns `-1` exactly if a `read` it made
  has failed, not by an interrupt;
* `no_echo_of_failure_iff` — both callers are as they should be exactly as long
  as no `read` fails.
-/

namespace SysDemos.FailedRead

open Rio EchoServers

/-! ## the result of a line read -/

/-- Among these results of `read` is an error other than an interrupt. -/
def Failed (cs : List ReadRet) : Prop := ∃ e, e ≠ .EINTR ∧ .err e ∈ cs

theorem failed_append {cs cs' : List ReadRet} : Failed (cs ++ cs') ↔ Failed cs ∨ Failed cs' := by
  simp only [Failed, List.mem_append, and_or_left, exists_or]

theorem not_failed_nil : ¬ Failed [] := by simp [Failed]

theorem not_failed_ret (bs : List UInt8) : ¬ Failed [.ret bs] := by simp [Failed]

/-- The result `ret` of a read function that has used the results `cs` of `read`:
`-1` after a failure, a count up to `n` otherwise. -/
def Reports (cs : List ReadRet) (ret n : Int) : Prop :=
  (Failed cs ∧ ret = -1) ∨ (¬ Failed cs ∧ 0 ≤ ret ∧ ret ≤ n)

/-- Results without a failure in front of others. -/
theorem Reports.append {cs' : List ReadRet} {ret n n' : Int} (cs : List ReadRet)
    (h : Reports cs' ret n') (hcs : ¬ Failed cs) (hn : n' ≤ n) : Reports (cs ++ cs') ret n := by
  unfold Reports at h ⊢
  rw [failed_append, or_iff_right hcs]
  rcases h with hf | ⟨hnf, hpos, hle⟩
  · exact .inl hf
  · exact .inr ⟨hnf, hpos, hle.trans hn⟩

theorem rioCopy_reports {rp : RioT} {n : Nat} (hcnt : 0 < rp.rioCnt) (reads : List ReadRet) :
    Reports [] (rioCopy rp n reads).ret n := by
  refine .inr ⟨not_failed_nil, ?_⟩
  simp only [rioCopy]
  split <;> omega

theorem rioRead_used {rp : RioT} {n : Nat} {reads : List ReadRet} {r : Res}
    (hr : rioRead rp n reads = some r) :
    ∃ cs, reads = cs ++ r.rest ∧ Reports cs r.ret n := by
  fun_induction rioRead rp n reads with
  | case1 => contradiction
  | case2 rp hcnt =>
      cases hr
      exact ⟨[], rfl, rioCopy_reports (by omega) _⟩
  | case3 rp reads hcnt ih =>
      obtain ⟨cs, rfl, hrep⟩ := ih hr
      exact ⟨.err .EINTR :: cs, rfl, hrep.append [.err .EINTR] (by simp [Failed]) le_rfl⟩
  | case4 rp reads hcnt e he =>
      cases hr
      exact ⟨[.err e], rfl, .inl ⟨⟨e, he, List.mem_singleton_self _⟩, rfl⟩⟩
  | case5 rp reads hcnt =>
      cases hr
      exact ⟨[.ret []], rfl, .inr ⟨not_failed_ret [], le_rfl, Int.natCast_nonneg n⟩⟩
  | case6 rp reads hcnt bs hbs ih =>
      obtain ⟨cs, rfl, hrep⟩ := ih hr
      exact ⟨.ret bs :: cs, rfl, hrep.append [.ret bs] (not_failed_ret bs) le_rfl⟩
  | case7 rp x reads hcnt =>
      cases hr
      exact ⟨[], rfl, rioCopy_reports (by omega) _⟩

/-- The line loop with `k` iterations left at `n`. -/
theorem rioReadlinebLoop_used {k n : Nat} {rp : RioT} {usr : List UInt8} {reads : List ReadRet}
    {r : Res} (hr : rioReadlinebLoop k n rp usr reads = some r) :
    ∃ cs, reads = cs ++ r.rest ∧ Reports cs r.ret (n + k) := by
  induction k generalizing n rp usr reads with
  | zero =>
      cases hr
      exact ⟨[], rfl, .inr ⟨not_failed_nil, by simp, by simp⟩⟩
  | succ k ih =>
      obtain ⟨r₁, hone, hstep⟩ := rioReadlinebLoop_cases hr
      obtain ⟨cs₁, rfl, hrep⟩ := rioRead_used hone
      have hnf : 0 ≤ r₁.ret → ¬ Failed cs₁ := fun hpos =>
        (hrep.resolve_left fun hf => by omega).1
      cases hstep with
      | newline hret => exact ⟨cs₁, rfl, .inr ⟨hnf (by omega), by simp, by simp; omega⟩⟩
      | more r hret _ hr =>
          obtain ⟨cs, hcs, hrest⟩ := ih hr
          exact ⟨cs₁ ++ cs, by rw [hcs, List.append_assoc],
            hrest.append cs₁ (hnf (by omega)) (by push_cast; omega)⟩
      | eof hret =>
          refine ⟨cs₁, rfl, .inr ⟨hnf (by omega), ?_⟩⟩
          dsimp only
          split <;> omega
      | err hret =>
          -- the failure is passed on
          rcases hrep with ⟨hf, -⟩ | ⟨-, hpos, hle⟩
          · exact ⟨cs₁, rfl, .inl ⟨hf, rfl⟩⟩
          · omega

/-- **The result of a line read.** -/
theorem rioReadlineb_used {rp : RioT} {reads : List ReadRet} {r : Res}
    (hr : rioReadlineb rp maxline reads = some r) :
    ∃ cs, reads = cs ++ r.rest ∧ Reports cs r.ret maxline :=
  rioReadlinebLoop_used hr

/-! ## what is done with it -/

/-- One use of `rio_readlineb`: the results of `read` it has used, and the length
given to `rio_writen`, if that is called. -/
structure Turn where
  used : List ReadRet
  length : Option Nat
  deriving DecidableEq

/-- The turn of a line read from `reads` with the result `r`: both callers call
`rio_writen` unless it is 0. -/
def turnOf (reads : List ReadRet) (r : Res) : Turn :=
  { used := reads.take (reads.length - r.rest.length)
    length := if r.ret ≠ 0 then some (sizeT r.ret) else none }

/-- The lengths of this turn are those of a line. -/
def Turn.Bounded (t : Turn) : Prop := ∀ n, t.length = some n → 1 ≤ n ∧ n ≤ maxline

/-- A turn of some line read. -/
def LineTurn (t : Turn) : Prop :=
  ∃ rp reads r, rioReadlineb rp maxline reads = some r ∧ t = turnOf reads r

/-- A failed read is handed to `rio_writen` as the greatest `size_t`; the length of
any other is that of a line. -/
theorem LineTurn.bounded_iff_not_failed {t : Turn} (h : LineTurn t) :
    t.Bounded ↔ ¬ Failed t.used := by
  obtain ⟨rp, reads, r, hr, rfl⟩ := h
  obtain ⟨cs, rfl, hrep⟩ := rioReadlineb_used hr
  have hused : (turnOf (cs ++ r.rest) r).used = cs := by simp [turnOf]
  rw [hused]
  rcases hrep with ⟨hf, hret⟩ | ⟨hnf, hpos, hle⟩
  · refine iff_of_false (fun hb => ?_) (not_not.mpr hf)
    have hlen : (turnOf (cs ++ r.rest) r).length = some (2 ^ 64 - 1) := by
      simp only [turnOf, hret]
      rfl
    exact absurd (hb _ hlen).2 (by decide)
  · refine iff_of_true (fun n hn => ?_) hnf
    obtain ⟨hne, hn⟩ := Option.ite_none_right_eq_some.mp hn
    lift r.ret to Nat using hpos with m hm
    rw [sizeT_of_nat (by unfold maxline at hle; omega), Option.some.injEq] at hn
    omega

/-- The turns of the loop of `echo`, up to a call that blocks. -/
def echoTurns : Nat → RioT → List ReadRet → List WriteRet → List Turn
  | 0, _, _, _ => []
  | fuel + 1, rp, reads, writes =>
    match rioReadlineb rp maxline reads with
    | none => []
    | some r =>
      turnOf reads r ::
        if r.ret ≠ 0 then
          match rioWriten r.usrbuf (sizeT r.ret) writes with
          | none => []
          | some (_, _, rest) => echoTurns fuel r.rp r.rest rest
        else []

/-- An `echo` that returns has written in all its turns but the last. -/
theorem echoTurns_of_echoLoop {fuel : Nat} {rp : RioT} {reads : List ReadRet}
    {writes : List WriteRet} {out : List UInt8}
    (h : Echo.echoLoop fuel rp reads writes = some out) :
    ∃ ts t, echoTurns fuel rp reads writes = ts ++ [t] ∧ t.length = none ∧
      ∀ t ∈ ts, t.length ≠ none := by
  induction fuel generalizing rp reads writes out with
  | zero => simp only [Echo.echoLoop] at h; contradiction
  | succ fuel ih =>
      simp only [Echo.echoLoop] at h
      cases hr : rioReadlineb rp maxline reads with
      | none => simp only [hr] at h; contradiction
      | some r =>
          simp only [hr] at h
          simp only [echoTurns, hr]
          split at h
          · next hret =>
              cases hw : rioWriten r.usrbuf (sizeT r.ret) writes with
              | none => simp only [hw] at h; contradiction
              | some p =>
                  simp only [hw] at h
                  obtain ⟨out', hrec, -⟩ := Option.map_eq_some_iff.mp h
                  obtain ⟨ts, t, hts, hlast, hall⟩ := ih hrec
                  rw [if_pos hret]
                  refine ⟨turnOf reads r :: ts, t, congrArg _ hts, hlast, fun u hu => ?_⟩
                  rcases List.mem_cons.mp hu with rfl | hu
                  · simp only [turnOf, if_pos hret]
                    exact Option.some_ne_none _
                  · exact hall u hu
          · next hret =>
              rw [if_neg hret]
              exact ⟨[], turnOf reads r, rfl, if_neg hret, by simp⟩

theorem lineTurn_of_mem_echoTurns {fuel : Nat} {rp : RioT} {reads : List ReadRet}
    {writes : List WriteRet} {t : Turn} (h : t ∈ echoTurns fuel rp reads writes) :
    LineTurn t := by
  induction fuel generalizing rp reads writes with
  | zero => contradiction
  | succ fuel ih =>
      simp only [echoTurns] at h
      cases hr : rioReadlineb rp maxline reads with
      | none => simp only [hr] at h; contradiction
      | some r =>
          simp only [hr] at h
          rcases List.mem_cons.mp h with rfl | h
          · exact ⟨rp, reads, r, hr, rfl⟩
          · split at h
            · split at h
              · contradiction
              · exact ih h
            · contradiction

/-! ## the select server -/

/-- A turn of `check_clients`, with what it adds to `byte_cnt`. -/
structure Visit extends Turn where
  added : Int
  deriving DecidableEq

/-- The visit of slot `i`, if its client is ready and the line read returns. -/
def visit (s : Server) (i : Nat) : Option Visit :=
  if s.Ready i then
    (s.conn (s.pool.clientfd i)).bind fun c =>
      (rioReadlineb (s.pool.clientrio i) maxline (s.clients c).input).map fun r =>
        { turnOf (s.clients c).input r with added := if r.ret ≠ 0 then r.ret else 0 }
  else none

/-- The visits of the loop of `check_clients`, up to a call that blocks. -/
def visits : Nat → Nat → Server → List Visit
  | 0, _, _ => []
  | k + 1, i, s =>
    if (i : Int) ≤ s.pool.maxi ∧ s.pool.nready > 0 then
      (visit s i).toList ++
        match checkClient s i with
        | none => []
        | some s' => visits k (i + 1) s'
    else []

/-- The visits of `check_clients`. -/
def checkVisits (s : Server) : List Visit := visits (s.pool.maxi + 1).toNat 0 s

/-- `byte_cnt` after a slot. -/
theorem byteCnt_checked {s s' : Server} {i : Nat} (h : Checked s i s') :
    s'.byteCnt = s.byteCnt + ((visit s i).toList.map (·.added)).sum := by
  cases h with
  | idle hready => simp [visit, hready]
  | served c ret client hready hc hserve =>
      have hbyte : (s.served i c ret client).byteCnt = s.byteCnt + ret := rfl
      rw [hbyte]
      cases serve_cases hserve with
      | echoed r w out rest hr hret hw => simp [visit, hready, hc, hr, hret]
      | eof r hr hret => simp [visit, hready, hc, hr, hret]

/-- `byte_cnt` after `check_clients` is the sum of what the visits add. -/
theorem byteCnt_checkLoop {k i : Nat} {s s' : Server} (h : checkLoop k i s = some s') :
    s'.byteCnt = s.byteCnt + ((visits k i s).map (·.added)).sum := by
  induction k generalizing i s with
  | zero => cases h; simp [visits]
  | succ k ih =>
      simp only [checkLoop] at h
      simp only [visits]
      split at h
      · next hgoes =>
          cases hc : checkClient s i with
          | none => simp only [hc] at h; contradiction
          | some s₁ =>
              simp only [hc] at h
              rw [if_pos hgoes, List.map_append, List.sum_append, ih h,
                byteCnt_checked (checkClient_cases hc), add_assoc]
      · next hstop => cases h; simp [hstop]

theorem lineTurn_of_mem_visits {k i : Nat} {s : Server} {v : Visit} (h : v ∈ visits k i s) :
    LineTurn v.toTurn := by
  induction k generalizing i s with
  | zero => contradiction
  | succ k ih =>
      simp only [visits] at h
      split at h
      · rcases List.mem_append.mp h with h | h
        · rw [Option.mem_toList, visit] at h
          obtain ⟨-, h⟩ := Option.ite_none_right_eq_some.mp h
          obtain ⟨c, -, h⟩ := Option.bind_eq_some_iff.mp h
          obtain ⟨r, hr, rfl⟩ := Option.map_eq_some_iff.mp h
          exact ⟨_, _, r, hr, rfl⟩
        · split at h
          · contradiction
          · exact ih h
      · contradiction

/-! ## main results -/

/-- After a failed read `echo` writes nothing and returns, and every length it gives
to `rio_writen` is that of a line. -/
def EchoSound (ts : List Turn) : Prop :=
  ∀ xs t ys, ts = xs ++ t :: ys → t.Bounded ∧ (Failed t.used → t.length = none ∧ ys = [])

/-- A failed read in `check_clients` is followed by no write and not counted, and every
length given to `rio_writen` is that of a line. -/
def CheckSound (vs : List Visit) : Prop :=
  ∀ v ∈ vs, v.Bounded ∧ (Failed v.used → v.length = none ∧ v.added = 0)

/-- **When a failed read is not echoed**: for every buffer, every sequence of results of
`read` and `write` and every state of the server, exactly if no `read` that was made
has failed other than by an interrupt. -/
theorem no_echo_of_failure_iff (fuel : Nat) (rp : RioT) (reads : List ReadRet)
    (writes : List WriteRet) (s : Server) :
    (EchoSound (echoTurns fuel rp reads writes) ↔
        ∀ t ∈ echoTurns fuel rp reads writes, ¬ Failed t.used) ∧
      (CheckSound (checkVisits s) ↔ ∀ v ∈ checkVisits s, ¬ Failed v.used) := by
  refine ⟨⟨fun h t ht => ?_, fun h xs t ys hts => ?_⟩, ⟨fun h v hv => ?_, fun h v hv => ?_⟩⟩
  · obtain ⟨xs, ys, hts⟩ := List.append_of_mem ht
    exact (lineTurn_of_mem_echoTurns ht).bounded_iff_not_failed.mp (h xs t ys hts).1
  · have ht : t ∈ echoTurns fuel rp reads writes := by simp [hts]
    have hok := h t ht
    exact ⟨(lineTurn_of_mem_echoTurns ht).bounded_iff_not_failed.mpr hok, fun hf => absurd hf hok⟩
  · exact (lineTurn_of_mem_visits hv).bounded_iff_not_failed.mp (h v hv).1
  · have hok := h v hv
    exact ⟨(lineTurn_of_mem_visits hv).bounded_iff_not_failed.mpr hok, fun hf => absurd hf hok⟩

/-- A client whose connection fails at its first `read`, in a round that finds it ready. -/
def failingClient : Server :=
  ((init 3).accept { ready := none, connfd := 4, input := [.err .other],
                     output := [.fail .other] }).select (some {4})

/-- A first `read` that fails is handed to `rio_writen` in both programs, and counted. -/
theorem failed_read_echoed :
    (¬ ∀ fuel rp reads writes, EchoSound (echoTurns fuel rp reads writes)) ∧
      ¬ ∀ s, CheckSound (checkVisits s) := by
  constructor
  · intro h
    have hturns : echoTurns 2 ⟨4, 0, 0, []⟩ [.err .other] [.fail .other] =
        [] ++ ⟨[.err .other], some (2 ^ 64 - 1)⟩ :: [] := by decide +kernel
    exact absurd ((h _ _ _ _ _ _ _ hturns).1 _ rfl).2 (by decide)
  · intro h
    have hvisits : checkVisits failingClient =
        [⟨⟨[.err .other], some (2 ^ 64 - 1)⟩, -1⟩] := by decide +kernel
    exact absurd ((h failingClient _ (by rw [hvisits]; exact List.mem_singleton_self _)).1 _ rfl).2
      (by decide)

end SysDemos.FailedRead
