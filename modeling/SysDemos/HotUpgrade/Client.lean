import SysDemos.HotUpgrade.Receiver
import SysDemos.HotUpgrade.System

/-!
# SysDemos.HotUpgrade.Client

`client_echo_request` of `hot_upgrade_demo/client.cc`: a request is written, and its payload is
read back.

Both halves are loops that repeat a system call until a position has reached its target
(`iteration`).  The results of the calls are streams, so that a run may go on for ever.  How many
bytes a call can return at most plays no role here, and is left open.

* `client_stops_iff` — the client stops unless the server ends the stream before the whole reply.
-/

namespace SysDemos.HotUpgrade.Client

/-- `message`. -/
def message : List UInt8 := ascii ['m', 'e', 's', 's', 'a', 'g', 'e']

/-- `write_buf`, as far as it is filled. -/
def writeBuf : List UInt8 := frame message

/-- `target_write_pos`. -/
def targetWritePos : Nat := message.length + headerLen

/-- `target_read_pos`. -/
def targetReadPos : Nat := message.length

/-- What a call has returned, as the loops look at it: a count, or `-1` with `errno`. -/
inductive CallRet where
  | count (n : Nat)
  | err (e : Errno)
  deriving DecidableEq, Repr

/-- The results of the successive calls on the client's socket. -/
structure Socket where
  writes : Nat → CallRet
  reads : Nat → ReadRet

/-- The count of a `read`. -/
def countOf : ReadRet → CallRet
  | .ret bs => .count bs.length
  | .err e => .err e

/-- What an iteration of one of the loops comes to: the call has been made, and the loop goes on
at `pos`; or the loop is left; or the client exits. -/
inductive Iteration where
  | goOn (pos : Nat)
  | leave
  | exit
  deriving DecidableEq, Repr

/-- One iteration of `while (pos < target)`. -/
def iteration (target pos : Nat) (r : CallRet) : Iteration :=
  if pos < target then
    match r with
    | .err .EAGAIN => .goOn pos
    | .err _ => .exit
    | .count n => .goOn (pos + n)
  else .leave

/-- Where the call stands; `exit` with the text that is reported. -/
inductive Phase where
  | write
  | read
  | done
  | exit (report : String)
  deriving DecidableEq, Repr

/-- The variables of `client_echo_request`, what it has written, and the numbers of calls made. -/
structure EchoRequest where
  phase : Phase
  writePos : Nat
  sent : List UInt8
  readPos : Nat
  readBuf : List UInt8
  writeCalls : Nat
  readCalls : Nat
  deriving DecidableEq, Repr

/-- The beginning of the function. -/
def start : EchoRequest :=
  { phase := .write, writePos := 0, sent := [], readPos := 0, readBuf := [], writeCalls := 0
    readCalls := 0 }

/-- An iteration of the loop the call is in. -/
def step (env : Socket) (s : EchoRequest) : EchoRequest :=
  match s.phase with
  | .write =>
    match iteration targetWritePos s.writePos (env.writes s.writeCalls) with
    | .goOn pos =>
      { s with writePos := pos, writeCalls := s.writeCalls + 1
               sent := s.sent ++ (writeBuf.take pos).drop s.writePos }
    | .leave => { s with phase := .read }
    | .exit => { s with phase := .exit "write request error" }
  | .read =>
    match iteration targetReadPos s.readPos (countOf (env.reads s.readCalls)) with
    | .goOn pos =>
      { s with readPos := pos, readCalls := s.readCalls + 1
               readBuf := s.readBuf ++ Receiver.bytesOf (env.reads s.readCalls) }
    | .leave => { s with phase := .done }
    | .exit => { s with phase := .exit "read reply error" }
  | .done | .exit _ => s

/-- The call after `k` iterations. -/
def after (env : Socket) (k : Nat) : EchoRequest := (step env)^[k] start

/-- Both loops are over. -/
def EchoRequest.Finished (s : EchoRequest) : Prop := s.phase ≠ .write ∧ s.phase ≠ .read

instance (s : EchoRequest) : Decidable s.Finished := inferInstanceAs (Decidable (_ ∧ _))

/-! ## one loop -/

/-- The progress made by a call. -/
def CallRet.progress : CallRet → Nat
  | .count n => n
  | .err _ => 0

/-- A result that makes the client exit. -/
def CallRet.Fatal (r : CallRet) : Prop := ∃ e, r = .err e ∧ e ≠ .EAGAIN

/-- The position after `k` calls. -/
def total (results : Nat → CallRet) (k : Nat) : Nat := ∑ j ∈ Finset.range k, (results j).progress

/-- The loop goes on for `k` iterations. -/
def GoesOn (target : Nat) (results : Nat → CallRet) (k : Nat) : Prop :=
  ∀ j < k, total results j < target ∧ ¬ (results j).Fatal

/-- The loop is over some time. -/
def Ends (target : Nat) (results : Nat → CallRet) : Prop :=
  ∃ k, target ≤ total results k ∨ (results k).Fatal

variable {target : Nat} {results : Nat → CallRet}

theorem total_succ (results : Nat → CallRet) (k : Nat) :
    total results (k + 1) = total results k + (results k).progress :=
  Finset.sum_range_succ _ _

theorem iteration_goOn {pos : Nat} {r : CallRet} (hpos : pos < target) (hr : ¬ r.Fatal) :
    iteration target pos r = .goOn (pos + r.progress) := by
  unfold iteration
  rw [if_pos hpos]
  cases r with
  | count n => rfl
  | err e =>
      cases e with
      | EAGAIN => rfl
      | EINTR => exact absurd ⟨_, rfl, nofun⟩ hr
      | other => exact absurd ⟨_, rfl, nofun⟩ hr

theorem iteration_leave {pos : Nat} {r : CallRet} (hpos : target ≤ pos) :
    iteration target pos r = .leave := by
  unfold iteration
  rw [if_neg (by omega)]

theorem iteration_exit {pos : Nat} {r : CallRet} (hpos : pos < target) (hr : r.Fatal) :
    iteration target pos r = .exit := by
  obtain ⟨e, rfl, he⟩ := hr
  unfold iteration
  rw [if_pos hpos]
  cases e with
  | EAGAIN => contradiction
  | EINTR => rfl
  | other => rfl

/-- The iteration in which a loop ends. -/
theorem Ends.first (h : Ends target results) :
    ∃ k, GoesOn target results k ∧ (target ≤ total results k ∨ (results k).Fatal) := by
  classical
  refine ⟨Nat.find h, fun j hj => ?_, Nat.find_spec h⟩
  have hnot := Nat.find_min h hj
  rw [not_or, Nat.not_le] at hnot
  exact hnot

/-- A loop that does not end. -/
theorem goesOn_of_not_ends (h : ¬ Ends target results) (k : Nat) : GoesOn target results k := by
  intro j _
  by_contra hnot
  rw [not_and_or, Nat.not_lt, not_not] at hnot
  exact h ⟨j, hnot⟩

/-- In a loop that does not end, calls without progress come again and again. -/
theorem exists_no_progress (h : ¬ Ends target results) (k : Nat) :
    ∃ j, k ≤ j ∧ (results j).progress = 0 := by
  by_contra hnot
  push Not at hnot
  have hgrows : ∀ m, m ≤ total results (k + m) := by
    intro m
    induction m with
    | zero => exact Nat.zero_le _
    | succ m ih =>
        have hpos := Nat.pos_of_ne_zero (hnot (k + m) (by omega))
        rw [← Nat.add_assoc, total_succ]
        omega
  exact h ⟨k + target, .inl (hgrows target)⟩

/-! ## the two loops -/

variable {env : Socket} {s : EchoRequest}

/-- The results of `read` as counts. -/
def Socket.counts (env : Socket) (k : Nat) : CallRet := countOf (env.reads k)

/-- The loop that writes the request, while it goes on. -/
theorem after_write {k : Nat} (h : GoesOn targetWritePos env.writes k) :
    after env k = { start with
      writePos := total env.writes k, sent := writeBuf.take (total env.writes k)
      writeCalls := k } := by
  induction k with
  | zero => rfl
  | succ k ih =>
      have hk := h k (Nat.lt_succ_self k)
      rw [after, Function.iterate_succ_apply', ← after, ih fun j hj => h j (by omega), total_succ]
      have hsent := List.take_append_drop (total env.writes k)
        (writeBuf.take (total env.writes k + (env.writes k).progress))
      rw [List.take_take, Nat.min_eq_left (Nat.le_add_right _ _)] at hsent
      simp only [step, start, iteration_goOn hk.1 hk.2, hsent]

/-- The loop that reads the reply, while it goes on, from a state at its beginning. -/
theorem step_read {k : Nat} (hs : s.phase = .read ∧ s.readPos = 0 ∧ s.readCalls = 0)
    (h : GoesOn targetReadPos env.counts k) :
    ((step env)^[k] s).phase = .read ∧ ((step env)^[k] s).readPos = total env.counts k ∧
      ((step env)^[k] s).readCalls = k := by
  induction k with
  | zero => exact hs
  | succ k ih =>
      have hk := h k (Nat.lt_succ_self k)
      obtain ⟨hphase, hpos, hcalls⟩ := ih fun j hj => h j (by omega)
      have hiter := iteration_goOn hk.1 hk.2
      rw [Socket.counts] at hiter
      rw [Function.iterate_succ_apply', total_succ, Socket.counts]
      simp only [step, hphase, hpos, hcalls, hiter]
      exact ⟨trivial, trivial, trivial⟩

/-- Whether the client stops is decided in the read loop, once it gets there. -/
theorem read_finishes_iff (hs : s.phase = .read ∧ s.readPos = 0 ∧ s.readCalls = 0) :
    (∃ k, ((step env)^[k] s).Finished) ↔ Ends targetReadPos env.counts := by
  constructor
  · rintro ⟨k, hk⟩
    by_contra hends
    exact hk.2 (step_read hs (goesOn_of_not_ends hends k)).1
  · intro hends
    obtain ⟨k, hgoes, hend⟩ := hends.first
    obtain ⟨hphase, hpos, hcalls⟩ := step_read hs hgoes
    refine ⟨k + 1, ?_⟩
    rw [Function.iterate_succ_apply', EchoRequest.Finished]
    by_cases hle : targetReadPos ≤ total env.counts k
    · simp [step, hphase, hpos, hcalls, iteration_leave hle]
    · have hexit := iteration_exit (Nat.not_le.mp hle) (hend.resolve_left hle)
      rw [Socket.counts] at hexit
      simp [step, hphase, hpos, hcalls, hexit]

/-- The whole request is written. -/
def Requested (env : Socket) : Prop :=
  ∃ k, GoesOn targetWritePos env.writes k ∧ targetWritePos ≤ total env.writes k

/-- The server ends the stream before the whole reply. -/
def Truncated (env : Socket) : Prop :=
  ∃ k, GoesOn targetReadPos env.counts k ∧ total env.counts k < targetReadPos ∧
    env.reads k = .ret []

/-- The behaviours of the socket that are considered: a `write` makes progress, the end of the
stream is final, and `EAGAIN` comes finitely often. -/
structure Socket.Proper (env : Socket) : Prop where
  progress : ∀ k, env.writes k ≠ .count 0
  eof : ∀ j k, j ≤ k → env.reads j = .ret [] → env.reads k = .ret []
  eagain : ∃ k, ∀ j, k ≤ j → env.writes j ≠ .err .EAGAIN ∧ env.reads j ≠ .err .EAGAIN

/-- The write loop is over some time. -/
theorem Socket.Proper.write_ends (h : env.Proper) : Ends targetWritePos env.writes := by
  by_contra hends
  obtain ⟨k, hk⟩ := h.eagain
  obtain ⟨j, hj, hzero⟩ := exists_no_progress hends k
  have hgoes := goesOn_of_not_ends hends (j + 1) j (Nat.lt_succ_self j)
  cases hr : env.writes j with
  | count n =>
      rw [hr] at hzero
      exact h.progress j (by rw [hr, show n = 0 from hzero])
  | err e => exact hgoes.2 ⟨e, hr, fun he => (hk j hj).1 (by rw [hr, he])⟩

/-- The read loop goes on for ever exactly if the stream ends too early. -/
theorem Socket.Proper.read_ends_iff (h : env.Proper) :
    Ends targetReadPos env.counts ↔ ¬ Truncated env := by
  constructor
  · rintro ⟨m, hm⟩ ⟨k, hgoes, hlt, heof⟩
    -- from the end of the stream on nothing changes
    have hcount : ∀ j, k ≤ j → env.counts j = .count 0 := fun j hj => by
      rw [Socket.counts, h.eof k j hj heof]
      rfl
    have htotal : ∀ j, total env.counts (k + j) = total env.counts k := by
      intro j
      induction j with
      | zero => rfl
      | succ j ih =>
          rw [← Nat.add_assoc, total_succ, ih, hcount _ (by omega)]
          rfl
    by_cases hmk : m < k
    · obtain ⟨hpos, hfatal⟩ := hgoes m hmk
      exact hm.elim (fun hle => by omega) hfatal
    · obtain ⟨j, rfl⟩ := Nat.exists_eq_add_of_le (Nat.not_lt.mp hmk)
      rw [htotal, hcount _ (by omega)] at hm
      obtain hle | ⟨e, he, -⟩ := hm
      · omega
      · contradiction
  · intro htrunc
    by_contra hends
    obtain ⟨k, hk⟩ := h.eagain
    obtain ⟨j, hj, hzero⟩ := exists_no_progress hends k
    have hgoes := goesOn_of_not_ends hends (j + 1)
    obtain ⟨hpos, hfatal⟩ := hgoes j (Nat.lt_succ_self j)
    refine htrunc ⟨j, fun i hi => hgoes i (by omega), hpos, ?_⟩
    simp only [Socket.counts] at hzero hfatal
    cases hr : env.reads j with
    | ret bs =>
        rw [hr] at hzero
        rw [List.length_eq_zero_iff.mp hzero]
    | err e =>
        rw [hr] at hfatal
        exact absurd ⟨e, rfl, fun he => (hk j hj).2 (by rw [hr, he])⟩ hfatal

/-- The loop that writes the request is left when a frame with the message has been sent. -/
theorem after_request {k : Nat} (hgoes : GoesOn targetWritePos env.writes k)
    (hle : targetWritePos ≤ total env.writes k) :
    after env (k + 1) = { start with
      phase := .read, writePos := total env.writes k, sent := frame message, writeCalls := k } := by
  have hwhole : writeBuf.take (total env.writes k) = frame message :=
    List.take_of_length_le (Nat.le_trans (by decide) hle)
  rw [after, Function.iterate_succ_apply', ← after, after_write hgoes, hwhole]
  simp only [step, start, iteration_leave hle]

/-- With the whole request written, the read loop decides. -/
theorem Requested.finishes_iff (h : Requested env) :
    (∃ k, (after env k).Finished) ↔ Ends targetReadPos env.counts := by
  obtain ⟨k, hgoes, hle⟩ := h
  rw [← read_finishes_iff (s := after env (k + 1))
    (by rw [after_request hgoes hle]; trivial)]
  constructor
  · rintro ⟨m, hm⟩
    by_cases hmk : m ≤ k
    · rw [after_write fun j hj => hgoes j (by omega)] at hm
      exact absurd rfl hm.1
    · obtain ⟨i, rfl⟩ := Nat.exists_eq_add_of_le (Nat.not_le.mp hmk)
      refine ⟨i, ?_⟩
      rwa [after, ← Function.iterate_add_apply, Nat.add_comm]
  · rintro ⟨i, hi⟩
    refine ⟨i + (k + 1), ?_⟩
    rwa [after, Function.iterate_add_apply]

/-- **When the client stops**: for every proper behaviour of the socket both loops of
`client_echo_request` are over after finitely many iterations, unless the whole request is written
and the server then ends the stream before the whole reply. -/
theorem client_stops_iff (env : Socket) (h : env.Proper) :
    (∃ k, (after env k).Finished) ↔ ¬ (Requested env ∧ Truncated env) := by
  obtain ⟨k, hgoes, hend⟩ := h.write_ends.first
  by_cases hle : targetWritePos ≤ total env.writes k
  · have hrequested : Requested env := ⟨k, hgoes, hle⟩
    rw [hrequested.finishes_iff, h.read_ends_iff, not_and, imp_iff_right hrequested]
  · -- the client exits in the write loop
    have hexit := iteration_exit (Nat.not_le.mp hle) (hend.resolve_left hle)
    have hfinished : (after env (k + 1)).Finished := by
      rw [after, Function.iterate_succ_apply', ← after, after_write hgoes]
      simp [step, start, hexit, EchoRequest.Finished]
    have hfailed : ¬ Requested env := by
      rintro ⟨m, hm, hle'⟩
      rcases Nat.lt_trichotomy m k with hlt | rfl | hgt
      · exact absurd hle' (Nat.not_le.mpr (hgoes m hlt).1)
      · exact hle hle'
      · exact (hm k hgt).2 (hend.resolve_left hle)
    exact iff_of_true ⟨k + 1, hfinished⟩ fun hboth => hfailed hboth.1

/-- A server that sends `reply` in one piece and ends the stream. -/
def closingAfter (reply : List UInt8) : Socket :=
  { writes := fun _ => .count targetWritePos, reads := fun k => .ret (if k = 0 then reply else []) }

theorem proper_closingAfter {reply : List UInt8} (h : reply ≠ []) :
    (closingAfter reply).Proper where
  progress k := nofun
  eof j k hjk hj := by
    have hk : k ≠ 0 := by
      rintro rfl
      obtain rfl : j = 0 := by omega
      exact h (by simpa [closingAfter] using hj)
    simp [closingAfter, hk]
  eagain := ⟨0, fun _ _ => ⟨nofun, nofun⟩⟩

/-- The request is written at once. -/
theorem requested_closingAfter (reply : List UInt8) : Requested (closingAfter reply) := by
  refine ⟨1, fun j hj => ?_, Nat.le_refl _⟩
  obtain rfl : j = 0 := by omega
  refine ⟨show 0 < targetWritePos by decide, ?_⟩
  rintro ⟨e, he, -⟩
  contradiction

/-- A server that sends three bytes of the reply and closes: the client never stops. -/
theorem client_does_not_stop :
    ¬ ∀ env : Socket, env.Proper → ∃ k, (after env k).Finished := by
  intro hall
  have hproper : (closingAfter [109, 101, 115]).Proper := proper_closingAfter (by decide)
  have hends := (requested_closingAfter _).finishes_iff.mp (hall _ hproper)
  refine hproper.read_ends_iff.mp hends ⟨1, fun j hj => ?_, by decide, rfl⟩
  obtain rfl : j = 0 := by omega
  refine ⟨by decide, ?_⟩
  rintro ⟨e, he, -⟩
  contradiction

/-- A server that sends the whole reply before it closes. -/
theorem client_stops_after_reply : ∃ k, (after (closingAfter message) k).Finished := by
  refine (client_stops_iff _ (proper_closingAfter (by decide))).mpr ?_
  rintro ⟨-, k, hgoes, hlt, heof⟩
  have hone : ¬ total (closingAfter message).counts 1 < targetReadPos := by decide
  rcases Nat.lt_trichotomy k 1 with hk | rfl | hk
  · obtain rfl : k = 0 := by omega
    exact absurd heof (by decide)
  · exact hone hlt
  · exact hone (hgoes 1 hk).1

end SysDemos.HotUpgrade.Client
