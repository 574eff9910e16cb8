import SysDemos.HotUpgrade.Receiver.Wakeup
import SysDemos.HotUpgrade.System

/-!
# SysDemos.HotUpgrade.Receiver.Departure

What becomes of a session whose client has gone.

Until the first request is complete a session is registered for edge-triggered input.  If the
last bytes and the end of the stream are both there when the event is fetched, `GetRequest`
stops at the short `read` of the bytes, and the end of the stream has no further edge: the
session is never looked at again.

* `departed_client_iff` — an event is pending for a departed client exactly if a request has
  been completed, or its end of stream has come after the last event was fetched.
-/

namespace SysDemos.HotUpgrade

open InetConn (GetRequest)
open Lts

/-! ## the calls that have returned -/

namespace Receiver

variable {s s' : Receiver} {e : Event}

/-- A call goes on and has returned nothing, or it returns. -/
theorem returns_proceed (s : Receiver) (g : GetRequest) :
    (s.proceed g).call ≠ none ∧ (s.proceed g).returns = s.returns ∨
      ∃ x, (s.proceed g).call = none ∧ (s.proceed g).returns = s.returns ++ [x] ∧
        (s.proceed g).last = some x.status := by
  cases g with
  | header => exact .inl ⟨nofun, rfl⟩
  | payload => exact .inl ⟨nofun, rfl⟩
  | done rs => exact .inr ⟨_, rfl, rfl, last_done⟩

/-- The same for a step of a call. -/
theorem returns_step (hs : Step s e s') (he : e = .getRequest ∨ ∃ r, e = .read r) :
    s'.call ≠ none ∧ s'.returns = s.returns ∨
      ∃ x, s'.call = none ∧ s'.returns = s.returns ++ [x] ∧ s'.last = some x.status := by
  cases hs with
  | send => simp at he
  | shutdown => simp at he
  | getRequest => exact returns_proceed s _
  | @header r => exact returns_proceed (s.took r _) _
  | @payload r => exact returns_proceed (s.took r _) _

/-- A step of a call changes neither what the client has done nor what it can do. -/
theorem closed_step (hs : Step s e s') (he : e = .getRequest ∨ ∃ r, e = .read r) :
    s'.closed = s.closed := by
  have hproceed : ∀ (t : Receiver) g, (t.proceed g).closed = t.closed := fun t g => by
    cases g <;> rfl
  cases hs with
  | send => simp at he
  | shutdown => simp at he
  | getRequest => exact hproceed _ _
  | @header r => exact hproceed (s.took r _) _
  | @payload r => exact hproceed (s.took r _) _

/-- A request has been completed on this connection. -/
def Served (s : Receiver) : Prop := ∃ x ∈ s.returns, x.status = .kReadAll

theorem served_snoc {x : Return} (h : s'.returns = s.returns ++ [x]) :
    s'.Served ↔ s.Served ∨ x.status = .kReadAll := by
  unfold Served
  rw [h]
  simp [or_and_right, exists_or]

end Receiver

namespace Watched

/-! ## what is known from the events -/

/-- The bytes that an event brings. -/
def Event.bytes : Event → List UInt8
  | .arrive bs => bs
  | _ => []

/-- The bytes of the client, those that were there at the registration first. -/
def streamOf (inbox : List UInt8) (events : List Event) : List UInt8 :=
  inbox ++ events.flatMap Event.bytes

/-- A front part of a sequence of frames of the sizes allowed. -/
def Requests (stream : List UInt8) : Prop :=
  ∃ payloads : List (List UInt8),
    (∀ payload ∈ payloads, 1 ≤ payload.length ∧ payload.length ≤ System.maxPayload) ∧
      stream <+: payloads.flatMap frame

/-- The end of the stream has arrived. -/
def Ended (closed : Bool) (events : List Event) : Prop := closed = true ∨ .finish ∈ events

/-- The end of the stream was there already when the last event was fetched. -/
def EndFetched (closed : Bool) (events : List Event) : Prop :=
  ∃ before mask after, events = before ++ .fetch mask :: after ∧ Ended closed before ∧
    ∀ m, .fetch m ∉ after

variable {closed : Bool} {events : List Event} {e : Event} {s s' : Watched}

theorem EndFetched.ended (h : EndFetched closed events) : Ended closed events := by
  obtain ⟨before, mask, after, rfl, hended, -⟩ := h
  exact hended.imp_right (List.mem_append_left _)

theorem endFetched_fetch {mask : Mask} :
    EndFetched closed (events ++ [.fetch mask]) ↔ Ended closed events := by
  constructor
  · rintro ⟨before, m, after, heq, hended, hafter⟩
    obtain rfl | ⟨after, x, rfl⟩ := List.eq_nil_or_concat' after
    · obtain ⟨rfl, -⟩ := List.append_singleton_inj.mp heq
      exact hended
    · rw [← List.cons_append, ← List.append_assoc] at heq
      obtain ⟨-, rfl⟩ := List.append_singleton_inj.mp heq
      exact absurd (by simp) (hafter mask)
  · intro hended
    exact ⟨events, mask, [], rfl, hended, fun _ => List.not_mem_nil⟩

theorem endFetched_other (he : ∀ mask, e ≠ .fetch mask) :
    EndFetched closed (events ++ [e]) ↔ EndFetched closed events := by
  constructor
  · rintro ⟨before, m, after, heq, hended, hafter⟩
    obtain rfl | ⟨after, x, rfl⟩ := List.eq_nil_or_concat' after
    · obtain ⟨-, rfl⟩ := List.append_singleton_inj.mp heq
      exact absurd rfl (he m)
    · rw [← List.cons_append, ← List.append_assoc] at heq
      obtain ⟨rfl, -⟩ := List.append_singleton_inj.mp heq
      exact ⟨before, m, after, rfl, hended, fun m' hm' => hafter m' (List.mem_append_left _ hm')⟩
  · rintro ⟨before, m, after, rfl, hended, hafter⟩
    refine ⟨before, m, after ++ [e], by simp, hended, fun m' hm' => ?_⟩
    obtain hold | hnew := List.mem_append.mp hm'
    · exact hafter m' hold
    · exact he m' (List.mem_singleton.mp hnew).symm

theorem ended_snoc : Ended closed (events ++ [e]) ↔ Ended closed events ∨ e = .finish := by
  simp [Ended, or_assoc, eq_comm]

/-! ## the invariant -/

/-- While a session is registered for edge-triggered input no request has been completed, and once
the stream has ended there is an edge exactly if the end has not been there at a fetch. -/
structure Watch (closed : Bool) (events : List Event) (s : Watched) : Prop where
  awake : Awake s
  ended : s.rcv.closed = true ↔ Ended closed events
  level : s.interest.epollet = true ↔ ¬ s.rcv.Served
  edge : s.interest.epollet = true → s.rcv.closed = true →
    (s.edge = true ↔ ¬ EndFetched closed events)

/-- An event that neither ends the stream nor is fetched. -/
theorem Watch.snoc (h : Watch closed events s) (hfetch : ∀ mask, e ≠ .fetch mask)
    (hfinish : e ≠ .finish) : Watch closed (events ++ [e]) s := by
  refine ⟨h.awake, ?_, h.level, fun het hclosed => ?_⟩
  · rw [ended_snoc, or_iff_left hfinish]
    exact h.ended
  · rw [endFetched_other hfetch]
    exact h.edge het hclosed

/-- `GetRequest` has stopped or returned: with a request complete the registration changes. -/
theorem Watch.afterGetRequest (h : Watch closed events s) {rcv : Receiver}
    (hawake : Awake (s.afterGetRequest rcv)) (hclosed : rcv.closed = s.rcv.closed)
    (hreturns : rcv.call ≠ none ∧ rcv.returns = s.rcv.returns ∨
      ∃ x, rcv.call = none ∧ rcv.returns = s.rcv.returns ++ [x] ∧ rcv.last = some x.status) :
    Watch closed events (s.afterGetRequest rcv) := by
  have hended : rcv.closed = true ↔ Ended closed events := by rw [hclosed]; exact h.ended
  have hedge : s.interest.epollet = true → rcv.closed = true →
      (s.edge = true ↔ ¬ EndFetched closed events) := by rw [hclosed]; exact h.edge
  obtain ⟨hcall, hsame⟩ | ⟨x, hcall, hsnoc, hlast⟩ := hreturns
  · have hserved : rcv.Served ↔ s.rcv.Served := by rw [Receiver.Served, hsame]; rfl
    have hlevel : s.interest.epollet = true ↔ ¬ rcv.Served := by rw [hserved]; exact h.level
    obtain ⟨g, hg⟩ := Option.ne_none_iff_exists'.mp hcall
    simp only [Watched.afterGetRequest, hg] at hawake ⊢
    exact ⟨hawake, hended, hlevel, hedge⟩
  · have hserved := Receiver.served_snoc hsnoc
    have hlevel : x.status ≠ .kReadAll → (s.interest.epollet = true ↔ ¬ rcv.Served) := fun hx => by
      rw [hserved, or_iff_left hx]
      exact h.level
    simp only [Watched.afterGetRequest, hcall, hlast] at hawake ⊢
    cases hx : x.status with
    | kReadAll =>
        simp only [hx] at hawake ⊢
        exact ⟨hawake, hended, iff_of_false nofun (not_not.mpr (hserved.mpr (.inr hx))), nofun⟩
    | _ =>
        simp only [hx] at hawake ⊢
        exact ⟨hawake, hended, hlevel (by simp [hx]), hedge⟩

theorem Watch.step (h : Watch closed events s) (hs : Step s e s') :
    Watch closed (events ++ [e]) s' := by
  have hawake := h.awake.step hs
  cases hs with
  | @arrive bs rcv _ hrcv =>
      have h' := h.snoc (e := .arrive bs) (by simp) (by simp)
      cases Receiver.step_cases hrcv with
      | send hopen =>
          refine ⟨hawake, h'.ended, h'.level, fun _ hclosed => ?_⟩
          exact absurd hclosed (by rw [Watched.arrived, hopen]; decide)
  | finish hopen hrcv =>
      cases Receiver.step_cases hrcv with
      | shutdown =>
          refine ⟨hawake, iff_of_true rfl (ended_snoc.mpr (.inr rfl)), h.level, fun het _ => ?_⟩
          have hin := (h.awake.input het).1
          have hnot : ¬ EndFetched closed events := fun hend => by
            have hclosed := h.ended.mpr hend.ended
            rw [hopen] at hclosed
            contradiction
          rw [endFetched_other (e := .finish) (by simp)]
          refine iff_of_true ?_ hnot
          simp only [Watched.arrived] at het hin ⊢
          rw [het, hin, Bool.and_self, Bool.or_true]
  | fetch =>
      refine ⟨hawake, ?_, h.level, fun _ hclosed => ?_⟩
      · rw [ended_snoc, or_iff_left (by simp)]
        exact h.ended
      · rw [endFetched_fetch]
        exact iff_of_false Bool.false_ne_true (not_not.mpr (h.ended.mp hclosed))
  | @drop mask handOver =>
      have h' := h.snoc (e := .dispatch handOver) (by simp) (by simp)
      exact ⟨hawake, h'.ended, h'.level, h'.edge⟩
  | @getRequest mask handOver rcv _ _ hrcv =>
      have hstep := Receiver.step_cases hrcv
      exact (h.snoc (by simp) (by simp)).afterGetRequest hawake
        (Receiver.closed_step hstep (.inl rfl)) (Receiver.returns_step hstep (.inl rfl))
  | @reply mask handOver =>
      have h' := h.snoc (e := .dispatch handOver) (by simp) (by simp)
      exact ⟨hawake, h'.ended, h'.level, h'.edge⟩
  | @nothing mask handOver =>
      have h' := h.snoc (e := .dispatch handOver) (by simp) (by simp)
      exact ⟨hawake, h'.ended, h'.level, h'.edge⟩
  | read _ _ hrcv =>
      have hstep := Receiver.step_cases hrcv
      exact (h.snoc (by simp) (by simp)).afterGetRequest hawake
        (Receiver.closed_step hstep (.inr ⟨_, rfl⟩)) (Receiver.returns_step hstep (.inr ⟨_, rfl⟩))
  | @write r hreply =>
      have h' := h.snoc (e := .write r) (by simp) (by simp)
      have hlevel := h.awake.writing hreply
      have hserved : ¬ ¬ s.rcv.Served := fun hnot => by
        have het := h.level.mpr hnot
        rw [hlevel] at het
        contradiction
      cases hws : (s.rcv.conn.sendReply r).2 with
      | kWriteAll =>
          rw [hws] at hawake
          exact ⟨hawake, h'.ended, iff_of_false Bool.false_ne_true hserved,
            fun het => absurd het Bool.false_ne_true⟩
      | kWriteHalf =>
          rw [hws] at hawake
          exact ⟨hawake, h'.ended, h'.level, h'.edge⟩
      | kWriteError =>
          rw [hws] at hawake
          exact ⟨hawake, h'.ended, h'.level, h'.edge⟩

theorem watch_register (fd : Int) (inbox : List UInt8) (closed : Bool) :
    Watch closed [] (register fd inbox closed) where
  awake := awake_register fd inbox closed
  ended := by simp [register, Ended]
  level := iff_of_true rfl (by simp [Receiver.Served, register, Receiver.start])
  edge _ hclosed := by
    refine iff_of_true ?_ ?_
    · simp only [register, Receiver.ready] at hclosed ⊢
      simp [hclosed]
    · rintro ⟨before, mask, after, heq, -⟩
      simp at heq

theorem watch_of_run {fd : Int} {inbox : List UInt8}
    (hrun : Run Watched.step any (register fd inbox closed) events s) : Watch closed events s := by
  induction hrun with
  | nil => exact watch_register fd inbox closed
  | snoc _ _ hs ih => exact ih.step (step_cases hs)

/-- **Departed clients**: when a client has ended its stream and its session waits for input, the
session has been closed or an event is pending for it, exactly if an open session has completed a
request or the end of the stream has come after its last event was fetched.  That all bytes have
been read and that nothing is being done for the session is not needed. -/
theorem departed_client_iff (fd : Int) (inbox : List UInt8) (closed : Bool) (events : List Event)
    (s : Watched) (hrun : Run Watched.step any (register fd inbox closed) events s)
    (hended : s.rcv.closed = true) (hinput : s.interest.epollin = true) :
    s.isOpen = false ∨ s.pending = true ↔
      (s.isOpen = true → s.rcv.Served ∨ ¬ EndFetched closed events) := by
  have h := watch_of_run hrun
  have hpending : s.pending = true ↔ s.rcv.Served ∨ ¬ EndFetched closed events := by
    unfold pending
    by_cases het : s.interest.epollet = true
    · rw [if_pos het, h.edge het hended, or_iff_right (h.level.mp het)]
    · rw [if_neg het]
      have hserved : s.rcv.Served := by
        by_contra hnot
        exact het (h.level.mpr hnot)
      exact iff_of_true (by simp [hinput, Receiver.ready, hended]) (.inl hserved)
  rw [hpending]
  cases s.isOpen <;> simp

/-- Two bytes of a header and the end of the stream, both there when the event is fetched. -/
theorem departed_client_kept : ¬ ∀ (fd : Int) (inbox : List UInt8) (closed : Bool)
    (events : List Event) (s : Watched), Run Watched.step any (register fd inbox closed) events s →
      Requests (streamOf inbox events) → s.rcv.closed = true → s.rcv.inbox = [] →
      s.handling = .idle → s.interest.epollin = true → s.isOpen = false ∨ s.pending = true := by
  intro hall
  have hexec : (exec Watched.step (fun _ _ => true) (register 4 [] false)
      [.arrive [2, 0], .finish, .fetch { epollin := true }, .dispatch false, .read]).map
      (fun s => (s.rcv.closed, s.rcv.inbox, s.handling, s.interest.epollin, s.isOpen, s.pending)) =
        some (true, [], .idle, true, true, false) := by decide +kernel
  obtain ⟨s, hrun, hobs⟩ := exists_run_of_exec _ _ hexec
  simp only [Prod.mk.injEq] at hobs
  obtain ⟨hclosed, hinbox, hidle, hinput, hopen, hpending⟩ := hobs
  have hkept := hall 4 [] false _ s hrun.toAny ⟨[[97, 98]], by decide, by decide⟩ hclosed hinbox
    hidle hinput
  rw [hopen, hpending] at hkept
  simp at hkept

/-- The event for the same bytes, and what is done about it. -/
def halfHeader : List Event :=
  [.arrive [2, 0], .fetch { epollin := true }, .dispatch false, .read]

/-- With the end of the stream after the event there is another edge. -/
theorem departed_client_noticed : ∃ s : Watched,
    Run Watched.step any (register 4 [] false) (halfHeader ++ [.finish]) s ∧
    s.rcv.consumed = [2, 0] ∧ s.rcv.inbox = [] ∧
    s.handling = .idle ∧ (s.isOpen = false ∨ s.pending = true) := by
  have hexec : (exec Watched.step (fun _ _ => true) (register 4 [] false)
      (halfHeader ++ [.finish])).map
      (fun s => (s.rcv.closed, s.rcv.inbox, s.handling, s.interest.epollin, s.rcv.consumed)) =
        some (true, [], .idle, true, [2, 0]) := by decide +kernel
  obtain ⟨s, hrun, hobs⟩ := exists_run_of_exec _ _ hexec
  simp only [Prod.mk.injEq] at hobs
  obtain ⟨hclosed, hinbox, hidle, hinput, hconsumed⟩ := hobs
  have hiff := departed_client_iff 4 [] false _ s hrun.toAny hclosed hinput
  refine ⟨s, hrun.toAny, hconsumed, hinbox, hidle, hiff.mpr fun _ => Or.inr ?_⟩
  intro hend
  rw [endFetched_other (by simp)] at hend
  have hbefore := hend.ended
  simp [Ended, halfHeader] at hbefore

end Watched

end SysDemos.HotUpgrade
