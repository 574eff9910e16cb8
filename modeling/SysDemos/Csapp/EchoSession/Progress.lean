import SysDemos.Csapp.EchoSession.Stages

/-!
# SysDemos.Csapp.EchoSession.Progress

Whole sessions: what a session has printed at any time, that it can go on until
it is finished, and when it cannot.

* `Stage.progress` — a session that has been accepted can go on unless it is
  finished or hangs;
* `Printed.step` — a session prints the lines of its input in order, and every step
  but an interrupted call leaves less to do.
-/

namespace SysDemos.EchoSession

open Posix Rio

/-! ## sessions that do not hang -/

section Progress

variable {cap : Nat} {tail : List UInt8} {todo : List (List UInt8)} {s : Session}

/-- A call that the server, once it has accepted the connection, or the client can make now. -/
def Session.CanStep (cap : Nat) (s : Session) : Prop :=
  ∃ l, l.interrupted = false ∧ (∀ rp connfd, l ≠ .accept rp connfd) ∧ (s.step cap l).isSome

/-- Both sides are done. -/
def Session.Finished (s : Session) : Prop := s.client.pc = .exited ∧ s.server.pc = .closed

/-- A `read` of a stream with bytes in it. -/
theorem exists_readFrom {p : Pipe} (hne : p.bytes ≠ []) :
    ∃ bs p', readFrom p (.ret bs) = some p' := by
  obtain ⟨bs, p', -, hp⟩ : ∃ bs p', bs ≠ [] ∧ p.read rioBufsize bs = some p' :=
    Pipe.exists_read hne (by decide)
  exact ⟨bs, p', hp⟩

/-- A `write` into a stream that has room. -/
theorem exists_writeTo {p : Pipe} {offered : List UInt8} (hne : offered ≠ [])
    (hopen : p.closed = false) (hroom : p.bytes.length < cap) :
    ∃ p', writeTo cap p offered (.ret 1) = some p' := by
  obtain ⟨b, rest, rfl⟩ := List.exists_cons_of_ne_nil hne
  obtain ⟨p', hp⟩ := Pipe.exists_write hopen hroom b
  exact ⟨p', by rw [writeTo, if_pos (by simp)]; exact hp⟩

theorem canStep_clientRead {reads : List ReadRet} (hpc : s.client.pc = .readlineb reads)
    (hne : s.toClient.bytes ≠ []) : s.CanStep cap := by
  obtain ⟨bs, p, hp⟩ := exists_readFrom hne
  refine ⟨.clientRead (.ret bs), rfl, by simp, ?_⟩
  simp only [Session.step, hpc, hp, Option.map_some, Option.isSome_some]

theorem canStep_serverRead {reads : List ReadRet} (hpc : s.server.pc = .readlineb reads)
    (hne : s.toServer.bytes ≠ []) : s.CanStep cap := by
  obtain ⟨bs, p, hp⟩ := exists_readFrom hne
  refine ⟨.serverRead (.ret bs), rfl, by simp, ?_⟩
  simp only [Session.step, hpc, hp, Option.map_some, Option.isSome_some]

/-- Where client and server stand, and what is in transit. -/
structure View where
  client : ClientPc
  server : ServerPc
  toServer : Pipe
  toClient : Pipe
  deriving DecidableEq

def Session.view (s : Session) : View :=
  { client := s.client.pc, server := s.server.pc, toServer := s.toServer, toClient := s.toClient }

theorem readFrom_opened {r : ReadRet} (hr : r ≠ .err .EINTR) : readFrom .opened r = none := by
  cases hp : readFrom .opened r with
  | none => rfl
  | some p => exact absurd (readFrom_empty rfl rfl hp).1 hr

/-- Both sides wait for the other. -/
theorem stuck_step {s : Session} {reads reads' : List ReadRet} {l : Label}
    (h : s.view = ⟨.readlineb reads, .readlineb reads', .opened, .opened⟩)
    (hl : l.interrupted = false) : s.step cap l = none := by
  simp only [Session.view, View.mk.injEq] at h
  obtain ⟨hc, hv, hforth, hback⟩ := h
  cases l with
  | clientRead r =>
      have hr : r ≠ .err .EINTR := by
        rintro rfl
        contradiction
      simp only [Session.step, hc, hback, readFrom_opened hr, Option.map_none]
  | serverRead r =>
      have hr : r ≠ .err .EINTR := by
        rintro rfl
        contradiction
      simp only [Session.step, hv, hforth, readFrom_opened hr, Option.map_none]
  | connect | fgets | clientWrite | accept | serverWrite | close => simp [Session.step, hc, hv]

/-- A session that is over. -/
theorem finished_step {s : Session} {l : Label} (h : s.Finished) : s.step cap l = none := by
  obtain ⟨hc, hv⟩ := h
  cases l <;> simp [Session.step, hc, hv]

/-- **Progress**: once its connection is accepted, a session can go on unless it is finished or
hangs. -/
theorem Stage.progress (hcap : 0 < cap) (h : Stage tail s todo) (hpc : s.server.pc ≠ .backlog) :
    s.Finished ∨ (todo = [] ∧ tail ≠ []) ∨ s.CanStep cap := by
  cases h with
  | connecting hc => exact .inr (.inr ⟨.connect 3, rfl, by simp, by simp [Session.step, hc]⟩)
  | ready hc => exact .inr (.inr ⟨.fgets, rfl, by simp, by simp [Session.step, hc.pc]⟩)
  | @asking m _ h hsent hforth hback =>
      cases hsent with
      | part hne => exact .inr (.inl ⟨rfl, hne⟩)
      | line hstdin hline =>
          refine .inr (.inr ?_)
          obtain ⟨got, rest, hsends, ⟨hpc', -⟩ | ⟨reads, hpc', hpending⟩, hm⟩ := h
          · exact absurd hpc' hpc
          · by_cases hnil : s.toServer.bytes = []
            · -- the server has all that the client has written, so that is not all of the line
              cases hsends with
              | writing writes hpcc hbuf _ hrest hne =>
                  rw [← hrest, ← hbuf] at hne
                  obtain ⟨p, hp⟩ := exists_writeTo hne hforth (by rw [hnil]; exact hcap)
                  refine ⟨.clientWrite (.ret 1), rfl, by simp, ?_⟩
                  simp only [Session.step, hpcc, hp, Option.map_some, Option.isSome_some]
              | written _ _ hrest =>
                  rw [hnil, hrest, List.append_nil, List.append_nil] at hm
                  obtain ⟨body, hbody, -⟩ := hline.line
                  refine absurd ?_ hpending.noNewline
                  rw [← hm, hbody]
                  simp
            · exact canStep_serverRead hpc' hnil
  | @answering m todo h hline hstdin hforth hback =>
      refine .inr (.inr ?_)
      obtain ⟨got, rest, ⟨reads, hpcc, hpending⟩, hreplies, hm⟩ := h
      by_cases hnil : s.toClient.bytes = []
      · cases hreplies with
        | writing writes hpc' hn hbuf _ hrest hne =>
            rw [← hrest, ← hbuf] at hne
            obtain ⟨p, hp⟩ := exists_writeTo hne hback (by rw [hnil]; exact hcap)
            refine ⟨.serverWrite (.ret 1), rfl, by simp, ?_⟩
            simp only [Session.step, hpc', hp, Option.map_some, Option.isSome_some]
        | written _ _ hrest =>
            rw [hnil, hrest, List.append_nil, List.append_nil] at hm
            obtain ⟨body, hbody, -⟩ := hline.line
            refine absurd ?_ hpending.noNewline
            rw [← hm, hbody]
            simp
      · exact canStep_clientRead hpcc hnil
  | leaving hc _ _ hforth hv =>
      obtain (⟨hpc', -⟩ | ⟨reads, hpc', -⟩) | hpc' | hpc' := hv
      · exact absurd hpc' hpc
      · have heof : readFrom s.toServer (.ret []) = some s.toServer := by
          rw [hforth]
          exact Pipe.read_eof rfl rfl
        refine .inr (.inr ⟨.serverRead (.ret []), rfl, by simp, ?_⟩)
        simp only [Session.step, hpc', heof, Option.map_some, Option.isSome_some]
      · exact .inr (.inr ⟨.close, rfl, by simp, by simp [Session.step, hpc']⟩)
      · exact .inl ⟨hc, hpc'⟩

/-- A session whose input does not end as it should is never closed. -/
theorem Stage.server_open (h : Stage tail s todo) (htail : tail ≠ []) :
    s.server.pc ≠ .close ∧ s.server.pc ≠ .closed := by
  have hwaits : ∀ got, s.server.Waits got → s.server.pc ≠ .close ∧ s.server.pc ≠ .closed := by
    rintro got (⟨hpc, -⟩ | ⟨reads, hpc, -⟩)
    · simp [hpc]
    · simp [hpc]
  cases h with
  | connecting _ hv => simp [hv]
  | ready _ hv => exact hwaits [] hv
  | asking h =>
      obtain ⟨got, rest, -, hv, -⟩ := h
      exact hwaits got hv
  | answering h =>
      obtain ⟨got, rest, -, hreplies, -⟩ := h
      cases hreplies with
      | writing _ hpc => simp [hpc]
      | written _ hpc => simp [hpc]
  | leaving _ _ hnil => exact absurd hnil htail

/-- A session that is closed has printed all. -/
theorem Stage.of_closed (h : Stage tail s todo) (hpc : s.server.pc = .closed) :
    tail = [] ∧ todo = [] ∧ s.Finished := by
  by_cases htail : tail = []
  · refine ⟨htail, ?_⟩
    cases h with
    | leaving hc => exact ⟨rfl, hc, hpc⟩
    | connecting _ hv => simp [hv] at hpc
    | ready _ hv =>
        obtain ⟨hpc', -⟩ | ⟨reads, hpc', -⟩ := hv
        · simp [hpc'] at hpc
        · simp [hpc'] at hpc
    | asking h =>
        obtain ⟨got, rest, -, ⟨hpc', -⟩ | ⟨reads, hpc', -⟩, -⟩ := h
        · simp [hpc'] at hpc
        · simp [hpc'] at hpc
    | answering h =>
        obtain ⟨got, rest, -, hreplies, -⟩ := h
        cases hreplies with
        | writing _ hpc' => simp [hpc'] at hpc
        | written _ hpc' => simp [hpc'] at hpc
  · exact absurd hpc (h.server_open htail).2

end Progress

/-! ## whole sessions -/

/-- The standard input of a client: lines without NUL that `rio_readlineb` reads whole, so of less
than `MAXLINE` bytes, and behind the last of them nothing, or something that the client does not
get an answer to. -/
structure Input where
  lines : List (List UInt8)
  tail : List UInt8
  text : ∀ l ∈ lines, TextLine l
  ends : tail = [] ∨ Hangs tail

/-- The bytes of an input. -/
def Input.stdin (inp : Input) : List UInt8 := inp.lines.flatten ++ inp.tail

/-- A client that sends the line `"a"`. -/
def lineInput : Input :=
  { lines := [[97, newline]], tail := []
    text := by
      intro l hl
      rw [List.mem_singleton.mp hl]
      exact ⟨⟨[97], rfl, by decide, by decide⟩, by decide⟩
    ends := .inl rfl }

/-- A client whose input is `"b"`, without a newline. -/
def openInput : Input :=
  { lines := [], tail := [98], text := by simp
    ends := .inr ⟨by simp, by decide +kernel, by decide +kernel⟩ }

/-- The client with `lineInput`, of two. -/
def closing : Fin 2 := 0

/-- The client with `openInput`, of two. -/
def hanging : Fin 2 := 1

/-- The inputs of the two. -/
def inputsOfTwo : Fin 2 → Input := ![lineInput, openInput]

theorem closing_or_hanging (i : Fin 2) : i = closing ∨ i = hanging := by
  revert i
  decide

/-- An empty `rio_t`. -/
def noRio : RioT := { rioFd := 0, rioCnt := 0, rioBufptr := 0, rioBuf := [] }

/-- A session that is over, with all of the input printed: it consists of whole lines. -/
structure Complete (inp : Input) (s : Session) : Prop where
  tail : inp.tail = []
  finished : s.Finished
  stdout : s.client.stdout = inp.stdin

/-- How far the server has got with a connection. -/
inductive Service where
  | absent
  | backlog
  | active
  | closed
  deriving DecidableEq, Repr

/-- How far the server has got with its connection. -/
def Server.service (v : Server) : Service :=
  match v.pc with
  | .absent => .absent
  | .backlog => .backlog
  | .closed => .closed
  | _ => .active

/-- The server has not accepted the connection. -/
def Session.Unserved (s : Session) : Prop :=
  s.server.service = .absent ∨ s.server.service = .backlog

/-- A session that has printed the lines `done`, and none before it was accepted. -/
structure Printed (inp : Input) (s : Session) (done todo : List (List UInt8)) : Prop where
  lines : inp.lines = done ++ todo
  stdout : s.client.stdout = done.flatten
  stage : Stage inp.tail s todo
  unserved : s.Unserved → done = []

section Whole

variable {cap : Nat} {inp : Input} {s s' : Session} {l : Label} {done todo : List (List UInt8)}

theorem Server.service_readlineb (v : Server) (reads : List ReadRet) :
    (v.readlineb reads).service = .active := by
  unfold Server.readlineb
  split
  · rfl
  · split <;> rfl

theorem Server.service_writen (v : Server) (writes : List WriteRet) :
    (v.writen writes).service = .active := by
  unfold Server.writen
  split
  · rfl
  · exact v.service_readlineb []

theorem Server.service_accept (v : Server) (rp : RioT) (connfd : Int) :
    (v.accept rp connfd).service = .active :=
  Server.service_readlineb { v with rio := rioReadinitb rp connfd } []

/-- The calls that move a connection on in the server. -/
theorem service_step (hs : s.step cap l = some s') :
    match l with
    | .connect _ => s'.server.service = .backlog
    | .accept _ _ => s.server.service = .backlog ∧ s'.server.service = .active
    | .close => s.server.service = .active ∧ s'.server.service = .closed
    | .serverRead _ => s.server.service = .active ∧ s'.server.service = .active
    | .serverWrite _ => s.server.service = .active ∧ s'.server.service = .active
    | _ => s'.server = s.server := by
  cases step_cases hs with
  | connect hpc => rfl
  | fgets hpc => rfl
  | clientWrite hpc hw => rfl
  | clientRead hpc hr => rfl
  | accept hpc =>
      exact ⟨by simp only [Server.service, hpc], Server.service_accept _ _ _⟩
  | serverRead hpc hr =>
      exact ⟨by simp only [Server.service, hpc], Server.service_readlineb _ _⟩
  | serverWrite hpc hw =>
      exact ⟨by simp only [Server.service, hpc], Server.service_writen _ _⟩
  | close hpc => exact ⟨by simp only [Server.service, hpc], rfl⟩

/-- A connection that is about to be made is not there yet. -/
theorem Stage.absent_of_connect {tail : List UInt8} (h : Stage tail s todo)
    (hpc : s.client.pc = .connect) : s.server.service = .absent := by
  cases h with
  | connecting _ hv => simp only [Server.service, hv]
  | ready hc => simp [hc.pc] at hpc
  | asking h => obtain ⟨_, hpc'⟩ | ⟨_, hpc'⟩ := h.client_pc <;> simp [hpc'] at hpc
  | answering h =>
      obtain ⟨_, hpc'⟩ := h.client_pc
      simp [hpc'] at hpc
  | leaving hc => simp [hc] at hpc

/-- A connection that is not there is about to be made. -/
theorem Stage.connecting_of_absent {tail : List UInt8} (h : Stage tail s todo)
    (habsent : s.server.service = .absent) : s.client.pc = .connect := by
  have hwaits : ∀ got, ¬ s.server.Waits got := by
    rintro got (⟨hpc, -⟩ | ⟨reads, hpc, -⟩)
    · simp [Server.service, hpc] at habsent
    · simp [Server.service, hpc] at habsent
  cases h with
  | connecting hc => exact hc
  | ready _ hv => exact absurd hv (hwaits [])
  | asking h =>
      obtain ⟨got, rest, -, hv, -⟩ := h
      exact absurd hv (hwaits got)
  | answering h =>
      obtain ⟨got, rest, -, hreplies, -⟩ := h
      cases hreplies with
      | writing _ hpc => simp [Server.service, hpc] at habsent
      | written _ hpc => simp [Server.service, hpc] at habsent
  | leaving _ _ _ _ hv =>
      obtain hv | hpc | hpc := hv
      · exact absurd hv (hwaits [])
      · simp [Server.service, hpc] at habsent
      · simp [Server.service, hpc] at habsent

theorem Server.pc_of_backlog {v : Server} (h : v.service = .backlog) : v.pc = .backlog := by
  unfold Server.service at h
  split at h
  · contradiction
  · assumption
  · contradiction
  · contradiction

/-- Nothing leads back to the backlog. -/
theorem unserved_of_step (hs : s.step cap l = some s') (hstage : Stage inp.tail s todo)
    (h : s'.Unserved) : s.Unserved := by
  have hservice := service_step hs
  unfold Session.Unserved at h ⊢
  cases l with
  | connect clientfd =>
      exact .inl (hstage.absent_of_connect (Option.ite_none_right_eq_some.mp hs).1)
  | accept rp connfd => simp [hservice.2] at h
  | close => simp [hservice.2] at h
  | serverRead r => simp [hservice.2] at h
  | serverWrite r => simp [hservice.2] at h
  | fgets => exact (show s'.server = s.server from hservice) ▸ h
  | clientWrite r => exact (show s'.server = s.server from hservice) ▸ h
  | clientRead r => exact (show s'.server = s.server from hservice) ▸ h

theorem printed_start (rp : RioT) (inp : Input) :
    Printed inp (Session.start rp inp.stdin) [] inp.lines :=
  ⟨rfl, rfl, .connecting rfl rfl rfl rfl rfl, fun _ => rfl⟩

/-- **A step of a session** of which the input is known. -/
theorem Printed.step (h : Printed inp s done todo) (hs : s.step cap l = some s') :
    (∃ done' todo', Printed inp s' done' todo') ∧
      (if l.interrupted then s'.work = s.work else s'.work < s.work) := by
  have htext : ∀ l ∈ todo, TextLine l := fun l hl =>
    inp.text l (by rw [h.lines]; exact List.mem_append_right _ hl)
  obtain ⟨todo', hafter⟩ := h.stage.step htext inp.ends hs
  refine ⟨?_, hafter.work⟩
  obtain ⟨rfl, hout⟩ | ⟨m, rfl, hout, reads, hpc, -⟩ := hafter.printed
  · exact ⟨done, todo', h.lines, hout.trans h.stdout, hafter.stage, fun hun =>
      h.unserved (unserved_of_step hs h.stage hun)⟩
  · refine ⟨done ++ [m], todo', by rw [h.lines]; simp, ?_, hafter.stage, fun hun => ?_⟩
    · rw [hout, h.stdout]
      simp
    · simp [Session.Unserved, Server.service, hpc] at hun

/-- What is printed, at any time. -/
theorem Printed.stdout_eq (h : Printed inp s done todo) :
    ∃ k, s.client.stdout = (inp.lines.take k).flatten :=
  ⟨done.length, by rw [h.stdout, h.lines, List.take_left]⟩

/-- What is printed, when the connection has been closed. -/
theorem Printed.of_closed (h : Printed inp s done todo) (hclosed : s.server.service = .closed) :
    Complete inp s := by
  have hpc : s.server.pc = .closed := by
    unfold Server.service at hclosed
    split at hclosed
    · contradiction
    · contradiction
    · assumption
    · contradiction
  obtain ⟨htail, rfl, hfinished⟩ := h.stage.of_closed hpc
  refine ⟨htail, hfinished, ?_⟩
  rw [h.stdout, Input.stdin, h.lines, htail]
  simp

end Whole
end SysDemos.EchoSession
