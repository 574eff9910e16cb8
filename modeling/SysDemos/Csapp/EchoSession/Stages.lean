import SysDemos.Csapp.EchoSession.Turns

/-!
# SysDemos.Csapp.EchoSession.Stages

The client and the server take turns: a line travels from the client's buffer
through one stream to the server and through the other one back, and nothing else
is in transit meanwhile.  `Stage` says where a session stands and which lines it
has still before it.

A session hangs if the client sends something that is not a whole line, because its
input ends without a newline or holds a NUL: the server waits for the rest of the
line, and the client for the answer.

* `Stage.step` — a step leads from stage to stage; a line is printed when its turn is
  over, and every step but an interrupted call brings the session forward.
-/

namespace SysDemos.EchoSession

open Posix Rio
open Echo (Line)

/-! ## what is left to do -/

/-- The bytes that the client has not yet written. -/
def Client.toSend (c : Client) : Nat :=
  match c.pc with
  | .writen writes => (cstr c.buf).length - taken writes
  | _ => 0

/-- The bytes that the server has read and not yet written back. -/
def Server.held (v : Server) : Nat :=
  match v.pc with
  | .readlineb reads => (v.rio.unread ++ dataOf reads).length
  | .writen writes => v.n - taken writes
  | _ => 0

/-- The parts of `main` that the client has before it. -/
def Client.rank (c : Client) : Nat :=
  match c.pc with
  | .connect => 2
  | .exited => 0
  | _ => 1

/-- The parts of the service that the server has before it. -/
def Server.rank (v : Server) : Nat :=
  match v.pc with
  | .absent => 4
  | .backlog => 3
  | .close => 1
  | .closed => 0
  | _ => 2

/-- A bound on the steps still to come, interrupted calls apart: a byte of the input is read, sent,
received, sent back and received. -/
def Session.work (s : Session) : Nat :=
  5 * s.client.stdin.length + 4 * s.client.toSend + 3 * s.toServer.bytes.length +
    2 * s.server.held + s.toClient.bytes.length + s.client.rank + s.server.rank

theorem Client.Sends.toSend {c : Client} {m rest : List UInt8} (h : c.Sends m rest) :
    c.toSend = rest.length ∧ c.rank = 1 := by
  cases h with
  | writing writes hpc hm ho hrest =>
      simp only [Client.toSend, Client.rank, hpc, hm, ← hrest, List.length_drop, and_self]
  | written reads hpc hrest =>
      simp only [Client.toSend, Client.rank, hpc, hrest, List.length_nil, and_self]

theorem Server.Reads.held {v : Server} {got : List UInt8} (h : v.Reads got) :
    v.held = got.length ∧ v.rank = 2 := by
  obtain ⟨reads, hpc, hpending⟩ := h
  simp only [Server.held, Server.rank, hpc, hpending.got_eq, and_self]

theorem Server.Replies.held {v : Server} {m rest : List UInt8} (h : v.Replies m rest) :
    v.held = rest.length ∧ v.rank = 2 := by
  cases h with
  | writing writes hpc hn hm ho hrest =>
      simp only [Server.held, Server.rank, hpc, hn, ← hrest, List.length_drop, and_self]
  | written reads hpc hrest h =>
      simp only [Server.held, Server.rank, hpc, hrest, h.got_eq, and_self]

/-! ## stages -/

/-- What the client sends when `stdin` is before it. -/
def message (stdin : List UInt8) : List UInt8 := cstr ((Shellex.fgets maxline stdin).1 ++ [0])

/-- An input that the client does not get an answer to: what it sends is not a whole line. -/
structure Hangs (stdin : List UInt8) : Prop where
  ne_nil : stdin ≠ []
  noNewline : newline ∉ message stdin
  room : (message stdin).length < maxline - 1

/-- The client is at `fgets` and has read all answers. -/
structure Client.Ready (c : Client) : Prop where
  pc : c.pc = .fgets
  valid : c.rio.Valid
  unread : c.rio.unread = []

theorem Client.Ready.toSend {c : Client} (h : c.Ready) : c.toSend = 0 ∧ c.rank = 1 := by
  simp only [Client.toSend, Client.rank, h.pc, and_self]

/-- `m` is on its way to the server. -/
def Asking (m : List UInt8) (s : Session) : Prop :=
  ∃ got rest, s.client.Sends m rest ∧ s.server.Waits got ∧ m = got ++ s.toServer.bytes ++ rest

/-- `m` is on its way back. -/
def Answering (m : List UInt8) (s : Session) : Prop :=
  ∃ got rest, s.client.Reads got ∧ s.server.Replies m rest ∧ m = got ++ s.toClient.bytes ++ rest

/-- What the client sends: the next line, or, when there are no more, something that is not a whole
line. -/
inductive Sent (tail stdin m : List UInt8) : List (List UInt8) → Prop where
  | line {todo : List (List UInt8)} (hstdin : stdin = todo.flatten ++ tail) (hline : TextLine m) :
      Sent tail stdin m (m :: todo)
  | part (hne : tail ≠ []) (hnl : newline ∉ m) (hroom : m.length < maxline - 1) :
      Sent tail stdin m []

/-- Where a session stands, with the lines `todo` and behind them `tail` not yet printed. -/
inductive Stage (tail : List UInt8) (s : Session) : List (List UInt8) → Prop where
  | connecting {todo : List (List UInt8)} (hc : s.client.pc = .connect)
      (hv : s.server.pc = .absent) (hstdin : s.client.stdin = todo.flatten ++ tail)
      (hforth : s.toServer = .opened) (hback : s.toClient = .opened) : Stage tail s todo
  | ready {todo : List (List UInt8)} (hc : s.client.Ready) (hv : s.server.Waits [])
      (hstdin : s.client.stdin = todo.flatten ++ tail)
      (hforth : s.toServer = .opened) (hback : s.toClient = .opened) : Stage tail s todo
  | asking {m : List UInt8} {todo : List (List UInt8)} (h : Asking m s)
      (hsent : Sent tail s.client.stdin m todo) (hforth : s.toServer.closed = false)
      (hback : s.toClient = .opened) : Stage tail s todo
  | answering {m : List UInt8} {todo : List (List UInt8)} (h : Answering m s) (hline : TextLine m)
      (hstdin : s.client.stdin = todo.flatten ++ tail) (hforth : s.toServer = .opened)
      (hback : s.toClient.closed = false) : Stage tail s (m :: todo)
  | leaving (hc : s.client.pc = .exited) (hstdin : s.client.stdin = []) (htail : tail = [])
      (hforth : s.toServer = { bytes := [], closed := true })
      (hv : s.server.Waits [] ∨ s.server.pc = .close ∨ s.server.pc = .closed) : Stage tail s []

/-- What a step does: the session is in a stage again, it may have printed a line, and unless the
call was interrupted less is left to do. -/
structure After (tail : List UInt8) (s : Session) (todo : List (List UInt8)) (l : Label)
    (s' : Session) (todo' : List (List UInt8)) : Prop where
  stage : Stage tail s' todo'
  printed : (todo' = todo ∧ s'.client.stdout = s.client.stdout) ∨
    ∃ m, todo = m :: todo' ∧ s'.client.stdout = s.client.stdout ++ m ∧ s'.server.Reads []
  work : if l.interrupted then s'.work = s.work else s'.work < s.work

/-! ## steps of the client -/

section Steps

variable {cap : Nat} {tail : List UInt8} {todo : List (List UInt8)} {s : Session}

theorem Asking.client_pc {m : List UInt8} (h : Asking m s) :
    (∃ writes, s.client.pc = .writen writes) ∨ ∃ reads, s.client.pc = .readlineb reads := by
  obtain ⟨got, rest, hsends, -⟩ := h
  cases hsends with
  | writing writes hpc => exact .inl ⟨writes, hpc⟩
  | written reads hpc => exact .inr ⟨reads, hpc⟩

theorem Answering.client_pc {m : List UInt8} (h : Answering m s) :
    ∃ reads, s.client.pc = .readlineb reads := by
  obtain ⟨got, rest, ⟨reads, hpc, -⟩, -⟩ := h
  exact ⟨reads, hpc⟩

theorem Stage.connect {clientfd : Int} (h : Stage tail s todo) (hpc : s.client.pc = .connect) :
    After tail s todo (.connect clientfd) { s with
      client := { s.client with pc := .fgets, rio := rioReadinitb s.client.rio clientfd }
      server := { s.server with pc := .backlog } } todo := by
  cases h with
  | connecting hc hv hstdin hforth hback =>
      refine ⟨.ready ⟨rfl, ?_, ?_⟩ (.inl ⟨rfl, rfl⟩) hstdin hforth hback, .inl ⟨rfl, rfl⟩, ?_⟩
      · simp [RioT.Valid, rioReadinitb]
      · simp [RioT.unread, rioReadinitb]
      · simp only [Label.interrupted, Bool.false_eq_true, if_false, Session.work, Client.toSend,
          Client.rank, Server.held, Server.rank, hc, hv]
        omega
  | ready hc => simp [hc.pc] at hpc
  | asking h => obtain ⟨_, hpc'⟩ | ⟨_, hpc'⟩ := h.client_pc <;> simp [hpc'] at hpc
  | answering h =>
      obtain ⟨_, hpc'⟩ := h.client_pc
      simp [hpc'] at hpc
  | leaving hc => simp [hc] at hpc

/-- `fgets` reads something unless the input is used up. -/
theorem fgetsLoop_split (k : Nat) (stdin : List UInt8) :
    (Shellex.fgetsLoop k stdin).1 ++ (Shellex.fgetsLoop k stdin).2.1 = stdin ∧
      (stdin ≠ [] → 0 < k → (Shellex.fgetsLoop k stdin).1 ≠ []) := by
  induction k generalizing stdin with
  | zero => exact ⟨rfl, fun _ h => absurd h (Nat.lt_irrefl 0)⟩
  | succ k ih =>
      cases stdin with
      | nil => exact ⟨rfl, fun h => absurd rfl h⟩
      | cons b stdin =>
          simp only [Shellex.fgetsLoop]
          split
          · exact ⟨rfl, by simp⟩
          · exact ⟨by simp [(ih stdin).1], by simp⟩

theorem length_cstr_le (buf : List UInt8) : (cstr (buf ++ [0])).length ≤ buf.length := by
  induction buf with
  | nil => simp [cstr]
  | cons b buf ih =>
      by_cases hb : b = 0
      · simp [cstr, hb]
      · simpa [cstr, hb] using ih

/-- The client reads something: it has the message to send. -/
theorem Client.fgets_sends {c : Client} (hready : c.Ready) (hne : c.stdin ≠ []) :
    c.fgets.Sends (message c.stdin) (message c.stdin) ∧
      c.fgets.stdin = (Shellex.fgets maxline c.stdin).2.1 ∧ c.fgets.stdout = c.stdout ∧
      5 * c.fgets.stdin.length + 4 * (message c.stdin).length < 5 * c.stdin.length := by
  obtain ⟨hsplit, hsome⟩ := fgetsLoop_split (maxline - 1) c.stdin
  have hline := hsome hne (by decide)
  have heq : c.fgets = ({ c with
      stdin := (Shellex.fgets maxline c.stdin).2.1
      buf := (Shellex.fgets maxline c.stdin).1 ++ [0] } : Client).writen [] := by
    simp only [Client.fgets]
    exact if_neg hline
  obtain ⟨hsends, pc, hpc⟩ := Client.writen_sends
    (c := { c with
      stdin := (Shellex.fgets maxline c.stdin).2.1
      buf := (Shellex.fgets maxline c.stdin).1 ++ [0] })
    (m := message c.stdin) rfl (show Offers _ [] from trivial) hready.valid hready.unread
  rw [heq]
  refine ⟨hsends, by rw [hpc], by rw [hpc], ?_⟩
  rw [hpc]
  have hle : (message c.stdin).length ≤ (Shellex.fgetsLoop (maxline - 1) c.stdin).1.length :=
    length_cstr_le _
  have hlen := congrArg List.length hsplit
  rw [List.length_append] at hlen
  have hpos := List.length_pos_iff.mpr hline
  show 5 * (Shellex.fgetsLoop (maxline - 1) c.stdin).2.1.length + _ < _
  omega

theorem Client.Sends.pc_ne_exited {c : Client} {m rest : List UInt8} (h : c.Sends m rest) :
    c.pc ≠ .exited := by
  cases h with
  | writing writes hpc => simp [hpc]
  | written reads hpc => simp [hpc]

/-- The next line of the input is what the client sends. -/
theorem fgets_line {m : List UInt8} (rest : List UInt8) (hline : TextLine m) :
    Shellex.fgets maxline (m ++ rest) = (m, rest, false) ∧ message (m ++ rest) = m := by
  obtain ⟨⟨body, rfl, hbody, hlen⟩, htext⟩ := hline
  have hfgets : Shellex.fgets maxline (body ++ [newline] ++ rest) =
      (body ++ [newline], rest, false) := by
    rw [List.append_assoc]
    refine Shellex.fgetsLoop_line hbody ?_
    rw [List.length_append, List.length_singleton] at hlen
    omega
  exact ⟨hfgets, by rw [message, hfgets]; exact cstr_append_zero htext⟩

theorem Stage.fgets (h : Stage tail s todo) (hlines : ∀ l ∈ todo, TextLine l)
    (htail : tail = [] ∨ Hangs tail) (hpc : s.client.pc = .fgets) :
    After tail s todo .fgets { s with
      client := s.client.fgets
      toServer := if s.client.fgets.pc = .exited then s.toServer.close else s.toServer } todo := by
  cases h with
  | connecting hc => simp [hc] at hpc
  | asking h => obtain ⟨_, hpc'⟩ | ⟨_, hpc'⟩ := h.client_pc <;> simp [hpc'] at hpc
  | answering h =>
      obtain ⟨_, hpc'⟩ := h.client_pc
      simp [hpc'] at hpc
  | leaving hc => simp [hc] at hpc
  | ready hc hv hstdin hforth hback =>
      by_cases hnil : s.client.stdin = []
      · -- the input is used up
        have hexit : s.client.fgets = { s.client with pc := .exited } := by
          simp only [Client.fgets, hnil]
          rfl
        rw [hnil] at hstdin
        obtain ⟨hflat, rfl⟩ := List.append_eq_nil_iff.mp hstdin.symm
        have hdone : todo = [] := by
          cases todo with
          | nil => rfl
          | cons l todo =>
              refine absurd ?_ (hlines l List.mem_cons_self).line.ne_nil
              exact List.flatten_eq_nil_iff.mp hflat l List.mem_cons_self
        subst hdone
        rw [hexit, if_pos rfl, hforth]
        refine ⟨.leaving rfl hnil rfl rfl (.inl hv), .inl ⟨rfl, rfl⟩, ?_⟩
        simp only [Label.interrupted, Bool.false_eq_true, if_false, Session.work, Client.toSend,
          Client.rank, hc.pc, hforth, Pipe.close, Pipe.opened]
        omega
      · obtain ⟨hsends, hrest, hout, hless⟩ := Client.fgets_sends hc hnil
        rw [if_neg hsends.pc_ne_exited]
        have hwork : ({ s with client := s.client.fgets } : Session).work < s.work := by
          simp only [Session.work, hsends.toSend, hc.toSend]
          omega
        have hasking : Asking (message s.client.stdin)
            ({ s with client := s.client.fgets } : Session) :=
          ⟨[], message s.client.stdin, hsends, hv, by rw [hforth]; rfl⟩
        refine ⟨.asking hasking ?_ (by rw [hforth]; rfl) hback, .inl ⟨rfl, hout⟩, hwork⟩
        cases todo with
        | nil =>
            obtain rfl | hhangs := htail
            · exact absurd hstdin hnil
            · rw [show s.client.stdin = tail from hstdin]
              exact .part hhangs.ne_nil hhangs.noNewline hhangs.room
        | cons m todo =>
            have hline := hlines m List.mem_cons_self
            rw [List.flatten_cons, List.append_assoc] at hstdin
            obtain ⟨hfgets, hmessage⟩ := fgets_line (todo.flatten ++ tail) hline
            rw [hstdin, hmessage]
            rw [hstdin, hfgets] at hrest
            exact .line hrest hline

theorem Stage.clientWrite {r : WriteRet} {writes : List WriteRet} {p : Pipe}
    (h : Stage tail s todo) (hpc : s.client.pc = .writen writes)
    (hw : writeTo cap s.toServer ((cstr s.client.buf).drop (taken writes)) r = some p) :
    After tail s todo (.clientWrite r)
      { s with client := s.client.writen (writes ++ [r]), toServer := p } todo := by
  cases h with
  | connecting hc => simp [hc] at hpc
  | ready hc => simp [hc.pc] at hpc
  | answering h =>
      obtain ⟨_, hpc'⟩ := h.client_pc
      simp [hpc'] at hpc
  | leaving hc => simp [hc] at hpc
  | @asking m _ h hsent hforth hback =>
      obtain ⟨got, rest, hsends, hwaits, hm⟩ := h
      have hwork := hsends.toSend
      cases hsends with
      | written reads hpc' => simp [hpc'] at hpc
      | writing writes' hpc' hbuf ho hrest hne hv hun =>
          obtain rfl : writes' = writes := ClientPc.writen.inj (hpc'.symm.trans hpc)
          rw [hbuf] at hw
          obtain ⟨ho', hresult⟩ := writeTo_spec ho hw
          obtain ⟨hsends', pc, heq⟩ := Client.writen_sends hbuf ho' hv hun
          have hwork' := hsends'.toSend
          rw [heq] at hsends' hwork' ⊢
          obtain ⟨rfl, rfl, htaken⟩ | ⟨bs, hbs, ⟨n, rfl⟩, hbytes, hclosed, hdrop⟩ := hresult
          · -- interrupted
            rw [htaken, hrest] at hsends' hwork'
            refine ⟨.asking ⟨got, rest, hsends', hwaits, hm⟩ hsent hforth hback,
              .inl ⟨rfl, rfl⟩, ?_⟩
            simp only [Label.interrupted, if_true, Session.work, hwork, hwork']
          · rw [hrest] at hdrop
            have hlen := congrArg List.length hdrop
            rw [List.length_append] at hlen
            have hpos := List.length_pos_iff.mpr hbs
            have hm' : m = got ++ p.bytes ++ m.drop (taken (writes' ++ [.ret n])) := by
              rw [hbytes]
              conv_lhs => rw [hm, hdrop]
              simp
            refine ⟨.asking ⟨got, _, hsends', hwaits, hm'⟩ hsent (hclosed.trans hforth) hback,
              .inl ⟨rfl, rfl⟩, ?_⟩
            simp only [Label.interrupted, Bool.false_eq_true, if_false, Session.work, hwork, hwork',
              hbytes, List.length_append]
            omega

/-- The client reads, with an answer on its way or not. -/
theorem Stage.clientRead {r : ReadRet} {reads : List ReadRet} {p : Pipe} (h : Stage tail s todo)
    (hpc : s.client.pc = .readlineb reads) (hr : readFrom s.toClient r = some p) :
    ∃ todo', After tail s todo (.clientRead r)
      { s with client := s.client.readlineb (reads ++ [r]), toClient := p } todo' := by
  cases h with
  | connecting hc => simp [hc] at hpc
  | ready hc => simp [hc.pc] at hpc
  | leaving hc => simp [hc] at hpc
  | @asking m _ h hsent hforth hback =>
      obtain ⟨got, rest, hsends, hwaits, hm⟩ := h
      cases hsends with
      | writing writes hpc' => simp [hpc'] at hpc
      | written reads' hpc' hrest hpending =>
          obtain rfl : reads' = reads := ClientPc.readlineb.inj (hpc'.symm.trans hpc)
          obtain ⟨rfl, rfl⟩ := readFrom_empty (by rw [hback]; rfl) (by rw [hback]; rfl) hr
          rw [Client.readlineb_of_pending hpending.interrupted]
          refine ⟨todo, .asking ⟨got, rest, .written _ rfl hrest hpending.interrupted, hwaits, hm⟩
            hsent hforth hback, .inl ⟨rfl, rfl⟩, ?_⟩
          simp only [Label.interrupted, if_true, Session.work, Client.toSend, Client.rank, hpc]
  | @answering m todo h hline hstdin hforth hback =>
      obtain ⟨got, rest, ⟨reads', hpc', hpending⟩, hreplies, hm⟩ := h
      obtain rfl : reads' = reads := ClientPc.readlineb.inj (hpc'.symm.trans hpc)
      obtain ⟨rfl, rfl⟩ | ⟨-, -, hclosed, -⟩ | ⟨bs, hbs, rfl, hbytes, hclosed⟩ := readFrom_spec hr
      · -- interrupted
        rw [Client.readlineb_of_pending hpending.interrupted]
        refine ⟨m :: todo, .answering ⟨got, rest, ⟨_, rfl, hpending.interrupted⟩, hreplies, hm⟩
          hline hstdin hforth hback, .inl ⟨rfl, rfl⟩, ?_⟩
        simp only [Label.interrupted, if_true, Session.work, Client.toSend, Client.rank, hpc]
      · rw [hback] at hclosed
        contradiction
      · have hpos := List.length_pos_iff.mpr hbs
        have hm' : m = got ++ bs ++ (p.bytes ++ rest) := by rw [hm, hbytes]; simp
        by_cases hall : p.bytes ++ rest = []
        · -- the whole line: it is printed
          rw [hall, List.append_nil] at hm'
          obtain ⟨buf, rio, heq, hv, hun⟩ :=
            Client.readlineb_of_line hpending hbs (hm' ▸ hline)
          obtain ⟨hp, rfl⟩ := List.append_eq_nil_iff.mp hall
          rw [heq]
          have hreads : s.server.Reads [] := by
            cases hreplies with
            | writing _ _ _ _ _ _ hne => exact absurd rfl hne
            | written reads hpc _ h => exact ⟨reads, hpc, h⟩
          refine ⟨todo, .ready ⟨rfl, hv, hun⟩ (.inr hreads) hstdin hforth ?_,
            .inr ⟨m, rfl, by rw [hm'], hreads⟩, ?_⟩
          · cases p with
            | mk bytes closed =>
                obtain rfl : bytes = [] := hp
                rw [show closed = false from hclosed.trans hback]
                rfl
          · simp only [Label.interrupted, Bool.false_eq_true, if_false, Session.work,
              Client.toSend, Client.rank, hpc, hbytes, List.length_append]
            omega
        · rw [hm'] at hline
          obtain ⟨hnl, hroom⟩ := line_part hline.line hall
          have hpending' := hpending.data hbs hnl hroom
          rw [Client.readlineb_of_pending hpending']
          refine ⟨m :: todo, .answering ⟨got ++ bs, rest, ⟨_, rfl, hpending'⟩, hreplies, ?_⟩ ?_
            hstdin hforth (hclosed.trans hback), .inl ⟨rfl, rfl⟩, ?_⟩
          · rw [hm']
            simp
          · rw [hm']
            exact hline
          · simp only [Label.interrupted, Bool.false_eq_true, if_false, Session.work,
              Client.toSend, Client.rank, hpc, hbytes, List.length_append]
            omega

/-! ## steps of the server -/

theorem Stage.accept {rp : RioT} {connfd : Int} (h : Stage tail s todo)
    (hpc : s.server.pc = .backlog) :
    After tail s todo (.accept rp connfd) { s with server := s.server.accept rp connfd } todo := by
  have hreads := s.server.accept_reads rp connfd
  have hwork : ({ s with server := s.server.accept rp connfd } : Session).work < s.work := by
    have hrank : s.server.rank = 3 := by simp only [Server.rank, hpc]
    simp only [Session.work, hreads.held, List.length_nil, hrank]
    omega
  have hgot : ∀ got, s.server.Waits got → got = [] := by
    rintro got (⟨-, hgot⟩ | ⟨reads, hpc', -⟩)
    · exact hgot
    · simp [hpc'] at hpc
  refine ⟨?_, .inl ⟨rfl, rfl⟩, hwork⟩
  cases h with
  | connecting _ hv => simp [hv] at hpc
  | ready hc hv hstdin hforth hback => exact .ready hc (.inr hreads) hstdin hforth hback
  | asking h hsent hforth hback =>
      obtain ⟨got, rest, hsends, hwaits, hm⟩ := h
      obtain rfl := hgot got hwaits
      exact .asking ⟨[], rest, hsends, .inr hreads, hm⟩ hsent hforth hback
  | answering h =>
      obtain ⟨got, rest, -, hreplies, -⟩ := h
      cases hreplies with
      | writing _ hpc' => simp [hpc'] at hpc
      | written _ hpc' => simp [hpc'] at hpc
  | leaving hc hstdin htail hforth hv => exact .leaving hc hstdin htail hforth (.inl (.inr hreads))

/-- The server reads, with a message on its way or not. -/
theorem Stage.serverRead {r : ReadRet} {reads : List ReadRet} {p : Pipe} (h : Stage tail s todo)
    (hpc : s.server.pc = .readlineb reads) (hr : readFrom s.toServer r = some p) :
    After tail s todo (.serverRead r)
      { s with server := s.server.readlineb (reads ++ [r]), toServer := p } todo := by
  -- an interrupted call changes nothing
  have hinterrupted : ∀ got, Pending s.server.rio reads got →
      (s.server.readlineb (reads ++ [.err .EINTR])).Reads got ∧
        ({ s with server := s.server.readlineb (reads ++ [.err .EINTR]) } : Session).work =
          s.work := by
    intro got hpending
    have hold : s.server.Reads got := ⟨reads, hpc, hpending⟩
    have hnew := Server.reads_of_pending hpending.interrupted
    exact ⟨hnew, by simp only [Session.work, hold.held, hnew.held]⟩
  have hpending : ∀ got, s.server.Waits got → Pending s.server.rio reads got := by
    rintro got (⟨hpc', -⟩ | ⟨reads', hpc', hpending⟩)
    · simp [hpc'] at hpc
    · obtain rfl : reads' = reads := ServerPc.readlineb.inj (hpc'.symm.trans hpc)
      exact hpending
  cases h with
  | connecting _ hv => simp [hv] at hpc
  | ready hc hv hstdin hforth hback =>
      obtain ⟨rfl, rfl⟩ := readFrom_empty (by rw [hforth]; rfl) (by rw [hforth]; rfl) hr
      obtain ⟨hreads, hwork⟩ := hinterrupted [] (hpending [] hv)
      exact ⟨.ready hc (.inr hreads) hstdin hforth hback, .inl ⟨rfl, rfl⟩, hwork⟩
  | @answering m todo h hline hstdin hforth hback =>
      obtain ⟨rfl, rfl⟩ := readFrom_empty (by rw [hforth]; rfl) (by rw [hforth]; rfl) hr
      obtain ⟨got, rest, hreads, hreplies, hm⟩ := h
      cases hreplies with
      | writing _ hpc' => simp [hpc'] at hpc
      | written reads' hpc' hrest h =>
          obtain rfl : reads' = reads := ServerPc.readlineb.inj (hpc'.symm.trans hpc)
          obtain ⟨⟨reads'', hpc'', hpending'⟩, hwork⟩ := hinterrupted [] h
          exact ⟨.answering ⟨got, rest, hreads, .written reads'' hpc'' hrest hpending', hm⟩ hline
            hstdin hforth hback, .inl ⟨rfl, rfl⟩, hwork⟩
  | leaving hc hstdin htail hforth hv =>
      have hwaits : s.server.Waits [] := by
        obtain hwaits | hpc' | hpc' := hv
        · exact hwaits
        · simp [hpc'] at hpc
        · simp [hpc'] at hpc
      have hpend := hpending [] hwaits
      obtain ⟨rfl, rfl⟩ | ⟨rfl, -, -, rfl⟩ | ⟨bs, hbs, rfl, hbytes, -⟩ := readFrom_spec hr
      · obtain ⟨hreads, hwork⟩ := hinterrupted [] hpend
        exact ⟨.leaving hc hstdin htail hforth (.inl (.inr hreads)), .inl ⟨rfl, rfl⟩, hwork⟩
      · -- the end of the stream
        have hclose := Server.readlineb_of_eof hpend
        refine ⟨.leaving hc hstdin htail hforth (.inr (.inl hclose)), .inl ⟨rfl, rfl⟩, ?_⟩
        simp only [Label.interrupted, Bool.false_eq_true, if_false, Session.work, Server.held,
          Server.rank, hclose, hpc]
        omega
      · rw [hforth] at hbytes
        exact absurd (List.append_eq_nil_iff.mp hbytes.symm).1 hbs
  | @asking m _ h hsent hforth hback =>
      obtain ⟨got, rest, hsends, hwaits, hm⟩ := h
      have hpend := hpending got hwaits
      obtain ⟨rfl, rfl⟩ | ⟨-, -, hclosed, -⟩ | ⟨bs, hbs, rfl, hbytes, hclosed⟩ := readFrom_spec hr
      · obtain ⟨hreads, hwork⟩ := hinterrupted got hpend
        exact ⟨.asking ⟨got, rest, hsends, .inr hreads, hm⟩ hsent hforth hback, .inl ⟨rfl, rfl⟩,
          hwork⟩
      · rw [hforth] at hclosed
        contradiction
      · have hpos := List.length_pos_iff.mpr hbs
        have hm' : m = got ++ bs ++ (p.bytes ++ rest) := by rw [hm, hbytes]; simp
        have hold : s.server.Reads got := ⟨reads, hpc, hpend⟩
        -- the server goes on reading unless this is all of a line
        have hpart : newline ∉ got ++ bs → (got ++ bs).length < maxline - 1 →
            After tail s todo (.serverRead (.ret bs))
              { s with server := s.server.readlineb (reads ++ [.ret bs]), toServer := p } todo := by
          intro hnl hroom
          have hreads := Server.reads_of_pending (hpend.data hbs hnl hroom)
          refine ⟨.asking ⟨got ++ bs, rest, hsends, .inr hreads, by rw [hm']; simp⟩ hsent
            (hclosed.trans hforth) hback, .inl ⟨rfl, rfl⟩, ?_⟩
          simp only [Label.interrupted, Bool.false_eq_true, if_false, Session.work, hold.held,
            hreads.held, hbytes, List.length_append]
          omega
        cases hsent with
        | part hne hnl hroom =>
            rw [hm'] at hnl hroom
            refine hpart (fun hmem => hnl (List.mem_append_left _ hmem)) ?_
            have hlen : (got ++ bs).length ≤ (got ++ bs ++ (p.bytes ++ rest)).length := by simp
            omega
        | @line todo hstdin hline =>
            by_cases hall : p.bytes ++ rest = []
            · rw [hall, List.append_nil] at hm'
              obtain ⟨hp, rfl⟩ := List.append_eq_nil_iff.mp hall
              have hreplies := Server.readlineb_of_line hpend hbs (hm' ▸ hline.line)
              rw [← hm'] at hreplies
              have hreads : s.client.Reads [] := by
                cases hsends with
                | writing _ _ _ _ _ hne => exact absurd rfl hne
                | written reads hpc _ h => exact ⟨reads, hpc, h⟩
              refine ⟨.answering ⟨[], m, hreads, hreplies, ?_⟩ hline hstdin ?_ ?_, .inl ⟨rfl, rfl⟩,
                ?_⟩
              · rw [hback]
                rfl
              · cases p with
                | mk bytes closed =>
                    obtain rfl : bytes = [] := hp
                    rw [show closed = false from hclosed.trans hforth]
                    rfl
              · rw [hback]
                rfl
              · simp only [Label.interrupted, Bool.false_eq_true, if_false, Session.work, hold.held,
                  hreplies.held, hbytes, List.length_append, hm']
                omega
            · obtain ⟨hnl, hroom⟩ := line_part (hm' ▸ hline.line) hall
              exact hpart hnl hroom

theorem Stage.serverWrite {r : WriteRet} {writes : List WriteRet} {p : Pipe}
    (h : Stage tail s todo) (hpc : s.server.pc = .writen writes)
    (hw : writeTo cap s.toClient ((s.server.buf.take s.server.n).drop (taken writes)) r = some p) :
    After tail s todo (.serverWrite r)
      { s with server := s.server.writen (writes ++ [r]), toClient := p } todo := by
  have hnot : ∀ got, ¬ s.server.Waits got := by
    rintro got (⟨hpc', -⟩ | ⟨reads, hpc', -⟩)
    · simp [hpc'] at hpc
    · simp [hpc'] at hpc
  cases h with
  | connecting _ hv => simp [hv] at hpc
  | ready _ hv => exact absurd hv (hnot [])
  | asking h =>
      obtain ⟨got, rest, -, hwaits, -⟩ := h
      exact absurd hwaits (hnot got)
  | leaving _ _ _ _ hv =>
      obtain hwaits | hpc' | hpc' := hv
      · exact absurd hwaits (hnot [])
      · simp [hpc'] at hpc
      · simp [hpc'] at hpc
  | @answering m todo h hline hstdin hforth hback =>
      obtain ⟨got, rest, hreads, hreplies, hm⟩ := h
      have hwork := hreplies.held
      cases hreplies with
      | written _ hpc' => simp [hpc'] at hpc
      | writing writes' hpc' hn hbuf ho hrest hne hv hun =>
          obtain rfl : writes' = writes := ServerPc.writen.inj (hpc'.symm.trans hpc)
          rw [hbuf] at hw
          obtain ⟨ho', hresult⟩ := writeTo_spec ho hw
          have hreplies' := Server.writen_replies hn hbuf ho' hv hun
          have hwork' := hreplies'.held
          obtain ⟨rfl, rfl, htaken⟩ | ⟨bs, hbs, ⟨n, rfl⟩, hbytes, hclosed, hdrop⟩ := hresult
          · rw [htaken, hrest] at hreplies' hwork'
            refine ⟨.answering ⟨got, rest, hreads, hreplies', hm⟩ hline hstdin hforth hback,
              .inl ⟨rfl, rfl⟩, ?_⟩
            simp only [Label.interrupted, if_true, Session.work, hwork, hwork']
          · rw [hrest] at hdrop
            have hlen := congrArg List.length hdrop
            rw [List.length_append] at hlen
            have hpos := List.length_pos_iff.mpr hbs
            have hm' : m = got ++ p.bytes ++ m.drop (taken (writes' ++ [.ret n])) := by
              rw [hbytes]
              conv_lhs => rw [hm, hdrop]
              simp
            refine ⟨.answering ⟨got, _, hreads, hreplies', hm'⟩ hline hstdin hforth
              (hclosed.trans hback), .inl ⟨rfl, rfl⟩, ?_⟩
            simp only [Label.interrupted, Bool.false_eq_true, if_false, Session.work, hwork, hwork',
              hbytes, List.length_append]
            omega

theorem Stage.close (h : Stage tail s todo) (hpc : s.server.pc = .close) :
    After tail s todo .close
      { s with server := { s.server with pc := .closed }, toClient := s.toClient.close } todo := by
  have hnot : ∀ got, ¬ s.server.Waits got := by
    rintro got (⟨hpc', -⟩ | ⟨reads, hpc', -⟩)
    · simp [hpc'] at hpc
    · simp [hpc'] at hpc
  cases h with
  | connecting _ hv => simp [hv] at hpc
  | ready _ hv => exact absurd hv (hnot [])
  | asking h =>
      obtain ⟨got, rest, -, hwaits, -⟩ := h
      exact absurd hwaits (hnot got)
  | answering h =>
      obtain ⟨got, rest, -, hreplies, -⟩ := h
      cases hreplies with
      | writing _ hpc' => simp [hpc'] at hpc
      | written _ hpc' => simp [hpc'] at hpc
  | leaving hc hstdin htail hforth hv =>
      refine ⟨.leaving hc hstdin htail hforth (.inr (.inr rfl)), .inl ⟨rfl, rfl⟩, ?_⟩
      simp only [Label.interrupted, Bool.false_eq_true, if_false, Session.work, Server.held,
        Server.rank, hpc, Pipe.close]
      omega

/-! ## a step -/

/-- **A step of a session.** -/
theorem Stage.step {s' : Session} {l : Label} (h : Stage tail s todo)
    (hlines : ∀ l ∈ todo, TextLine l) (htail : tail = [] ∨ Hangs tail)
    (hs : s.step cap l = some s') : ∃ todo', After tail s todo l s' todo' := by
  cases step_cases hs with
  | connect hpc => exact ⟨todo, h.connect hpc⟩
  | fgets hpc => exact ⟨todo, h.fgets hlines htail hpc⟩
  | clientWrite hpc hw => exact ⟨todo, h.clientWrite hpc hw⟩
  | clientRead hpc hr => exact h.clientRead hpc hr
  | accept hpc => exact ⟨todo, h.accept hpc⟩
  | serverRead hpc hr => exact ⟨todo, h.serverRead hpc hr⟩
  | serverWrite hpc hw => exact ⟨todo, h.serverWrite hpc hw⟩
  | close hpc => exact ⟨todo, h.close hpc⟩

end Steps

end SysDemos.EchoSession
