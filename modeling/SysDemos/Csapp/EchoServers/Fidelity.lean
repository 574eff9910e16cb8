import SysDemos.Csapp.EchoServers.Steps
import SysDemos.Csapp.Rio.Fragmentation
import SysDemos.Lib.Lts

/-!
# SysDemos.Csapp.EchoServers.Fidelity

What the select server echoes, compared with what it has read.

`check_clients` reads a line through a *copy* of the client's `rio_t` and
drops the copy.  Bytes that the last `read` returned behind the newline are
in the copy only, so they are lost: the server is faithful exactly as long
as every piece of a stream that `read` returns has its newline, if any, as
its last byte (`faithful_iff_aligned`).

The proof follows one line (`serve_line`): its bytes are a prefix of what
the reads returned, and all of it exactly if the pieces are aligned.  The
lengths of what was read and echoed then decide faithfulness for the whole
history (`History`).
-/

namespace SysDemos.EchoServers

open Rio Lts

/-! ## streams and pieces -/

/-- Newline-terminated lines of at most `MAXLINE - 1` bytes, the newline
included: the stream ends with a newline and has no longer run without. -/
def LineStream (bs : List UInt8) : Prop :=
  (bs = [] ∨ bs.getLast? = some newline) ∧
    ∀ l, l <:+: bs → newline ∉ l → l.length + 1 < maxline

/-- Dropping from the front of a stream of lines leaves one. -/
theorem LineStream.suffix {bs cs : List UInt8} (h : LineStream bs) (hs : cs <:+ bs) :
    LineStream cs := by
  refine ⟨?_, fun l hl hn => h.2 l (hl.trans hs.isInfix) hn⟩
  obtain ⟨p, rfl⟩ := hs
  rcases h.1 with hnil | hlast
  · exact .inl (List.append_eq_nil_iff.mp hnil).2
  · cases cs with
    | nil => exact .inl rfl
    | cons c cs =>
        right
        rwa [List.getLast?_append_of_ne_nil _ (by simp)] at hlast

/-- A piece of a stream that ends no line before its last byte. -/
def Aligned (bs : List UInt8) : Prop := newline ∉ bs.dropLast

/-- The results of `read` that a client sending lines can cause: pieces of
a stream of lines, interrupts, and end of file once the stream is over. -/
structure GoodInput (input : List ReadRet) : Prop extends Closing input where
  lines : LineStream (dataOf input)

/-- What is left of a good input is good. -/
theorem GoodInput.suffix {cs rest : List ReadRet} (h : GoodInput (cs ++ rest)) :
    GoodInput rest where
  toClosing := h.toClosing.suffix
  lines := h.lines.suffix ⟨dataOf cs, (dataOf_append cs rest).symm⟩

/-! ## one line -/

/-- The last piece of a line read to its newline is aligned exactly if
nothing is left of it; all earlier pieces are. -/
theorem aligned_cut {es : List (List UInt8)} {x u body : List UInt8} (hx : x ≠ [])
    (hline : es.flatten ++ x = body ++ [newline]) (hbody : newline ∉ body) :
    (∀ bs ∈ es ++ [x ++ u], Aligned bs) ↔ u = [] := by
  obtain ⟨y, c, rfl⟩ : ∃ y c, x = y ++ [c] :=
    ⟨x.dropLast, x.getLast hx, (List.dropLast_append_getLast hx).symm⟩
  rw [← List.append_assoc, List.append_singleton_inj] at hline
  obtain ⟨hes, rfl⟩ := hline
  have hin : ∀ bs ∈ es, newline ∉ bs := fun bs hbs hnl => hbody (by
    rw [← hes]
    exact List.mem_append_left _ (List.mem_flatten.mpr ⟨bs, hbs, hnl⟩))
  have hy : newline ∉ y := fun hnl => hbody (by rw [← hes]; exact List.mem_append_right _ hnl)
  constructor
  · intro hall
    cases u with
    | nil => rfl
    | cons b u =>
        refine absurd ?_ (hall (y ++ [newline] ++ b :: u) (by simp))
        rw [List.dropLast_append_of_ne_nil (by simp)]
        simp
  · rintro rfl bs hbs hnl
    rcases List.mem_append.mp hbs with hbs | hbs
    · exact hin bs hbs (List.mem_of_mem_dropLast hnl)
    · rw [List.mem_singleton] at hbs
      subst hbs
      simp only [List.append_nil, List.dropLast_concat] at hnl
      exact hy hnl

/-- **One line of a client.**  With nothing unread, `rio_readlineb` either
meets the end of the stream or stores and counts one line of it; the line
is all that was read exactly if the pieces read are aligned. -/
theorem serve_line {rio : RioT} {input : List ReadRet} {r : Res} (hcnt : rio.rioCnt = 0)
    (hptr : rio.rioBufptr = 0) (hgood : GoodInput input)
    (hr : rioReadlineb rio maxline input = some r) :
    ∃ cs, input = cs ++ r.rest ∧
      ((r.ret = 0 ∧ chunksOf cs = []) ∨
        ∃ line u, r.ret = line.length ∧ r.usrbuf = line ++ [0] ∧ 0 < line.length ∧
          line.length < maxline ∧ dataOf cs = line ++ u ∧
          ((∀ bs ∈ chunksOf cs, Aligned bs) ↔ u = [])) := by
  have hv : rio.Valid := by simp [RioT.Valid, hcnt, hptr]
  have hun : rio.unread = [] := by simp [RioT.unread, hcnt]
  obtain ⟨line, cs, hcs, hv', hcut, hend⟩ := rioReadlinebLoop_spec hv (Nat.le_refl 1) hr
  have hdata : dataOf cs = line ++ r.rp.unread := by simpa [hun] using hcut.conserves
  have hinfix : line <:+: dataOf input := by
    rw [hcs, dataOf_append, hdata, List.append_assoc]
    exact (List.prefix_append _ _).isInfix
  refine ⟨cs, hcs, ?_⟩
  cases hend with
  | newline body hline hbody hk hret husr =>
      right
      refine ⟨line, r.rp.unread, ?_, by simpa using husr, ?_, ?_, hdata, ?_⟩
      · rw [hret, hline, List.length_append, List.length_singleton]; push_cast; omega
      · rw [hline, List.length_append, List.length_singleton]; omega
      · unfold maxline at hk ⊢; omega
      · rcases hcut with ⟨-, hbad⟩ | ⟨es, x, hchunks, hx, hfrom⟩
        · rw [hun, hline] at hbad
          simp at hbad
        · rw [hchunks]
          exact aligned_cut hx (by rw [← hline, hfrom, hun]; rfl) hbody
  | full hline hk hret husr =>
      have := hgood.lines.2 line hinfix hline
      omega
  | eof hline hk hlast hend hret husr =>
      left
      -- the stream is over here, so an unfinished line would be its last
      have hnil : line = [] := by
        have hrest : dataOf r.rest = [] := (hcs ▸ hgood.eof).nil_of_getLast hend
        have hall : dataOf input = line := by
          rw [hcs, dataOf_append, hrest, hdata, hlast]; simp
        rcases hgood.lines.1 with h | h
        · rw [← hall, h]
        · rw [hall] at h
          exact absurd (List.mem_of_getLast? h) hline
      subst hnil
      refine ⟨by simpa using hret, ?_⟩
      rcases hcut with ⟨hchunks, -⟩ | ⟨es, x, -, hx, hbad⟩
      · exact hchunks
      · rw [eq_comm, List.append_eq_nil_iff] at hbad
        exact absurd hbad.2 hx
  | err e he hline hk hlast hend hret husr =>
      have := hgood.eintr e (by
        rw [hcs]; exact List.mem_append_left _ (List.mem_of_getLast? hend))
      exact absurd this he

/-! ## the history of a connection -/

/-- What is known of a connection at the end of every round: never more is
echoed than was read, and the lengths agree exactly if all pieces were
aligned, in which case everything read has been echoed. -/
structure History (c : Client) : Prop where
  input : GoodInput c.input
  output : ∀ e, .fail e ∈ c.output → e = .EINTR
  le : c.echoed.length ≤ (dataOf c.returned).length
  len : c.echoed.length = (dataOf c.returned).length ↔ ∀ bs ∈ chunksOf c.returned, Aligned bs
  eq : (∀ bs ∈ chunksOf c.returned, Aligned bs) → c.echoed = dataOf c.returned

theorem history_new {input : List ReadRet} {output : List WriteRet} (hi : GoodInput input)
    (ho : ∀ e, .fail e ∈ output → e = .EINTR) :
    History { input := input, output := output, returned := [], echoed := [] } :=
  ⟨hi, ho, by simp, by simp [dataOf, chunksOf], by simp [dataOf, chunksOf]⟩

/-- The calls the reader made are the ones that moved into the history. -/
theorem afterRead_eq {c : Client} {cs : List ReadRet} {r : Res} (h : c.input = cs ++ r.rest) :
    c.afterRead r = { c with input := r.rest, returned := c.returned ++ cs } := by
  simp [Client.afterRead, h]

/-- At the end of its stream a connection's history does not change. -/
theorem History.eof {c : Client} {cs : List ReadRet} {r : Res} (h : History c)
    (hcs : c.input = cs ++ r.rest) (hchunks : chunksOf cs = []) : History (c.afterRead r) := by
  have hin := h.input
  rw [hcs] at hin
  rw [afterRead_eq hcs]
  have hdata : dataOf (c.returned ++ cs) = dataOf c.returned := by simp [dataOf, hchunks]
  refine ⟨hin.suffix, h.output, by simpa [hdata] using h.le, ?_, ?_⟩
  · simpa [hdata, hchunks] using h.len
  · simpa [hdata, hchunks] using h.eq

/-- Echoing a line extends a connection's history. -/
theorem History.echo {c : Client} {cs : List ReadRet} {r : Res} {line u out : List UInt8}
    {rest : List WriteRet} (h : History c) (hcs : c.input = cs ++ r.rest)
    (hdata : dataOf cs = line ++ u)
    (haligned : (∀ bs ∈ chunksOf cs, Aligned bs) ↔ u = []) (hout : out = line)
    (hrest : rest <:+ c.output) :
    History { c.afterRead r with output := rest, echoed := (c.afterRead r).echoed ++ out } := by
  have hin := h.input
  rw [hcs] at hin
  rw [afterRead_eq hcs, hout]
  have hle := h.le
  have hlen := h.len
  -- `u` is what the copy of the pool entry takes with it
  have hu : u = [] ↔ u.length = 0 := by rw [List.length_eq_zero_iff]
  refine ⟨hin.suffix, fun e he => h.output e (hrest.mem he), ?_, ?_, ?_⟩
  · simp only [dataOf_append, hdata, List.length_append]; omega
  · simp only [dataOf_append, hdata, List.length_append, chunksOf_append, List.mem_append,
      or_imp, forall_and]
    rw [haligned, ← hlen, hu]
    omega
  · intro hall
    simp only [chunksOf_append, List.mem_append, or_imp, forall_and] at hall
    simp [h.eq hall.1, hdata, haligned.mp hall.2]

/-! ## rounds -/

/-- The state of the server between rounds: no pool entry holds unread
bytes, since only copies of the entries are ever filled. -/
structure Inv (s : Server) : Prop where
  rio : ∀ i, (s.pool.clientrio i).rioCnt = 0 ∧ (s.pool.clientrio i).rioBufptr = 0
  history : ∀ c, History (s.clients c)

theorem goodInput_nil : GoodInput [] where
  eintr e he := by contradiction
  size bs hbs := by contradiction
  eof := trivial
  lines := ⟨.inl rfl, fun l hl _ => by
    have hnil : l = [] := List.infix_nil.mp hl
    subst hnil
    decide⟩

theorem inv_init (listenfd : Int) : Inv (init listenfd) where
  rio _ := ⟨rfl, rfl⟩
  history _ := history_new goodInput_nil fun e he => by contradiction

/-- Replacing one client's record by one with a good history. -/
theorem history_update {clients : Nat → Client} {c : Nat} {x : Client}
    (h : ∀ c, History (clients c)) (hx : History x) (d : Nat) :
    History (Function.update clients c x d) := by
  by_cases hd : d = c
  · subst hd; rw [Function.update_self]; exact hx
  · rw [Function.update_of_ne hd]; exact h d

/-- A line served to a client extends its history. -/
theorem History.serve {rio : RioT} {client client' : Client} {ret : Int} (h : History client)
    (hcnt : rio.rioCnt = 0) (hptr : rio.rioBufptr = 0)
    (hs : EchoServers.serve rio client = some (ret, client')) : History client' := by
  cases serve_cases hs with
  | echoed r w out rest hr hret hw =>
      obtain ⟨cs, hcs, ⟨hzero, -⟩ | ⟨line, u, hlen, husr, -, hmax, hdata, hal⟩⟩ :=
        serve_line hcnt hptr h.input hr
      · exact absurd hzero hret
      · obtain ⟨-, hout, hrest⟩ := rioWriten_spec h.output hw
        have hline : out = line := by
          rw [hout, husr, hlen, sizeT_of_nat (by unfold maxline at hmax; omega)]
          simp
        exact h.echo hcs hdata hal hline hrest
  | eof r hr hret =>
      obtain ⟨cs, hcs, ⟨-, hchunks⟩ | ⟨line, u, hlen, -, hpos, -⟩⟩ :=
        serve_line hcnt hptr h.input hr
      · exact h.eof hcs hchunks
      · omega

/-- A slot of `check_clients` keeps the invariant. -/
theorem inv_checked {s s' : Server} {i : Nat} (h : Inv s) (hs : Checked s i s') : Inv s' := by
  cases hs with
  | idle => exact h
  | served c ret client hready hc hserve =>
      exact ⟨h.rio, history_update h.history
        ((h.history c).serve (h.rio i).1 (h.rio i).2 hserve)⟩

/-- `check_clients` keeps the invariant. -/
theorem inv_checkClients {s s' : Server} (h : Inv s) (hs : checkClients s = some s') : Inv s' := by
  obtain ⟨-, -, hinv, -⟩ := checkLoop_inv (I := fun _ => Inv)
    (fun _ _ _ hi _ hc => inv_checked hi hc) h hs
  exact hinv

/-- `add_client` initialises the entry it takes and touches no other. -/
theorem addClient_rio {p : Pool} {connfd : Int}
    (h : ∀ i, (p.clientrio i).rioCnt = 0 ∧ (p.clientrio i).rioBufptr = 0) (i : Nat) :
    ((addClient connfd p).clientrio i).rioCnt = 0 ∧
      ((addClient connfd p).clientrio i).rioBufptr = 0 := by
  simp only [addClient]
  split
  · exact h i
  · next j _ =>
      by_cases hij : i = j
      · subst hij
        simp only [Pool.added, Function.update_self]
        exact ⟨rfl, rfl⟩
      · simp only [Pool.added, Function.update_of_ne hij]
        exact h i

/-- The clients of a round send lines, and no call on their connections
fails except by an interrupt. -/
def GoodRound (_ : Server) (r : Round) : Prop :=
  GoodInput r.input ∧ ∀ e, .fail e ∈ r.output → e = .EINTR

/-- A round keeps the invariant. -/
theorem inv_round {s s' : Server} {r : Round} (h : Inv s) (hr : GoodRound s r)
    (hs : round s r = some s') : Inv s' := by
  have hsel : Inv (s.select r.ready) := by
    unfold Server.select
    split <;> exact ⟨h.rio, h.history⟩
  obtain ⟨-, -, hs⟩ := round_cases hs
  refine inv_checkClients ?_ hs
  simp only [Server.welcome]
  split
  · exact ⟨addClient_rio hsel.rio, history_update hsel.history (history_new hr.1 hr.2)⟩
  · exact hsel

/-- The echo is faithful: each client has got a prefix of what it sent, and
what was read from it is what it got and what its pool entry still holds. -/
def Faithful (s : Server) : Prop :=
  ∀ c, (s.clients c).echoed <+: (s.clients c).sent ∧
    dataOf (s.clients c).returned = (s.clients c).echoed ++ s.held c

/-- Every piece of a stream returned by a `read` so far has a newline at
most as its last byte. -/
def AlignedReads (s : Server) : Prop :=
  ∀ c, ∀ bs ∈ chunksOf (s.clients c).returned, Aligned bs

/-- No pool entry ever holds unread bytes. -/
theorem Inv.held_eq {s : Server} (h : Inv s) (c : Nat) : s.held c = [] := by
  unfold Server.held
  split
  · rfl
  · next i _ => rw [RioT.unread, (h.rio i).1]; rfl

/-- **When the select server echoes faithfully**: after any number of
rounds, for all clients sending lines and all results of `select` and of
the calls on the connections, exactly if every piece of a stream that a
`read` has returned ends no line before its last byte. -/
theorem faithful_iff_aligned (listenfd : Int) (rounds : List Round) (s : Server)
    (h : Run round GoodRound (init listenfd) rounds s) : Faithful s ↔ AlignedReads s := by
  have hinv : Inv s := h.inv (inv_init listenfd) fun _ _ _ hi hok hs => inv_round hi hok hs
  constructor
  · intro hf c
    have hread := (hf c).2
    rw [hinv.held_eq, List.append_nil] at hread
    exact (hinv.history c).len.mp (by rw [hread])
  · intro ha c
    have heq := (hinv.history c).eq (ha c)
    rw [hinv.held_eq, List.append_nil, heq, Client.sent, dataOf_append]
    exact ⟨List.prefix_append _ _, rfl⟩

/-- A client connects and sends `piece`, which one `read` returns in its
second round; two bytes are written. -/
def onePiece (piece : List UInt8) : List Round :=
  [{ ready := some {3}, connfd := 4, input := [.ret piece], output := [.ret 2] },
   { ready := some {4}, connfd := 0, input := [], output := [] }]

/-- A short piece that ends with a newline is a good input. -/
theorem goodRound_onePiece {piece : List UInt8} (hlast : piece.getLast? = some newline)
    (hlen : piece.length + 1 < maxline) (s : Server) (r : Round) (hr : r ∈ onePiece piece) :
    GoodRound s r := by
  have hdata : dataOf [.ret piece] = piece := by
    cases piece with
    | nil => rfl
    | cons b bs => simp [dataOf]
  simp only [onePiece, List.mem_cons, List.not_mem_nil, or_false] at hr
  rcases hr with rfl | rfl
  · refine ⟨⟨⟨⟨by simp, ?_⟩, eofLast_singleton _⟩, ?_⟩, by simp⟩
    · intro bs hbs
      simp only [List.mem_singleton, ReadRet.ret.injEq] at hbs
      subst hbs
      unfold maxline at hlen
      unfold rioBufsize
      omega
    · rw [hdata]
      exact ⟨.inr hlast, fun l hl _ => by have := hl.length_le; omega⟩
  · exact ⟨goodInput_nil, by simp⟩

/-- Two lines in one piece: the second is read and neither echoed nor
kept. -/
theorem not_faithful_two_lines : ¬ ∀ listenfd rounds s,
    Run round GoodRound (init listenfd) rounds s → Faithful s := by
  intro hall
  have hexec : (exec round (fun _ r => decide (r ∈ onePiece [97, 10, 98, 10])) (init 3)
      (onePiece [97, 10, 98, 10])).map
      (fun s => ((s.clients 0).returned, (s.clients 0).echoed, s.held 0)) =
      some ([.ret [97, 10, 98, 10]], [97, 10], []) := by
    decide +kernel
  obtain ⟨s, hrun, hobs⟩ := exists_run_of_exec _ _ hexec
  simp only [Prod.mk.injEq] at hobs
  obtain ⟨hret, hech, hheld⟩ := hobs
  have hf := hall 3 _ s (hrun.mono fun s r hr =>
    goodRound_onePiece rfl (by decide) s r (of_decide_eq_true hr)) 0
  rw [hret, hech, hheld] at hf
  exact absurd hf.2 (by decide)

/-- One line in one piece is echoed faithfully. -/
theorem faithful_iff_aligned_one_line : ∃ s,
    Run round GoodRound (init 3) (onePiece [97, 10]) s ∧ (s.clients 0).echoed = [97, 10] ∧
      (Faithful s ↔ AlignedReads s) := by
  have hexec : (exec round (fun _ r => decide (r ∈ onePiece [97, 10])) (init 3)
      (onePiece [97, 10])).map (fun s => (s.clients 0).echoed) = some [97, 10] := by
    decide +kernel
  obtain ⟨s, hrun, hobs⟩ := exists_run_of_exec _ _ hexec
  have hgood := hrun.mono fun s r hr =>
    goodRound_onePiece rfl (by decide) s r (of_decide_eq_true hr)
  exact ⟨s, hgood, hobs, faithful_iff_aligned 3 _ s hgood⟩

end SysDemos.EchoServers
