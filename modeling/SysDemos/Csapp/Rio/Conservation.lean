import SysDemos.Csapp.Rio
import SysDemos.Lib.Lts

/-!
# SysDemos.Csapp.Rio.Conservation

The buffered reader as a whole: one `rio_t`, initialised once, and any mixture
of `rio_readnb` and `rio_readlineb` calls on it.

A call hands bytes over from the front of what is unread and what `read` will
return (`HandsOver`).  `rio_read` does, hand-overs compose, and both loops
consist of `rio_read` calls, so a whole sequence of calls hands over the front
of the stream.

* `stream_conserved` — what the callers have received, what is buffered and
  what has not been read make up the stream, and the buffered bytes are inside
  `rio_buf`.
-/

namespace SysDemos.Rio

open Lts

/-! ## hand-overs -/

/-- What `read` may return: at most the bytes asked for, and no error other
than an interrupt. -/
structure ShortReads (reads : List ReadRet) : Prop where
  eintr : ∀ e, .err e ∈ reads → e = .EINTR
  size : ∀ bs, .ret bs ∈ reads → bs.length ≤ rioBufsize

theorem ShortReads.suffix {cs rest : List ReadRet} (h : ShortReads (cs ++ rest)) :
    ShortReads rest where
  eintr e he := h.eintr e (List.mem_append_right _ he)
  size bs hbs := h.size bs (List.mem_append_right _ hbs)

/-- A `rio_t` between two calls: the unread bytes are inside `rio_buf`. -/
structure RioT.Wf (rp : RioT) : Prop where
  cnt : 0 ≤ rp.rioCnt
  inside : rp.rioBufptr + rp.rioCnt ≤ rioBufsize
  buf : rp.rioBuf.length = rioBufsize

theorem RioT.Wf.valid {rp : RioT} (h : rp.Wf) : rp.Valid := by
  have hinside := h.inside
  have hcnt := h.cnt
  rw [Valid, h.buf]
  omega

/-- The bytes `bs` are taken from the front of what was to come. -/
structure HandsOver (rp : RioT) (reads : List ReadRet) (bs : List UInt8) (rp' : RioT)
    (rest : List ReadRet) : Prop where
  stream : rp.unread ++ dataOf reads = bs ++ rp'.unread ++ dataOf rest
  wf : rp'.Wf
  reads : ShortReads rest

theorem HandsOver.refl {rp : RioT} {reads : List ReadRet} (hwf : rp.Wf) (hok : ShortReads reads) :
    HandsOver rp reads [] rp reads := ⟨rfl, hwf, hok⟩

theorem HandsOver.trans {rp rp₁ rp₂ : RioT} {reads reads₁ reads₂ : List ReadRet}
    {bs₁ bs₂ : List UInt8} (h₁ : HandsOver rp reads bs₁ rp₁ reads₁)
    (h₂ : HandsOver rp₁ reads₁ bs₂ rp₂ reads₂) :
    HandsOver rp reads (bs₁ ++ bs₂) rp₂ reads₂ := by
  refine ⟨?_, h₂.wf, h₂.reads⟩
  rw [h₁.stream, List.append_assoc, h₂.stream]
  simp only [List.append_assoc]

/-! ## `rio_read` -/

/-- Copying moves the cursor inside the buffer. -/
theorem wf_rioCopy {rp : RioT} {n : Nat} (hcnt : 0 < rp.rioCnt)
    (hinside : rp.rioBufptr + rp.rioCnt ≤ rioBufsize) (hbuf : rp.rioBuf.length = rioBufsize)
    (reads : List ReadRet) : (rioCopy rp n reads).rp.Wf := by
  unfold rioCopy
  dsimp only
  split
  · exact ⟨by dsimp only; omega, by dsimp only; omega, hbuf⟩
  · exact ⟨by dsimp only; omega, by dsimp only; omega, hbuf⟩

/-- `rio_read` leaves a `rio_t` as the next call expects it, although an
interrupted `read` has `-1` in `rio_cnt` in between. -/
theorem wf_rioRead {rp : RioT} {n : Nat} {reads : List ReadRet} {r : Res}
    (hinside : rp.rioBufptr + rp.rioCnt.toNat ≤ rioBufsize) (hbuf : rp.rioBuf.length = rioBufsize)
    (hok : ShortReads reads) (hr : rioRead rp n reads = some r) : r.rp.Wf := by
  induction reads generalizing rp with
  | nil =>
      simp only [rioRead] at hr
      split at hr
      · contradiction
      · rw [Option.some.injEq] at hr
        subst hr
        exact wf_rioCopy (by omega) (by omega) hbuf []
  | cons x reads ih =>
      have hok' : ShortReads reads := (show ShortReads ([x] ++ reads) from hok).suffix
      simp only [rioRead] at hr
      split at hr
      · split at hr
        · next e =>
            rw [if_pos (hok.eintr e List.mem_cons_self)] at hr
            exact ih (by dsimp only; omega) (by exact hbuf) hok' hr
        · rw [Option.some.injEq] at hr
          subst hr
          exact ⟨Int.le_refl 0, by dsimp only; omega, hbuf⟩
        · next bs _ =>
            have hsize := hok.size bs List.mem_cons_self
            refine ih ?_ ?_ hok' hr
            · simpa [rioRefill] using hsize
            · simp [rioRefill, hbuf, Nat.add_sub_cancel' hsize]
      · rw [Option.some.injEq] at hr
        subst hr
        exact wf_rioCopy (by omega) (by omega) hbuf _

/-- `rio_read` stores the front of the stream; without other errors it does not fail. -/
theorem rioRead_stored {rp : RioT} {n : Nat} {reads : List ReadRet} {r : Res} (hv : rp.Valid)
    (hok : ShortReads reads) (hn : 0 < n) (hr : rioRead rp n reads = some r) :
    rp.unread ++ dataOf reads = r.usrbuf ++ r.rp.unread ++ dataOf r.rest ∧
      r.ret = r.usrbuf.length ∧ r.usrbuf.length ≤ n := by
  obtain ⟨cs, rfl, -, hsome⟩ := rioRead_spec hv hn hr
  rw [dataOf_append, ← List.append_assoc]
  cases hsome with
  | buffered hb hcs hcopy =>
      exact ⟨by rw [hb, hcs]; simp [dataOf], hcopy.ret, hcopy.le⟩
  | chunk es hes hrp hcs hcopy =>
      have hne : r.usrbuf ++ r.rp.unread ≠ [] := by
        have hpos := List.ne_nil_of_length_pos hcopy.pos
        simp [hpos]
      exact ⟨by rw [hrp, hcs, dataOf, chunksOf_refill hes hne]; simp, hcopy.ret, hcopy.le⟩
  | eof es hes hrp hcs hret husr hun =>
      refine ⟨?_, by rw [hret, husr]; rfl, by rw [husr]; exact Nat.zero_le n⟩
      rw [hrp, hun, husr, hcs, dataOf_append, dataOf, hes.chunksOf]
      rfl
  | err e es he _ _ hcs =>
      have hmem : ReadRet.err e ∈ cs := by
        rw [hcs]
        exact List.mem_append_right _ List.mem_cons_self
      exact absurd (hok.eintr e (List.mem_append_left _ hmem)) he

/-- `rio_read` hands over the bytes it stores. -/
theorem rioRead_handsOver {rp : RioT} {n : Nat} {reads : List ReadRet} {r : Res} (hwf : rp.Wf)
    (hok : ShortReads reads) (hn : 0 < n) (hr : rioRead rp n reads = some r) :
    HandsOver rp reads r.usrbuf r.rp r.rest ∧ r.ret = r.usrbuf.length ∧ r.usrbuf.length ≤ n := by
  obtain ⟨hstream, hret, hle⟩ := rioRead_stored hwf.valid hok hn hr
  obtain ⟨cs, rfl, -⟩ := rioRead_spec hwf.valid hn hr
  have hinside : rp.rioBufptr + rp.rioCnt.toNat ≤ rioBufsize := by
    have hinside := hwf.inside
    have hcnt := hwf.cnt
    omega
  exact ⟨⟨hstream, wf_rioRead hinside hwf.buf hok hr, hok.suffix⟩, hret, hle⟩

/-! ## the two read functions -/

/-- The line loop hands over what it stores, the NUL apart. -/
theorem rioReadlinebLoop_handsOver {k n : Nat} {rp : RioT} {usr : List UInt8}
    {reads : List ReadRet} {r : Res} (hwf : rp.Wf) (hok : ShortReads reads) (hn : 1 ≤ n)
    (hr : rioReadlinebLoop k n rp usr reads = some r) :
    ∃ line, HandsOver rp reads line r.rp r.rest ∧
      (r.usrbuf = usr ++ line ∧ r.ret = 0 ∨ r.usrbuf = usr ++ line ++ [0] ∧ 0 < r.ret) := by
  induction k generalizing n rp usr reads with
  | zero =>
      simp only [rioReadlinebLoop, Option.some.injEq] at hr
      subst hr
      exact ⟨[], .refl hwf hok, .inr ⟨by simp, by dsimp only; omega⟩⟩
  | succ k ih =>
      obtain ⟨r₁, hone, hstep⟩ := rioReadlinebLoop_cases hr
      obtain ⟨hover, hret, hle⟩ := rioRead_handsOver hwf hok (by decide) hone
      cases hstep with
      | newline => exact ⟨r₁.usrbuf, hover, .inr ⟨rfl, by dsimp only; omega⟩⟩
      | more r _ _ hr =>
          obtain ⟨line, hline, hstored⟩ := ih hover.wf hover.reads (by omega) hr
          refine ⟨r₁.usrbuf ++ line, hover.trans hline, ?_⟩
          simpa only [List.append_assoc] using hstored
      | eof hzero =>
          -- nothing has been stored by this `rio_read`
          have hnil : r₁.usrbuf = [] := List.length_eq_zero_iff.mp (by omega)
          rw [hnil] at hover
          refine ⟨[], hover, ?_⟩
          by_cases hfirst : n = 1
          · exact .inl ⟨by simp [hfirst], by simp [hfirst]⟩
          · exact .inr ⟨by simp [hfirst], by simp only [if_neg hfirst]; omega⟩
      | err hneg => omega

/-- The loop of `rio_readnb` hands over what it stores. -/
theorem rioReadnbLoop_handsOver {n nleft : Nat} {rp : RioT} {usr : List UInt8}
    {reads : List ReadRet} {r : Res} (hwf : rp.Wf) (hok : ShortReads reads)
    (hr : rioReadnbLoop n nleft rp usr reads = some r) :
    ∃ bs, HandsOver rp reads bs r.rp r.rest ∧ r.usrbuf = usr ++ bs := by
  induction nleft using Nat.strongRecOn generalizing rp usr reads with
  | _ nleft ih =>
      rw [rioReadnbLoop] at hr
      split at hr
      · next hpos =>
          cases hread : rioRead rp nleft reads with
          | none => rw [hread] at hr; contradiction
          | some r₁ =>
              rw [hread] at hr
              simp only at hr
              obtain ⟨hover, hret, hle⟩ := rioRead_handsOver hwf hok hpos hread
              rw [if_neg (by omega)] at hr
              split at hr
              · obtain ⟨bs, hrest, husr⟩ := ih _ (by omega) hover.wf hover.reads hr
                exact ⟨r₁.usrbuf ++ bs, hover.trans hrest, by rw [husr, List.append_assoc]⟩
              · have hnil : r₁.usrbuf = [] := List.length_eq_zero_iff.mp (by omega)
                rw [Option.some.injEq] at hr
                subst hr
                exact ⟨[], hnil ▸ hover, by simp⟩
      · rw [Option.some.injEq] at hr
        subst hr
        exact ⟨[], .refl hwf hok, by simp⟩

/-! ## sequences of calls -/

/-- A call on the `rio_t`. -/
inductive Call where
  | readnb (n : Nat)
  | readlineb (maxlen : Nat)
  deriving DecidableEq, Repr

/-- The arguments a call may have: `n` is a `size_t`, and `maxlen` counts up to
in an `int`. -/
def Call.Proper : Call → Prop
  | .readnb n => n < 2 ^ 64
  | .readlineb maxlen => 1 ≤ maxlen ∧ maxlen < 2 ^ 31

instance : DecidablePred Call.Proper
  | .readnb n => inferInstanceAs (Decidable (n < 2 ^ 64))
  | .readlineb maxlen => inferInstanceAs (Decidable (1 ≤ maxlen ∧ maxlen < 2 ^ 31))

/-- The call. -/
def Call.run (rp : RioT) (reads : List ReadRet) : Call → Option Res
  | .readnb n => rioReadnb rp n reads
  | .readlineb maxlen => rioReadlineb rp maxlen reads

/-- The bytes a call has stored for its caller, without the NUL behind a line. -/
def Call.stored (r : Res) : Call → List UInt8
  | .readnb _ => r.usrbuf
  | .readlineb _ => if 0 < r.ret then r.usrbuf.dropLast else r.usrbuf

/-- A `rio_t` in use: the results of `read` still to come and the bytes its
callers have received. -/
structure Reader where
  rp : RioT
  reads : List ReadRet
  received : List UInt8
  deriving DecidableEq, Repr

/-- A call that returns; a call that blocks gives `none`. -/
def Reader.call (s : Reader) (c : Call) : Option Reader :=
  (c.run s.rp s.reads).map fun r =>
    { rp := r.rp, reads := r.rest, received := s.received ++ c.stored r }

/-- A call hands over the bytes it stores. -/
theorem Call.handsOver {rp : RioT} {reads : List ReadRet} {c : Call} {r : Res} (hwf : rp.Wf)
    (hok : ShortReads reads) (hr : c.run rp reads = some r) :
    HandsOver rp reads (c.stored r) r.rp r.rest := by
  cases c with
  | readnb n =>
      obtain ⟨bs, hover, husr⟩ := rioReadnbLoop_handsOver hwf hok hr
      rw [Call.stored, husr]
      exact hover
  | readlineb maxlen =>
      obtain ⟨line, hover, ⟨husr, hret⟩ | ⟨husr, hret⟩⟩ :=
        rioReadlinebLoop_handsOver hwf hok (Nat.le_refl 1) hr
      · rw [Call.stored, if_neg (by omega), husr]
        exact hover
      · rw [Call.stored, if_pos hret, husr, List.dropLast_concat]
        exact hover

/-- **Conservation**: after any calls on one `rio_t`, the bytes their callers
have received, the unread bytes of the `rio_t` and the bytes `read` has not
returned yet are the stream; and the unread bytes are inside `rio_buf`. -/
theorem stream_conserved (rp : RioT) (fd : Int) (reads : List ReadRet) (calls : List Call)
    (s : Reader) (hbuf : rp.rioBuf.length = rioBufsize) (hreads : ShortReads reads)
    (hrun : Run Reader.call (fun _ c => c.Proper)
      { rp := rioReadinitb rp fd, reads := reads, received := [] } calls s) :
    s.received ++ s.rp.unread ++ dataOf s.reads = dataOf reads ∧
      0 ≤ s.rp.rioCnt ∧ s.rp.rioBufptr + s.rp.rioCnt ≤ rioBufsize ∧
      s.rp.rioBuf.length = rioBufsize := by
  have hwf : (rioReadinitb rp fd).Wf := ⟨Int.le_refl 0, by simp [rioReadinitb], hbuf⟩
  have hinv : HandsOver (rioReadinitb rp fd) reads s.received s.rp s.reads := by
    refine Run.inv (I := fun s => HandsOver (rioReadinitb rp fd) reads s.received s.rp s.reads)
      (.refl hwf hreads) (fun s c s' h _ hs => ?_) hrun
    obtain ⟨r, hr, rfl⟩ := Option.map_eq_some_iff.mp hs
    exact h.trans (Call.handsOver h.wf h.reads hr)
  refine ⟨?_, hinv.wf.cnt, hinv.wf.inside, hinv.wf.buf⟩
  rw [← hinv.stream]
  simp [rioReadinitb, RioT.unread]

/-- A `rio_t` that has not been used. -/
def blankRio : RioT :=
  { rioFd := 0, rioCnt := 0, rioBufptr := 0, rioBuf := List.replicate rioBufsize 0 }

/-- A line in three pieces, with an interrupt, and the end of file. -/
def lineReads : List ReadRet := [.ret [97, 98], .err .EINTR, .ret [newline, 99, 100], .ret []]

/-- One byte, and then a line that an interrupted `read` completes: the bytes
behind the newline stay in the buffer. -/
theorem stream_conserved_across_refill : ∃ s : Reader,
    Run Reader.call (fun _ c => c.Proper)
      { rp := rioReadinitb blankRio 3, reads := lineReads, received := [] }
      [.readnb 1, .readlineb maxline] s ∧
    s.received = [97, 98, newline] ∧ s.rp.unread = [99, 100] ∧
      s.received ++ s.rp.unread ++ dataOf s.reads = [97, 98, newline, 99, 100] ∧
      s.rp.rioBufptr + s.rp.rioCnt ≤ rioBufsize := by
  have hexec : (exec Reader.call (fun _ c => decide c.Proper)
      { rp := rioReadinitb blankRio 3, reads := lineReads, received := [] }
      [.readnb 1, .readlineb maxline]).map (fun s => (s.received, s.rp.unread)) =
        some ([97, 98, newline], [99, 100]) := by decide +kernel
  obtain ⟨s, hrun, hobs⟩ := exists_run_of_exec _ _ hexec
  obtain ⟨hreceived, hunread⟩ := Prod.mk.inj hobs
  have hreads : ShortReads lineReads := by
    constructor
    · simp [lineReads]
    · simp [lineReads, rioBufsize]
  replace hrun := hrun.mono fun _ _ => of_decide_eq_true
  obtain ⟨hstream, -, hinside, -⟩ :=
    stream_conserved blankRio 3 _ _ s (by simp [blankRio]) hreads hrun
  exact ⟨s, hrun, hreceived, hunread, hstream, hinside⟩

end SysDemos.Rio
