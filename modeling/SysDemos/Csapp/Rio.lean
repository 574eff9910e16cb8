import SysDemos.Sys

/-!
# SysDemos.Csapp.Rio

The robust I/O package of `csapp/system_io/rio.cc`.

The results of the successive `read` (or `write`) calls on a descriptor are
a list that the model consumes from the front; a function that calls `read`
when the list is empty is blocked and gives `none`.  Everything else is
computed as the source computes it: the internal buffer with its cursor
and count, the `-1` that an interrupted `read` leaves in `rio_cnt`, and the
count `n` that `rio_readlineb` returns.

* `rioRead_spec` — what `rio_read` does, in terms of the unread bytes;
* `rioReadlinebLoop_spec` — what the line loop consumes, stores and
  returns, for every sequence of results;
* `rioWritenLoop_end` — what the write loop writes and returns, for every
  sequence of results;
* `rioWriten_all_or_part` — a return value of `n` means that `buf[0 .. n)` is
  written, once and in order.
-/

namespace SysDemos.Rio

/-- `RIO_BUFSIZE`. -/
def rioBufsize : Nat := 8192

/-- `MAXLINE`. -/
def maxline : Nat := 8192

/-- `rio_t`; the pointer `rio_bufptr` is an offset into `rio_buf`. -/
structure RioT where
  rioFd : Int
  rioCnt : Int
  rioBufptr : Nat
  rioBuf : List UInt8
  deriving DecidableEq, Repr

/-- `rio_readinitb`. -/
def rioReadinitb (rp : RioT) (fd : Int) : RioT :=
  { rp with rioFd := fd, rioCnt := 0, rioBufptr := 0 }

/-- Result of a read function: its return value, the bytes it has stored in
the caller's buffer, the `rio_t` after it and the results of `read` still
to come. -/
structure Res where
  ret : Int
  usrbuf : List UInt8
  rp : RioT
  rest : List ReadRet
  deriving DecidableEq, Repr

/-- The copy at the end of `rio_read`. -/
def rioCopy (rp : RioT) (n : Nat) (reads : List ReadRet) : Res :=
  let cnt := if rp.rioCnt < n then rp.rioCnt else n
  { ret := cnt
    usrbuf := (rp.rioBuf.drop rp.rioBufptr).take cnt.toNat
    rp := { rp with rioBufptr := rp.rioBufptr + cnt.toNat, rioCnt := rp.rioCnt - cnt }
    rest := reads }

/-- A `read` that has put `bs` into the internal buffer. -/
def rioRefill (rp : RioT) (bs : List UInt8) : RioT :=
  { rp with rioCnt := bs.length, rioBuf := bs ++ rp.rioBuf.drop bs.length, rioBufptr := 0 }

/-- `rio_read`: refill the internal buffer while it is empty, then copy. -/
def rioRead (rp : RioT) (n : Nat) : List ReadRet → Option Res
  | [] => if rp.rioCnt ≤ 0 then none else some (rioCopy rp n [])
  | r :: reads =>
    if rp.rioCnt ≤ 0 then
      match r with
      | .err e =>
        if e = .EINTR then rioRead { rp with rioCnt := -1 } n reads
        else some { ret := -1, usrbuf := [], rp := { rp with rioCnt := -1 }, rest := reads }
      | .ret [] => some { ret := 0, usrbuf := [], rp := { rp with rioCnt := 0 }, rest := reads }
      | .ret bs => rioRead (rioRefill rp bs) n reads
    else some (rioCopy rp n (r :: reads))

/-- The loop of `rio_readlineb`.  The first argument is `maxlen - n`, the
number of iterations left; `usr` is what has been stored so far. -/
def rioReadlinebLoop : Nat → Nat → RioT → List UInt8 → List ReadRet → Option Res
  | 0, n, rp, usr, reads => some { ret := n, usrbuf := usr ++ [0], rp := rp, rest := reads }
  | k + 1, n, rp, usr, reads =>
    match rioRead rp 1 reads with
    | none => none
    | some r =>
      if r.ret = 1 then
        -- the byte is stored; a newline ends the loop before `n++`
        if r.usrbuf = [newline] then
          some { ret := n, usrbuf := usr ++ r.usrbuf ++ [0], rp := r.rp, rest := r.rest }
        else rioReadlinebLoop k (n + 1) r.rp (usr ++ r.usrbuf) r.rest
      else if r.ret = 0 then
        if n = 1 then some { ret := 0, usrbuf := usr, rp := r.rp, rest := r.rest }
        else some { ret := n, usrbuf := usr ++ [0], rp := r.rp, rest := r.rest }
      else some { ret := -1, usrbuf := usr, rp := r.rp, rest := r.rest }

/-- `rio_readlineb`. -/
def rioReadlineb (rp : RioT) (maxlen : Nat) (reads : List ReadRet) : Option Res :=
  rioReadlinebLoop (maxlen - 1) 1 rp [] reads

/-- The loop of `rio_readnb` with `nleft` of the `n` bytes still wanted.  The
test of `errno` after a failure is left out: `rio_read` retries after an
interrupt itself and fails with other errors only. -/
def rioReadnbLoop (n nleft : Nat) (rp : RioT) (usr : List UInt8) (reads : List ReadRet) :
    Option Res :=
  if 0 < nleft then
    match rioRead rp nleft reads with
    | none => none
    | some r =>
      if r.ret < 0 then some { ret := -1, usrbuf := usr, rp := r.rp, rest := r.rest }
      else if 0 < r.ret then
        rioReadnbLoop n (nleft - r.ret.toNat) r.rp (usr ++ r.usrbuf) r.rest
      else some { ret := (n - nleft : Nat), usrbuf := usr, rp := r.rp, rest := r.rest }
  else some { ret := (n - nleft : Nat), usrbuf := usr, rp := rp, rest := reads }
termination_by nleft

/-- `rio_readnb`. -/
def rioReadnb (rp : RioT) (n : Nat) (reads : List ReadRet) : Option Res :=
  rioReadnbLoop n n rp [] reads

/-- Result of `rio_readn`, which has no `rio_t`. -/
structure ReadnRes where
  ret : Int
  usrbuf : List UInt8
  rest : List ReadRet
  deriving DecidableEq, Repr

/-- The loop of `rio_readn` with `nleft` of the `n` bytes still wanted.  A `read` of `nleft` bytes
returns no more than that: of a longer result it returns the first bytes, which ends the loop, and
leaves the others for the next `read`. -/
def rioReadnLoop (n : Nat) : Nat → List UInt8 → List ReadRet → Option ReadnRes
  | 0, usr, reads => some { ret := n, usrbuf := usr, rest := reads }
  | _ + 1, _, [] => none
  | nleft + 1, usr, r :: reads =>
    match r with
    | .err e =>
      if e = .EINTR then rioReadnLoop n (nleft + 1) usr reads
      else some { ret := -1, usrbuf := usr, rest := reads }
    | .ret [] => some { ret := (n - (nleft + 1) : Nat), usrbuf := usr, rest := reads }
    | .ret bs =>
      if bs.length ≤ nleft + 1 then rioReadnLoop n (nleft + 1 - bs.length) (usr ++ bs) reads
      else some { ret := n, usrbuf := usr ++ bs.take (nleft + 1)
                  rest := .ret (bs.drop (nleft + 1)) :: reads }

/-- `rio_readn`. -/
def rioReadn (n : Nat) (reads : List ReadRet) : Option ReadnRes := rioReadnLoop n n [] reads

/-- The loop of `rio_writen`: `off` bytes are written, `nleft` are left.
The result is the return value (`n` or `-1`), the bytes written and the
results of `write` still to come. -/
def rioWritenLoop (buf : List UInt8) (n : Nat) : Nat → Nat → List WriteRet →
    Option (Int × List UInt8 × List WriteRet)
  | 0, _, writes => some (n, [], writes)
  | _ + 1, _, [] => none
  | nleft + 1, off, w :: writes =>
    match w with
    | .fail e =>
      if e = .EINTR then rioWritenLoop buf n (nleft + 1) off writes else some (-1, [], writes)
    | .ret k =>
      -- `write` accepts between one byte and what it is offered
      if 0 < k ∧ k ≤ nleft + 1 then
        match rioWritenLoop buf n (nleft + 1 - k) (off + k) writes with
        | none => none
        | some (r, out, rest) => some (r, (buf.drop off).take k ++ out, rest)
      else none

/-- `rio_writen`. -/
def rioWriten (buf : List UInt8) (n : Nat) (writes : List WriteRet) :
    Option (Int × List UInt8 × List WriteRet) :=
  rioWritenLoop buf n n 0 writes

/-! ## unread bytes -/

/-- The bytes at `rio_bufptr` that have not been handed out. -/
def RioT.unread (rp : RioT) : List UInt8 := (rp.rioBuf.drop rp.rioBufptr).take rp.rioCnt.toNat

/-- The unread bytes are inside the internal buffer. -/
def RioT.Valid (rp : RioT) : Prop := rp.rioBufptr + rp.rioCnt.toNat ≤ rp.rioBuf.length

/-- The pieces of the stream that `read` calls with these results return. -/
def chunksOf (reads : List ReadRet) : List (List UInt8) :=
  reads.filterMap fun
    | .ret [] => none
    | .ret bs => some bs
    | .err _ => none

/-- The bytes these `read` calls return. -/
def dataOf (reads : List ReadRet) : List UInt8 := (chunksOf reads).flatten

@[simp] theorem chunksOf_nil : chunksOf [] = [] := rfl

@[simp] theorem chunksOf_append (xs ys : List ReadRet) :
    chunksOf (xs ++ ys) = chunksOf xs ++ chunksOf ys := List.filterMap_append

@[simp] theorem chunksOf_cons_err (e : Errno) (ys : List ReadRet) :
    chunksOf (.err e :: ys) = chunksOf ys := rfl

@[simp] theorem chunksOf_cons_eof (ys : List ReadRet) :
    chunksOf (.ret [] :: ys) = chunksOf ys := rfl

@[simp] theorem chunksOf_cons_ret (b : UInt8) (bs : List UInt8) (ys : List ReadRet) :
    chunksOf (.ret (b :: bs) :: ys) = (b :: bs) :: chunksOf ys := rfl

@[simp] theorem dataOf_append (xs ys : List ReadRet) :
    dataOf (xs ++ ys) = dataOf xs ++ dataOf ys := by
  simp [dataOf]

/-- What a `rio_read` of `n` bytes that succeeds hands out. -/
structure Copied (n : Nat) (r : Res) : Prop where
  ret : r.ret = r.usrbuf.length
  pos : 0 < r.usrbuf.length
  le : r.usrbuf.length ≤ n

/-- A `rio_read` of one byte hands out one byte. -/
theorem Copied.one {r : Res} (h : Copied 1 r) : ∃ b, r.usrbuf = [b] :=
  List.length_eq_one_iff.mp (Nat.le_antisymm h.le h.pos)

/-- Results of `read` calls that have been interrupted. -/
def Interrupts (es : List ReadRet) : Prop := ∀ x ∈ es, x = .err .EINTR

theorem Interrupts.chunksOf {es : List ReadRet} (h : Interrupts es) : chunksOf es = [] := by
  refine List.filterMap_eq_nil_iff.mpr fun x hx => ?_
  rw [h x hx]

/-- What a `rio_read` of `n` bytes can do: hand out unread bytes; or, with
nothing unread, refill from the next piece of the stream, meet the end of
file, or fail.  `cs` are the results of `read` it uses up. -/
inductive ReadSome (rp : RioT) (n : Nat) (r : Res) (cs : List ReadRet) : Prop where
  | buffered (hb : rp.unread = r.usrbuf ++ r.rp.unread) (hcs : cs = []) (hcopy : Copied n r)
  | chunk (es : List ReadRet) (hes : Interrupts es) (hrp : rp.unread = [])
      (hcs : cs = es ++ [.ret (r.usrbuf ++ r.rp.unread)]) (hcopy : Copied n r)
  | eof (es : List ReadRet) (hes : Interrupts es) (hrp : rp.unread = [])
      (hcs : cs = es ++ [.ret []]) (hret : r.ret = 0) (husr : r.usrbuf = [])
      (hun : r.rp.unread = [])
  | err (e : Errno) (es : List ReadRet) (he : e ≠ .EINTR) (hes : Interrupts es)
      (hrp : rp.unread = []) (hcs : cs = es ++ [.err e]) (hret : r.ret = -1)
      (husr : r.usrbuf = []) (hun : r.rp.unread = [])

/-- The piece a refill takes from the stream. -/
theorem chunksOf_refill {es : List ReadRet} {bs : List UInt8} (hes : Interrupts es)
    (hbs : bs ≠ []) : chunksOf (es ++ [.ret bs]) = [bs] := by
  cases bs with
  | nil => contradiction
  | cons b bs => rw [chunksOf_append, hes.chunksOf]; rfl

/-- Copying from a nonempty internal buffer. -/
theorem rioCopy_spec {rp : RioT} {n : Nat} (h : rp.Valid) (hpos : 0 < rp.rioCnt) (hn : 0 < n)
    (reads : List ReadRet) :
    rp.unread = (rioCopy rp n reads).usrbuf ++ (rioCopy rp n reads).rp.unread ∧
      Copied n (rioCopy rp n reads) ∧ (rioCopy rp n reads).rp.Valid := by
  unfold RioT.Valid at h
  obtain ⟨m, hcnt, hm, hmn, hmcnt⟩ : ∃ m : Nat,
      (if rp.rioCnt < n then rp.rioCnt else (n : Int)) = m ∧ 0 < m ∧ m ≤ n ∧ m ≤ rp.rioCnt := by
    split
    · exact ⟨rp.rioCnt.toNat, by omega, by omega, by omega, by omega⟩
    · exact ⟨n, rfl, hn, Nat.le_refl _, by omega⟩
  have hlen : ((rp.rioBuf.drop rp.rioBufptr).take m).length = m := by
    rw [List.length_take, List.length_drop]
    omega
  refine ⟨?_, ⟨?_, ?_, ?_⟩, ?_⟩
  · have hsum : rp.rioCnt.toNat = m + (rp.rioCnt - m).toNat := by omega
    simp only [RioT.unread, rioCopy, hcnt, Int.toNat_natCast]
    rw [hsum, List.take_add, List.drop_drop]
  · simp only [rioCopy, hcnt, Int.toNat_natCast, hlen]
  · simp only [rioCopy, hcnt, Int.toNat_natCast, hlen, hm]
  · simp only [rioCopy, hcnt, Int.toNat_natCast, hlen, hmn]
  · simp only [rioCopy, hcnt, Int.toNat_natCast, RioT.Valid]
    omega

/-- With bytes in the internal buffer `rio_read` only copies. -/
theorem rioRead_of_pos {rp : RioT} {n : Nat} {reads : List ReadRet} (h : 0 < rp.rioCnt) :
    rioRead rp n reads = some (rioCopy rp n reads) := by
  cases reads with
  | nil => rw [rioRead, if_neg (by omega)]
  | cons r reads => simp only [rioRead, if_neg (by omega : ¬ rp.rioCnt ≤ 0)]

/-- `rio_read` returns if `read` meets the end of file. -/
theorem rioRead_returns {rp : RioT} {n : Nat} {reads : List ReadRet} (h : .ret [] ∈ reads) :
    ∃ r, rioRead rp n reads = some r := by
  induction reads generalizing rp with
  | nil => contradiction
  | cons x reads ih =>
      simp only [rioRead]
      split
      · split
        · split
          · exact ih ((List.mem_cons.mp h).resolve_left nofun)
          · exact ⟨_, rfl⟩
        · exact ⟨_, rfl⟩
        · next bs hbs =>
            have hpos : 0 < (rioRefill rp bs).rioCnt := by
              cases bs with
              | nil => exact absurd rfl hbs
              | cons b bs => simp only [rioRefill, List.length_cons]; omega
            exact ⟨_, rioRead_of_pos hpos⟩
      · exact ⟨_, rfl⟩

theorem valid_rioRefill (rp : RioT) (bs : List UInt8) : (rioRefill rp bs).Valid := by
  simp [RioT.Valid, rioRefill]

/-- After a refill the piece just read is what is unread. -/
theorem unread_rioRefill (rp : RioT) (bs : List UInt8) : (rioRefill rp bs).unread = bs := by
  simp [RioT.unread, rioRefill]

/-- `rio_read` does one of the four things of `ReadSome`. -/
theorem rioRead_spec {rp : RioT} {n : Nat} {reads : List ReadRet} {r : Res} (h : rp.Valid)
    (hn : 0 < n) (hr : rioRead rp n reads = some r) :
    ∃ cs, reads = cs ++ r.rest ∧ r.rp.Valid ∧ ReadSome rp n r cs := by
  induction reads generalizing rp with
  | nil =>
      simp only [rioRead] at hr
      split at hr
      · contradiction
      · rw [Option.some.injEq] at hr
        subst hr
        obtain ⟨hb, hcopy, hv⟩ := rioCopy_spec h (by omega) hn []
        exact ⟨[], rfl, hv, .buffered hb rfl hcopy⟩
  | cons x reads ih =>
      simp only [rioRead] at hr
      split at hr
      · next hcnt =>
          have hun : rp.unread = [] := by
            rw [RioT.unread, Int.toNat_of_nonpos hcnt, List.take_zero]
          have hv : rp.rioBufptr ≤ rp.rioBuf.length := by unfold RioT.Valid at h; omega
          split at hr
          · next e =>
              split at hr
              · next he =>
                  -- an interrupted `read` leaves `-1` behind and is repeated
                  obtain ⟨cs, hcs, hv', hsome⟩ := ih (by simpa [RioT.Valid] using hv) hr
                  refine ⟨.err e :: cs, by rw [hcs]; rfl, hv', ?_⟩
                  have hun' : ({ rp with rioCnt := -1 } : RioT).unread = [] := by
                    simp [RioT.unread]
                  have hcons : ∀ es, Interrupts es → Interrupts (.err e :: es) := by
                    intro es hes x hx
                    rcases List.mem_cons.mp hx with rfl | hx
                    · rw [he]
                    · exact hes x hx
                  cases hsome with
                  | buffered hb _ hcopy =>
                      have hpos := hcopy.pos
                      rw [hun'] at hb
                      rw [(List.append_eq_nil_iff.mp hb.symm).1] at hpos
                      contradiction
                  | chunk es hes _ hcs hcopy =>
                      exact .chunk (.err e :: es) (hcons es hes) hun (by rw [hcs]; rfl) hcopy
                  | eof es hes _ hcs hret husr hu =>
                      exact .eof (.err e :: es) (hcons es hes) hun (by rw [hcs]; rfl) hret husr hu
                  | err e' es he' hes _ hcs hret husr hu =>
                      exact .err e' (.err e :: es) he' (hcons es hes) hun (by rw [hcs]; rfl) hret
                        husr hu
              · next he =>
                  rw [Option.some.injEq] at hr
                  subst hr
                  exact ⟨[.err e], rfl, by simpa [RioT.Valid] using hv,
                    .err e [] he (by simp [Interrupts]) hun rfl rfl rfl (by simp [RioT.unread])⟩
          · rw [Option.some.injEq] at hr
            subst hr
            exact ⟨[.ret []], rfl, by simpa [RioT.Valid] using hv,
              .eof [] (by simp [Interrupts]) hun rfl rfl rfl (by simp [RioT.unread])⟩
          · next bs hbs =>
              cases bs with
              | nil => exact absurd rfl hbs
              | cons b u =>
                  -- the buffer is not empty now, so the loop ends and bytes are copied
                  have hpos : 0 < (rioRefill rp (b :: u)).rioCnt := by
                    simp only [rioRefill, List.length_cons]; omega
                  rw [rioRead_of_pos hpos, Option.some.injEq] at hr
                  subst hr
                  obtain ⟨hb, hcopy, hv'⟩ :=
                    rioCopy_spec (valid_rioRefill rp (b :: u)) hpos hn reads
                  rw [unread_rioRefill] at hb
                  exact ⟨[.ret (b :: u)], rfl, hv',
                    .chunk [] (by simp [Interrupts]) hun (by rw [← hb]; rfl) hcopy⟩
      · rw [Option.some.injEq] at hr
        subst hr
        obtain ⟨hb, hcopy, hv⟩ := rioCopy_spec h (by omega) hn (x :: reads)
        exact ⟨[], rfl, hv, .buffered hb rfl hcopy⟩

/-! ## the line loop -/

/-- How the line loop can end, with `k` iterations left at `n` and `usr`
already stored: `line` is what it adds, `cs` the results of `read` used. -/
inductive LineEnd (k n : Nat) (usr line : List UInt8) (cs : List ReadRet) (r : Res) : Prop where
  | newline (body : List UInt8) (hline : line = body ++ [SysDemos.newline])
      (hbody : SysDemos.newline ∉ body) (hk : line.length ≤ k) (hret : r.ret = n + body.length)
      (husr : r.usrbuf = usr ++ line ++ [0])
  | full (hline : SysDemos.newline ∉ line) (hk : line.length = k) (hret : r.ret = n + k)
      (husr : r.usrbuf = usr ++ line ++ [0])
  | eof (hline : SysDemos.newline ∉ line) (hk : line.length < k) (hun : r.rp.unread = [])
      (hend : cs.getLast? = some (.ret []))
      (hret : r.ret = if n + line.length = 1 then 0 else (n : Int) + line.length)
      (husr : r.usrbuf = if n + line.length = 1 then usr else usr ++ line ++ [0])
  | err (e : Errno) (he : e ≠ .EINTR) (hline : SysDemos.newline ∉ line) (hk : line.length < k)
      (hun : r.rp.unread = []) (hend : cs.getLast? = some (.err e)) (hret : r.ret = -1)
      (husr : r.usrbuf = usr ++ line)

/-- Where the bytes of `line` come from: all of them were unread, or whole
pieces of the stream follow what was unread and the last piece is cut after
a nonempty part `x`, the remainder being unread now. -/
def Cut (rp rp' : RioT) (line : List UInt8) (cs : List ReadRet) : Prop :=
  (chunksOf cs = [] ∧ rp.unread = line ++ rp'.unread) ∨
    ∃ es x, chunksOf cs = es ++ [x ++ rp'.unread] ∧ x ≠ [] ∧
      line = rp.unread ++ es.flatten ++ x

/-- Nothing is lost or duplicated: what was unread and what was read is
the line and what is unread now. -/
theorem Cut.conserves {rp rp' : RioT} {line : List UInt8} {cs : List ReadRet}
    (h : Cut rp rp' line cs) : rp.unread ++ dataOf cs = line ++ rp'.unread := by
  rcases h with ⟨hcs, hun⟩ | ⟨es, x, hcs, -, hline⟩
  · simp [dataOf, hcs, hun]
  · simp [dataOf, hcs, hline]

/-- A byte handed out in front of a line: the cut of the longer line. -/
theorem Cut.cons {rp rp₁ rp' : RioT} {b : UInt8} {line : List UInt8} {cs₁ cs : List ReadRet}
    (h₁ : (rp.unread = b :: rp₁.unread ∧ cs₁ = []) ∨
      (rp.unread = [] ∧ chunksOf cs₁ = [b :: rp₁.unread]))
    (h : Cut rp₁ rp' line cs) : Cut rp rp' (b :: line) (cs₁ ++ cs) := by
  rcases h₁ with ⟨hun₁, rfl⟩ | ⟨hun₁, hcs₁⟩ <;> rcases h with ⟨hcs, hun⟩ | ⟨es, x, hcs, hx, hline⟩
  · left
    exact ⟨hcs, by rw [hun₁, hun]; rfl⟩
  · right
    exact ⟨es, x, hcs, hx, by rw [hun₁, hline]; rfl⟩
  · right
    exact ⟨[], b :: line, by simp [hcs₁, hcs, hun], by simp, by simp [hun₁]⟩
  · right
    exact ⟨(b :: rp₁.unread) :: es, x, by simp [hcs₁, hcs], hx, by simp [hun₁, hline]⟩

/-- One more byte in front of a loop that ended. -/
theorem LineEnd.cons {k n : Nat} {usr line : List UInt8} {cs₁ cs : List ReadRet} {r : Res}
    {b : UInt8} (hb : b ≠ SysDemos.newline) (hn : 1 ≤ n)
    (h : LineEnd k (n + 1) (usr ++ [b]) line cs r) :
    LineEnd (k + 1) n usr (b :: line) (cs₁ ++ cs) r := by
  have hmem : ∀ l, SysDemos.newline ∉ l → SysDemos.newline ∉ b :: l := fun l hl hin => by
    rcases List.mem_cons.mp hin with heq | hin
    · exact hb heq.symm
    · exact hl hin
  cases h with
  | newline body hline hbody hk hret husr =>
      refine .newline (b :: body) (by rw [hline]; rfl) (hmem body hbody) ?_ ?_ ?_
      · rw [List.length_cons]; omega
      · rw [hret, List.length_cons]; push_cast; omega
      · rw [husr]; simp
  | full hline hk hret husr =>
      exact .full (hmem line hline) (by rw [List.length_cons, hk]) (by rw [hret]; push_cast; omega)
        (by rw [husr]; simp)
  | eof hline hk hun hend hret husr =>
      have hlast : (cs₁ ++ cs).getLast? = some (.ret []) := by
        rw [List.getLast?_append, hend]; rfl
      rw [if_neg (by omega)] at hret husr
      refine .eof (hmem line hline) (by rw [List.length_cons]; omega) hun hlast ?_ ?_
      · rw [if_neg (by rw [List.length_cons]; omega), hret, List.length_cons]
        push_cast
        omega
      · rw [if_neg (by rw [List.length_cons]; omega), husr]; simp
  | err e he hline hk hun hend hret husr =>
      have hlast : (cs₁ ++ cs).getLast? = some (.err e) := by
        rw [List.getLast?_append, hend]; rfl
      exact .err e he (hmem line hline) (by rw [List.length_cons]; omega) hun hlast hret
        (by rw [husr]; simp)

/-- What a `rio_read` of one byte can do. -/
inductive ReadOne (rp : RioT) (r : Res) (cs : List ReadRet) : Prop where
  | byte (b : UInt8) (hret : r.ret = 1) (husr : r.usrbuf = [b])
      (hfrom : (rp.unread = b :: r.rp.unread ∧ cs = []) ∨
        (rp.unread = [] ∧ chunksOf cs = [b :: r.rp.unread]))
  | eof (hret : r.ret = 0) (hrp : rp.unread = []) (hcs : chunksOf cs = [])
      (hend : cs.getLast? = some (.ret [])) (hun : r.rp.unread = [])
  | err (e : Errno) (he : e ≠ .EINTR) (hret : r.ret = -1) (hrp : rp.unread = [])
      (hcs : chunksOf cs = []) (hend : cs.getLast? = some (.err e)) (hun : r.rp.unread = [])

theorem ReadSome.one {rp : RioT} {r : Res} {cs : List ReadRet} (h : ReadSome rp 1 r cs) :
    ReadOne rp r cs := by
  cases h with
  | buffered hb hcs hcopy =>
      obtain ⟨b, husr⟩ := hcopy.one
      rw [husr] at hb
      exact .byte b (by rw [hcopy.ret, husr]; rfl) husr (.inl ⟨hb, hcs⟩)
  | chunk es hes hrp hcs hcopy =>
      obtain ⟨b, husr⟩ := hcopy.one
      rw [husr] at hcs
      have hchunks := hcs ▸ chunksOf_refill hes (by simp)
      exact .byte b (by rw [hcopy.ret, husr]; rfl) husr (.inr ⟨hrp, hchunks⟩)
  | eof es hes hrp hcs hret _ hun =>
      refine .eof hret hrp ?_ (by rw [hcs, List.getLast?_concat]) hun
      rw [hcs, chunksOf_append, hes.chunksOf]
      rfl
  | err e es he hes hrp hcs hret _ hun =>
      refine .err e he hret hrp ?_ (by rw [hcs, List.getLast?_concat]) hun
      rw [hcs, chunksOf_append, hes.chunksOf]
      rfl

/-- What an iteration of the line loop makes of the result `r₁` of `rio_read`. -/
inductive LineStep (k n : Nat) (usr : List UInt8) (r₁ : Res) : Res → Prop where
  | newline (hret : r₁.ret = 1) (hnl : r₁.usrbuf = [SysDemos.newline]) :
      LineStep k n usr r₁
        { ret := n, usrbuf := usr ++ r₁.usrbuf ++ [0], rp := r₁.rp, rest := r₁.rest }
  | more (r : Res) (hret : r₁.ret = 1) (hnl : r₁.usrbuf ≠ [SysDemos.newline])
      (hr : rioReadlinebLoop k (n + 1) r₁.rp (usr ++ r₁.usrbuf) r₁.rest = some r) :
      LineStep k n usr r₁ r
  | eof (hret : r₁.ret = 0) :
      LineStep k n usr r₁
        { ret := if n = 1 then 0 else n, usrbuf := if n = 1 then usr else usr ++ [0],
          rp := r₁.rp, rest := r₁.rest }
  | err (hret : r₁.ret ≠ 1 ∧ r₁.ret ≠ 0) :
      LineStep k n usr r₁ { ret := -1, usrbuf := usr, rp := r₁.rp, rest := r₁.rest }

theorem rioReadlinebLoop_cases {k n : Nat} {rp : RioT} {usr : List UInt8} {reads : List ReadRet}
    {r : Res} (hr : rioReadlinebLoop (k + 1) n rp usr reads = some r) :
    ∃ r₁, rioRead rp 1 reads = some r₁ ∧ LineStep k n usr r₁ r := by
  simp only [rioReadlinebLoop] at hr
  cases hone : rioRead rp 1 reads with
  | none => rw [hone] at hr; contradiction
  | some r₁ =>
      rw [hone] at hr
      simp only at hr
      refine ⟨r₁, rfl, ?_⟩
      split at hr
      · next hret =>
          split at hr
          · next hnl =>
              cases hr
              exact .newline hret hnl
          · next hnl => exact .more r hret hnl hr
      · next hone =>
          split at hr
          · next hret =>
              have hstep : LineStep k n usr r₁ _ := .eof hret
              split at hr
              · next hn =>
                  cases hr
                  simpa [hn] using hstep
              · next hn =>
                  cases hr
                  simpa [hn] using hstep
          · next hzero =>
              cases hr
              exact .err ⟨hone, hzero⟩

/-- **The line loop**: for every sequence of results of `read`, a loop that
returns has taken `line` from the front of the stream, leaves the rest
unread, and ends in one of the four ways of `LineEnd`. -/
theorem rioReadlinebLoop_spec {k n : Nat} {rp : RioT} {usr : List UInt8} {reads : List ReadRet}
    {r : Res} (hv : rp.Valid) (hn : 1 ≤ n) (hr : rioReadlinebLoop k n rp usr reads = some r) :
    ∃ line cs, reads = cs ++ r.rest ∧ r.rp.Valid ∧ Cut rp r.rp line cs ∧
      LineEnd k n usr line cs r := by
  induction k generalizing n rp usr reads with
  | zero =>
      simp only [rioReadlinebLoop, Option.some.injEq] at hr
      subst hr
      exact ⟨[], [], rfl, hv, .inl ⟨rfl, rfl⟩, .full (by simp) rfl (by simp) (by simp)⟩
  | succ k ih =>
      obtain ⟨r₁, hone, hstep⟩ := rioReadlinebLoop_cases hr
      obtain ⟨cs₁, hcs₁, hv₁, hsome⟩ := rioRead_spec hv (by decide) hone
      cases hsome.one with
      | byte b hret husr hfrom =>
          cases hstep with
          | newline _ hnl =>
              have hb : b = SysDemos.newline := (List.cons.inj (husr.symm.trans hnl)).1
              have hcut : Cut r₁.rp r₁.rp [] [] := .inl ⟨rfl, rfl⟩
              refine ⟨[b], cs₁, hcs₁, hv₁, by simpa using hcut.cons hfrom, ?_⟩
              exact .newline [] (by rw [hb]; rfl) (by simp) (by simp) (by simp) (by simp [husr])
          | more r _ hnl hr =>
              have hb : b ≠ SysDemos.newline := fun heq => hnl (by rw [husr, heq])
              rw [husr] at hr
              obtain ⟨line, cs, hcs, hv', hcut, hend⟩ := ih hv₁ (by omega) hr
              exact ⟨b :: line, cs₁ ++ cs, by rw [hcs₁, hcs, List.append_assoc], hv',
                hcut.cons hfrom, hend.cons hb hn⟩
          | eof hzero => omega
          | err hneg => exact absurd hret hneg.1
      | eof hret hrp hcs hend hun =>
          cases hstep with
          | newline hone => omega
          | more r hone => omega
          | eof =>
              exact ⟨[], cs₁, hcs₁, hv₁, .inl ⟨hcs, by simp only [hrp, hun]; rfl⟩,
                .eof (by simp) (by simp) hun hend (by simp) (by simp)⟩
          | err hneg => exact absurd hret hneg.2
      | err e he hret hrp hcs hend hun =>
          cases hstep with
          | newline hone => omega
          | more r hone => omega
          | eof hzero => omega
          | err =>
              exact ⟨[], cs₁, hcs₁, hv₁, .inl ⟨hcs, by simp only [hrp, hun]; rfl⟩,
                .err e he (by simp) (by simp) hun hend rfl (by simp)⟩

/-! ## the write loop -/

/-- How the write loop can end, with `nleft` bytes left at `off`: it has written
all of them and returns `n`, or a `write` has failed before that, not by an
interrupt, and it returns `-1`. -/
inductive WriteEnd (buf : List UInt8) (n nleft off : Nat) (writes : List WriteRet) :
    Int → List UInt8 → Prop where
  | all : WriteEnd buf n nleft off writes n ((buf.drop off).take nleft)
  | failed (k : Nat) (e : Errno) (hk : k < nleft) (he : e ≠ .EINTR) (hmem : .fail e ∈ writes) :
      WriteEnd buf n nleft off writes (-1) ((buf.drop off).take k)

/-- A `write` that takes `k` bytes, in front of a loop that ended.  A retry is the
case of no bytes. -/
theorem WriteEnd.cons {buf : List UInt8} {n nleft off k : Nat} {writes : List WriteRet} {ret : Int}
    {out : List UInt8} (w : WriteRet) (hk : k ≤ nleft)
    (h : WriteEnd buf n (nleft - k) (off + k) writes ret out) :
    WriteEnd buf n nleft off (w :: writes) ret ((buf.drop off).take k ++ out) := by
  have htake : ∀ m, (buf.drop off).take k ++ (buf.drop (off + k)).take m =
      (buf.drop off).take (k + m) := fun m => by
    rw [List.take_add, List.drop_drop]
  cases h with
  | all =>
      rw [htake, Nat.add_sub_cancel' hk]
      exact .all
  | failed j e hj he hmem =>
      rw [htake]
      exact .failed (k + j) e (by omega) he (List.mem_cons_of_mem _ hmem)

/-- **The write loop**: for every sequence of results of `write`, a loop that returns
ends in one of the two ways of `WriteEnd`. -/
theorem rioWritenLoop_end {buf : List UInt8} {n nleft off : Nat} {writes : List WriteRet}
    {ret : Int} {out : List UInt8} {rest : List WriteRet}
    (hw : rioWritenLoop buf n nleft off writes = some (ret, out, rest)) :
    rest <:+ writes ∧ WriteEnd buf n nleft off writes ret out := by
  fun_induction rioWritenLoop buf n nleft off writes generalizing ret out with
  | case1 off writes =>
      -- nothing is left
      simp only [Option.some.injEq, Prod.mk.injEq] at hw
      obtain ⟨rfl, rfl, rfl⟩ := hw
      have hend : WriteEnd buf n 0 off writes n ((buf.drop off).take 0) := .all
      exact ⟨List.suffix_refl _, by simpa using hend⟩
  | case3 nleft off writes ih =>
      -- interrupted
      obtain ⟨hrest, hend⟩ := ih hw
      exact ⟨hrest.trans (List.suffix_cons _ _),
        by simpa using hend.cons (k := 0) _ (Nat.zero_le _)⟩
  | case4 nleft off writes e he =>
      simp only [Option.some.injEq, Prod.mk.injEq] at hw
      obtain ⟨rfl, rfl, rfl⟩ := hw
      exact ⟨List.suffix_cons _ _, by
        simpa using WriteEnd.failed 0 e (Nat.succ_pos nleft) he List.mem_cons_self⟩
  | case6 nleft off writes k hk ret' out' rest' hrec ih =>
      -- `k` bytes were taken
      simp only [Option.some.injEq, Prod.mk.injEq] at hw
      obtain ⟨rfl, rfl, rfl⟩ := hw
      obtain ⟨hrest, hend⟩ := ih hrec
      exact ⟨hrest.trans (List.suffix_cons _ _), hend.cons _ hk.2⟩
  | case2 | case5 | case7 => contradiction

/-- Without errors other than interrupts the loop writes what is left of
the buffer, once and in order. -/
theorem rioWritenLoop_spec {buf : List UInt8} {n nleft off : Nat} {writes : List WriteRet}
    {ret : Int} {out : List UInt8} {rest : List WriteRet}
    (hok : ∀ e, .fail e ∈ writes → e = .EINTR)
    (hw : rioWritenLoop buf n nleft off writes = some (ret, out, rest)) :
    ret = n ∧ out = (buf.drop off).take nleft ∧ rest <:+ writes := by
  obtain ⟨hrest, hend⟩ := rioWritenLoop_end hw
  cases hend with
  | all => exact ⟨rfl, rfl, hrest⟩
  | failed k e hk he hmem => exact absurd (hok e hmem) he

/-- **Full write**: `rio_writen` without errors writes `buf[0 .. n)`. -/
theorem rioWriten_spec {buf : List UInt8} {n : Nat} {writes : List WriteRet} {ret : Int}
    {out : List UInt8} {rest : List WriteRet} (hok : ∀ e, .fail e ∈ writes → e = .EINTR)
    (hw : rioWriten buf n writes = some (ret, out, rest)) :
    ret = n ∧ out = buf.take n ∧ rest <:+ writes := by
  simpa using rioWritenLoop_spec hok hw

/-- **All or a proper part**: whatever the `write` calls do, a `rio_writen` that returns
has written the bytes of `buf` from the first on, each once.  It returns `n` exactly if
these are `buf[0 .. n)`, and `-1` after fewer bytes. -/
theorem rioWriten_all_or_part {buf : List UInt8} {n : Nat} {writes : List WriteRet} {ret : Int}
    {out : List UInt8} {rest : List WriteRet} (hn : n ≤ buf.length)
    (hw : rioWriten buf n writes = some (ret, out, rest)) :
    (ret = n ↔ out = buf.take n) ∧ (ret ≠ n → ret = -1 ∧ ∃ k < n, out = buf.take k) := by
  obtain ⟨-, hend⟩ := rioWritenLoop_end hw
  cases hend with
  | all => exact ⟨by simp, fun h => absurd rfl h⟩
  | failed k e hk he hmem =>
      rw [List.drop_zero]
      refine ⟨⟨fun h => by omega, fun h => ?_⟩, fun _ => ⟨rfl, k, hk, rfl⟩⟩
      have hlen := congrArg List.length h
      rw [List.length_take, List.length_take] at hlen
      omega

/-- Two bytes of three are written, across a short count and an interrupt, before a
`write` fails. -/
theorem rioWriten_all_or_part_failing :
    rioWriten [97, 98, 99] 3 [.ret 1, .fail .EINTR, .ret 1, .fail .other] =
        some (-1, [97, 98], []) ∧
      ∃ k < 3, ([97, 98] : List UInt8) = [97, 98, 99].take k := by
  have hw : rioWriten [97, 98, 99] 3 [.ret 1, .fail .EINTR, .ret 1, .fail .other] =
      some (-1, [97, 98], []) := by decide
  exact ⟨hw, ((rioWriten_all_or_part (by decide) hw).2 (by decide)).2⟩

end SysDemos.Rio
