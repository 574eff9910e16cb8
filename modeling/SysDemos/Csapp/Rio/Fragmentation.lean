import SysDemos.Csapp.Rio.Conservation

/-!
# SysDemos.Csapp.Rio.Fragmentation

What the read functions return depends on the stream only, not on the pieces in which `read`
returns it.

A stream ends: `read` returns 0 once all bytes have been returned, and after that again and
again (`EofLast`, `Closing`).  The stream that a reader has before it is what is unread in its
buffer and what `read` will return (`Position`); each read function is described by what it
stores and by the position it leaves.

* `lines_depend_on_stream` — `rio_readlineb` stores the lines of the stream;
* `bulk_reads_agree` — `rio_readnb` and `rio_readn` store the same pieces of it.
-/

namespace SysDemos.Rio

/-! ## positions in a stream -/

/-- No bytes follow an end of file. -/
def EofLast : List ReadRet → Prop
  | [] => True
  | r :: reads => if r = .ret [] then dataOf reads = [] else EofLast reads

instance decidableEofLast : (reads : List ReadRet) → Decidable (EofLast reads)
  | [] => inferInstanceAs (Decidable True)
  | r :: reads =>
    have := decidableEofLast reads
    inferInstanceAs (Decidable (if r = .ret [] then dataOf reads = [] else EofLast reads))

/-- How often `read` will report the end of file. -/
def eofs (reads : List ReadRet) : Nat := reads.count (.ret [])

@[simp] theorem eofs_append (xs ys : List ReadRet) : eofs (xs ++ ys) = eofs xs + eofs ys :=
  List.count_append

@[simp] theorem eofs_cons_err (e : Errno) (reads : List ReadRet) :
    eofs (.err e :: reads) = eofs reads := by
  simp [eofs]

@[simp] theorem eofs_cons_eof (reads : List ReadRet) :
    eofs (.ret [] :: reads) = eofs reads + 1 := by
  simp [eofs]

@[simp] theorem eofs_cons_ret (b : UInt8) (bs : List UInt8) (reads : List ReadRet) :
    eofs (.ret (b :: bs) :: reads) = eofs reads := by
  simp [eofs]

@[simp] theorem dataOf_cons_err (e : Errno) (reads : List ReadRet) :
    dataOf (.err e :: reads) = dataOf reads := rfl

@[simp] theorem dataOf_cons_ret (bs : List UInt8) (reads : List ReadRet) :
    dataOf (.ret bs :: reads) = bs ++ dataOf reads := by
  cases bs with
  | nil => rfl
  | cons b bs => rfl

theorem eofLast_of_nil {reads : List ReadRet} (h : dataOf reads = []) : EofLast reads := by
  induction reads with
  | nil => trivial
  | cons r reads ih =>
      have hrest : dataOf reads = [] := by
        cases r with
        | err e => exact h
        | ret bs =>
            rw [dataOf_cons_ret] at h
            exact (List.append_eq_nil_iff.mp h).2
      unfold EofLast
      split
      · exact hrest
      · exact ih hrest

theorem eofLast_singleton (r : ReadRet) : EofLast [r] := by
  unfold EofLast
  split
  · rfl
  · trivial

theorem EofLast.suffix {cs rest : List ReadRet} (h : EofLast (cs ++ rest)) : EofLast rest := by
  induction cs with
  | nil => exact h
  | cons r cs ih =>
      rw [List.cons_append, EofLast] at h
      split at h
      · rw [dataOf_append] at h
        exact eofLast_of_nil (List.append_eq_nil_iff.mp h).2
      · exact ih h

/-- Behind an end of file nothing comes. -/
theorem EofLast.nil_of_getLast {cs rest : List ReadRet} (h : EofLast (cs ++ rest))
    (hlast : cs.getLast? = some (.ret [])) : dataOf rest = [] := by
  obtain ⟨cs', rfl⟩ := List.getLast?_eq_some_iff.mp hlast
  rw [List.append_assoc] at h
  have hend : EofLast (.ret [] :: rest) := h.suffix
  rwa [EofLast, if_pos rfl] at hend

theorem Interrupts.eofs {es : List ReadRet} (h : Interrupts es) : eofs es = 0 := by
  refine List.count_eq_zero.mpr fun hmem => ?_
  exact nomatch h _ hmem

/-- The results of `read` on a connection that its peer closes: pieces of the stream, interrupts,
and nothing but the end of file once the stream is over. -/
structure Closing (reads : List ReadRet) : Prop extends ShortReads reads where
  eof : EofLast reads

theorem Closing.suffix {cs rest : List ReadRet} (h : Closing (cs ++ rest)) : Closing rest where
  toShortReads := h.toShortReads.suffix
  eof := h.eof.suffix

/-- A `rio_t` that has `stream` before it. -/
structure Position (rp : RioT) (reads : List ReadRet) (stream : List UInt8) : Prop where
  valid : rp.Valid
  closing : Closing reads
  remains : rp.unread ++ dataOf reads = stream

/-- A new `rio_t` is at the beginning of the stream. -/
theorem position_init (rp : RioT) (fd : Int) {reads : List ReadRet} {stream : List UInt8}
    (hreads : Closing reads) (hstream : dataOf reads = stream) :
    Position (rioReadinitb rp fd) reads stream := by
  refine ⟨by simp [rioReadinitb, RioT.Valid], hreads, ?_⟩
  rw [← hstream]
  simp [rioReadinitb, RioT.unread]

/-- `rio_read` from a position: it returns if the end of file is still to be reported, and what it
stores is the front of the stream; nothing only at its end. -/
theorem Position.rioRead {rp : RioT} {reads : List ReadRet} {stream : List UInt8} {n : Nat}
    (h : Position rp reads stream) (hn : 0 < n) (heof : 0 < eofs reads) :
    ∃ r rest, Rio.rioRead rp n reads = some r ∧ stream = r.usrbuf ++ rest ∧
      Position r.rp r.rest rest ∧ r.ret = r.usrbuf.length ∧ r.usrbuf.length ≤ n ∧
      (r.usrbuf = [] ∧ stream = [] ∧ eofs reads = eofs r.rest + 1 ∨
        r.usrbuf ≠ [] ∧ eofs r.rest = eofs reads) := by
  obtain ⟨r, hr⟩ : ∃ r, Rio.rioRead rp n reads = some r :=
    rioRead_returns (List.count_pos_iff.mp heof)
  obtain ⟨hstored, hret, hle⟩ := rioRead_stored h.valid h.closing.toShortReads hn hr
  obtain ⟨cs, rfl, hv, hsome⟩ := rioRead_spec h.valid hn hr
  refine ⟨r, r.rp.unread ++ dataOf r.rest, hr, ?_, ⟨hv, h.closing.suffix, rfl⟩, hret, hle, ?_⟩
  · rw [← h.remains, hstored, List.append_assoc]
  · cases hsome with
    | buffered _ hcs hcopy =>
        exact .inr ⟨List.ne_nil_of_length_pos hcopy.pos, by rw [hcs]; rfl⟩
    | chunk es hes _ hcs hcopy =>
        have hne := List.ne_nil_of_length_pos hcopy.pos
        refine .inr ⟨hne, ?_⟩
        have hzero : eofs [.ret (r.usrbuf ++ r.rp.unread)] = 0 := by simp [eofs, hne]
        rw [hcs, eofs_append, eofs_append, hes.eofs, hzero, Nat.zero_add]
    | eof es hes hrp hcs _ husr hun =>
        have hnil : dataOf r.rest = [] :=
          h.closing.eof.nil_of_getLast (by rw [hcs, List.getLast?_concat])
        refine .inl ⟨husr, ?_, ?_⟩
        · rw [← h.remains, hstored, husr, hun, hnil]
          rfl
        · rw [hcs, eofs_append, eofs_append, hes.eofs, Nat.add_comm]
          rfl
    | err e es he _ _ hcs =>
        have hmem : ReadRet.err e ∈ cs := by
          rw [hcs]
          exact List.mem_append_right _ List.mem_cons_self
        exact absurd (h.closing.eintr e (List.mem_append_left _ hmem)) he

/-! ## lines -/

/-- The longest front part of the stream with at most `k` bytes and no newline but possibly as its
last byte. -/
structure LongestLine (k : Nat) (stream line : List UInt8) : Prop where
  isPrefix : line <+: stream
  size : line.length ≤ k
  newline : newline ∉ line.dropLast
  longest : ∀ l, l <+: stream → l.length ≤ k → SysDemos.newline ∉ l.dropLast →
    l.length ≤ line.length

/-- There is only one. -/
theorem LongestLine.unique {k : Nat} {stream l₁ l₂ : List UInt8} (h₁ : LongestLine k stream l₁)
    (h₂ : LongestLine k stream l₂) : l₁ = l₂ := by
  have hle := h₁.longest l₂ h₂.isPrefix h₂.size h₂.newline
  have hge := h₂.longest l₁ h₁.isPrefix h₁.size h₁.newline
  exact (List.prefix_of_prefix_length_le h₁.isPrefix h₂.isPrefix hge).eq_of_length
    (Nat.le_antisymm hge hle)

/-- A newline ends the line: nothing longer will do. -/
theorem longestLine_of_newline {k : Nat} {stream body rest : List UInt8}
    (hstream : stream = body ++ [newline] ++ rest) (hbody : newline ∉ body)
    (hk : (body ++ [newline]).length ≤ k) : LongestLine k stream (body ++ [newline]) := by
  have hfront : body ++ [newline] <+: stream := ⟨rest, hstream.symm⟩
  refine ⟨hfront, hk, by rwa [List.dropLast_concat], fun l hl _ hnl => ?_⟩
  by_contra hgt
  obtain ⟨t, rfl⟩ := List.prefix_of_prefix_length_le hfront hl (by omega)
  have ht : t ≠ [] := fun hnil => by
    rw [hnil, List.append_nil] at hgt
    omega
  rw [List.dropLast_append_of_ne_nil ht] at hnl
  exact hnl (by simp)

/-- What a call of `rio_readlineb` does from a position with `stream` before it. -/
structure LineAt (stream : List UInt8) (maxlen : Nat) (r : Res) (line : List UInt8) : Prop where
  longest : LongestLine (maxlen - 1) stream line
  zero : r.ret = 0 ↔ 2 ≤ maxlen ∧ stream = []
  stored : r.usrbuf = if r.ret = 0 then [] else line ++ [0]
  position : r.rp.unread ++ dataOf r.rest = stream.drop line.length

/-- The line loop returns if the end of file is still to be reported.  It meets that at most once,
and then at the end of the stream. -/
theorem rioReadlinebLoop_returns (k n : Nat) (usr : List UInt8) {rp : RioT} {stream : List UInt8}
    {reads : List ReadRet} (h : Position rp reads stream) (heof : 0 < eofs reads) :
    ∃ r, rioReadlinebLoop k n rp usr reads = some r ∧
      (eofs r.rest = eofs reads ∨
        eofs r.rest + 1 = eofs reads ∧ r.rp.unread ++ dataOf r.rest = []) := by
  induction k generalizing n rp usr reads stream with
  | zero => exact ⟨_, rfl, .inl rfl⟩
  | succ k ih =>
      obtain ⟨r, rest, hr, hstream, hpos, hret, hle, hend⟩ := h.rioRead (n := 1) (by decide) heof
      simp only [rioReadlinebLoop, hr]
      obtain ⟨husr, hnil, heofs⟩ | ⟨husr, heofs⟩ := hend
      · have hzero : r.ret = 0 := by rw [hret, husr]; rfl
        have hover : r.rp.unread ++ dataOf r.rest = [] := by
          rw [hpos.remains]
          rw [hnil] at hstream
          exact (List.append_eq_nil_iff.mp hstream.symm).2
        rw [if_neg (by rw [hzero]; decide), if_pos hzero]
        split
        · exact ⟨_, rfl, .inr ⟨heofs.symm, hover⟩⟩
        · exact ⟨_, rfl, .inr ⟨heofs.symm, hover⟩⟩
      · have hone : r.ret = 1 := by
          have hlen := List.length_pos_iff.mpr husr
          omega
        rw [if_pos hone]
        split
        · exact ⟨_, rfl, .inl heofs⟩
        · rw [← heofs]
          exact ih (n + 1) (usr ++ r.usrbuf) hpos (by omega)

/-- **A call of `rio_readlineb`**: it stores the longest line and moves on by its length. -/
theorem Position.rioReadlineb {rp : RioT} {reads : List ReadRet} {stream : List UInt8}
    {maxlen : Nat} (h : Position rp reads stream) (hmax : 1 ≤ maxlen) (heof : 0 < eofs reads) :
    ∃ r line, Rio.rioReadlineb rp maxlen reads = some r ∧ LineAt stream maxlen r line ∧
      Position r.rp r.rest (stream.drop line.length) ∧ eofs reads ≤ eofs r.rest + 1 := by
  obtain ⟨r, hr, heofs⟩ := rioReadlinebLoop_returns (maxlen - 1) 1 [] h heof
  obtain ⟨line, cs, rfl, hv, hcut, hend⟩ := rioReadlinebLoop_spec h.valid (Nat.le_refl 1) hr
  have hstream : stream = line ++ (r.rp.unread ++ dataOf r.rest) := by
    rw [← h.remains, dataOf_append, ← List.append_assoc, hcut.conserves, List.append_assoc]
  have hdrop : r.rp.unread ++ dataOf r.rest = stream.drop line.length := by
    rw [hstream, List.drop_left]
  have hfront : line <+: stream := ⟨_, hstream.symm⟩
  refine ⟨r, line, hr, ?_, ⟨hv, h.closing.suffix, hdrop⟩, by omega⟩
  cases hend with
  | newline body hline hbody hk hret husr =>
      have hne : r.ret ≠ 0 := by omega
      refine ⟨?_, ⟨fun hzero => absurd hzero hne, fun hnil => ?_⟩, ?_, hdrop⟩
      · rw [hline] at hstream hk ⊢
        exact longestLine_of_newline hstream hbody hk
      · rw [hnil.2, hline] at hstream
        simp at hstream
      · rw [if_neg hne, husr]
        rfl
  | full hline hk hret husr =>
      have hne : r.ret ≠ 0 := by omega
      refine ⟨⟨hfront, Nat.le_of_eq hk, fun hmem => hline (List.mem_of_mem_dropLast hmem),
        fun l _ hl _ => by omega⟩, ⟨fun hzero => absurd hzero hne, fun hnil => ?_⟩, ?_, hdrop⟩
      · -- with room for a byte and nothing before it the loop ends otherwise
        rw [hnil.2] at hfront
        rw [List.prefix_nil.mp hfront, List.length_nil] at hk
        omega
      · rw [if_neg hne, husr]
        rfl
  | eof hline hk hun hlast hret husr =>
      have hnil : dataOf r.rest = [] := h.closing.eof.nil_of_getLast hlast
      rw [hun, hnil, List.append_nil, List.append_nil] at hstream
      have hlen : r.ret = 0 ↔ line = [] := by
        rw [hret, ← List.length_eq_zero_iff]
        split <;> omega
      refine ⟨⟨hfront, Nat.le_of_lt hk, fun hmem => hline (List.mem_of_mem_dropLast hmem),
        fun l hl _ _ => by rw [← hstream]; exact hl.length_le⟩, ?_, ?_, hdrop⟩
      · rw [hlen, hstream]
        exact ⟨fun hzero => ⟨by omega, hzero⟩, fun hzero => hzero.2⟩
      · rw [husr]
        by_cases hzero : r.ret = 0
        · rw [if_pos hzero, if_pos (by rw [hlen.mp hzero]; rfl)]
        · rw [if_neg hzero,
            if_neg fun hone => hzero (hlen.mpr (List.length_eq_zero_iff.mp (by omega)))]
          rfl
  | err e he _ _ _ hlast =>
      obtain ⟨cs', rfl⟩ := List.getLast?_eq_some_iff.mp hlast
      exact absurd (h.closing.eintr e (by simp)) he

/-- Successive calls of `rio_readlineb`, with these values of `maxlen`. -/
def readLines : RioT → List ReadRet → List Nat → Option (List Res)
  | _, _, [] => some []
  | rp, reads, maxlen :: maxlens =>
    match rioReadlineb rp maxlen reads with
    | none => none
    | some r => (readLines r.rp r.rest maxlens).map (r :: ·)

/-- Each call gives the longest line of what the calls before it have left. -/
inductive Lines : List UInt8 → List Nat → List Res → Prop
  | nil {stream : List UInt8} : Lines stream [] []
  | cons {stream line : List UInt8} {maxlen : Nat} {maxlens : List Nat} {r : Res} {rs : List Res} :
      LineAt stream maxlen r line → Lines (stream.drop line.length) maxlens rs →
        Lines stream (maxlen :: maxlens) (r :: rs)

/-- The stream and the values of `maxlen` determine what is stored. -/
theorem Lines.unique {stream : List UInt8} {maxlens : List Nat} {rs₁ rs₂ : List Res}
    (h₁ : Lines stream maxlens rs₁) (h₂ : Lines stream maxlens rs₂) :
    rs₁.map Res.usrbuf = rs₂.map Res.usrbuf := by
  induction h₁ generalizing rs₂ with
  | nil => cases h₂; rfl
  | cons hline₁ _ ih =>
      cases h₂ with
      | cons hline₂ hrest₂ =>
          obtain rfl := hline₁.longest.unique hline₂.longest
          have hzero := hline₁.zero.trans hline₂.zero.symm
          rw [List.map_cons, List.map_cons, ih hrest₂, hline₁.stored, hline₂.stored]
          simp only [hzero]

theorem Position.readLines {rp : RioT} {reads : List ReadRet} {stream : List UInt8}
    {maxlens : List Nat} (h : Position rp reads stream) (hmax : ∀ m ∈ maxlens, 1 ≤ m)
    (heof : maxlens.length ≤ eofs reads) :
    ∃ rs, Rio.readLines rp reads maxlens = some rs ∧ Lines stream maxlens rs := by
  induction maxlens generalizing rp reads stream with
  | nil => exact ⟨[], rfl, .nil⟩
  | cons maxlen maxlens ih =>
      rw [List.length_cons] at heof
      obtain ⟨r, line, hr, hline, hpos, heofs⟩ :=
        h.rioReadlineb (hmax maxlen List.mem_cons_self) (by omega)
      obtain ⟨rs, hrs, hlines⟩ :=
        ih hpos (fun m hm => hmax m (List.mem_cons_of_mem _ hm)) (by omega)
      exact ⟨r :: rs, by simp only [Rio.readLines, hr, hrs, Option.map_some], .cons hline hlines⟩

/-- **Line reading depends on the stream only**: for two fragmentations of a stream, calls of
`rio_readlineb` with the same values of `maxlen` return, each stores the longest line at its
position and moves on by its length, and both store the same. -/
theorem lines_depend_on_stream (stream : List UInt8) (maxlens : List Nat)
    (hmax : ∀ m ∈ maxlens, 1 ≤ m ∧ m < 2 ^ 31) (rp₁ rp₂ : RioT) (fd₁ fd₂ : Int)
    (reads₁ reads₂ : List ReadRet) (hreads₁ : ShortReads reads₁) (hreads₂ : ShortReads reads₂)
    (hlast₁ : EofLast reads₁) (hlast₂ : EofLast reads₂) (hstream₁ : dataOf reads₁ = stream)
    (hstream₂ : dataOf reads₂ = stream) (heof₁ : maxlens.length ≤ eofs reads₁)
    (heof₂ : maxlens.length ≤ eofs reads₂) :
    ∃ rs₁ rs₂, readLines (rioReadinitb rp₁ fd₁) reads₁ maxlens = some rs₁ ∧
      readLines (rioReadinitb rp₂ fd₂) reads₂ maxlens = some rs₂ ∧
      Lines stream maxlens rs₁ ∧ Lines stream maxlens rs₂ ∧
      rs₁.map Res.usrbuf = rs₂.map Res.usrbuf := by
  obtain ⟨rs₁, hrs₁, hlines₁⟩ := (position_init rp₁ fd₁ ⟨hreads₁, hlast₁⟩ hstream₁).readLines
    (fun m hm => (hmax m hm).1) heof₁
  obtain ⟨rs₂, hrs₂, hlines₂⟩ := (position_init rp₂ fd₂ ⟨hreads₂, hlast₂⟩ hstream₂).readLines
    (fun m hm => (hmax m hm).1) heof₂
  exact ⟨rs₁, rs₂, hrs₁, hrs₂, hlines₁, hlines₂, hlines₁.unique hlines₂⟩

/-- A line that comes at once and one that comes in three pieces, and what is left of the stream
behind it. -/
theorem lines_depend_on_stream_two_ways : ∃ rs : List Res,
    readLines (rioReadinitb blankRio 3)
      [.ret [97], .err .EINTR, .ret [98, newline], .ret [99], .ret [], .ret []] [8, 8] = some rs ∧
    rs.map Res.usrbuf = [[97, 98, newline, 0], [99, 0]] := by
  have hshort₁ : ShortReads [.ret [97, 98, newline, 99], .ret [], .ret []] := by
    constructor
    · simp
    · simp [rioBufsize]
  have hshort₂ : ShortReads
      [.ret [97], .err .EINTR, .ret [98, newline], .ret [99], .ret [], .ret []] := by
    constructor
    · simp
    · simp [rioBufsize]
  obtain ⟨rs₁, rs₂, hrs₁, hrs₂, -, -, hsame⟩ :=
    lines_depend_on_stream [97, 98, newline, 99] [8, 8] (by simp) blankRio blankRio 3 3 _ _
      hshort₁ hshort₂ (by decide) (by decide) rfl rfl (by decide) (by decide)
  have hfirst : (readLines (rioReadinitb blankRio 3) [.ret [97, 98, newline, 99], .ret [], .ret []]
      [8, 8]).map (List.map Res.usrbuf) = some [[97, 98, newline, 0], [99, 0]] := by
    decide +kernel
  rw [hrs₁, Option.map_some, Option.some.injEq] at hfirst
  exact ⟨rs₂, hrs₂, hsame.symm.trans hfirst⟩

/-! ## bulk reads -/

/-- The loop of `rio_readnb` from a position: it stores the next `nleft` bytes of the stream, or
all that is left. -/
theorem Position.rioReadnbLoop {n nleft : Nat} {rp : RioT} {stream : List UInt8}
    {reads : List ReadRet} (h : Position rp reads stream) (usr : List UInt8) (hle : nleft ≤ n)
    (heof : 0 < eofs reads) :
    ∃ r, Rio.rioReadnbLoop n nleft rp usr reads = some r ∧
      r.ret = (n - nleft + min nleft stream.length : Nat) ∧
      r.usrbuf = usr ++ stream.take nleft ∧ Position r.rp r.rest (stream.drop nleft) ∧
      eofs reads ≤ eofs r.rest + 1 := by
  induction nleft using Nat.strongRecOn generalizing rp usr reads stream with
  | _ nleft ih =>
      rw [Rio.rioReadnbLoop]
      split
      · next hpos =>
          obtain ⟨r, rest, hr, rfl, hrest, hret, hsize, hend⟩ := h.rioRead hpos heof
          simp only [hr]
          rw [if_neg (by omega)]
          obtain ⟨husr, hnil, heofs⟩ | ⟨husr, heofs⟩ := hend
          · have hzero : r.ret = 0 := by rw [hret, husr]; rfl
            rw [if_neg (by omega)]
            rw [husr, List.nil_append] at hnil
            refine ⟨_, rfl, ?_, ?_, ?_, Nat.le_of_eq heofs⟩
            · simp [husr, hnil]
            · simp [husr, hnil]
            · simpa [husr, hnil] using hrest
          · have hlen := List.length_pos_iff.mpr husr
            rw [if_pos (by omega)]
            have hnat : r.ret.toNat = r.usrbuf.length := by omega
            rw [hnat]
            obtain ⟨r', hr', hret', husr', hpos', heofs'⟩ :=
              ih (nleft - r.usrbuf.length) (by omega) hrest (usr ++ r.usrbuf) (by omega)
                (by omega)
            refine ⟨r', hr', ?_, ?_, ?_, by omega⟩
            · rw [hret', List.length_append]
              congr 1
              omega
            · rw [husr', List.append_assoc, List.take_append, List.take_of_length_le hsize]
            · rw [List.drop_append, List.drop_of_length_le hsize, List.nil_append]
              exact hpos'
      · next hzero =>
          have hnone : nleft = 0 := by omega
          refine ⟨_, rfl, ?_, ?_, ?_, Nat.le_succ _⟩
          · simp [hnone]
          · simp [hnone]
          · simpa [hnone] using h

/-- A descriptor that has `stream` before it. -/
structure Descriptor (reads : List ReadRet) (stream : List UInt8) : Prop where
  eintr : ∀ e, .err e ∈ reads → e = .EINTR
  eof : EofLast reads
  remains : dataOf reads = stream

theorem Descriptor.tail {r : ReadRet} {reads : List ReadRet} {stream : List UInt8}
    (h : Descriptor (r :: reads) stream) : Descriptor reads (dataOf reads) :=
  ⟨fun e he => h.eintr e (List.mem_cons_of_mem _ he),
    (show EofLast ([r] ++ reads) from h.eof).suffix, rfl⟩

/-- The loop of `rio_readn` does the same on a descriptor. -/
theorem Descriptor.rioReadnLoop {n nleft : Nat} {stream : List UInt8} {reads : List ReadRet}
    (h : Descriptor reads stream) (usr : List UInt8) (hle : nleft ≤ n) (heof : 0 < eofs reads) :
    ∃ r, Rio.rioReadnLoop n nleft usr reads = some r ∧
      r.ret = (n - nleft + min nleft stream.length : Nat) ∧
      r.usrbuf = usr ++ stream.take nleft ∧ Descriptor r.rest (stream.drop nleft) ∧
      eofs reads ≤ eofs r.rest + 1 := by
  induction reads generalizing nleft usr stream with
  | nil => contradiction
  | cons x reads ih =>
      obtain rfl := h.remains
      cases nleft with
      | zero => exact ⟨_, rfl, by simp, by simp, h, Nat.le_succ _⟩
      | succ nleft =>
          simp only [Rio.rioReadnLoop]
          cases x with
          | err e =>
              simp only [if_pos (h.eintr e List.mem_cons_self), eofs_cons_err] at heof ⊢
              exact ih h.tail usr hle heof
          | ret bs =>
              cases bs with
              | nil =>
                  have hnil : dataOf reads = [] := by
                    have hend := h.eof
                    rwa [EofLast, if_pos rfl] at hend
                  refine ⟨_, rfl, ?_, ?_, ?_, ?_⟩
                  · simp [hnil]
                  · simp [hnil]
                  · simpa [hnil] using h.tail
                  · simp
              | cons b bs =>
                  simp only
                  split
                  · next hfits =>
                      rw [eofs_cons_ret] at heof ⊢
                      obtain ⟨r, hr, hret, husr, hpos, heofs⟩ :=
                        ih h.tail (usr ++ b :: bs)
                          (show nleft + 1 - (b :: bs).length ≤ n by omega) heof
                      refine ⟨r, hr, ?_, ?_, ?_, heofs⟩
                      · rw [hret, dataOf_cons_ret, List.length_append]
                        congr 1
                        omega
                      · rw [husr, dataOf_cons_ret, List.append_assoc, List.take_append,
                          List.take_of_length_le hfits]
                      · rw [dataOf_cons_ret, List.drop_append, List.drop_of_length_le hfits,
                          List.nil_append]
                        exact hpos
                  · next hlong =>
                      -- the remainder of the result is returned by the next `read`
                      have hne : (b :: bs).drop (nleft + 1) ≠ [] := by
                        rw [Ne, List.drop_eq_nil_iff]
                        exact hlong
                      refine ⟨_, rfl, ?_, ?_, ⟨?_, ?_, ?_⟩, ?_⟩
                      · rw [dataOf_cons_ret, List.length_append]
                        dsimp only
                        congr 1
                        omega
                      · rw [dataOf_cons_ret, List.take_append_of_le_length (by omega)]
                      · intro e he
                        exact h.eintr e (by simpa using he)
                      · rw [EofLast, if_neg (by simpa using hne)]
                        exact h.tail.eof
                      · rw [dataOf_cons_ret, dataOf_cons_ret,
                          List.drop_append_of_le_length (by omega)]
                      · rw [eofs_cons_ret]
                        exact Nat.le_succ_of_le List.count_le_count_cons

/-- Successive calls of `rio_readnb`, with these sizes: the counts and the bytes stored. -/
def readnbs : RioT → List ReadRet → List Nat → Option (List (Int × List UInt8))
  | _, _, [] => some []
  | rp, reads, n :: sizes =>
    match rioReadnb rp n reads with
    | none => none
    | some r => (readnbs r.rp r.rest sizes).map ((r.ret, r.usrbuf) :: ·)

/-- Successive calls of `rio_readn`. -/
def readns : List ReadRet → List Nat → Option (List (Int × List UInt8))
  | _, [] => some []
  | reads, n :: sizes =>
    match rioReadn n reads with
    | none => none
    | some r => (readns r.rest sizes).map ((r.ret, r.usrbuf) :: ·)

/-- A stream cut into pieces of these sizes, as far as it goes. -/
def pieces : List UInt8 → List Nat → List (Int × List UInt8)
  | _, [] => []
  | stream, n :: sizes =>
    ((min n stream.length : Nat), stream.take n) :: pieces (stream.drop n) sizes

theorem Position.readnbs {rp : RioT} {reads : List ReadRet} {stream : List UInt8}
    {sizes : List Nat} (h : Position rp reads stream) (heof : sizes.length ≤ eofs reads) :
    Rio.readnbs rp reads sizes = some (pieces stream sizes) := by
  induction sizes generalizing rp reads stream with
  | nil => rfl
  | cons n sizes ih =>
      rw [List.length_cons] at heof
      obtain ⟨r, hr, hret, husr, hpos, heofs⟩ :=
        h.rioReadnbLoop [] (Nat.le_refl n) (by omega)
      have hr' : rioReadnb rp n reads = some r := hr
      simp only [Rio.readnbs, hr', ih hpos (by omega), Option.map_some, pieces]
      rw [hret, husr, Nat.sub_self, Nat.zero_add, List.nil_append]

theorem Descriptor.readns {reads : List ReadRet} {stream : List UInt8} {sizes : List Nat}
    (h : Descriptor reads stream) (heof : sizes.length ≤ eofs reads) :
    Rio.readns reads sizes = some (pieces stream sizes) := by
  induction sizes generalizing reads stream with
  | nil => rfl
  | cons n sizes ih =>
      rw [List.length_cons] at heof
      obtain ⟨r, hr, hret, husr, hpos, heofs⟩ :=
        h.rioReadnLoop [] (Nat.le_refl n) (by omega)
      have hr' : rioReadn n reads = some r := hr
      simp only [Rio.readns, hr', ih hpos (by omega), Option.map_some, pieces]
      rw [hret, husr, Nat.sub_self, Nat.zero_add, List.nil_append]

/-- **Buffered and unbuffered bulk reads agree**: for any two fragmentations of a stream, calls of
`rio_readnb` on a new `rio_t` and calls of `rio_readn` on the descriptor with the same sizes return
the same counts and store the same bytes, namely the next ones of the stream. -/
theorem bulk_reads_agree (stream : List UInt8) (sizes : List Nat) (rp : RioT) (fd : Int)
    (reads₁ reads₂ : List ReadRet)
    (hreads₁ : ShortReads reads₁) (heintr₂ : ∀ e, .err e ∈ reads₂ → e = .EINTR)
    (hlast₁ : EofLast reads₁) (hlast₂ : EofLast reads₂) (hstream₁ : dataOf reads₁ = stream)
    (hstream₂ : dataOf reads₂ = stream) (heof₁ : sizes.length ≤ eofs reads₁)
    (heof₂ : sizes.length ≤ eofs reads₂) :
    readnbs (rioReadinitb rp fd) reads₁ sizes = some (pieces stream sizes) ∧
      readns reads₂ sizes = some (pieces stream sizes) :=
  ⟨(position_init rp fd ⟨hreads₁, hlast₁⟩ hstream₁).readnbs heof₁,
    Descriptor.readns ⟨heintr₂, hlast₂, hstream₂⟩ heof₂⟩

/-- Four bytes and then three, of six. -/
theorem bulk_reads_agree_two_calls :
    readnbs (rioReadinitb blankRio 3)
      [.ret [1, 2, 3], .err .EINTR, .ret [4, 5, 6], .ret [], .ret []] [4, 3] =
        some [(4, [1, 2, 3, 4]), (2, [5, 6])] ∧
    readns [.ret [1], .ret [2, 3, 4, 5, 6], .ret [], .ret []] [4, 3] =
      some [(4, [1, 2, 3, 4]), (2, [5, 6])] := by
  have hshort : ShortReads [.ret [1, 2, 3], .err .EINTR, .ret [4, 5, 6], .ret [], .ret []] := by
    constructor
    · simp
    · simp [rioBufsize]
  exact bulk_reads_agree [1, 2, 3, 4, 5, 6] [4, 3] blankRio 3 _ _ hshort
    (by simp) (by decide) (by decide) rfl rfl (by decide) (by decide)

end SysDemos.Rio
