import SysDemos.Csapp.EchoServers.Fidelity

/-!
# SysDemos.Csapp.Echo

`echo` of `csapp/network_program/server.cc` and of
`csapp/concurrent_program/echo_serverp.cc`, which are the same: read a line and
write it back, until the end of file.

`rio_readlineb` returns the length of a line that ends in a newline.  For a line
that is cut, after `MAXLINE - 1` bytes or by the end of file, it returns one
more, and `echo` writes the NUL behind the line too.

* `echo_identity_iff` — what `echo` writes is what it has read exactly if the
  stream consists of lines that are not cut.
-/

namespace SysDemos.Echo

open Rio
open EchoServers (LineStream)

/-- The loop of `echo`, for at most `fuel` rounds: the bytes written by the time
`rio_readlineb` returns 0. -/
def echoLoop : Nat → RioT → List ReadRet → List WriteRet → Option (List UInt8)
  | 0, _, _, _ => none
  | fuel + 1, rp, reads, writes =>
    match rioReadlineb rp maxline reads with
    | none => none
    | some r =>
      if r.ret ≠ 0 then
        match rioWriten r.usrbuf (sizeT r.ret) writes with
        | none => none
        | some (_, out, rest) => (echoLoop fuel r.rp r.rest rest).map (out ++ ·)
      else some []

/-- `echo`.  Each round takes a byte of the stream or a result of `read`, so the
bound on their number is not met. -/
def echo (rp : RioT) (connfd : Int) (reads : List ReadRet) (writes : List WriteRet) :
    Option (List UInt8) :=
  echoLoop (reads.length + (dataOf reads).length + 1) (rioReadinitb rp connfd) reads writes

/-! ## lines of a stream -/

/-- A line that `rio_readlineb` reads whole. -/
def Line (l : List UInt8) : Prop :=
  ∃ body, l = body ++ [newline] ∧ newline ∉ body ∧ l.length < maxline

theorem Line.ne_nil {l : List UInt8} (h : Line l) : l ≠ [] := by
  obtain ⟨body, rfl, -⟩ := h
  simp

theorem Line.length_lt {l : List UInt8} (h : Line l) : l.length < maxline := h.choose_spec.2.2

/-- A part of a stream without newlines does not reach across one. -/
theorem infix_of_not_mem {x : UInt8} {l a b : List UInt8} (h : l <:+: a ++ x :: b) (hx : x ∉ l) :
    l <:+: a ∨ l <:+: b := by
  obtain ⟨u, v, huv⟩ := h
  obtain ⟨a', ha, -⟩ | ⟨c, hc, hb⟩ := List.append_eq_append_iff.mp huv
  · exact .inl ⟨u, a', ha.symm⟩
  · cases c with
    | nil => exact .inl ⟨u, [], by simpa using hc⟩
    | cons y c =>
        obtain ⟨rfl, rfl⟩ := List.cons.inj hb
        obtain ⟨d, -, hl⟩ | ⟨d, -, hd⟩ := List.append_eq_append_iff.mp hc
        · exact absurd (by rw [hl]; simp) hx
        · cases d with
          | nil => exact absurd (by rw [← show _ = l from hd]; simp) hx
          | cons z d =>
              obtain ⟨-, rfl⟩ := List.cons.inj hd
              exact .inr ⟨d, v, rfl⟩

theorem lineStream_append {l s : List UInt8} (hl : Line l) :
    LineStream (l ++ s) ↔ LineStream s := by
  obtain ⟨body, rfl, hbody, hlen⟩ := hl
  refine ⟨fun h => h.suffix (List.suffix_append _ _), fun h => ⟨.inr ?_, fun l hl hnl => ?_⟩⟩
  · rcases h.1 with rfl | hlast
    · simp
    · rw [List.getLast?_append, hlast]
      rfl
  · rw [List.append_assoc] at hl
    obtain hin | hin := infix_of_not_mem hl hnl
    · have hle := hin.length_le
      rw [List.length_append, List.length_singleton] at hlen
      omega
    · exact h.2 l hin hnl

/-- A stream that begins with a line that is too long. -/
theorem not_lineStream_long {l s : List UInt8} (hlen : l.length + 1 = maxline)
    (hnl : newline ∉ l) : ¬ LineStream (l ++ s) := fun h =>
  Nat.lt_irrefl _ (hlen ▸ h.2 l (List.prefix_append _ _).isInfix hnl)

/-- A stream that ends in the middle of a line. -/
theorem not_lineStream_open {l : List UInt8} (hne : l ≠ []) (hnl : newline ∉ l) :
    ¬ LineStream l := by
  rintro ⟨hnil | hlast, -⟩
  · exact hne hnil
  · exact hnl (List.mem_of_getLast? hlast)

/-! ## one round -/

/-- How a round of `echo` goes that takes `line` from the stream: it meets the
end of file, reads a whole line, or reads a line that is cut. -/
inductive Round (r : Res) (line : List UInt8) : Prop where
  | eof (hret : r.ret = 0) (hline : line = []) (hend : r.rp.unread ++ dataOf r.rest = [])
  | whole (hret : r.ret = line.length) (husr : r.usrbuf = line ++ [0]) (hline : Line line)
  | cut (hret : r.ret = line.length + 1) (husr : r.usrbuf = line ++ [0]) (hne : line ≠ [])
      (hnl : newline ∉ line) (hlen : line.length < maxline)
      (hcut : line.length + 1 = maxline ∨ r.rp.unread ++ dataOf r.rest = [])

theorem round_spec {rp : RioT} {reads : List ReadRet} {r : Res} (hv : rp.Valid)
    (hin : Closing reads) (hr : rioReadlineb rp maxline reads = some r) :
    ∃ line, r.rp.Valid ∧ Closing r.rest ∧
      rp.unread ++ dataOf reads = line ++ (r.rp.unread ++ dataOf r.rest) ∧ Round r line := by
  obtain ⟨line, cs, hcs, hv', hcut, hend⟩ := rioReadlinebLoop_spec hv (Nat.le_refl 1) hr
  have hmax : maxline = 8192 := rfl
  subst hcs
  refine ⟨line, hv', hin.suffix, ?_, ?_⟩
  · rw [dataOf_append, ← List.append_assoc, hcut.conserves, List.append_assoc]
  · cases hend with
    | newline body hline hbody hk hret husr =>
        refine .whole ?_ (by simpa using husr) ⟨body, hline, hbody, by omega⟩
        rw [hret, hline, List.length_append, List.length_singleton]
        omega
    | full hline hk hret husr =>
        have hne : line ≠ [] := List.ne_nil_of_length_pos (by omega)
        exact .cut (by omega) (by simpa using husr) hne hline (by omega) (.inl (by omega))
    | eof hline hk hun hend hret husr =>
        have hrest : r.rp.unread ++ dataOf r.rest = [] := by
          rw [hun, List.nil_append]
          exact hin.eof.nil_of_getLast hend
        cases line with
        | nil => exact .eof (by simpa using hret) rfl hrest
        | cons b bs =>
            rw [if_neg (by rw [List.length_cons]; omega)] at hret husr
            exact .cut (by omega) (by simpa using husr) (by simp) hline (by omega) (.inr hrest)
    | err e he _ _ _ hend =>
        have hmem := List.mem_append_left r.rest (List.mem_of_getLast? hend)
        exact absurd (hin.eintr e hmem) he

/-- The length of a line, as `rio_writen` is given it. -/
theorem sizeT_ret {r : Res} {n : Nat} (hret : r.ret = n) (hn : n ≤ maxline) : sizeT r.ret = n := by
  have hmax : maxline = 8192 := rfl
  rw [hret, sizeT_of_nat (by omega)]

/-! ## the loop -/

/-- What the loop writes is at least as long as the stream, and the stream itself
exactly if no line is cut. -/
theorem echoLoop_spec {fuel : Nat} {rp : RioT} {reads : List ReadRet} {writes : List WriteRet}
    {out : List UInt8} (hv : rp.Valid) (hin : Closing reads)
    (hok : ∀ e, .fail e ∈ writes → e = .EINTR) (hout : echoLoop fuel rp reads writes = some out) :
    (rp.unread ++ dataOf reads).length ≤ out.length ∧
      (out = rp.unread ++ dataOf reads ↔ LineStream (rp.unread ++ dataOf reads)) := by
  induction fuel generalizing rp reads writes out with
  | zero => contradiction
  | succ fuel ih =>
      simp only [echoLoop] at hout
      cases hread : rioReadlineb rp maxline reads with
      | none => rw [hread] at hout; contradiction
      | some r =>
          obtain ⟨line, hv', hin', hstream, hround⟩ := round_spec hv hin hread
          simp only [hread] at hout
          rw [hstream]
          -- a round that writes: the first `n` bytes of the buffer, then the other rounds
          have hwrite : ∀ n : Nat, r.ret = n → n ≠ 0 → n ≤ maxline → ∃ out',
              out = r.usrbuf.take n ++ out' ∧
              (r.rp.unread ++ dataOf r.rest).length ≤ out'.length ∧
              (out' = r.rp.unread ++ dataOf r.rest ↔
                LineStream (r.rp.unread ++ dataOf r.rest)) := by
            intro n hret hn hmax
            rw [if_pos (by omega), sizeT_ret hret hmax] at hout
            cases hwriten : rioWriten r.usrbuf n writes with
            | none => rw [hwriten] at hout; contradiction
            | some p =>
                obtain ⟨ret, written, rest⟩ := p
                simp only [hwriten] at hout
                obtain ⟨out', hout', rfl⟩ := Option.map_eq_some_iff.mp hout
                obtain ⟨-, rfl, hsuffix⟩ := rioWriten_spec hok hwriten
                obtain ⟨hlen, hiff⟩ :=
                  ih hv' hin' (fun e he => hok e (hsuffix.subset he)) hout'
                exact ⟨out', rfl, hlen, hiff⟩
          cases hround with
          | eof hret hline hend =>
              rw [if_neg (by omega), Option.some.injEq] at hout
              subst hout
              rw [hline, hend]
              refine ⟨Nat.le_refl _, iff_of_true rfl ⟨.inl rfl, fun l hl _ => ?_⟩⟩
              rw [List.infix_nil.mp hl]
              decide
          | whole hret husr hline =>
              have hpos : line.length ≠ 0 := by simpa using hline.ne_nil
              obtain ⟨out', rfl, hlen, hiff⟩ := hwrite _ hret hpos (Nat.le_of_lt hline.length_lt)
              rw [husr, List.take_left' rfl, List.append_cancel_left_eq, lineStream_append hline]
              exact ⟨by simpa using hlen, hiff⟩
          | cut hret husr hne hnl hmax hcut =>
              obtain ⟨out', rfl, hlen, -⟩ := hwrite (line.length + 1) hret (by omega) hmax
              rw [husr, List.take_of_length_le (by simp)]
              simp only [List.length_append, List.length_singleton] at hlen ⊢
              refine ⟨by omega, iff_of_false (fun heq => ?_) ?_⟩
              · have hlength := congrArg List.length heq
                simp only [List.length_append, List.length_singleton] at hlength
                omega
              · obtain hlong | hnil := hcut
                · exact not_lineStream_long hlong hnl
                · rw [hnil, List.append_nil]
                  exact not_lineStream_open hne hnl

/-! ## the end of the loop -/

/-- A `write` that takes all it is given ends `rio_writen`. -/
theorem rioWriten_whole (buf : List UInt8) {n : Nat} (hn : n ≠ 0) (writes : List WriteRet) :
    rioWriten buf n (.ret n :: writes) = some ((n : Int), buf.take n, writes) := by
  obtain ⟨m, rfl⟩ := Nat.exists_eq_succ_of_ne_zero hn
  simp [rioWriten, rioWritenLoop]

/-- The loop ends if the client has closed its side: `read` must report it twice
if it does so first in the middle of a line. -/
theorem echoLoop_returns {fuel : Nat} {rp : RioT} {reads : List ReadRet} (hv : rp.Valid)
    (hin : Closing reads) (hfuel : (rp.unread ++ dataOf reads).length < fuel)
    (heof : 2 ≤ eofs reads ∨ 1 ≤ eofs reads ∧ rp.unread ++ dataOf reads = []) :
    ∃ writes out, (∀ e, .fail e ∉ writes) ∧ echoLoop fuel rp reads writes = some out := by
  induction fuel generalizing rp reads with
  | zero => contradiction
  | succ fuel ih =>
      obtain ⟨r, hr, hend⟩ : ∃ r, rioReadlineb rp maxline reads = some r ∧ _ :=
        rioReadlinebLoop_returns _ _ _ ⟨hv, hin, rfl⟩ (by omega)
      obtain ⟨line, hv', hin', hstream, hround⟩ := round_spec hv hin hr
      have hnext : ∀ n : Nat, r.ret = n → n ≠ 0 → n ≤ maxline → line ≠ [] →
          ∃ writes out, (∀ e, .fail e ∉ writes) ∧
            echoLoop (fuel + 1) rp reads writes = some out := by
        intro n hret hn hmax hne
        have hpos := List.length_pos_iff.mpr hne
        have hnonempty : rp.unread ++ dataOf reads ≠ [] := by simp [hstream, hne]
        rw [hstream, List.length_append] at hfuel
        have htwo := heof.resolve_right fun h => hnonempty h.2
        have heof' : 2 ≤ eofs r.rest ∨ 1 ≤ eofs r.rest ∧ r.rp.unread ++ dataOf r.rest = [] := by
          obtain hsame | ⟨hless, hnil⟩ := hend
          · exact .inl (by omega)
          · exact .inr ⟨by omega, hnil⟩
        obtain ⟨writes, out, hok, hout⟩ := ih hv' hin' (by omega) heof'
        refine ⟨.ret n :: writes, r.usrbuf.take n ++ out, by simpa using hok, ?_⟩
        simp only [echoLoop, hr, if_pos (show r.ret ≠ 0 by omega), sizeT_ret hret hmax,
          rioWriten_whole _ hn, hout, Option.map_some]
      cases hround with
      | eof hret =>
          exact ⟨[], [], by simp, by simp only [echoLoop, hr, if_neg (not_not.mpr hret)]⟩
      | whole hret _ hline =>
          have hpos : line.length ≠ 0 := by simpa using hline.ne_nil
          exact hnext _ hret hpos (Nat.le_of_lt hline.length_lt) hline.ne_nil
      | cut hret _ hne _ hmax => exact hnext (line.length + 1) hret (by omega) hmax hne

/-- **Echo**: once the client has closed its side, `echo` returns, and what it
has written is what it has read exactly if the stream consists of lines that end
in a newline and have less than `MAXLINE` bytes. -/
theorem echo_identity_iff (rp : RioT) (connfd : Int) (reads : List ReadRet) (hin : Closing reads) :
    (2 ≤ eofs reads → ∃ writes out, (∀ e, .fail e ∉ writes) ∧
      echo rp connfd reads writes = some out) ∧
    ∀ writes out, (∀ e, .fail e ∈ writes → e = .EINTR) →
      echo rp connfd reads writes = some out →
      (out = dataOf reads ↔ LineStream (dataOf reads)) := by
  have hv : (rioReadinitb rp connfd).Valid := by simp [rioReadinitb, RioT.Valid]
  have hnil : (rioReadinitb rp connfd).unread = [] := by simp [rioReadinitb, RioT.unread]
  constructor
  · intro heof
    exact echoLoop_returns hv hin (by rw [hnil, List.nil_append]; omega) (.inl heof)
  · intro writes out hok hout
    have hspec := (echoLoop_spec hv hin hok hout).2
    rwa [hnil, List.nil_append] at hspec

/-- A last line without newline is echoed with a NUL behind it. -/
theorem not_echo_identity_open_line : ¬ ∀ (rp : RioT) (connfd : Int) (reads : List ReadRet)
    (writes : List WriteRet) (out : List UInt8), Closing reads →
    (∀ e, .fail e ∈ writes → e = .EINTR) → echo rp connfd reads writes = some out →
    out = dataOf reads := by
  intro hall
  have hin : Closing [.ret [97], .ret [], .ret []] :=
    ⟨⟨by simp, by simp [rioBufsize]⟩, by decide⟩
  have hout : echo blankRio 4 [.ret [97], .ret [], .ret []] [.ret 2] = some [97, 0] := by
    decide +kernel
  exact absurd (hall _ _ _ _ _ hin (by simp) hout) (by decide)

/-- Two lines, cut by the reads and the writes in different places. -/
theorem echo_identity_iff_two_lines :
    echo blankRio 4 [.ret [97], .err .EINTR, .ret [newline, 98, newline], .ret [], .ret []]
        [.ret 1, .fail .EINTR, .ret 1, .ret 2] = some [97, newline, 98, newline] ∧
      LineStream [97, newline, 98, newline] := by
  have hin : Closing [.ret [97], .err .EINTR, .ret [newline, 98, newline], .ret [], .ret []] :=
    ⟨⟨by simp, by simp [rioBufsize]⟩, by decide⟩
  have hout : echo blankRio 4
      [.ret [97], .err .EINTR, .ret [newline, 98, newline], .ret [], .ret []]
      [.ret 1, .fail .EINTR, .ret 1, .ret 2] = some [97, newline, 98, newline] := by
    decide +kernel
  exact ⟨hout, ((echo_identity_iff _ _ _ hin).2 _ _ (by simp) hout).mp rfl⟩

end SysDemos.Echo
