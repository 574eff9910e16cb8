import SysDemos.Csapp.Rio.Fragmentation

/-!
# SysDemos.Csapp.Rio.Blocking

Calls of `rio_readlineb` and `rio_writen` that wait for a system call.

A process in the middle of such a call is described by the arguments of the call
and the results its system calls have given so far: the call goes on as long as
the function on these results is `none`.

* `Pending.data` — a result of `read` that does not complete the line leaves
  `rio_readlineb` waiting, one that completes it makes it return the line;
* `Offers.returns` — `rio_writen` returns when all bytes have been taken, and waits
  until then.
-/

namespace SysDemos.Rio

/-! ## reading a line -/

@[simp] theorem dataOf_nil : dataOf [] = [] := rfl

/-- Results of `read` on a stream that has not ended. -/
structure Flowing (reads : List ReadRet) : Prop where
  eintr : ∀ e, .err e ∈ reads → e = .EINTR
  noEof : .ret [] ∉ reads

theorem flowing_nil : Flowing [] := ⟨by simp, by simp⟩

theorem Flowing.suffix {rest : List ReadRet} (cs : List ReadRet) (h : Flowing (cs ++ rest)) :
    Flowing rest :=
  ⟨fun e he => h.eintr e (List.mem_append_right _ he), fun he =>
    h.noEof (List.mem_append_right _ he)⟩

theorem Flowing.interrupted {reads : List ReadRet} (h : Flowing reads) :
    Flowing (reads ++ [.err .EINTR]) := by
  refine ⟨fun e he => ?_, fun he => ?_⟩
  · obtain he | he := List.mem_append.mp he
    · exact h.eintr e he
    · simpa using he
  · simpa using (List.mem_append.mp he).resolve_left h.noEof

theorem Flowing.data {reads : List ReadRet} {bs : List UInt8} (h : Flowing reads) (hne : bs ≠ []) :
    Flowing (reads ++ [.ret bs]) := by
  refine ⟨fun e he => ?_, fun he => ?_⟩
  · simpa using h.eintr e ((List.mem_append.mp he).resolve_right (by simp))
  · simpa [hne.symm] using (List.mem_append.mp he).resolve_left h.noEof

/-- `rio_read` returns if there is a byte. -/
theorem rioRead_returns_of_data {rp : RioT} {n : Nat} {reads : List ReadRet} (hflow : Flowing reads)
    (hne : rp.unread ++ dataOf reads ≠ []) : ∃ r, rioRead rp n reads = some r := by
  by_cases hcnt : rp.rioCnt ≤ 0
  · have hun : rp.unread = [] := by
      rw [RioT.unread, Int.toNat_of_nonpos hcnt, List.take_zero]
    rw [hun, List.nil_append] at hne
    induction reads generalizing rp with
    | nil => exact absurd rfl hne
    | cons x reads ih =>
        simp only [rioRead, if_pos hcnt]
        cases x with
        | err e =>
            obtain rfl := hflow.eintr e List.mem_cons_self
            simp only [if_true]
            exact ih (Flowing.suffix [.err .EINTR] hflow) hne (by simp) (by simp [RioT.unread])
        | ret bs =>
            cases bs with
            | nil => exact absurd List.mem_cons_self hflow.noEof
            | cons b bs =>
                exact ⟨_, rioRead_of_pos (by simp only [rioRefill, List.length_cons]; omega)⟩
  · exact ⟨_, rioRead_of_pos (by omega)⟩

/-- The line loop returns if there is a newline or no room for more. -/
theorem rioReadlinebLoop_returns_of_data {k n : Nat} {rp : RioT} {reads : List ReadRet}
    (usr : List UInt8) (hv : rp.Valid) (hflow : Flowing reads)
    (hline : newline ∈ rp.unread ++ dataOf reads ∨ k ≤ (rp.unread ++ dataOf reads).length) :
    ∃ r, rioReadlinebLoop k n rp usr reads = some r := by
  induction k generalizing n rp usr reads with
  | zero => exact ⟨_, rfl⟩
  | succ k ih =>
      have hne : rp.unread ++ dataOf reads ≠ [] := by
        rintro hnil
        simp [hnil] at hline
      obtain ⟨r, hr⟩ := rioRead_returns_of_data (n := 1) hflow hne
      obtain ⟨cs, rfl, hv', hsome⟩ := rioRead_spec hv (by decide) hr
      simp only [rioReadlinebLoop, hr]
      cases hsome.one with
      | byte b hret husr hfrom =>
          rw [if_pos hret, husr]
          split
          · exact ⟨_, rfl⟩
          · next hnl =>
              -- the other bytes are still to come
              have hrest : rp.unread ++ dataOf (cs ++ r.rest) =
                  b :: (r.rp.unread ++ dataOf r.rest) := by
                obtain ⟨hun, rfl⟩ | ⟨hun, hcs⟩ := hfrom
                · rw [hun]
                  rfl
                · rw [hun, dataOf_append, dataOf, hcs]
                  simp
              rw [hrest, List.mem_cons, List.length_cons] at hline
              refine ih _ hv' (hflow.suffix _) (hline.imp (fun h => h.resolve_left ?_) (by omega))
              rintro rfl
              exact hnl rfl
      | eof _ _ _ hend =>
          exact absurd (List.mem_append_left _ (List.mem_of_getLast? hend)) hflow.noEof
      | err e he _ _ _ hend =>
          exact absurd (hflow.eintr e (List.mem_append_left _ (List.mem_of_getLast? hend))) he

/-- The end of the stream where a line would begin. -/
theorem rioReadlinebLoop_eof {k : Nat} {rp : RioT} {reads : List ReadRet} {r : Res}
    (usr : List UInt8) (hr : rioRead rp 1 reads = some r) (hret : r.ret = 0) :
    rioReadlinebLoop (k + 1) 1 rp usr reads =
      some { ret := 0, usrbuf := usr, rp := r.rp, rest := r.rest } := by
  simp [rioReadlinebLoop, hr, hret]

/-- `rio_readlineb` waits for `read`, having got `got` of the line: no newline, and room for
more. -/
structure Pending (rp : RioT) (reads : List ReadRet) (got : List UInt8) : Prop where
  valid : rp.Valid
  flowing : Flowing reads
  got_eq : rp.unread ++ dataOf reads = got
  noNewline : newline ∉ got
  room : got.length < maxline - 1

namespace Pending

variable {rp : RioT} {reads : List ReadRet} {got bs : List UInt8}

/-- A call that has just begun, with nothing unread. -/
theorem start (hv : rp.Valid) (hun : rp.unread = []) : Pending rp [] [] :=
  ⟨hv, flowing_nil, by rw [hun]; rfl, by simp, by decide⟩

/-- The call has not returned. -/
theorem blocked (h : Pending rp reads got) : rioReadlineb rp maxline reads = none := by
  cases hr : rioReadlineb rp maxline reads with
  | none => rfl
  | some r =>
      obtain ⟨line, cs, rfl, -, hcut, hend⟩ := rioReadlinebLoop_spec h.valid (Nat.le_refl 1) hr
      have hline : line <+: got := by
        rw [← h.got_eq, dataOf_append, ← List.append_assoc, hcut.conserves, List.append_assoc]
        exact List.prefix_append _ _
      have hlen := hline.length_le
      have hroom := h.room
      cases hend with
      | newline body heq => exact absurd (hline.subset (by simp [heq])) h.noNewline
      | full _ hk => omega
      | eof _ _ _ hlast =>
          exact absurd (List.mem_append_left _ (List.mem_of_getLast? hlast)) h.flowing.noEof
      | err e he _ _ _ hlast =>
          exact absurd
            (h.flowing.eintr e (List.mem_append_left _ (List.mem_of_getLast? hlast))) he

theorem interrupted (h : Pending rp reads got) : Pending rp (reads ++ [.err .EINTR]) got :=
  ⟨h.valid, h.flowing.interrupted, by rw [dataOf_append]; simpa using h.got_eq, h.noNewline,
    h.room⟩

/-- Bytes that do not complete the line. -/
theorem data (h : Pending rp reads got) (hne : bs ≠ []) (hnl : newline ∉ got ++ bs)
    (hroom : (got ++ bs).length < maxline - 1) : Pending rp (reads ++ [.ret bs]) (got ++ bs) := by
  refine ⟨h.valid, h.flowing.data hne, ?_, hnl, hroom⟩
  rw [dataOf_append, ← List.append_assoc, h.got_eq]
  simp

/-- Bytes that complete the line: the call returns it, and nothing is left unread. -/
theorem line (h : Pending rp reads got) (hne : bs ≠ [])
    {body : List UInt8} (hline : got ++ bs = body ++ [newline]) (hbody : newline ∉ body)
    (hlen : (got ++ bs).length < maxline) :
    ∃ r, rioReadlineb rp maxline (reads ++ [.ret bs]) = some r ∧ r.ret = (got ++ bs).length ∧
      r.usrbuf = got ++ bs ++ [0] ∧ r.rp.Valid ∧ r.rp.unread = [] := by
  have hflow := h.flowing.data hne
  have hdata : rp.unread ++ dataOf (reads ++ [.ret bs]) = got ++ bs := by
    rw [dataOf_append, ← List.append_assoc, h.got_eq]
    simp
  obtain ⟨r, hr⟩ := rioReadlinebLoop_returns_of_data (k := maxline - 1) (n := 1) []
    h.valid hflow (.inl (by rw [hdata, hline]; simp))
  obtain ⟨l, cs, hcs, hv, hcut, hend⟩ := rioReadlinebLoop_spec h.valid (Nat.le_refl 1) hr
  have hall : got ++ bs = l ++ (r.rp.unread ++ dataOf r.rest) := by
    rw [← hdata, hcs, dataOf_append, ← List.append_assoc, hcut.conserves, List.append_assoc]
  refine ⟨r, hr, ?_⟩
  cases hend with
  | newline body' heq hbody' _ hret husr =>
      -- there is only one newline, at the end
      rw [heq] at hall husr
      have hnil : r.rp.unread ++ dataOf r.rest = [] := by
        rw [hline] at hall
        by_contra hrest
        have hmem := congrArg List.dropLast hall
        rw [List.dropLast_concat, List.dropLast_append_of_ne_nil hrest] at hmem
        exact hbody (by rw [hmem]; simp)
      rw [hnil, List.append_nil] at hall
      refine ⟨?_, by rw [husr, hall]; rfl, hv, (List.append_eq_nil_iff.mp hnil).1⟩
      rw [hret, hall, List.length_append, List.length_singleton]
      push_cast
      omega
  | full hnl hk =>
      -- a line that fits is not cut
      have hlen' := congrArg List.length hall
      rw [show (l ++ (r.rp.unread ++ dataOf r.rest)).length = _ from List.length_append] at hlen'
      have hrest : r.rp.unread ++ dataOf r.rest = [] := by
        rw [← List.length_eq_zero_iff]
        have hmax : maxline = 8192 := rfl
        omega
      rw [hrest, List.append_nil, hline] at hall
      exact absurd (by rw [← hall]; simp) hnl
  | eof _ _ _ hlast =>
      exact absurd (hcs ▸ List.mem_append_left _ (List.mem_of_getLast? hlast)) hflow.noEof
  | err e he _ _ _ hlast =>
      exact absurd
        (hflow.eintr e (hcs ▸ List.mem_append_left _ (List.mem_of_getLast? hlast))) he

/-- The end of the stream between two lines. -/
theorem eof (h : Pending rp reads []) :
    ∃ r, rioReadlineb rp maxline (reads ++ [.ret []]) = some r ∧ r.ret = 0 := by
  obtain ⟨hun, hdata⟩ := List.append_eq_nil_iff.mp h.got_eq
  obtain ⟨r, hr⟩ : ∃ r, rioRead rp 1 (reads ++ [.ret []]) = some r :=
    rioRead_returns (List.mem_append_right _ List.mem_cons_self)
  obtain ⟨cs, hcs, -, hsome⟩ := rioRead_spec h.valid (by decide) hr
  cases hsome.one with
  | byte b _ _ hfrom =>
      obtain ⟨hun', -⟩ | ⟨-, hchunks⟩ := hfrom
      · rw [hun] at hun'
        contradiction
      · have hall := congrArg dataOf hcs
        rw [dataOf_append, dataOf_append, hdata, dataOf, dataOf, hchunks] at hall
        simp at hall
  | eof hret =>
      exact ⟨_, rioReadlinebLoop_eof (k := maxline - 2) [] hr hret, rfl⟩
  | err e he _ _ _ hend =>
      have hmem := hcs ▸ List.mem_append_left r.rest (List.mem_of_getLast? hend)
      exact absurd (h.flowing.eintr e (by simpa using hmem)) he

end Pending

/-! ## writing a buffer -/

/-- How many bytes `write` calls with these results have taken. -/
def taken (writes : List WriteRet) : Nat :=
  (writes.map fun
    | .ret n => n
    | .fail _ => 0).sum

/-- `write` calls in the loop of `rio_writen`, with `nleft` bytes left at first: each takes some
of the bytes it is offered or is interrupted. -/
def Offers : Nat → List WriteRet → Prop
  | _, [] => True
  | nleft, .ret n :: writes => 0 < n ∧ n ≤ nleft ∧ Offers (nleft - n) writes
  | nleft, .fail e :: writes => e = .EINTR ∧ Offers nleft writes

namespace Offers

variable {buf : List UInt8} {n nleft off : Nat} {writes : List WriteRet}

theorem taken_le (h : Offers nleft writes) : taken writes ≤ nleft := by
  induction writes generalizing nleft with
  | nil => exact Nat.zero_le _
  | cons w writes ih =>
      cases w with
      | ret k =>
          have hle := ih h.2.2
          have hk := h.2.1
          simp only [taken, List.map_cons, List.sum_cons] at hle ⊢
          omega
      | fail e => simpa [taken] using ih h.2

theorem interrupted (h : Offers nleft writes) : Offers nleft (writes ++ [.fail .EINTR]) := by
  induction writes generalizing nleft with
  | nil => exact ⟨rfl, trivial⟩
  | cons w writes ih =>
      cases w with
      | ret k => exact ⟨h.1, h.2.1, ih h.2.2⟩
      | fail e => exact ⟨h.1, ih h.2⟩

theorem more {k : Nat} (h : Offers nleft writes) (hpos : 0 < k) (hk : taken writes + k ≤ nleft) :
    Offers nleft (writes ++ [.ret k]) := by
  induction writes generalizing nleft with
  | nil => exact ⟨hpos, by simpa [taken] using hk, trivial⟩
  | cons w writes ih =>
      cases w with
      | ret j =>
          have hj := h.2.1
          simp only [taken, List.map_cons, List.sum_cons] at hk
          exact ⟨h.1, h.2.1, ih h.2.2 (by unfold taken; omega)⟩
      | fail e => exact ⟨h.1, ih h.2 (by simpa [taken] using hk)⟩

/-- The loop waits for `write` until all bytes have been taken. -/
theorem loop_blocked (h : Offers nleft writes) (hlt : taken writes < nleft) :
    rioWritenLoop buf n nleft off writes = none := by
  induction writes generalizing nleft off with
  | nil =>
      obtain ⟨nleft, rfl⟩ := Nat.exists_eq_succ_of_ne_zero (by omega : nleft ≠ 0)
      rfl
  | cons w writes ih =>
      obtain ⟨nleft, rfl⟩ := Nat.exists_eq_succ_of_ne_zero (by omega : nleft ≠ 0)
      cases w with
      | ret k =>
          simp only [taken, List.map_cons, List.sum_cons] at hlt
          simp only [rioWritenLoop, if_pos (show 0 < k ∧ k ≤ nleft + 1 from ⟨h.1, h.2.1⟩)]
          rw [ih h.2.2 (by unfold taken; omega)]
      | fail e =>
          obtain ⟨rfl, hrest⟩ := h
          simp only [rioWritenLoop, if_true]
          exact ih hrest (by simpa [taken] using hlt)

/-- The loop returns once all bytes have been taken. -/
theorem loop_returns (off : Nat) (h : Offers nleft writes) (hall : taken writes = nleft) :
    ∃ p, rioWritenLoop buf n nleft off writes = some p := by
  induction writes generalizing nleft off with
  | nil =>
      obtain rfl : 0 = nleft := hall
      exact ⟨_, rfl⟩
  | cons w writes ih =>
      cases nleft with
      | zero => exact ⟨_, rfl⟩
      | succ nleft =>
          cases w with
          | ret k =>
              simp only [taken, List.map_cons, List.sum_cons] at hall
              obtain ⟨p, hp⟩ := ih (off + k) h.2.2 (by unfold taken; omega)
              simp only [rioWritenLoop, if_pos (show 0 < k ∧ k ≤ nleft + 1 from ⟨h.1, h.2.1⟩), hp]
              exact ⟨_, rfl⟩
          | fail e =>
              obtain ⟨rfl, hrest⟩ := h
              simp only [rioWritenLoop, if_true]
              exact ih off hrest (by simpa [taken] using hall)

theorem blocked (h : Offers n writes) (hlt : taken writes < n) : rioWriten buf n writes = none :=
  h.loop_blocked hlt

theorem returns (buf : List UInt8) (h : Offers n writes) (hall : taken writes = n) :
    ∃ p, rioWriten buf n writes = some p :=
  h.loop_returns 0 hall

end Offers

theorem taken_snoc_ret (writes : List WriteRet) (k : Nat) :
    taken (writes ++ [.ret k]) = taken writes + k := by
  simp [taken]

theorem taken_snoc_fail (writes : List WriteRet) (e : Errno) :
    taken (writes ++ [.fail e]) = taken writes := by
  simp [taken]

end SysDemos.Rio
