import SysDemos.Sys

/-!
# SysDemos.HotUpgrade.SendFd

`send_fd` and `recv_fd` of `hot_upgrade_demo/unix_socket.cc`: a descriptor, or an error code in its
place, in a message of a text, a NUL and a status byte.

`recv_fd` calls `recvmsg` once and scans what it has got for a NUL.  The model is of a call from
that `recvmsg` on; that `malloc` fails is left out.  A call that has found no NUL runs off the end
of the function, without a value (`Outcome.noValue`).

* `recvFd_format_iff` — which receives `recv_fd` treats as its message format says;
* `sendFd_recvFd` — what `send_fd` sends, `recv_fd` returns.
-/

namespace SysDemos.HotUpgrade

/-- `MAXLINE` of `unix_socket.cc`, the size of the buffer of `recv_fd`. -/
def recvBufSize : Nat := 1024

/-- A message: its bytes, and the descriptor if a control message of length `CONTROLLEN` is with
them. -/
structure FdMsg where
  bytes : List UInt8
  fd : Option Int
  deriving DecidableEq, Repr

/-- The value of a byte as a `char`, which is signed. -/
def charOf (b : UInt8) : Int := Int.bmod b.toNat 256

/-- Conversion of an `int` to a `char`, as the byte that is stored. -/
def toChar (x : Int) : UInt8 := UInt8.ofNat (x % 256).toNat

/-! ## `send_fd` -/

/-- `send_fd`: the message it passes to `sendmsg`. -/
def sendFd (fdToSend : Int) : FdMsg :=
  if fdToSend < 0 then
    let code := toChar (-fdToSend)
    { bytes := [0, if code = 0 then 1 else code], fd := none }
  else { bytes := [0, 0], fd := some fdToSend }

/-! ## `recv_fd` -/

/-- How a call ends: `exit(-1)` after a message, `return newfd`, or at the end of the function. -/
inductive Outcome where
  | exit (message : String)
  | returns (newfd : Int)
  | noValue
  deriving DecidableEq, Repr

/-- The variables of `recv_fd` the scan changes; `newfd` is not initialised. -/
structure Scan where
  nr : Nat
  status : Int
  newfd : Option Int
  deriving DecidableEq, Repr

/-- The scan.  `ptr` is an offset into `buf`, of which `rest` is the part from there on. -/
def recvScan (fd : Option Int) : List UInt8 → Nat → Scan → Except String Scan
  | [], _, v => .ok v
  | b :: rest, ptr, v =>
    if ptr < v.nr then
      if b = 0 then
        if ptr + 1 ≠ v.nr - 1 then .error "message format error"
        else
          let status := charOf (rest.headD 0) % 256
          if status = 0 then
            match fd with
            | none => .error "status = 0 but no fd"
            | some newfd => recvScan fd rest (ptr + 1) ⟨v.nr - 2, status, some newfd⟩
          else recvScan fd rest (ptr + 1) ⟨v.nr - 2, status, some (-status)⟩
      else recvScan fd rest (ptr + 1) v
    else .ok v

/-- The end of `recv_fd`: the text goes to `userfunc`, and the result is returned if there is
one. -/
def recvReturn (userfunc : List UInt8 → Int) (buf : List UInt8) (v : Scan) :
    Outcome × List (List UInt8) :=
  let passed := if 0 < v.nr then [buf.take v.nr] else []
  if 0 < v.nr ∧ userfunc (buf.take v.nr) ≠ v.nr then (.exit "nr > 0", passed)
  else if 0 ≤ v.status then
    match v.newfd with
    | some newfd => (.returns newfd, passed)
    | none => (.noValue, passed)
  else (.noValue, passed)

/-- `recv_fd`, given what `recvmsg` gives (`none` for a failure): how it ends, and what it has
passed to `userfunc`. -/
def recvFd (userfunc : List UInt8 → Int) : Option FdMsg → Outcome × List (List UInt8)
  | none => (.exit "recv msg error", [])
  | some msg =>
    if msg.bytes = [] then (.exit "connection closed by server", [])
    else
      match recvScan msg.fd msg.bytes 0 ⟨msg.bytes.length, -1, none⟩ with
      | .error message => (.exit message, [])
      | .ok v => recvReturn userfunc msg.bytes v

/-! ## the scan -/

/-- The bytes in front of the first NUL are skipped. -/
theorem recvScan_skip {fd : Option Int} {t rest : List UInt8} {ptr : Nat} {v : Scan} (ht : 0 ∉ t)
    (hnr : ptr + t.length ≤ v.nr) :
    recvScan fd (t ++ rest) ptr v = recvScan fd rest (ptr + t.length) v := by
  induction t generalizing ptr with
  | nil => rfl
  | cons b t ih =>
      rw [List.length_cons] at hnr
      have hb : b ≠ 0 := fun hb => ht (by rw [hb]; exact List.mem_cons_self)
      rw [List.cons_append, recvScan, if_pos (by omega), if_neg hb,
        ih (fun hmem => ht (List.mem_cons_of_mem _ hmem)) (by omega), List.length_cons]
      congr 1
      omega

/-- Without a NUL the scan ends as it has begun. -/
theorem recvScan_noNul {fd : Option Int} {bytes : List UInt8} {v : Scan} (h : 0 ∉ bytes)
    (hnr : bytes.length ≤ v.nr) : recvScan fd bytes 0 v = .ok v := by
  have hskip : recvScan fd (bytes ++ []) 0 v = recvScan fd [] (0 + bytes.length) v :=
    recvScan_skip h (by omega)
  rwa [List.append_nil] at hskip

/-- A byte is the value of its `char`, masked. -/
theorem charOf_emod (b : UInt8) : charOf b % 256 = b.toNat := by
  have hlt := b.toNat_lt
  have hmod : Int.bmod b.toNat 256 % (256 : Nat) = b.toNat % (256 : Nat) := Int.bmod_emod
  unfold charOf
  omega

/-- A NUL that is not the last byte but one is refused. -/
theorem recvScan_format {fd : Option Int} {t rest : List UInt8} {status : Int} {newfd : Option Int}
    (ht : 0 ∉ t) (hrest : rest.length ≠ 1) :
    recvScan fd (t ++ 0 :: rest) 0 ⟨(t ++ 0 :: rest).length, status, newfd⟩ =
      .error "message format error" := by
  rw [recvScan_skip ht (by simp), recvScan]
  simp only [List.length_append, List.length_cons]
  rw [if_pos (by omega), if_pos trivial, if_pos (by omega)]

/-- The result of a message with this status byte. -/
def resultOf (fd : Option Int) (s : UInt8) : Option Int :=
  if s = 0 then fd else some (-s.toNat)

/-- A message of the right format sets the result and takes the NUL and the status byte off the
length. -/
theorem recvScan_message {fd : Option Int} {t : List UInt8} {s : UInt8} {status : Int}
    {newfd : Option Int} (ht : 0 ∉ t) :
    recvScan fd (t ++ [0, s]) 0 ⟨(t ++ [0, s]).length, status, newfd⟩ =
      match resultOf fd s with
      | some result => .ok ⟨t.length, s.toNat, some result⟩
      | none => .error "status = 0 but no fd" := by
  rw [recvScan_skip ht (by simp), recvScan]
  simp only [List.length_append, List.length_cons, List.length_nil, List.headD_cons, charOf_emod]
  rw [if_pos (by omega), if_pos trivial, if_neg (by omega)]
  have hzero : (s.toNat : Int) = 0 ↔ s = 0 := by
    rw [← UInt8.toNat_inj]
    exact Int.natCast_eq_zero
  -- the scan has passed the new end
  have hend : ∀ v : Scan, v.nr = t.length → recvScan fd [s] (0 + t.length + 1) v = .ok v := by
    intro v hv
    rw [recvScan, if_neg (by omega)]
  by_cases hs : s = 0
  · rw [if_pos (hzero.mpr hs), resultOf, if_pos hs]
    cases fd with
    | none => rfl
    | some newfd => exact hend _ (by simp)
  · rw [if_neg fun h => hs (hzero.mp h), resultOf, if_neg hs]
    exact hend _ (by simp)

/-! ## the message format -/

/-- A text without NUL, a NUL and a status byte. -/
def WellFormed (bytes : List UInt8) : Prop := ∃ t s, 0 ∉ t ∧ bytes = t ++ [0, s]

/-- The texts passed to `userfunc`: none if the text is empty. -/
def passed (t : List UInt8) : List (List UInt8) := if 0 < t.length then [t] else []

variable {userfunc : List UInt8 → Int} {msg : FdMsg}

/-- A message received whole. -/
theorem recvFd_message {t : List UInt8} {s : UInt8} {result : Int}
    (huser : 0 < t.length → userfunc t = t.length) (ht : 0 ∉ t) (hbytes : msg.bytes = t ++ [0, s])
    (hresult : resultOf msg.fd s = some result) :
    recvFd userfunc (some msg) = (.returns result, passed t) := by
  have htake : (t ++ [0, s]).take t.length = t := List.take_left
  rw [recvFd, if_neg (by rw [hbytes]; simp), hbytes, recvScan_message ht, hresult]
  simp only [recvReturn, htake, passed]
  rw [if_neg fun h => h.2 (huser h.1), if_pos (by omega)]

/-- Without a NUL there is no result, and no error. -/
theorem recvFd_noNul (huser : ∀ bs, userfunc bs = bs.length) (hne : msg.bytes ≠ [])
    (h : 0 ∉ msg.bytes) : (recvFd userfunc (some msg)).1 = .noValue := by
  have htake : msg.bytes.take msg.bytes.length = msg.bytes := List.take_length
  rw [recvFd, if_neg hne, recvScan_noNul h (Nat.le_refl _)]
  simp only [recvReturn, htake, huser, ne_eq, not_true_eq_false, and_false, if_false]
  rfl

/-- With a NUL the call returns a result or reports an error; for a message of another format it
reports one. -/
theorem recvFd_nul (huser : ∀ bs, userfunc bs = bs.length) (h : 0 ∈ msg.bytes) :
    (WellFormed msg.bytes ∧ ∃ result, (recvFd userfunc (some msg)).1 = .returns result) ∨
      ∃ message, (recvFd userfunc (some msg)).1 = .exit message := by
  obtain ⟨t, rest, hbytes, ht⟩ := List.eq_append_cons_of_mem h
  have hne : msg.bytes ≠ [] := List.ne_nil_of_mem h
  by_cases hrest : rest.length = 1
  · obtain ⟨s, rfl⟩ := List.length_eq_one_iff.mp hrest
    cases hresult : resultOf msg.fd s with
    | some result =>
        exact .inl ⟨⟨t, s, ht, hbytes⟩, result,
          by rw [recvFd_message (fun _ => huser t) ht hbytes hresult]⟩
    | none =>
        refine .inr ⟨"status = 0 but no fd", ?_⟩
        rw [recvFd, if_neg hne, hbytes, recvScan_message ht, hresult]
  · refine .inr ⟨"message format error", ?_⟩
    rw [recvFd, if_neg hne, hbytes, recvScan_format ht hrest]

/-- A stream that arrives in these pieces. -/
structure Delivery (pieces : List FdMsg) (stream : List UInt8) : Prop where
  nonempty : ∀ m ∈ pieces, m.bytes ≠ []
  stream : (pieces.map FdMsg.bytes).flatten = stream

/-- The descriptor that is attached to one of the pieces. -/
def attached (pieces : List FdMsg) : Option Int := pieces.findSome? FdMsg.fd

/-- What is expected of `recv_fd`: it returns the result of a message in whatever pieces it
arrives, reports an error for anything else, and always has a value to return. -/
def AcceptsFormat (userfunc : List UInt8 → Int) : Prop :=
  (∀ t s pieces result, 0 ∉ t → (t ++ [0, s]).length ≤ recvBufSize →
    Delivery pieces (t ++ [0, s]) → resultOf (attached pieces) s = some result →
      recvFd userfunc pieces.head? = (.returns result, passed t)) ∧
  (∀ msg, msg.bytes ≠ [] → ¬ WellFormed msg.bytes →
    ∃ message, (recvFd userfunc (some msg)).1 = .exit message) ∧
  (∀ received, (recvFd userfunc received).1 ≠ .noValue)

/-- The text and the two bytes behind it arrive separately: there is no second `recvmsg`. -/
theorem not_acceptsFormat : ¬ AcceptsFormat fun bs => bs.length := by
  intro h
  have hsplit := h.1 [104, 105] 1 [⟨[104, 105], none⟩, ⟨[0, 1], none⟩] (-1) (by decide) (by decide)
    ⟨by decide, rfl⟩ rfl
  exact absurd hsplit (by decide)

/-- A message in two or more pieces has no NUL in the first, or ends with it there. -/
theorem first_piece {t rest : List UInt8} {s : UInt8} (ht : 0 ∉ t)
    (hstream : msg.bytes ++ rest = t ++ [0, s]) (hrest : rest ≠ []) :
    0 ∉ msg.bytes ∨ msg.bytes = t ++ [0] := by
  have hlen := congrArg List.length hstream
  simp only [List.length_append, List.length_cons, List.length_nil] at hlen
  have hpos := List.length_pos_iff.mpr hrest
  by_cases hle : msg.bytes.length ≤ t.length
  · left
    have hfront : msg.bytes <+: t := by
      have hpre : msg.bytes <+: t ++ [0, s] := ⟨rest, hstream⟩
      exact List.prefix_of_prefix_length_le hpre (List.prefix_append _ _) hle
    exact fun hmem => ht (hfront.subset hmem)
  · right
    have hpre : msg.bytes <+: t ++ [0, s] := ⟨rest, hstream⟩
    have hpre' : t ++ [0] <+: t ++ [0, s] := ⟨[s], by simp⟩
    exact (List.prefix_of_prefix_length_le hpre hpre' (by simp; omega)).eq_of_length
      (by simp; omega)

/-- **The format of `recv_fd`**: a message is handled as expected exactly if it arrives in one
piece; of the other byte strings exactly those with a NUL are reported as errors; and exactly
those received without a NUL leave `recv_fd` without a value to return. -/
theorem recvFd_format_iff (userfunc : List UInt8 → Int) (huser : ∀ bs, userfunc bs = bs.length) :
    (∀ t s pieces result, 0 ∉ t → (t ++ [0, s]).length ≤ recvBufSize →
      Delivery pieces (t ++ [0, s]) → resultOf (attached pieces) s = some result →
        (recvFd userfunc pieces.head? = (.returns result, passed t) ↔ pieces.length = 1)) ∧
    (∀ msg : FdMsg, msg.bytes ≠ [] → ¬ WellFormed msg.bytes →
      ((∃ message, (recvFd userfunc (some msg)).1 = .exit message) ↔ 0 ∈ msg.bytes)) ∧
    (∀ received, (recvFd userfunc received).1 = .noValue ↔
      ∃ msg, received = some msg ∧ msg.bytes ≠ [] ∧ 0 ∉ msg.bytes) := by
  refine ⟨?_, ?_, ?_⟩
  · intro t s pieces result ht _ hdelivery hresult
    cases pieces with
    | nil =>
        have hstream := hdelivery.stream
        simp at hstream
    | cons first others =>
        have hstream := hdelivery.stream
        rw [List.map_cons, List.flatten_cons] at hstream
        rw [List.head?_cons]
        constructor
        · intro hright
          by_contra hmore
          -- what has not been received yet is not empty
          have hrest : (others.map FdMsg.bytes).flatten ≠ [] := by
            cases others with
            | nil => exact absurd rfl hmore
            | cons second others =>
                have hne := hdelivery.nonempty second (by simp)
                simp [hne]
          obtain hnone | hcut := first_piece ht hstream hrest
          · have hvalue := recvFd_noNul huser (hdelivery.nonempty first List.mem_cons_self) hnone
            rw [hright] at hvalue
            contradiction
          · have herror : recvFd userfunc (some first) = (.exit "message format error", []) := by
              rw [recvFd, if_neg (by rw [hcut]; simp), hcut, recvScan_format ht (by simp)]
            rw [hright, Prod.mk.injEq] at herror
            exact absurd herror.1 (by simp)
        · intro hone
          obtain rfl : others = [] := List.length_eq_zero_iff.mp (by simpa using hone)
          rw [List.map_nil, List.flatten_nil, List.append_nil] at hstream
          have hfd : attached [first] = first.fd := by
            unfold attached
            cases hfirst : first.fd <;> simp [hfirst]
          rw [hfd] at hresult
          exact recvFd_message (fun _ => huser t) ht hstream hresult
  · intro msg hne hformat
    constructor
    · rintro ⟨message, hexit⟩
      by_contra hnone
      rw [recvFd_noNul huser hne hnone] at hexit
      contradiction
    · intro hmem
      obtain ⟨hwell, -⟩ | hexit := recvFd_nul huser hmem
      · exact absurd hwell hformat
      · exact hexit
  · intro received
    constructor
    · intro hvalue
      cases received with
      | none => contradiction
      | some msg =>
          by_cases hne : msg.bytes = []
          · rw [recvFd, if_pos hne] at hvalue
            contradiction
          · refine ⟨msg, rfl, hne, fun hmem => ?_⟩
            obtain ⟨-, result, hreturns⟩ | ⟨message, hexit⟩ := recvFd_nul huser hmem
            · rw [hreturns] at hvalue
              contradiction
            · rw [hexit] at hvalue
              contradiction
    · rintro ⟨msg, rfl, hne, hnone⟩
      exact recvFd_noNul huser hne hnone

/-- An error code behind a text of two bytes, in one piece. -/
theorem recvFd_format_one_piece :
    recvFd (fun bs => bs.length) (some ⟨[104, 105, 0, 7], none⟩) = (.returns (-7), [[104, 105]]) :=
  ((recvFd_format_iff (fun bs => bs.length) fun _ => rfl).1 [104, 105] 7
    [⟨[104, 105, 0, 7], none⟩] (-7) (by decide) (by decide) ⟨by decide, rfl⟩ rfl).mpr rfl

/-! ## both ends -/

/-- What arrives of a message: the receiver has its own number for the descriptor. -/
def FdMsg.received (install : Int → Int) (m : FdMsg) : FdMsg :=
  { m with fd := m.fd.map install }

/-- The status byte of an error code. -/
theorem toChar_toNat (x : Int) : ((toChar x).toNat : Int) = x % 256 := by
  have hpos := Int.emod_nonneg x (show (256 : Int) ≠ 0 by decide)
  have hlt := Int.emod_lt_of_pos x (show (0 : Int) < 256 by decide)
  rw [toChar, UInt8.toNat_ofNat']
  omega

/-- **`send_fd` and `recv_fd` agree**: a descriptor that is sent is returned, as the receiver's
number for it; an error code down to -255 is returned as it is; and every error code is returned as
one. -/
theorem sendFd_recvFd (userfunc : List UInt8 → Int) (install : Int → Int) (fdToSend : Int)
    (hmin : -2 ^ 31 < fdToSend) (hmax : fdToSend < 2 ^ 31) :
    ∃ result,
      recvFd userfunc (some ((sendFd fdToSend).received install)) = (.returns result, []) ∧
      (0 ≤ fdToSend → result = install fdToSend) ∧
      (-255 ≤ fdToSend → fdToSend ≤ -1 → result = fdToSend) ∧
      (fdToSend < 0 → -255 ≤ result ∧ result ≤ -1) := by
  -- both ends of a message that consists of a status byte only
  have hempty : ∀ (m : FdMsg) s result, m.bytes = [0, s] → resultOf m.fd s = some result →
      recvFd userfunc (some m) = (.returns result, []) := fun m s result hbytes hresult =>
    recvFd_message (t := []) nofun List.not_mem_nil hbytes hresult
  by_cases hneg : fdToSend < 0
  · have hbyte := toChar_toNat (-fdToSend)
    by_cases hcode : toChar (-fdToSend) = 0
    · -- a multiple of 256 is sent as 1
      refine ⟨-1, hempty _ 1 _ ?_ rfl, fun h => by omega, fun h₁ h₂ => ?_, fun _ => by omega⟩
      · simp [FdMsg.received, sendFd, hneg, hcode]
      · rw [hcode] at hbyte
        simp at hbyte
        omega
    · have hpos : (toChar (-fdToSend)).toNat ≠ 0 := fun h => hcode (UInt8.toNat_inj.mp h)
      have hlt := (toChar (-fdToSend)).toNat_lt
      refine ⟨-(toChar (-fdToSend)).toNat, hempty _ (toChar (-fdToSend)) _ ?_ ?_, fun h => by omega,
        fun h₁ h₂ => by omega, fun _ => by omega⟩
      · simp [FdMsg.received, sendFd, hneg, hcode]
      · rw [resultOf, if_neg hcode]
  · refine ⟨install fdToSend, hempty _ 0 _ ?_ ?_, fun _ => rfl, fun h₁ h₂ => by omega,
      fun h => absurd h hneg⟩
    · simp [FdMsg.received, sendFd, hneg]
    · simp [FdMsg.received, sendFd, hneg, resultOf]

/-- The code -200 does not fit a signed `char`, and comes back. -/
theorem sendFd_recvFd_above_127 :
    recvFd (fun _ => 0) (some ((sendFd (-200)).received id)) = (.returns (-200), []) := by
  obtain ⟨result, hrecv, -, hsame, -⟩ :=
    sendFd_recvFd (fun _ => 0) id (-200) (by decide) (by decide)
  rw [hrecv, hsame (by decide) (by decide)]

end SysDemos.HotUpgrade
