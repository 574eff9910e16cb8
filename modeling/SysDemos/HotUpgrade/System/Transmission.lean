import SysDemos.HotUpgrade.System.Framing

/-!
# SysDemos.HotUpgrade.System.Transmission

What a call of `TransferListenFd` or `TransferSessionFd` puts on the unix
connection.

The send loop adds up what its `sendmsg` calls return, but passes the same
`msghdr` to each of them: after a short count the message starts again from its
first byte, with the descriptor once more.  The count can then reach
`MSG_DATA_BUF_LEN` although the bytes are not the message, or pass it after more
bytes than a message has.  A transfer is exact just when one `sendmsg` takes the
whole message, or when it fails before that many bytes are counted.

* `exact_iff` — for every sequence of results, whatever the order;
* `Transmission.of_serve` — a transfer in the system is such a call.
-/

namespace SysDemos.HotUpgrade

open Lts

/-- A call of `TransferListenFd` or `TransferSessionFd`: where it stands and what it
has appended to the stream. -/
structure Transmission where
  transfer : Transfer
  appended : List Cell
  deriving DecidableEq, Repr

/-- What a `sendmsg` of the message appends to the stream. -/
def appendedBy (t : MsgRequestType) (obj : Obj) : WriteRet → List Cell
  | .ret n => cellsOf (some obj) ((msgDataBuf t).take n)
  | .fail _ => []

namespace Transmission

variable {t : MsgRequestType} {obj : Obj} {s s' : Transmission} {i : Input} {is : List Input}

/-- The call begins. -/
def start : Transmission := { transfer := .send 0, appended := [] }

/-- The next system call of a transfer. -/
def step (t : MsgRequestType) (obj : Obj) (s : Transmission) (i : Input) : Option Transmission :=
  match s.transfer, i with
  | .send n, .sendmsg r =>
    if sendFits r then
      some { transfer := sendLoop n r, appended := s.appended ++ appendedBy t obj r }
    else none
  | .getReply, .getReply _ => some { s with transfer := .done .kSendMsgOk }
  | _, _ => none

/-- What a transfer that returned `sms` should have appended: the message once, with
one descriptor, or at most as many bytes. -/
def Exact (t : MsgRequestType) (obj : Obj) (sms : SendMsgStatus) (cells : List Cell) : Prop :=
  (sms = .kSendMsgOk →
    cells.map (·.byte) = msgDataBuf t ∧ cells.filterMap (·.desc) = [obj]) ∧
  (sms ≠ .kSendMsgOk → cells.length ≤ msgDataBufLen)

/-- The counts that the `sendmsg` calls of a run have returned. -/
def counts (is : List Input) : List Nat :=
  is.filterMap fun
    | .sendmsg (.ret n) => some n
    | _ => none

/-! ## cells -/

theorem msgDataBuf_take_ne_nil {n : Nat} (h : 0 < n) : (msgDataBuf t).take n ≠ [] := by
  rw [← List.length_pos_iff, List.length_take, length_msgDataBuf]
  exact Nat.lt_min.mpr ⟨h, by decide⟩

/-- The descriptors of pieces of the message, each sent from its start. -/
theorem descs_flatMap {ns : List Nat} (h : ∀ n ∈ ns, 0 < n ∧ n ≤ msgDataBufLen) :
    (ns.flatMap fun n => cellsOf (some obj) ((msgDataBuf t).take n)).filterMap (·.desc) =
      List.replicate ns.length obj := by
  induction ns with
  | nil => rfl
  | cons n ns ih =>
      have hne := msgDataBuf_take_ne_nil (t := t) (h n (List.mem_cons_self ..)).1
      have hrest := ih fun m hm => h m (List.mem_cons_of_mem n hm)
      rw [List.flatMap_cons, List.filterMap_append, descs_cellsOf hne, hrest]
      rfl

theorem length_flatMap {ns : List Nat} (h : ∀ n ∈ ns, 0 < n ∧ n ≤ msgDataBufLen) :
    (ns.flatMap fun n => cellsOf (some obj) ((msgDataBuf t).take n)).length = ns.sum := by
  induction ns with
  | nil => rfl
  | cons n ns ih =>
      have hle := (h n (List.mem_cons_self ..)).2
      have hrest := ih fun m hm => h m (List.mem_cons_of_mem n hm)
      rw [List.flatMap_cons, List.length_append, length_cellsOf, List.length_take,
        length_msgDataBuf, Nat.min_eq_left hle, hrest, List.sum_cons]

/-! ## what the counts tell -/

/-- The counts `ns` have been returned so far. -/
structure Sent (t : MsgRequestType) (obj : Obj) (ns : List Nat) (s : Transmission) : Prop where
  fits : ∀ n ∈ ns, 0 < n ∧ n ≤ msgDataBufLen
  appended : s.appended = ns.flatMap fun n => cellsOf (some obj) ((msgDataBuf t).take n)
  send : ∀ n, s.transfer = .send n → n = ns.sum ∧ n < msgDataBufLen
  ok : s.transfer = .getReply ∨ s.transfer = .done .kSendMsgOk → ns.sum = msgDataBufLen
  error : s.transfer = .done .kSendMsgError → ns.sum ≠ msgDataBufLen

theorem sent_start : Sent t obj [] start where
  fits := nofun
  appended := rfl
  send n h := by
    cases h
    exact ⟨rfl, by decide⟩
  ok h := nomatch h
  error h := nomatch h

/-- A `sendmsg` that takes `k` bytes. -/
theorem Sent.ret {ns : List Nat} {n k : Nat} (h : Sent t obj ns s) (hsend : s.transfer = .send n)
    (hk : 0 < k ∧ k ≤ msgDataBufLen) :
    Sent t obj (ns ++ [k])
      { transfer := sendLoop n (.ret k), appended := s.appended ++ appendedBy t obj (.ret k) } := by
  have hsum : (ns ++ [k]).sum = n + k := by simp [(h.send n hsend).1]
  refine ⟨fun m hm => ?_, by simp [h.appended, appendedBy], fun m hm => ?_, fun hm => ?_,
    fun hm => ?_⟩
  · obtain hm | hm := List.mem_append.mp hm
    · exact h.fits m hm
    · cases List.mem_singleton.mp hm
      exact hk
  -- the three ends of the loop: going on, the exact count, too high a count
  all_goals
    rw [hsum]
    simp only [sendLoop] at hm
    split at hm
  · cases hm
    exact ⟨rfl, by assumption⟩
  · split at hm <;> contradiction
  · simp at hm
  · split at hm
    · simp at hm
    · omega
  · contradiction
  · split at hm
    · assumption
    · contradiction

/-- A `sendmsg` that fails. -/
theorem Sent.fail {ns : List Nat} {n : Nat} {e : Errno} (h : Sent t obj ns s)
    (hsend : s.transfer = .send n) :
    Sent t obj ns
      { transfer := sendLoop n (.fail e)
        appended := s.appended ++ appendedBy t obj (.fail e) } := by
  obtain ⟨hn, hlt⟩ := h.send n hsend
  refine ⟨h.fits, by simp [h.appended, appendedBy], fun m hm => ?_, fun hm => ?_, fun _ => by omega⟩
  · cases e <;> cases hm
    · exact ⟨hn, hlt⟩
    · exact ⟨hn, hlt⟩
  · cases e <;> simp [sendLoop] at hm

theorem Sent.step (h : Sent t obj (counts is) s) (hs : s.step t obj i = some s') :
    Sent t obj (counts (is ++ [i])) s' := by
  rw [counts, List.filterMap_append]
  unfold Transmission.step at hs
  split at hs
  · next n r hsend =>
      obtain ⟨hfits, ⟨⟩⟩ := Option.ite_none_right_eq_some.mp hs
      cases r with
      | ret k => exact h.ret hsend (by simpa [sendFits] using hfits)
      | fail e =>
          rw [List.filterMap_cons_none rfl, List.filterMap_nil, List.append_nil]
          exact h.fail hsend
  · next hreply =>
      cases hs
      rw [List.filterMap_cons_none rfl, List.filterMap_nil, List.append_nil]
      exact ⟨h.fits, h.appended, nofun, fun _ => h.ok (.inl hreply), nofun⟩
  · contradiction

theorem sent_of_run (hrun : Run (step t obj) any start is s) : Sent t obj (counts is) s := by
  induction hrun with
  | nil => exact sent_start
  | snoc _ _ hs ih => exact ih.step hs

/-- Each `sendmsg` that returned a count has passed a descriptor. -/
theorem Sent.descs {ns : List Nat} (h : Sent t obj ns s) :
    s.appended.filterMap (·.desc) = List.replicate ns.length obj := by
  rw [h.appended]
  exact descs_flatMap h.fits

theorem Sent.length_appended {ns : List Nat} (h : Sent t obj ns s) :
    s.appended.length = ns.sum := by
  rw [h.appended]
  exact length_flatMap h.fits

/-- The message is on the stream once if one `sendmsg` has taken all of it. -/
theorem Sent.exact_ok_iff {ns : List Nat} (h : Sent t obj ns s) (hsum : ns.sum = msgDataBufLen) :
    s.appended.map (·.byte) = msgDataBuf t ∧ s.appended.filterMap (·.desc) = [obj] ↔
      ns = [msgDataBufLen] := by
  constructor
  · rintro ⟨-, hdescs⟩
    have hone : ns.length = 1 := by simpa using congrArg List.length (h.descs.symm.trans hdescs)
    obtain ⟨n, rfl⟩ := List.length_eq_one_iff.mp hone
    rw [← hsum, List.sum_singleton]
  · rintro rfl
    refine ⟨?_, h.descs⟩
    rw [h.appended, List.flatMap_singleton, map_byte_cellsOf]
    exact List.take_of_length_le (Nat.le_of_eq (length_msgDataBuf t))

/-- **Exact transmission**: a transfer that has returned, after any results of its
`sendmsg` calls, has appended what it should just when it failed before it counted a
whole message, or one `sendmsg` took the message whole. -/
theorem exact_iff (t : MsgRequestType) (obj : Obj) (is : List Input) (s : Transmission)
    (sms : SendMsgStatus) (hrun : Run (step t obj) any start is s)
    (hdone : s.transfer = .done sms) :
    Exact t obj sms s.appended ↔
      (counts is).sum < msgDataBufLen ∨ counts is = [msgDataBufLen] := by
  have hsent := sent_of_run hrun
  unfold Exact
  cases sms with
  | kSendMsgOk =>
      have hsum := hsent.ok (.inr hdone)
      rw [hsent.exact_ok_iff hsum]
      simp [hsum]
  | kSendMsgError =>
      have hsum := hsent.error hdone
      have hwhole : counts is ≠ [msgDataBufLen] := fun hone => hsum (by rw [hone]; rfl)
      have hlength := hsent.length_appended
      constructor
      · intro hexact
        have hle := hexact.2 nofun
        exact .inl (by omega)
      · rintro (hlt | hone)
        · exact ⟨nofun, fun _ => by omega⟩
        · contradiction

/-- The results of the send loop that are no failures of the connection. -/
def Retried (_ : Transmission) (i : Input) : Prop := i ≠ .sendmsg (.fail .other)

/-- The listener is sent in two halves: `kSendMsgOk`, with the first half of the
message twice and two descriptors. -/
theorem not_exact_two_halves : ¬ ∀ (t : MsgRequestType) (obj : Obj) (is : List Input)
    (s : Transmission) (sms : SendMsgStatus), Run (step t obj) Retried start is s →
    s.transfer = .done sms → Exact t obj sms s.appended := by
  intro hall
  obtain ⟨s, hrun, hobs⟩ := exists_run_of_exec
    (fun s : Transmission => (s.transfer, s.appended.filterMap (·.desc)))
    (.done .kSendMsgOk, [.inetListen, .inetListen])
    (show (exec (step .kTransferListenFd .inetListen)
        (fun _ i => decide (i ≠ .sendmsg (.fail .other))) start
        [.sendmsg (.ret 512), .sendmsg (.ret 512), .getReply (some 8)]).map _ = _ by
      decide +kernel)
  obtain ⟨hdone, hdescs⟩ := Prod.mk.inj hobs
  have hexact := hall _ _ _ _ _ (hrun.mono fun _ _ => of_decide_eq_true) hdone
  exact absurd (hdescs.symm.trans (hexact.1 rfl).2) (by decide)

/-- An interrupted transfer of a session. -/
theorem exact_iff_interrupted : ∃ s : Transmission,
    Run (step .kTransferSessionFd (.inet 0)) any start
      [.sendmsg (.fail .EINTR), .sendmsg (.ret 1024), .getReply (some 8)] s ∧
    s.transfer = .done .kSendMsgOk ∧
      Exact .kTransferSessionFd (.inet 0) .kSendMsgOk s.appended := by
  obtain ⟨s, hrun, hdone⟩ := exists_run_of_exec (·.transfer) (.done .kSendMsgOk)
    (show (exec (step .kTransferSessionFd (.inet 0)) (fun _ _ => true) start
        [.sendmsg (.fail .EINTR), .sendmsg (.ret 1024), .getReply (some 8)]).map _ = _ by
      decide +kernel)
  exact ⟨s, hrun.toAny, hdone, (exact_iff _ _ _ _ _ hrun.toAny hdone).mpr (.inr rfl)⟩

end Transmission

/-! ## transfers of the system -/

/-- The transfer that a process is in. -/
def Proc.transfer (p : Proc) : Option Transfer :=
  match p.pc with
  | .handOver x => some x
  | .handle _ (.transfer x) _ => some x
  | _ => none

section Serve

variable {p p' : Proc} {ch ch' : Chan} {pid : Pid} {i : Input} {t : MsgRequestType} {obj : Obj}

/-- What a `sendmsg` of a transfer appends to the connection. -/
theorem toNew_sendmsg {r : WriteRet} (hserve : ch.serve pid p p' (.sendmsg r) = some ch')
    (hpass : p.passing = some (t, obj)) : ch'.toNew = ch.toNew ++ appendedBy t obj r := by
  cases r with
  | ret n =>
      simp only [Chan.serve, hpass] at hserve
      obtain ⟨-, ⟨⟩⟩ := Option.ite_none_right_eq_some.mp hserve
      rfl
  | fail e =>
      cases hserve
      exact (List.append_nil _).symm

theorem toNew_getReply {r : Option Nat} (hserve : ch.serve pid p p' (.getReply r) = some ch') :
    ch'.toNew = ch.toNew := by
  obtain ⟨-, ⟨⟩⟩ := Option.ite_none_right_eq_some.mp hserve
  rfl

theorem transfer_afterHandOver (p : Proc) (x : Transfer) :
    (p.afterHandOver x).transfer = some x ∨
      (p.afterHandOver x).transfer = none ∧ ∃ sms, x = .done sms := by
  unfold Proc.afterHandOver
  split
  · exact .inr ⟨rfl, _, rfl⟩
  · exact .inr ⟨rfl, _, rfl⟩
  · exact .inl rfl

theorem transfer_afterTransfer (p : Proc) (fe : FiredEvent) (rest : List FiredEvent)
    (x : Transfer) :
    (p.afterTransfer fe rest x).transfer = some x ∨
      (p.afterTransfer fe rest x).transfer = none ∧ ∃ sms, x = .done sms := by
  unfold Proc.afterTransfer
  split
  · exact .inr ⟨rfl, _, rfl⟩
  · exact .inl rfl

/-- What the next system call of a process in a transfer is. -/
theorem Proc.transfer_step {x : Transfer} (hs : p.step i = some p') (hx : p.transfer = some x) :
    ∃ y, (p'.transfer = some y ∨ p'.transfer = none ∧ ∃ sms, y = .done sms) ∧
      ((∃ n r, x = .send n ∧ i = .sendmsg r ∧ sendFits r = true ∧ y = sendLoop n r) ∨
        x = .getReply ∧ (∃ r, i = .getReply r) ∧ y = .done .kSendMsgOk) := by
  unfold transfer at hx
  split at hx
  · next hpc =>
      cases hx
      unfold Proc.step at hs
      rw [hpc] at hs
      split at hs <;> try contradiction
      · next heq =>
          cases heq
          obtain ⟨hsends, ⟨⟩⟩ := Option.ite_none_right_eq_some.mp hs
          exact ⟨_, transfer_afterHandOver _ _, .inl ⟨_, _, rfl, rfl, hsends.1, rfl⟩⟩
      · next heq =>
          cases heq
          cases hs
          exact ⟨_, transfer_afterHandOver _ _, .inr ⟨rfl, ⟨_, rfl⟩, rfl⟩⟩
  · next hpc =>
      cases hx
      cases step_of_handle hs hpc with
      | sendSession hsends =>
          exact ⟨_, transfer_afterTransfer _ _ _ _, .inl ⟨_, _, rfl, rfl, hsends.1, rfl⟩⟩
      | replySession => exact ⟨_, .inr ⟨rfl, _, rfl⟩, .inr ⟨rfl, ⟨_, rfl⟩, rfl⟩⟩
  · contradiction

/-- A step of a process in a transfer is a step of the transmission: it appends the
same to the connection, and the process stays in the transfer until it is done. -/
theorem Transmission.of_serve {x : Transfer} (hs : p.step i = some p')
    (hserve : ch.serve pid p p' i = some ch') (hx : p.transfer = some x)
    (hpass : p.passing = some (t, obj)) (cells : List Cell) :
    ∃ y appended, step t obj { transfer := x, appended := cells } i =
        some { transfer := y, appended := cells ++ appended } ∧
      ch'.toNew = ch.toNew ++ appended ∧
      (p'.transfer = some y ∨ p'.transfer = none ∧ ∃ sms, y = .done sms) := by
  obtain ⟨y, hy, ⟨n, r, rfl, rfl, hfits, rfl⟩ | ⟨rfl, ⟨r, rfl⟩, rfl⟩⟩ := Proc.transfer_step hs hx
  · exact ⟨_, appendedBy t obj r, if_pos hfits, toNew_sendmsg hserve hpass, hy⟩
  · refine ⟨_, [], ?_, ?_, hy⟩
    · rw [List.append_nil]
      rfl
    · rw [List.append_nil]
      exact toNew_getReply hserve

end Serve

end SysDemos.HotUpgrade
