import SysDemos.Csapp.EchoSession

/-!
# SysDemos.Csapp.EchoSession.Turns

What the client and the server do with a message: the client writes it
(`Client.Sends`) and reads the answer (`Client.Reads`), the server reads it
(`Server.Waits`) and writes it back (`Server.Replies`).  Each of these says which
part of the message the side has, or still has to write, and has a lemma for every
system call the side can make then.
-/

namespace SysDemos.EchoSession

open Posix Rio
open Echo (Line)

/-! ## system calls -/

/-- A `write` of what is left of `m`. -/
theorem writeTo_spec {cap : Nat} {p p' : Pipe} {m : List UInt8} {writes : List WriteRet}
    {r : WriteRet} (ho : Offers m.length writes)
    (hw : writeTo cap p (m.drop (taken writes)) r = some p') :
    Offers m.length (writes ++ [r]) ∧
      ((r = .fail .EINTR ∧ p' = p ∧ taken (writes ++ [r]) = taken writes) ∨
        ∃ bs, bs ≠ [] ∧ (∃ n, r = .ret n) ∧ p'.bytes = p.bytes ++ bs ∧ p'.closed = p.closed ∧
          m.drop (taken writes) = bs ++ m.drop (taken (writes ++ [r]))) := by
  cases r with
  | fail e =>
      cases e with
      | EINTR =>
          cases hw
          exact ⟨ho.interrupted, .inl ⟨rfl, rfl, taken_snoc_fail ..⟩⟩
      | EAGAIN => contradiction
      | other => contradiction
  | ret n =>
      obtain ⟨hn, hwrite⟩ := Option.ite_none_right_eq_some.mp hw
      obtain ⟨hne, hopen, hbytes, hclosed⟩ := Pipe.write_spec hwrite
      have hpos : 0 < n := Nat.pos_of_ne_zero fun h0 => hne (by rw [h0]; rfl)
      rw [List.length_drop] at hn
      have hle := ho.taken_le
      refine ⟨ho.more hpos (by omega),
        .inr ⟨_, hne, ⟨n, rfl⟩, hbytes, hclosed.trans hopen.symm, ?_⟩⟩
      rw [taken_snoc_ret, ← List.drop_drop, List.take_append_drop]

/-- A `read` of a stream. -/
theorem readFrom_spec {p p' : Pipe} {r : ReadRet} (hr : readFrom p r = some p') :
    (r = .err .EINTR ∧ p' = p) ∨ (r = .ret [] ∧ p.bytes = [] ∧ p.closed = true ∧ p' = p) ∨
      ∃ bs, bs ≠ [] ∧ r = .ret bs ∧ p.bytes = bs ++ p'.bytes ∧ p'.closed = p.closed := by
  cases r with
  | err e =>
      cases e with
      | EINTR =>
          cases hr
          exact .inl ⟨rfl, rfl⟩
      | EAGAIN => contradiction
      | other => contradiction
  | ret bs =>
      obtain ⟨rfl, hnil, hclosed, rfl⟩ | ⟨hne, -, hbytes, hclosed⟩ := Pipe.read_spec hr
      · exact .inr (.inl ⟨rfl, hnil, hclosed, rfl⟩)
      · exact .inr (.inr ⟨bs, hne, rfl, hbytes, hclosed⟩)

/-- A `read` of a stream that is empty and open is interrupted. -/
theorem readFrom_empty {p p' : Pipe} {r : ReadRet} (hnil : p.bytes = []) (hopen : p.closed = false)
    (hr : readFrom p r = some p') : r = .err .EINTR ∧ p' = p := by
  obtain h | ⟨-, -, hclosed, -⟩ | ⟨bs, hne, -, hbytes, -⟩ := readFrom_spec hr
  · exact h
  · rw [hopen] at hclosed
    contradiction
  · rw [hnil] at hbytes
    exact absurd (List.append_eq_nil_iff.mp hbytes.symm).1 hne

/-! ## lines -/

/-- A line that both sides read whole, and that is printed whole. -/
structure TextLine (l : List UInt8) : Prop where
  line : Line l
  text : 0 ∉ l

/-- A part of a line that is not all of it. -/
theorem line_part {got rest : List UInt8} (h : Line (got ++ rest)) (hne : rest ≠ []) :
    newline ∉ got ∧ got.length < maxline - 1 := by
  obtain ⟨body, hbody, hnl, hlen⟩ := h
  have hpos := List.length_pos_iff.mpr hne
  rw [List.length_append] at hlen
  refine ⟨fun hmem => hnl ?_, by omega⟩
  have hlast := congrArg List.dropLast hbody
  rw [List.dropLast_concat, List.dropLast_append_of_ne_nil hne] at hlast
  rw [← hlast]
  exact List.mem_append_left _ hmem

theorem cstr_append_zero {l rest : List UInt8} (h : 0 ∉ l) : cstr (l ++ 0 :: rest) = l := by
  have hall : ∀ b ∈ l, (decide (b ≠ 0)) = true := fun b hb =>
    decide_eq_true fun h0 => h (h0 ▸ hb)
  rw [cstr, List.takeWhile_append_of_pos hall]
  simp

/-! ## the client -/

namespace Client

variable {c : Client} {m rest got bs : List UInt8} {writes : List WriteRet} {reads : List ReadRet}

/-- The client has the message `m` to write, of which `rest` has not been taken; if that is nothing
it is in `rio_readlineb` already. -/
inductive Sends (c : Client) (m rest : List UInt8) : Prop where
  | writing (writes : List WriteRet) (hpc : c.pc = .writen writes) (hm : cstr c.buf = m)
      (ho : Offers m.length writes) (hrest : m.drop (taken writes) = rest) (hne : rest ≠ [])
      (hv : c.rio.Valid) (hun : c.rio.unread = [])
  | written (reads : List ReadRet) (hpc : c.pc = .readlineb reads) (hrest : rest = [])
      (h : Pending c.rio reads [])

/-- The client is in `rio_readlineb` and has got `got` of a line. -/
def Reads (c : Client) (got : List UInt8) : Prop :=
  ∃ reads, c.pc = .readlineb reads ∧ Pending c.rio reads got

theorem readlineb_of_pending (h : Pending c.rio reads got) :
    c.readlineb reads = { c with pc := .readlineb reads } := by
  simp only [readlineb, h.blocked]

/-- `rio_writen` goes on, or it has written all. -/
theorem writen_sends (hm : cstr c.buf = m) (ho : Offers m.length writes) (hv : c.rio.Valid)
    (hun : c.rio.unread = []) :
    (c.writen writes).Sends m (m.drop (taken writes)) ∧
      ∃ pc, c.writen writes = { c with pc := pc } := by
  obtain hlt | heq := Nat.lt_or_eq_of_le ho.taken_le
  · have hpc : c.writen writes = { c with pc := .writen writes } := by
      simp only [writen, hm, ho.blocked hlt]
    rw [hpc]
    exact ⟨.writing writes rfl hm ho rfl (List.drop_eq_nil_iff.not.mpr (by omega)) hv hun, _, rfl⟩
  · obtain ⟨p, hp⟩ := ho.returns c.buf heq
    have hpending : Pending c.rio [] [] := .start hv hun
    have hpc : c.writen writes = { c with pc := .readlineb [] } := by
      simp only [writen, hm, hp]
      exact readlineb_of_pending hpending
    rw [hpc]
    exact ⟨.written [] rfl (List.drop_eq_nil_iff.mpr (by omega)) hpending, _, rfl⟩

/-- The line is complete: it is printed. -/
theorem readlineb_of_line (h : Pending c.rio reads got) (hne : bs ≠ [])
    (hline : TextLine (got ++ bs)) :
    ∃ buf rio, c.readlineb (reads ++ [.ret bs]) =
        { c with pc := .fgets, buf := buf, rio := rio, stdout := c.stdout ++ (got ++ bs) } ∧
      rio.Valid ∧ rio.unread = [] := by
  obtain ⟨⟨body, hbody, hnl, hlen⟩, htext⟩ := hline
  obtain ⟨r, hr, -, husr, hv, hun⟩ := h.line hne hbody hnl hlen
  refine ⟨Bytes.writeAt c.buf 0 r.usrbuf, r.rp, ?_, hv, hun⟩
  have hcstr : cstr (Bytes.writeAt c.buf 0 r.usrbuf) = got ++ bs := by
    rw [husr, Bytes.writeAt, List.take_zero, List.nil_append, List.append_assoc (got ++ bs)]
    exact cstr_append_zero htext
  simp only [readlineb, hr, hcstr]

end Client

/-! ## the server's side -/

namespace Server

variable {v : Server} {m rest got bs : List UInt8} {writes : List WriteRet} {reads : List ReadRet}

/-- `echo` is in `rio_readlineb` and has got `got` of a line. -/
def Reads (v : Server) (got : List UInt8) : Prop :=
  ∃ reads, v.pc = .readlineb reads ∧ Pending v.rio reads got

/-- `echo` has got `got` of a line, or it has not begun. -/
def Waits (v : Server) (got : List UInt8) : Prop := (v.pc = .backlog ∧ got = []) ∨ v.Reads got

/-- `echo` has the line `m` to write, of which `rest` has not been taken; if that is nothing it is
in `rio_readlineb` again. -/
inductive Replies (v : Server) (m rest : List UInt8) : Prop where
  | writing (writes : List WriteRet) (hpc : v.pc = .writen writes) (hn : v.n = m.length)
      (hm : v.buf.take v.n = m) (ho : Offers m.length writes) (hrest : m.drop (taken writes) = rest)
      (hne : rest ≠ []) (hv : v.rio.Valid) (hun : v.rio.unread = [])
  | written (reads : List ReadRet) (hpc : v.pc = .readlineb reads) (hrest : rest = [])
      (h : Pending v.rio reads [])

theorem readlineb_of_pending (h : Pending v.rio reads got) :
    v.readlineb reads = { v with pc := .readlineb reads } := by
  simp only [readlineb, h.blocked]

theorem writen_replies (hn : v.n = m.length) (hm : v.buf.take v.n = m) (ho : Offers m.length writes)
    (hv : v.rio.Valid) (hun : v.rio.unread = []) :
    (v.writen writes).Replies m (m.drop (taken writes)) := by
  obtain hlt | heq := Nat.lt_or_eq_of_le ho.taken_le
  · have hpc : v.writen writes = { v with pc := .writen writes } := by
      have hblocked : rioWriten v.buf v.n writes = none := by
        rw [hn]
        exact ho.blocked hlt
      simp only [writen, hblocked]
    rw [hpc]
    exact .writing writes rfl hn hm ho rfl (List.drop_eq_nil_iff.not.mpr (by omega)) hv hun
  · obtain ⟨p, hp⟩ : ∃ p, rioWriten v.buf v.n writes = some p := by
      rw [hn]
      exact ho.returns _ heq
    have hpending : Pending v.rio [] [] := .start hv hun
    have hpc : v.writen writes = { v with pc := .readlineb [] } := by
      simp only [writen, hp]
      exact readlineb_of_pending hpending
    rw [hpc]
    exact .written [] rfl (List.drop_eq_nil_iff.mpr (by omega)) hpending

/-- `accept` begins `echo`. -/
theorem accept_reads (v : Server) (rp : RioT) (connfd : Int) : (v.accept rp connfd).Reads [] := by
  have hpending : Pending (rioReadinitb rp connfd) [] [] :=
    .start (by simp [RioT.Valid, rioReadinitb]) (by simp [RioT.unread, rioReadinitb])
  have heq : v.accept rp connfd = { v with pc := .readlineb [], rio := rioReadinitb rp connfd } :=
    readlineb_of_pending (v := { v with rio := rioReadinitb rp connfd }) hpending
  exact ⟨[], by rw [heq], by rw [heq]; exact hpending⟩

/-- Nothing that completes the line: `echo` goes on reading. -/
theorem reads_of_pending (h : Pending v.rio reads got) : (v.readlineb reads).Reads got := by
  rw [readlineb_of_pending h]
  exact ⟨reads, rfl, h⟩

/-- The line is complete: it is written back. -/
theorem readlineb_of_line (h : Pending v.rio reads got) (hne : bs ≠ []) (hline : Line (got ++ bs)) :
    (v.readlineb (reads ++ [.ret bs])).Replies (got ++ bs) (got ++ bs) := by
  have hlt := hline.length_lt
  have hnil := hline.ne_nil
  obtain ⟨body, hbody, hnl, hlen⟩ := hline
  obtain ⟨r, hr, hret, husr, hv, hun⟩ := h.line hne hbody hnl hlen
  have hn : sizeT r.ret = (got ++ bs).length := Echo.sizeT_ret hret (Nat.le_of_lt hlt)
  have hpos : r.ret ≠ 0 := by
    have := List.length_pos_iff.mpr hnil
    omega
  have heq : v.readlineb (reads ++ [.ret bs]) =
      { pc := .writen [], buf := r.usrbuf, n := sizeT r.ret, rio := r.rp } := by
    simp only [readlineb, hr, if_pos hpos]
  rw [heq]
  exact .writing [] rfl hn (by rw [husr, hn, List.take_left' rfl]) trivial rfl hnil hv hun

/-- The end of the stream: `echo` returns. -/
theorem readlineb_of_eof (h : Pending v.rio reads []) :
    (v.readlineb (reads ++ [.ret []])).pc = .close := by
  obtain ⟨r, hr, hret⟩ := h.eof
  simp only [readlineb, hr, if_neg (not_not.mpr hret)]

end Server

/-! ## the steps -/

/-- The steps, with what enables each of them. -/
inductive Step (cap : Nat) (s : Session) : Label → Session → Prop
  | connect {clientfd : Int} : s.client.pc = .connect →
      Step cap s (.connect clientfd) { s with
        client := { s.client with pc := .fgets, rio := rioReadinitb s.client.rio clientfd }
        server := { s.server with pc := .backlog } }
  | fgets : s.client.pc = .fgets →
      Step cap s .fgets { s with
        client := s.client.fgets
        toServer := if s.client.fgets.pc = .exited then s.toServer.close else s.toServer }
  | clientWrite {r : WriteRet} {writes : List WriteRet} {p : Pipe} : s.client.pc = .writen writes →
      writeTo cap s.toServer ((cstr s.client.buf).drop (taken writes)) r = some p →
      Step cap s (.clientWrite r)
        { s with client := s.client.writen (writes ++ [r]), toServer := p }
  | clientRead {r : ReadRet} {reads : List ReadRet} {p : Pipe} : s.client.pc = .readlineb reads →
      readFrom s.toClient r = some p →
      Step cap s (.clientRead r)
        { s with client := s.client.readlineb (reads ++ [r]), toClient := p }
  | accept {rp : RioT} {connfd : Int} : s.server.pc = .backlog →
      Step cap s (.accept rp connfd) { s with server := s.server.accept rp connfd }
  | serverRead {r : ReadRet} {reads : List ReadRet} {p : Pipe} : s.server.pc = .readlineb reads →
      readFrom s.toServer r = some p →
      Step cap s (.serverRead r)
        { s with server := s.server.readlineb (reads ++ [r]), toServer := p }
  | serverWrite {r : WriteRet} {writes : List WriteRet} {p : Pipe} : s.server.pc = .writen writes →
      writeTo cap s.toClient ((s.server.buf.take s.server.n).drop (taken writes)) r = some p →
      Step cap s (.serverWrite r)
        { s with server := s.server.writen (writes ++ [r]), toClient := p }
  | close : s.server.pc = .close →
      Step cap s .close
        { s with server := { s.server with pc := .closed }, toClient := s.toClient.close }

theorem step_cases {cap : Nat} {s s' : Session} {l : Label} (hs : s.step cap l = some s') :
    Step cap s l s' := by
  cases l with
  | connect clientfd =>
      obtain ⟨hpc, ⟨⟩⟩ := Option.ite_none_right_eq_some.mp hs
      exact .connect hpc
  | fgets =>
      obtain ⟨hpc, ⟨⟩⟩ := Option.ite_none_right_eq_some.mp hs
      exact .fgets hpc
  | clientWrite r =>
      simp only [Session.step] at hs
      split at hs
      · next writes hpc =>
          obtain ⟨p, hp, rfl⟩ := Option.map_eq_some_iff.mp hs
          exact .clientWrite hpc hp
      · contradiction
  | clientRead r =>
      simp only [Session.step] at hs
      split at hs
      · next reads hpc =>
          obtain ⟨p, hp, rfl⟩ := Option.map_eq_some_iff.mp hs
          exact .clientRead hpc hp
      · contradiction
  | accept rp connfd =>
      obtain ⟨hpc, ⟨⟩⟩ := Option.ite_none_right_eq_some.mp hs
      exact .accept hpc
  | serverRead r =>
      simp only [Session.step] at hs
      split at hs
      · next reads hpc =>
          obtain ⟨p, hp, rfl⟩ := Option.map_eq_some_iff.mp hs
          exact .serverRead hpc hp
      · contradiction
  | serverWrite r =>
      simp only [Session.step] at hs
      split at hs
      · next writes hpc =>
          obtain ⟨p, hp, rfl⟩ := Option.map_eq_some_iff.mp hs
          exact .serverWrite hpc hp
      · contradiction
  | close =>
      obtain ⟨hpc, ⟨⟩⟩ := Option.ite_none_right_eq_some.mp hs
      exact .close hpc

end SysDemos.EchoSession
