import Mathlib

/-!
# SysDemos.Lib.Pipe

One direction of a byte stream: the bytes that have been written and not yet
read, and whether the writer has closed its end.

A `read` returns any nonempty part of what is there, and nothing only at the end
of the stream; a `write` appends something if there is room for it.  With
nothing to read, or no room, a call blocks: no result is possible.
-/

namespace Posix

/-- A stream in transit. -/
structure Pipe where
  bytes : List UInt8
  closed : Bool
  deriving DecidableEq, Repr

namespace Pipe

variable {p p' : Pipe} {bs : List UInt8} {count cap : Nat}

/-- A stream that has just been opened. -/
def opened : Pipe := { bytes := [], closed := false }

/-- The writer closes its end. -/
def close (p : Pipe) : Pipe := { p with closed := true }

/-- A `read` of at most `count` bytes that returns `bs`. -/
def read (p : Pipe) (count : Nat) (bs : List UInt8) : Option Pipe :=
  if bs = [] then if p.bytes = [] ∧ p.closed = true then some p else none
  else if bs.length ≤ count ∧ bs <+: p.bytes then
    some { p with bytes := p.bytes.drop bs.length }
  else none

/-- A `write` that takes `bs`, into a stream with room for `cap` bytes. -/
def write (cap : Nat) (p : Pipe) (bs : List UInt8) : Option Pipe :=
  if bs ≠ [] ∧ p.closed = false ∧ p.bytes.length + bs.length ≤ cap then
    some { p with bytes := p.bytes ++ bs }
  else none

/-- What a `read` does: it meets the end of the stream, or takes bytes from its front. -/
theorem read_spec (h : p.read count bs = some p') :
    (bs = [] ∧ p.bytes = [] ∧ p.closed = true ∧ p' = p) ∨
      (bs ≠ [] ∧ bs.length ≤ count ∧ p.bytes = bs ++ p'.bytes ∧ p'.closed = p.closed) := by
  unfold read at h
  split at h
  · next hnil =>
      obtain ⟨⟨hbytes, hclosed⟩, ⟨⟩⟩ := Option.ite_none_right_eq_some.mp h
      exact .inl ⟨hnil, hbytes, hclosed, rfl⟩
  · next hne =>
      obtain ⟨⟨hcount, t, ht⟩, ⟨⟩⟩ := Option.ite_none_right_eq_some.mp h
      refine .inr ⟨hne, hcount, ?_, rfl⟩
      rw [← ht, List.drop_left]

theorem write_spec (h : p.write cap bs = some p') :
    bs ≠ [] ∧ p.closed = false ∧ p'.bytes = p.bytes ++ bs ∧ p'.closed = false := by
  obtain ⟨⟨hne, hclosed, -⟩, ⟨⟩⟩ := Option.ite_none_right_eq_some.mp h
  exact ⟨hne, hclosed, rfl, hclosed⟩

/-- A `read` does not block while there are bytes. -/
theorem exists_read (hne : p.bytes ≠ []) (hcount : 0 < count) :
    ∃ bs p', bs ≠ [] ∧ p.read count bs = some p' := by
  obtain ⟨b, bytes, hb⟩ := List.exists_cons_of_ne_nil hne
  refine ⟨[b], { p with bytes := p.bytes.drop 1 }, by simp, ?_⟩
  rw [read, if_neg (by simp), if_pos ⟨hcount, by simp [hb]⟩]
  rfl

/-- A `read` does not block at the end of the stream. -/
theorem read_eof (hnil : p.bytes = []) (hclosed : p.closed = true) : p.read count [] = some p := by
  rw [read, if_pos rfl, if_pos ⟨hnil, hclosed⟩]

/-- A `write` does not block while there is room for a byte. -/
theorem exists_write (hclosed : p.closed = false) (hroom : p.bytes.length < cap) (b : UInt8) :
    ∃ p', p.write cap [b] = some p' := by
  refine ⟨{ p with bytes := p.bytes ++ [b] }, ?_⟩
  rw [write, if_pos ⟨by simp, hclosed, hroom⟩]

end Pipe

end Posix
