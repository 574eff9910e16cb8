import Mathlib

/-!
# SysDemos.Sys

Results of system calls, as far as the programs of this repository tell
them apart, and the conversions of C integers they go through.
-/

namespace SysDemos

/-- `errno`: the code tests it against `EAGAIN` and `EINTR` only. -/
inductive Errno where
  | EAGAIN
  | EINTR
  | other
  deriving DecidableEq, Repr

/-- Result of `read`: the bytes stored, none of them at end of file, or
`-1` with `errno`. -/
inductive ReadRet where
  | ret (bs : List UInt8)
  | err (e : Errno)
  deriving DecidableEq, Repr

/-- Result of `write`: a positive count, or a result that is not positive,
with the value `errno` has then. -/
inductive WriteRet where
  | ret (n : Nat)
  | fail (e : Errno)
  deriving DecidableEq, Repr

/-- The byte `'\n'`. -/
def newline : UInt8 := 10

/-- Conversion of a signed value to the 64-bit `size_t`. -/
def sizeT (i : Int) : Nat := (i % 2 ^ 64).toNat

theorem sizeT_of_nat {n : Nat} (h : n < 2 ^ 64) : sizeT n = n := by
  unfold sizeT
  omega

end SysDemos
