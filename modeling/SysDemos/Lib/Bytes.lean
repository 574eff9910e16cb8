import Mathlib

/-!
# SysDemos.Lib.Bytes

Byte lists as memory: numbers stored with the least significant byte first,
and overwriting a part of a buffer.

* `toNat_ofNat`, `toInt_ofNat` — a stored number is read back;
* `ofNat_toNat`, `ofNat_of_toInt` — what is read is the number that is stored;
* `take_writeAt` — what a buffer holds up to the end of a write.
-/

namespace Bytes

/-! ## numbers -/

/-- The `k` low bytes of `n`, least significant first. -/
def ofNat : Nat → Nat → List UInt8
  | 0, _ => []
  | k + 1, n => UInt8.ofNat n :: ofNat k (n / 256)

/-- The unsigned number stored in a byte list. -/
def toNat : List UInt8 → Nat
  | [] => 0
  | b :: bs => b.toNat + 256 * toNat bs

/-- The two's complement number stored in a byte list. -/
def toInt (bs : List UInt8) : Int := Int.bmod (toNat bs) (256 ^ bs.length)

@[simp] theorem length_ofNat (k n : Nat) : (ofNat k n).length = k := by
  induction k generalizing n with
  | zero => rfl
  | succ k ih => simp only [ofNat, List.length_cons, ih]

theorem toNat_ofNat {k n : Nat} (h : n < 256 ^ k) : toNat (ofNat k n) = n := by
  induction k generalizing n with
  | zero =>
      have hn : n = 0 := by simpa using h
      rw [hn]
      rfl
  | succ k ih =>
      have hd : n / 256 < 256 ^ k := Nat.div_lt_of_lt_mul (by rw [Nat.pow_succ] at h; omega)
      simp only [ofNat, toNat, UInt8.toNat_ofNat', ih hd]
      omega

/-- A number below half the range is read back as a signed number. -/
theorem toInt_ofNat {k n : Nat} (h : 2 * n < 256 ^ k) : toInt (ofNat k n) = n := by
  unfold toInt
  rw [toNat_ofNat (by omega), length_ofNat]
  generalize 256 ^ k = m at h
  exact Int.bmod_eq_of_le (by omega) (by omega)

theorem toNat_lt (bs : List UInt8) : toNat bs < 256 ^ bs.length := by
  induction bs with
  | nil => exact Nat.one_pos
  | cons b bs ih =>
      have hb := b.toNat_lt
      rw [toNat, List.length_cons, Nat.pow_succ]
      omega

theorem ofNat_toNat (bs : List UInt8) : ofNat bs.length (toNat bs) = bs := by
  induction bs with
  | nil => rfl
  | cons b bs ih =>
      have hb := b.toNat_lt
      have hlow : UInt8.ofNat (b.toNat + 256 * toNat bs) = b := by
        rw [← UInt8.toNat_inj, UInt8.toNat_ofNat']
        omega
      have hhigh : (b.toNat + 256 * toNat bs) / 256 = toNat bs := by omega
      rw [List.length_cons, toNat, ofNat, hlow, hhigh, ih]

/-- The bytes of a signed number that is not negative. -/
theorem ofNat_of_toInt {bs : List UInt8} {n : Nat} (h : toInt bs = n) :
    ofNat bs.length n = bs := by
  have hlt := toNat_lt bs
  have hnat : toNat bs = n := by
    unfold toInt at h
    generalize 256 ^ bs.length = m at h hlt
    rw [Int.bmod_def, Int.emod_eq_of_lt (by omega) (by omega)] at h
    split at h <;> omega
  rw [← hnat, ofNat_toNat]

/-- The range of a signed number of at most `k` bytes. -/
theorem toInt_bounds {bs : List UInt8} {k : Nat} (h : bs.length ≤ k) :
    -(256 ^ k : Nat) ≤ 2 * toInt bs ∧ 2 * toInt bs ≤ (256 ^ k : Nat) := by
  have hpow : 256 ^ bs.length ≤ 256 ^ k := Nat.pow_le_pow_right (by decide) h
  have hpos : 0 < 256 ^ bs.length := Nat.pow_pos (by decide)
  have hlow := Int.le_bmod (x := toNat bs) hpos
  have hhigh := Int.bmod_lt (x := toNat bs) hpos
  unfold toInt
  generalize 256 ^ bs.length = m at *
  generalize 256 ^ k = n at *
  omega

/-! ## buffers -/

/-- `buf` with `bs` stored from position `pos` on. -/
def writeAt (buf : List UInt8) (pos : Nat) (bs : List UInt8) : List UInt8 :=
  buf.take pos ++ bs ++ buf.drop (pos + bs.length)

theorem take_writeAt {buf : List UInt8} {pos : Nat} (bs : List UInt8) (h : pos ≤ buf.length) :
    (writeAt buf pos bs).take (pos + bs.length) = buf.take pos ++ bs := by
  have hlen : (buf.take pos ++ bs).length = pos + bs.length := by
    rw [List.length_append, List.length_take, Nat.min_eq_left h]
  rw [writeAt, ← hlen, List.take_left]

theorem le_length_writeAt {buf : List UInt8} {pos : Nat} (bs : List UInt8) (h : pos ≤ buf.length) :
    pos + bs.length ≤ (writeAt buf pos bs).length := by
  simp only [writeAt, List.length_append, List.length_take, Nat.min_eq_left h]
  omega

end Bytes
