import Mathlib

/-!
# SysDemos.Lib.CString

Strings of C: bytes in memory up to a NUL, and the functions of `<string.h>` on
them.

A memory gives a byte for every address.  `Bytes mem p s` says that the bytes `s`
stand at `p`, `Str mem p s` that the string `s` does, with its NUL.  A function
that scans memory gives up (`none`) when it has not met a NUL within the given
number of bytes; each has one lemma that says what it returns on a string.

`words sep l` are the maximal parts of `l` without the separator `sep`.
-/

namespace CString

/-- A memory. -/
abbrev Mem := Int → UInt8

variable {mem mem' : Mem} {p : Int} {c : UInt8} {s t : List UInt8} {k : Nat}

/-! ## strings in memory -/

/-- The bytes `s` stand at `p`. -/
def Bytes (mem : Mem) : Int → List UInt8 → Prop
  | _, [] => True
  | p, c :: s => mem p = c ∧ Bytes mem (p + 1) s

/-- The string `s` and its NUL stand at `p`. -/
def Str (mem : Mem) (p : Int) (s : List UInt8) : Prop :=
  Bytes mem p s ∧ mem (p + s.length) = 0 ∧ 0 ∉ s

theorem bytes_append : Bytes mem p (s ++ t) ↔ Bytes mem p s ∧ Bytes mem (p + s.length) t := by
  induction s generalizing p with
  | nil => simp [Bytes]
  | cons c s ih =>
      simp only [List.cons_append, Bytes, ih, List.length_cons, and_assoc]
      rw [show p + 1 + (s.length : Int) = p + ((s.length + 1 : Nat) : Int) by push_cast; ring]

/-- Bytes depend on the memory they take up only. -/
theorem Bytes.congr (h : Bytes mem p s)
    (hmem : ∀ a, p ≤ a → a < p + s.length → mem' a = mem a) : Bytes mem' p s := by
  induction s generalizing p with
  | nil => trivial
  | cons c s ih =>
      rw [List.length_cons] at hmem
      refine ⟨by rw [hmem p le_rfl (by push_cast; omega)]; exact h.1, ih h.2 fun a ha hlt => ?_⟩
      exact hmem a (by omega) (by push_cast; omega)

theorem Str.congr (h : Str mem p s)
    (hmem : ∀ a, p ≤ a → a ≤ p + s.length → mem' a = mem a) : Str mem' p s :=
  ⟨h.1.congr fun a ha hlt => hmem a ha (by omega), by
    rw [hmem _ (by omega) le_rfl]; exact h.2.1, h.2.2⟩

/-- The part of a string behind its first bytes. -/
theorem Str.drop (h : Str mem p (s ++ t)) : Str mem (p + s.length) t := by
  obtain ⟨hbytes, hnul, hmem⟩ := h
  refine ⟨(bytes_append.mp hbytes).2, ?_, fun h0 => hmem (List.mem_append_right _ h0)⟩
  rw [List.length_append] at hnul
  rw [← hnul]
  congr 1
  push_cast
  ring

/-- A string that is cut by a NUL. -/
theorem Str.cut (h : Str mem p (s ++ c :: t)) : Str (Function.update mem (p + s.length) 0) p s := by
  obtain ⟨hbytes, -, hmem⟩ := h
  refine ⟨(bytes_append.mp hbytes).1.congr fun a _ hlt => Function.update_of_ne (by omega) ..,
    Function.update_self .., fun h0 => hmem (List.mem_append_left _ h0)⟩

/-- The head of a string that is not empty. -/
theorem Str.uncons (h : Str mem p (c :: s)) : mem p = c ∧ c ≠ 0 ∧ Str mem (p + 1) s := by
  refine ⟨h.1.1, fun h0 => h.2.2 (h0 ▸ List.mem_cons_self), ?_⟩
  exact Str.drop (s := [c]) h

/-- Induction along a scan: the string is met byte by byte, with a bound on the number of bytes
that it stays below. -/
theorem Str.scan {motive : Int → List UInt8 → Nat → Prop}
    (nil : ∀ p k, mem p = 0 → motive p [] (k + 1))
    (cons : ∀ p c s k, mem p = c → c ≠ 0 → motive (p + 1) s k → motive p (c :: s) (k + 1))
    (h : Str mem p s) (hk : s.length < k) : motive p s k := by
  induction s generalizing p k with
  | nil =>
      obtain ⟨k, rfl⟩ := Nat.exists_eq_succ_of_ne_zero (by omega : k ≠ 0)
      exact nil p k (by simpa using h.2.1)
  | cons c s ih =>
      obtain ⟨k, rfl⟩ := Nat.exists_eq_succ_of_ne_zero (by omega : k ≠ 0)
      obtain ⟨hc, hne, hs⟩ := h.uncons
      exact cons p c s k hc hne (ih hs (by simpa using hk))

/-! ## functions on strings -/

/-- `strlen`. -/
def strlen (mem : Mem) : Nat → Int → Option Nat
  | 0, _ => none
  | k + 1, p => if mem p = 0 then some 0 else (strlen mem k (p + 1)).map (· + 1)

/-- `strchr`: the address of the first `c`, if there is one. -/
def strchr (mem : Mem) (c : UInt8) : Nat → Int → Option (Option Int)
  | 0, _ => none
  | k + 1, p =>
    if mem p = c then some (some p)
    else if mem p = 0 then some none
    else strchr mem c k (p + 1)

/-- The string that a pointer to `p` stands for. -/
def cstring (mem : Mem) : Nat → Int → Option (List UInt8)
  | 0, _ => none
  | k + 1, p => if mem p = 0 then some [] else (cstring mem k (p + 1)).map (mem p :: ·)

/-- `strcpy` of the string `s` to `p`. -/
def strcpy (mem : Mem) (p : Int) : List UInt8 → Mem
  | [] => Function.update mem p 0
  | c :: s => strcpy (Function.update mem p c) (p + 1) s

theorem strlen_eq (h : Str mem p s) (hk : s.length < k) : strlen mem k p = some s.length := by
  refine Str.scan (motive := fun p s k => strlen mem k p = some s.length)
    (fun p k hnul => ?_) (fun p c s k hc hne ih => ?_) h hk
  · rw [strlen, if_pos hnul]
    rfl
  · rw [strlen, if_neg (hc ▸ hne), ih]
    rfl

theorem cstring_eq (h : Str mem p s) (hk : s.length < k) : cstring mem k p = some s := by
  refine Str.scan (motive := fun p s k => cstring mem k p = some s)
    (fun p k hnul => ?_) (fun p c s k hc hne ih => ?_) h hk
  · rw [cstring, if_pos hnul]
  · rw [cstring, if_neg (hc ▸ hne), ih, hc]
    rfl

/-- `strchr` finds the first `c`. -/
theorem strchr_eq_some (h : Str mem p (s ++ c :: t)) (hc : c ∉ s) (hk : s.length < k) :
    strchr mem c k p = some (some (p + s.length)) := by
  induction s generalizing p k with
  | nil =>
      obtain ⟨k, rfl⟩ := Nat.exists_eq_succ_of_ne_zero (by omega : k ≠ 0)
      rw [strchr, if_pos h.uncons.1]
      simp
  | cons b s ih =>
      obtain ⟨k, rfl⟩ := Nat.exists_eq_succ_of_ne_zero (by omega : k ≠ 0)
      obtain ⟨hb, hne, hs⟩ := h.uncons
      rw [List.mem_cons, not_or] at hc
      rw [strchr, if_neg (by rw [hb]; exact fun heq => hc.1 heq.symm), if_neg (hb ▸ hne),
        ih hs hc.2 (by simpa using hk), List.length_cons]
      congr 2
      push_cast
      ring

/-- `strchr` on a string without `c`. -/
theorem strchr_eq_none (h : Str mem p s) (hc : c ∉ s) (h0 : c ≠ 0) (hk : s.length < k) :
    strchr mem c k p = some none := by
  refine Str.scan (motive := fun p s k => c ∉ s → strchr mem c k p = some none)
    (fun p k hnul _ => ?_) (fun p b s k hb hne ih hc => ?_) h hk hc
  · rw [strchr, if_neg (by rw [hnul]; exact h0.symm), if_pos hnul]
  · rw [List.mem_cons, not_or] at hc
    rw [strchr, if_neg (by rw [hb]; exact fun heq => hc.1 heq.symm), if_neg (hb ▸ hne)]
    exact ih hc.2

theorem strcpy_of_lt {a : Int} (ha : a < p) : strcpy mem p s a = mem a := by
  induction s generalizing mem p with
  | nil => exact Function.update_of_ne (by omega) ..
  | cons c s ih => rw [strcpy, ih (by omega), Function.update_of_ne (by omega)]

theorem str_strcpy (h : 0 ∉ s) : Str (strcpy mem p s) p s := by
  refine ⟨?_, ?_, h⟩
  · induction s generalizing mem p with
    | nil => trivial
    | cons c s ih =>
        rw [List.mem_cons, not_or] at h
        refine ⟨?_, ih h.2⟩
        rw [strcpy, strcpy_of_lt (by omega), Function.update_self]
  · clear h
    induction s generalizing mem p with
    | nil => simp [strcpy]
    | cons c s ih =>
        rw [strcpy, List.length_cons,
          show p + ((s.length + 1 : Nat) : Int) = p + 1 + s.length by push_cast; ring]
        exact ih

/-! ## words -/

/-- The maximal parts of `l` without `sep`. -/
def words (sep : UInt8) (l : List UInt8) : List (List UInt8) := (l.splitOn sep).filter (· ≠ [])

variable {sep : UInt8} {l w : List UInt8}

theorem words_nil : words sep [] = [] := by simp [words]

theorem ne_nil_of_mem_words (h : w ∈ words sep l) : w ≠ [] := by
  simpa using (List.mem_filter.mp h).2

theorem words_append_cons (l l' : List UInt8) :
    words sep (l ++ sep :: l') = words sep l ++ words sep l' := by
  simp [words, List.splitOn_append_cons_self]

theorem words_of_not_mem (hne : w ≠ []) (hw : sep ∉ w) : words sep w = [w] := by
  rw [words, List.splitOn_eq_singleton hw]
  simp [hne]

theorem words_cons (l : List UInt8) : words sep (sep :: l) = words sep l := by
  have h : words sep ([] ++ sep :: l) = words sep [] ++ words sep l := words_append_cons [] l
  simpa [words_nil] using h

/-- Separators in front. -/
theorem words_replicate_append (n : Nat) (l : List UInt8) :
    words sep (List.replicate n sep ++ l) = words sep l := by
  induction n with
  | zero => rfl
  | succ n ih => rw [List.replicate_succ, List.cons_append, words_cons, ih]

/-- The separators in front of a list. -/
theorem exists_replicate_append (sep : UInt8) (l : List UInt8) :
    ∃ n l', l = List.replicate n sep ++ l' ∧ l'.head? ≠ some sep := by
  induction l with
  | nil => exact ⟨0, [], rfl, by simp⟩
  | cons c l ih =>
      by_cases hc : c = sep
      · obtain ⟨n, l', rfl, hl'⟩ := ih
        exact ⟨n + 1, l', by rw [hc]; rfl, hl'⟩
      · exact ⟨0, c :: l, rfl, by simpa using hc⟩

end CString
