import Mathlib

/-!
# SysDemos.Lib.FdTable

The descriptor table of a process.  A file that is opened gets the lowest descriptor
that is not in use (`install`); `close` makes one free again.  A `fork` copies the
table, which needs no operation of its own.

The tables are used through `file`, `file_install` and `file_close`; `lowest_eq`
finds the descriptor that a file will get.
-/

namespace Posix

/-- The table of a process: entry `fd` is the open file that descriptor `fd` stands for. -/
structure FdTable (φ : Type*) where
  entries : List (Option φ)
  deriving DecidableEq, Repr

namespace FdTable

variable {φ : Type*} {t : FdTable φ} {fd : Nat}

/-- The open file that a descriptor stands for. -/
def file (t : FdTable φ) (fd : Nat) : Option φ := t.entries[fd]?.join

/-- The lowest descriptor that is not in use. -/
def lowest (t : FdTable φ) : Nat := t.entries.findIdx Option.isNone

/-- The table after a file has been opened. -/
def install (t : FdTable φ) (f : φ) : FdTable φ :=
  ⟨(t.entries ++ [none]).set t.lowest (some f)⟩

/-- The table after a descriptor has been closed, if it was in use. -/
def close (t : FdTable φ) (fd : Nat) : FdTable φ := ⟨t.entries.set fd none⟩

theorem file_lowest (t : FdTable φ) : t.file t.lowest = none := by
  unfold file lowest
  by_cases hlt : t.entries.findIdx Option.isNone < t.entries.length
  · rw [List.getElem?_eq_getElem hlt, Option.join_some]
    exact Option.isNone_iff_eq_none.mp (List.findIdx_getElem (w := hlt))
  · rw [List.getElem?_eq_none (Nat.le_of_not_lt hlt)]
    rfl

theorem file_of_lt_lowest (h : fd < t.lowest) : t.file fd ≠ none := by
  unfold lowest at h
  have hlt : fd < t.entries.length := Nat.lt_of_lt_of_le h List.findIdx_le_length
  have hsome := List.not_of_lt_findIdx h
  unfold file
  rw [List.getElem?_eq_getElem hlt, Option.join_some]
  intro hnone
  simp [hnone] at hsome

theorem lowest_eq (hfree : t.file fd = none) (hused : ∀ i < fd, t.file i ≠ none) :
    t.lowest = fd := by
  obtain hlt | heq | hgt := Nat.lt_trichotomy t.lowest fd
  · exact absurd t.file_lowest (hused _ hlt)
  · exact heq
  · exact absurd hfree (file_of_lt_lowest hgt)

theorem file_install (t : FdTable φ) (f : φ) (fd : Nat) :
    (t.install f).file fd = if fd = t.lowest then some f else t.file fd := by
  have hlen : t.lowest < (t.entries ++ [none]).length := by
    rw [List.length_append, List.length_singleton]
    exact Nat.lt_succ_of_le List.findIdx_le_length
  unfold install file
  by_cases hfd : fd = t.lowest
  · rw [if_pos hfd, hfd, List.getElem?_set_self hlen]
    rfl
  · rw [if_neg hfd, List.getElem?_set_ne (Ne.symm hfd)]
    by_cases hlt : fd < t.entries.length
    · rw [List.getElem?_append_left hlt]
    · rw [List.getElem?_append_right (Nat.le_of_not_lt hlt),
        List.getElem?_eq_none (Nat.le_of_not_lt hlt)]
      cases fd - t.entries.length <;> simp

theorem file_close (t : FdTable φ) (fd i : Nat) :
    (t.close fd).file i = if i = fd then none else t.file i := by
  unfold close file
  by_cases hi : i = fd
  · rw [if_pos hi, hi]
    by_cases hlt : fd < t.entries.length
    · rw [List.getElem?_set_self hlt]
      rfl
    · rw [List.getElem?_eq_none (by rw [List.length_set]; exact Nat.le_of_not_lt hlt)]
      rfl
  · rw [if_neg hi, List.getElem?_set_ne (Ne.symm hi)]

end FdTable

end Posix
