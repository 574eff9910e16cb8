import Mathlib

/-!
# SysDemos.Lib.Stream

List plumbing for logs and byte streams: entries of a log that grows at
its end, and prefixes of a stream that is consumed from its front.
-/

namespace Stream

variable {α : Type*}

/-- An entry of a log extended by `a` is an old entry or `a` itself. -/
theorem getElem?_snoc {l : List α} {a b : α} {k : Nat} (h : (l ++ [a])[k]? = some b) :
    (k < l.length ∧ l[k]? = some b) ∨ (k = l.length ∧ b = a) := by
  rcases Nat.lt_trichotomy k l.length with hlt | heq | hgt
  · left
    rw [List.getElem?_append_left hlt] at h
    exact ⟨hlt, h⟩
  · right
    subst heq
    rw [List.getElem?_concat_length, Option.some.injEq] at h
    exact ⟨rfl, h.symm⟩
  · rw [List.getElem?_append_right (by omega),
      List.getElem?_eq_none (by rw [List.length_singleton]; omega)] at h
    contradiction

end Stream
