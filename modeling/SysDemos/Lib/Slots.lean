import Mathlib

/-!
# SysDemos.Lib.Slots

A table of `n` slots, each holding a value; the values that satisfy `live` are
the entries of the table, any other value marks a slot as free.

The entries are kept distinct by storing only values that are not in the table
(`Distinct.store`) and by clearing slots (`Distinct.clear`); `holds_store` and
`holds_clear` say what the table holds afterwards.  With distinct entries slots
can be counted by their values (`Distinct.card_slots`).
-/

namespace Slots

variable {α : Type*} {live : α → Prop} {n : Nat} {f : Nat → α} {a b : α} {j : Nat}

/-- `a` is an entry of the table. -/
def Holds (live : α → Prop) (n : Nat) (f : Nat → α) (a : α) : Prop := live a ∧ ∃ i < n, f i = a

/-- No entry is in two slots. -/
def Distinct (live : α → Prop) (n : Nat) (f : Nat → α) : Prop :=
  ∀ i < n, ∀ j < n, live (f i) → f i = f j → i = j

/-- Storing a value that is not in the table. -/
theorem Distinct.store (h : Distinct live n f) (hnew : ∀ i < n, f i ≠ a) :
    Distinct live n (Function.update f j a) := by
  intro i hi i' hi' hlive heq
  by_cases hij : i = j <;> by_cases hij' : i' = j
  · rw [hij, hij']
  · rw [hij, Function.update_self, Function.update_of_ne hij'] at heq
    exact absurd heq.symm (hnew i' hi')
  · rw [hij', Function.update_self, Function.update_of_ne hij] at heq
    exact absurd heq (hnew i hi)
  · rw [Function.update_of_ne hij] at hlive heq
    rw [Function.update_of_ne hij'] at heq
    exact h i hi i' hi' hlive heq

/-- Clearing a slot. -/
theorem Distinct.clear (h : Distinct live n f) (hb : ¬ live b) :
    Distinct live n (Function.update f j b) := by
  intro i hi i' hi' hlive heq
  have hij : i ≠ j := fun hij => hb (by simpa [hij] using hlive)
  have hij' : i' ≠ j := fun hij' => hb (by
    rw [heq, hij', Function.update_self] at hlive
    exact hlive)
  rw [Function.update_of_ne hij] at hlive heq
  rw [Function.update_of_ne hij'] at heq
  exact h i hi i' hi' hlive heq

/-- What the table holds after a value was stored in a free slot. -/
theorem holds_store (hj : j < n) (hfree : ¬ live (f j)) (ha : live a) (x : α) :
    Holds live n (Function.update f j a) x ↔ x = a ∨ Holds live n f x := by
  constructor
  · rintro ⟨hx, i, hi, rfl⟩
    by_cases hij : i = j
    · exact .inl (by rw [hij, Function.update_self])
    · rw [Function.update_of_ne hij] at hx ⊢
      exact .inr ⟨hx, i, hi, rfl⟩
  · rintro (rfl | ⟨hx, i, hi, rfl⟩)
    · exact ⟨ha, j, hj, Function.update_self ..⟩
    · have hij : i ≠ j := by rintro rfl; exact hfree hx
      exact ⟨hx, i, hi, Function.update_of_ne hij ..⟩

/-- What the table holds after a slot was cleared. -/
theorem holds_clear (h : Distinct live n f) (hj : j < n) (hb : ¬ live b) (x : α) :
    Holds live n (Function.update f j b) x ↔ x ≠ f j ∧ Holds live n f x := by
  constructor
  · rintro ⟨hx, i, hi, rfl⟩
    have hij : i ≠ j := fun hij => hb (by simpa [hij] using hx)
    rw [Function.update_of_ne hij] at hx ⊢
    exact ⟨fun heq => hij (h i hi j hj hx heq), hx, i, hi, rfl⟩
  · rintro ⟨hne, hx, i, hi, rfl⟩
    have hij : i ≠ j := by rintro rfl; exact hne rfl
    exact ⟨hx, i, hi, Function.update_of_ne hij ..⟩

/-- Slots with distinct entries are as many as their entries: those of `A` are all in
the table, and the slots of `S` are those that hold them. -/
theorem Distinct.card_slots [DecidableEq α] (h : Distinct live n f) {A : Finset α} {S : Finset Nat}
    (hS : ∀ i, i ∈ S ↔ i < n ∧ f i ∈ A) (hA : ∀ a ∈ A, Holds live n f a) : S.card = A.card := by
  have himage : S.image f = A := by
    ext a
    rw [Finset.mem_image]
    constructor
    · rintro ⟨i, hi, rfl⟩
      exact ((hS i).mp hi).2
    · intro ha
      obtain ⟨-, i, hi, rfl⟩ := hA a ha
      exact ⟨i, (hS i).mpr ⟨hi, ha⟩, rfl⟩
  rw [← himage, Finset.card_image_of_injOn]
  intro i hi i' hi' heq
  have hmem := (hS i).mp hi
  exact h i hmem.1 i' ((hS i').mp hi').1 (hA _ hmem.2).1 heq

end Slots
