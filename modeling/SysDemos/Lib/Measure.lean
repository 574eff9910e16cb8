import SysDemos.Lib.Lts

/-!
# SysDemos.Lib.Measure

Runs that end: a measure that no step increases and that every step but those with
an idle label decreases bounds the number of the other steps (`Run.countP_add_le`).

`forall_update` is for systems of components of which one moves at a time, with an
invariant that speaks of each of them.
-/

namespace Lts

variable {σ ℓ : Type*} {step : σ → ℓ → Option σ} {ok : σ → ℓ → Prop} {s₀ s : σ}

/-- **Measure rule**: the steps of a run that are not idle are at most as many as the measure says
at its beginning. -/
theorem Run.countP_add_le {I : σ → Prop} (μ : σ → Nat) (idle : ℓ → Bool) (h₀ : I s₀)
    (hstep : ∀ s l s', I s → ok s l → step s l = some s' →
      I s' ∧ if idle l then μ s' = μ s else μ s' < μ s)
    {ls : List ℓ} (h : Run step ok s₀ ls s) : ls.countP (fun l => !idle l) + μ s ≤ μ s₀ := by
  have hinv : ∀ {ls s}, Run step ok s₀ ls s → I s := fun h =>
    Run.inv (I := I) h₀ (fun s l s' hI hok hs => (hstep s l s' hI hok hs).1) h
  induction h with
  | nil => simp
  | @snoc ls s s' l hrun hok hs ih =>
      have hμ := (hstep _ _ _ (hinv hrun) hok hs).2
      rw [List.countP_append, List.countP_singleton]
      split at hμ
      · next hidle =>
          simp only [hidle, Bool.not_true, Bool.false_eq_true, if_false]
          omega
      · next hidle =>
          simp only [Bool.not_eq_true] at hidle
          simp only [hidle, Bool.not_false, if_true]
          omega

/-- A run in which no step is idle. -/
theorem Run.length_add_le {I : σ → Prop} (μ : σ → Nat) (h₀ : I s₀)
    (hstep : ∀ s l s', I s → ok s l → step s l = some s' → I s' ∧ μ s' < μ s)
    {ls : List ℓ} (h : Run step ok s₀ ls s) : ls.length + μ s ≤ μ s₀ := by
  have hbound := h.countP_add_le μ (fun _ => false) h₀ hstep
  rwa [List.countP_eq_length.mpr (by simp)] at hbound

/-- What is said of each component, when component `i` has become `a`. -/
theorem forall_update {ι α : Type*} [DecidableEq ι] (f : ι → α) (i : ι) (a : α)
    {P : ι → α → Prop} (hi : P i a) (hne : ∀ j, j ≠ i → P j (f j)) (j : ι) :
    P j (Function.update f i a j) := by
  by_cases hj : j = i
  · rw [hj, Function.update_self]
    exact hi
  · rw [Function.update_of_ne hj]
    exact hne j hj

end Lts
