import SysDemos.Lib.Lts

/-!
# SysDemos.Lib.Refinement

What an observer sees of a run, and forward simulation.

Each step puts out some observations (`out`, possibly none); `outputs` are those of a list of
labels.  A system refines another if each of its steps can be answered by a run of the other
that puts out the same and keeps the two states related (`Run.refines`).
-/

namespace Lts

variable {σ τ ℓ ℓ' ω : Type*} {step : σ → ℓ → Option σ} {ok : σ → ℓ → Prop} {s₀ s : σ}

/-- The observations of executing `ls`, up to a label that is not enabled. -/
def outputs (step : σ → ℓ → Option σ) (out : σ → ℓ → List ω) : σ → List ℓ → List ω
  | _, [] => []
  | s, l :: ls =>
    match step s l with
    | some s' => out s l ++ outputs step out s' ls
    | none => []

/-- The observations of a run that is continued. -/
theorem Run.outputs_append {out : σ → ℓ → List ω} {ls : List ℓ} (h : Run step ok s₀ ls s)
    (ls' : List ℓ) :
    outputs step out s₀ (ls ++ ls') = outputs step out s₀ ls ++ outputs step out s ls' := by
  induction ls generalizing s₀ with
  | nil =>
      rw [h.eq_of_nil]
      rfl
  | cons l ls ih =>
      obtain ⟨s₁, -, hs, hrun⟩ := h.uncons
      simp only [List.cons_append, outputs, hs]
      rw [ih hrun, List.append_assoc]

/-- The observations of one step. -/
theorem outputs_singleton {out : σ → ℓ → List ω} {l : ℓ} {s' : σ} (hs : step s l = some s') :
    outputs step out s [l] = out s l := by
  simp only [outputs, hs, List.append_nil]

/-- **Invariant rule with observations**: what holds of the initial state and no observations, and
is kept by every allowed step with what it puts out, holds of every run. -/
theorem Run.inv_outputs {out : σ → ℓ → List ω} {I : List ω → σ → Prop} (h₀ : I [] s₀)
    (hstep : ∀ os s l s', I os s → ok s l → step s l = some s' → I (os ++ out s l) s')
    {ls : List ℓ} (h : Run step ok s₀ ls s) : I (outputs step out s₀ ls) s := by
  induction h with
  | nil => exact h₀
  | snoc hrun hok hs ih =>
      rw [hrun.outputs_append, outputs_singleton hs]
      exact hstep _ _ _ _ ih hok hs

/-- **Forward simulation**: if every step is answered by a run with the same observations, every
run is. -/
theorem Run.refines {step' : τ → ℓ' → Option τ} {ok' : τ → ℓ' → Prop} {t₀ : τ}
    {out : σ → ℓ → List ω} {out' : τ → ℓ' → List ω} {R : σ → τ → Prop} (h₀ : R s₀ t₀)
    (hstep : ∀ s l s' t, R s t → ok s l → step s l = some s' →
      ∃ ls t', Run step' ok' t ls t' ∧ outputs step' out' t ls = out s l ∧ R s' t')
    {ls : List ℓ} (h : Run step ok s₀ ls s) :
    ∃ ls' t, Run step' ok' t₀ ls' t ∧ outputs step' out' t₀ ls' = outputs step out s₀ ls ∧
      R s t := by
  induction h with
  | nil => exact ⟨[], t₀, .nil, rfl, h₀⟩
  | snoc hrun hok hs ih =>
      obtain ⟨ls₁, t, hrun₁, hout₁, hR⟩ := ih
      obtain ⟨ls₂, t', hrun₂, hout₂, hR'⟩ := hstep _ _ _ _ hR hok hs
      refine ⟨ls₁ ++ ls₂, t', hrun₁.append hrun₂, ?_, hR'⟩
      rw [hrun₁.outputs_append, hrun.outputs_append, hout₁, hout₂, outputs_singleton hs]

end Lts
