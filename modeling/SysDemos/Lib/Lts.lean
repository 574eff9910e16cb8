import Mathlib

/-!
# SysDemos.Lib.Lts

Labelled transition systems whose step is a partial function: a label
carries everything the environment decides (which party moves, what a call
returns), so a state and a label have at most one successor.

A `Run` is a finite sequence of labels together with the state it ends in.
The condition `ok` restricts the labels a run may take in each state; the
trivial condition gives all runs.  The two rules of this module are used
by every safety proof of the project:

* `Run.inv` — what holds initially and is kept by every step holds at the
  end of every run;
* `exists_run_of_exec` — a computed execution is a run, which is how
  concrete runs are exhibited.
-/

namespace Lts

variable {σ ℓ : Type*} {step : σ → ℓ → Option σ} {ok : σ → ℓ → Prop} {s₀ : σ}

/-- `Run step ok s₀ ls s`: from `s₀` the labels `ls`, each allowed by `ok`
in the state where it is taken, lead to `s`. -/
inductive Run (step : σ → ℓ → Option σ) (ok : σ → ℓ → Prop) (s₀ : σ) : List ℓ → σ → Prop
  | nil : Run step ok s₀ [] s₀
  | snoc {ls : List ℓ} {s s' : σ} {l : ℓ} :
      Run step ok s₀ ls s → ok s l → step s l = some s' → Run step ok s₀ (ls ++ [l]) s'

/-- The condition that allows every label. -/
def any (_ : σ) (_ : ℓ) : Prop := True

/-- **Invariant rule**: what holds in the initial state and is kept by
every allowed step holds at the end of every run. -/
theorem Run.inv {I : σ → Prop} (h₀ : I s₀)
    (hstep : ∀ s l s', I s → ok s l → step s l = some s' → I s')
    {ls : List ℓ} {s : σ} (h : Run step ok s₀ ls s) : I s := by
  induction h with
  | nil => exact h₀
  | snoc _ hok hs ih => exact hstep _ _ _ ih hok hs

/-- A run under a condition is a run under every weaker one. -/
theorem Run.mono {ok' : σ → ℓ → Prop} (hw : ∀ s l, ok s l → ok' s l)
    {ls : List ℓ} {s : σ} (h : Run step ok s₀ ls s) : Run step ok' s₀ ls s := by
  induction h with
  | nil => exact .nil
  | snoc _ hok hs ih => exact .snoc ih (hw _ _ hok) hs

theorem Run.toAny {ls : List ℓ} {s : σ} (h : Run step ok s₀ ls s) : Run step any s₀ ls s :=
  h.mono fun _ _ _ => trivial

/-- A run of no steps. -/
theorem Run.eq_of_nil {s : σ} (h : Run step ok s₀ [] s) : s = s₀ := by
  generalize hxs : ([] : List ℓ) = xs at h
  cases h with
  | nil => rfl
  | snoc => simp at hxs

/-- The first step of a run. -/
theorem Run.uncons {s : σ} {l : ℓ} {ls : List ℓ} (h : Run step ok s₀ (l :: ls) s) :
    ∃ s₁, ok s₀ l ∧ step s₀ l = some s₁ ∧ Run step ok s₁ ls s := by
  generalize hxs : l :: ls = xs at h
  induction h generalizing ls with
  | nil => contradiction
  | @snoc ys _ _ _ hrun hok hs ih =>
      cases ys with
      | nil =>
          cases hxs
          rw [hrun.eq_of_nil] at hok hs
          exact ⟨_, hok, hs, .nil⟩
      | cons y ys =>
          obtain ⟨rfl, rfl⟩ := List.cons.inj hxs
          obtain ⟨s₁, hok₁, hs₁, hrun₁⟩ := ih rfl
          exact ⟨s₁, hok₁, hs₁, hrun₁.snoc hok hs⟩

/-- The last step of a run. -/
theorem Run.unsnoc {s : σ} {l : ℓ} {ls : List ℓ} (h : Run step ok s₀ (ls ++ [l]) s) :
    ∃ s₁, Run step ok s₀ ls s₁ ∧ ok s₁ l ∧ step s₁ l = some s := by
  generalize hxs : ls ++ [l] = xs at h
  cases h with
  | nil => simp at hxs
  | snoc hrun hok hs =>
      obtain ⟨rfl, rfl⟩ := List.append_singleton_inj.mp hxs
      exact ⟨_, hrun, hok, hs⟩

/-- A run continued by another. -/
theorem Run.append {s₁ s : σ} {ls ls' : List ℓ} (h : Run step ok s₀ ls s₁)
    (h' : Run step ok s₁ ls' s) : Run step ok s₀ (ls ++ ls') s := by
  induction h' with
  | nil => rwa [List.append_nil]
  | snoc _ hok hs ih =>
      rw [← List.append_assoc]
      exact ih.snoc hok hs

/-! ## computed executions -/

/-- Execute a list of labels, giving up at a label that is not enabled or
that the Boolean condition refuses. -/
def exec (step : σ → ℓ → Option σ) (okb : σ → ℓ → Bool) : σ → List ℓ → Option σ
  | s, [] => some s
  | s, l :: ls =>
    if okb s l then
      match step s l with
      | some s' => exec step okb s' ls
      | none => none
    else none

/-- Prepending a step to a run. -/
theorem Run.cons {s₁ s : σ} {l : ℓ} {ls : List ℓ} (h : Run step ok s₁ ls s) (hok : ok s₀ l)
    (hs : step s₀ l = some s₁) : Run step ok s₀ (l :: ls) s := by
  induction h with
  | nil => exact Run.snoc .nil hok hs
  | snoc _ hok' hs' ih => exact Run.snoc ih hok' hs'

/-- An execution is a run. -/
theorem run_of_exec {okb : σ → ℓ → Bool} {ls : List ℓ} {s : σ}
    (h : exec step okb s₀ ls = some s) : Run step (fun s l => okb s l = true) s₀ ls s := by
  induction ls generalizing s₀ with
  | nil =>
      simp only [exec, Option.some.injEq] at h
      subst h
      exact .nil
  | cons l ls ih =>
      simp only [exec] at h
      split at h
      · next hok =>
          split at h
          · next s₁ hs => exact (ih h).cons hok hs
          · contradiction
      · contradiction

/-- An execution whose last state is observed to have value `v` gives a
run to a state with that observation. -/
theorem exists_run_of_exec {okb : σ → ℓ → Bool} {ls : List ℓ} {β : Type*} (obs : σ → β) (v : β)
    (h : (exec step okb s₀ ls).map obs = some v) :
    ∃ s, Run step (fun s l => okb s l = true) s₀ ls s ∧ obs s = v := by
  obtain ⟨s, hs, hv⟩ := Option.map_eq_some_iff.mp h
  exact ⟨s, run_of_exec hs, hv⟩

/-- The same for an execution that is observed twice. -/
theorem exists_runs_of_exec {okb : σ → ℓ → Bool} {ls ls' : List ℓ} {β : Type*} (obs : σ → σ → β)
    (v : β)
    (h : ((exec step okb s₀ ls).bind fun s => (exec step okb s ls').map (obs s)) = some v) :
    ∃ s s', Run step (fun s l => okb s l = true) s₀ ls s ∧
      Run step (fun s l => okb s l = true) s ls' s' ∧ obs s s' = v := by
  obtain ⟨s, hs, h⟩ := Option.bind_eq_some_iff.mp h
  obtain ⟨s', hs', hv⟩ := Option.map_eq_some_iff.mp h
  exact ⟨s, s', run_of_exec hs, run_of_exec hs', hv⟩

end Lts
