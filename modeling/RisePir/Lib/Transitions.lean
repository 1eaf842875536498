import Mathlib.Data.List.Basic

set_option autoImplicit false
set_option relaxedAutoImplicit false

/-! Runs of a transition system whose steps show labels. What the steps show is appended to the
run's trace, and what every step keeps holds behind every run. -/

namespace RisePir.Lib.Transitions

variable {σ ℓ : Type}

/-- A run from `first`, with everything its steps have shown. -/
inductive Run (step : σ → List ℓ → σ → Prop) (first : σ) : List ℓ → σ → Prop
  | start : Run step first [] first
  | step {trace shown : List ℓ} {s s' : σ} (run : Run step first trace s) (taken : step s shown s') :
      Run step first (trace ++ shown) s'

namespace Run

variable {step step' : σ → List ℓ → σ → Prop} {first s s' : σ} {trace shown : List ℓ}

theorem single (taken : step s shown s') : Run step s shown s' :=
  .step .start taken

theorem append {trace' : List ℓ} (before : Run step first trace s) (after : Run step s trace' s') :
    Run step first (trace ++ trace') s' := by
  induction after with
  | start => simpa using before
  | step run taken ih =>
      rw [← List.append_assoc]
      exact .step ih taken

/-- What holds of the first state and is kept by every step holds behind the run. -/
theorem invariant {P : List ℓ → σ → Prop} (start : P [] first)
    (keeps : ∀ trace s shown s', P trace s → step s shown s' → P (trace ++ shown) s')
    (run : Run step first trace s) : P trace s := by
  induction run with
  | start => exact start
  | step run taken ih => exact keeps _ _ _ _ ih taken

theorem mono (into : ∀ s shown s', step s shown s' → step' s shown s')
    (run : Run step first trace s) : Run step' first trace s := by
  induction run with
  | start => exact .start
  | step run taken ih => exact .step ih (into _ _ _ taken)

/-- A run that shows nothing but `Q` is a run of the steps that show nothing but `Q`. -/
theorem within {Q : ℓ → Prop} (all : ∀ l ∈ trace, Q l) (run : Run step first trace s) :
    Run (fun s shown s' => step s shown s' ∧ ∀ l ∈ shown, Q l) first trace s := by
  induction run with
  | start => exact .start
  | step run taken ih =>
      refine .step (ih fun l mem => all l (List.mem_append_left _ mem)) ⟨taken, fun l mem => ?_⟩
      exact all l (List.mem_append_right _ mem)

end Run

end RisePir.Lib.Transitions
