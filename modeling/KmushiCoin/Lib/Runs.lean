import Mathlib.Logic.Basic

/-!
# Runs of a machine under a condition on its steps

A machine is a function `step : σ → ε → σ`. `GuardedRun step ok s₀ s` says that events lead from
`s₀` to `s`, each of which meets `ok` in the state in which it arrives; with a condition that
always holds these are the reachable states.
-/

/-- The states that are reached from `s₀` by events that meet the condition `ok`. -/
inductive GuardedRun {σ ε : Type} (step : σ → ε → σ) (ok : σ → ε → Prop) (s₀ : σ) : σ → Prop
  | init : GuardedRun step ok s₀ s₀
  | next {s : σ} (e : ε) : GuardedRun step ok s₀ s → ok s e → GuardedRun step ok s₀ (step s e)

namespace GuardedRun

variable {σ ε : Type} {step : σ → ε → σ} {ok : σ → ε → Prop} {s₀ s : σ}

/-- **The invariant rule.** What holds at the start and is kept by every step that meets the
condition holds in every state reached. -/
theorem invariant {P : σ → Prop} (hinit : P s₀) (hstep : ∀ s e, P s → ok s e → P (step s e))
    (h : GuardedRun step ok s₀ s) : P s := by
  induction h with
  | init => exact hinit
  | next e _ hok ih => exact hstep _ e ih hok

/-- A weaker condition allows more runs. -/
theorem mono {ok' : σ → ε → Prop} (himp : ∀ s e, ok s e → ok' s e)
    (h : GuardedRun step ok s₀ s) : GuardedRun step ok' s₀ s := by
  induction h with
  | init => exact .init
  | next e _ hok ih => exact .next e ih (himp _ e hok)

/-- The events of a list, one after the other, meet the condition. -/
def Allows (step : σ → ε → σ) (ok : σ → ε → Prop) : σ → List ε → Prop
  | _, [] => True
  | s, e :: es => ok s e ∧ Allows step ok (step s e) es

/-- A list of events is a run. -/
theorem foldl {es : List ε} (h : GuardedRun step ok s₀ s) (hes : Allows step ok s es) :
    GuardedRun step ok s₀ (es.foldl step s) := by
  induction es generalizing s with
  | nil => exact h
  | cons e es ih => exact ih (.next e h hes.1) hes.2

end GuardedRun
