
namespace NiceEditor.Runs

universe u

variable {σ : Type u} {start Inv : σ → Prop} {step : σ → σ → Prop}

/-- A state at the end of a run: a first state, and any number of steps. -/
inductive Reached (start : σ → Prop) (step : σ → σ → Prop) : σ → Prop
  | init {s : σ} (h : start s) : Reached start step s
  | next {s s' : σ} (before : Reached start step s) (h : step s s') : Reached start step s'

theorem Reached.invariant {s : σ} (h : Reached start step s) (hstart : ∀ s, start s → Inv s)
    (hstep : ∀ s s', Inv s → step s s' → Inv s') : Inv s := by
  induction h with
  | init h => exact hstart _ h
  | next before h ih => exact hstep _ _ ih h

end NiceEditor.Runs
