
namespace NiceEditor.Outcomes

universe u v

variable {ε : Type u} {α β : Type v}

/-- The computation returns a value of `P`, or fails with an error of `Q`. -/
def Ends (x : Except ε α) (P : α → Prop) (Q : ε → Prop) : Prop :=
  match x with
  | .ok a => P a
  | .error e => Q e

variable {x : Except ε α} {f : α → Except ε β} {P P' : α → Prop} {R : β → Prop} {Q : ε → Prop}

theorem Ends.pure {a : α} (h : P a) : Ends (pure a : Except ε α) P Q := h

theorem Ends.bind (hx : Ends x P Q) (hf : ∀ a, P a → Ends (f a) R Q) :
    Ends (x >>= f) R Q := by
  cases x with
  | ok a => exact hf a hx
  | error e => exact hx

theorem Ends.weaken (hx : Ends x P Q) (h : ∀ a, P a → P' a) : Ends x P' Q := by
  cases x with
  | ok a => exact h a hx
  | error e => exact hx

theorem Ends.ite {c : Prop} [Decidable c] {y : Except ε α} (hx : c → Ends x P Q)
    (hy : ¬ c → Ends y P Q) : Ends (if c then x else y) P Q := by
  split
  · exact hx ‹_›
  · exact hy ‹_›

end NiceEditor.Outcomes
