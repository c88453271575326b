import Mathlib.Data.List.Basic
import Mathlib.Data.List.Perm.Basic

namespace NiceEditor.Ownership

variable {σ ρ ν : Type*}

/-- `Exchanges Inv view s old s' new`: the step from `s` to `s'` gives up the
resources `old` and yields `new`.  Whatever else was held before the step is
held after it, with the same content. -/
structure Exchanges (Inv : σ → List ρ → Prop) (view : σ → ρ → ν)
    (s : σ) (old : List ρ) (s' : σ) (new : List ρ) : Prop where
  inv : ∀ rest, Inv s (old ++ rest) → Inv s' (new ++ rest)
  view : ∀ rest, Inv s (old ++ rest) → ∀ r ∈ rest, view s' r = view s r

variable {Inv : σ → List ρ → Prop} {view : σ → ρ → ν}
variable {s s' s'' : σ} {old mid new : List ρ}

theorem Exchanges.refl (s : σ) (held : List ρ) : Exchanges Inv view s held s held where
  inv := fun _ h => h
  view := fun _ _ _ _ => rfl

theorem Exchanges.trans (first : Exchanges Inv view s old s' mid)
    (second : Exchanges Inv view s' mid s'' new) :
    Exchanges Inv view s old s'' new where
  inv := fun rest h => second.inv rest (first.inv rest h)
  view := fun rest h r hr =>
    (second.view rest (first.inv rest h) r hr).trans (first.view rest h r hr)

theorem Exchanges.frame (step : Exchanges Inv view s old s' new) (extra : List ρ) :
    Exchanges Inv view s (old ++ extra) s' (new ++ extra) where
  inv := fun rest h => by
    rw [List.append_assoc] at h ⊢
    exact step.inv _ h
  view := fun rest h r hr => by
    rw [List.append_assoc] at h
    exact step.view _ h r (List.mem_append_right _ hr)

section Order

variable (hperm : ∀ {s : σ} {held held' : List ρ}, held.Perm held' → Inv s held → Inv s held')

include hperm

theorem Exchanges.perm {old' new' : List ρ} (step : Exchanges Inv view s old s' new)
    (hold : old'.Perm old) (hnew : new.Perm new') :
    Exchanges Inv view s old' s' new' where
  inv := fun rest h =>
    hperm (hnew.append_right rest) (step.inv rest (hperm (hold.append_right rest) h))
  view := fun rest h r hr => step.view rest (hperm (hold.append_right rest) h) r hr

theorem Exchanges.inv_middle (step : Exchanges Inv view s old s' new)
    {before after : List ρ} (h : Inv s (before ++ old ++ after)) :
    Inv s' (before ++ new ++ after) := by
  have hfront : ∀ l : List ρ, (before ++ l ++ after).Perm (l ++ (before ++ after)) :=
    fun l => by
      rw [← List.append_assoc]
      exact (List.perm_append_comm).append_right after
  exact hperm (hfront new).symm (step.inv _ (hperm (hfront old) h))

theorem Exchanges.view_middle (step : Exchanges Inv view s old s' new)
    {before after : List ρ} (h : Inv s (before ++ old ++ after))
    {r : ρ} (hr : r ∈ before ++ after) : view s' r = view s r := by
  have hfront : (before ++ old ++ after).Perm (old ++ (before ++ after)) := by
    rw [← List.append_assoc]
    exact (List.perm_append_comm).append_right after
  exact step.view _ (hperm hfront h) r hr

end Order

end NiceEditor.Ownership
