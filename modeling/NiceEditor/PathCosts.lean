import Mathlib.Algebra.Order.Monoid.Defs
import Mathlib.Algebra.BigOperators.Group.List.Basic

namespace NiceEditor.PathCosts

variable {M S K : Type*} {act : M → S → Option S} {ms ns : List M} {m : M} {s t : S}

/-- The state that a row of moves leads to, if each of them is possible. -/
def run (act : M → S → Option S) : List M → S → Option S
  | [], s => some s
  | m :: ms, s => (act m s).bind (run act ms)

@[simp] theorem run_cons : run act (m :: ms) s = (act m s).bind (run act ms) := rfl

theorem run_append : run act (ms ++ ns) s = (run act ms s).bind (run act ns) := by
  induction ms generalizing s with
  | nil => rfl
  | cons m ms ih =>
      rw [List.cons_append, run_cons, run_cons, Option.bind_assoc]
      exact congrArg _ (funext fun t => ih)

theorem run_replicate (state : Nat → S) (n : Nat)
    (h : ∀ i < n, act m (state i) = some (state (i + 1))) :
    run act (List.replicate n m) (state 0) = some (state n) := by
  induction n with
  | zero => rfl
  | succ n ih =>
      rw [List.replicate_succ', run_append, ih fun i hi => h i (Nat.lt_succ_of_lt hi),
        Option.bind_some, run_cons, h n n.lt_succ_self]
      rfl

variable [AddCommMonoid K] [PartialOrder K] [IsOrderedAddMonoid K]

theorem potential_le {cost : M → K} {potential : S → K}
    (hstep : ∀ m ∈ ms, ∀ s t, act m s = some t → potential s ≤ cost m + potential t)
    (h : run act ms s = some t) : potential s ≤ (ms.map cost).sum + potential t := by
  induction ms generalizing s with
  | nil =>
      cases h
      rw [List.map_nil, List.sum_nil, zero_add]
  | cons m ms ih =>
      rw [run_cons] at h
      obtain ⟨next, hact, hrun⟩ := Option.bind_eq_some_iff.mp h
      rw [List.map_cons, List.sum_cons, add_assoc]
      apply (hstep m List.mem_cons_self s next hact).trans
      exact add_le_add_right (ih (fun m hm => hstep m (List.mem_cons_of_mem _ hm)) hrun) _

end NiceEditor.PathCosts
