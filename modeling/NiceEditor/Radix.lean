import Mathlib.Data.List.Basic
import Mathlib.Algebra.Group.Nat.Defs

namespace NiceEditor.Radix

variable {base n c k : Nat} {ds : List Nat}

/-- The number with the digits `ds` behind `n`. -/
def value (base n : Nat) (ds : List Nat) : Nat := ds.foldl (fun x d => x * base + d) n

/-- The last `k` digits of a number. -/
def digits (base c : Nat) : Nat → List Nat
  | 0 => []
  | k + 1 => c / base ^ k % base :: digits base c k

attribute [grind =] digits

@[simp] theorem value_nil : value base n [] = n := rfl

@[simp] theorem value_cons {d : Nat} : value base n (d :: ds) = value base (n * base + d) ds := rfl

@[simp] theorem digits_length (base c k : Nat) : (digits base c k).length = k := by
  induction k with
  | zero => rfl
  | succ k ih => rw [digits, List.length_cons, ih]

theorem digits_lt (hbase : 0 < base) {d : Nat} (hd : d ∈ digits base c k) : d < base := by
  induction k with
  | zero => cases hd
  | succ k ih =>
      obtain rfl | hd := List.mem_cons.mp hd
      · exact Nat.mod_lt _ hbase
      · exact ih hd

theorem div_pow_eq (base c k : Nat) :
    c / base ^ k = c / base ^ (k + 1) * base + c / base ^ k % base := by
  rw [Nat.pow_succ, ← Nat.div_div_eq_div_mul]
  exact (Nat.div_add_mod' _ _).symm

theorem value_digits (base c k : Nat) : value base (c / base ^ k) (digits base c k) = c := by
  induction k with
  | zero => rw [Nat.pow_zero, Nat.div_one, digits, value_nil]
  | succ k ih =>
      rw [digits, value_cons, ← div_pow_eq, ih]

theorem digits_value (h : ∀ d ∈ ds, d < base) :
    value base n ds / base ^ ds.length = n ∧ digits base (value base n ds) ds.length = ds := by
  induction ds generalizing n with
  | nil => exact ⟨Nat.div_one n, rfl⟩
  | cons d ds ih =>
      obtain ⟨hd, hds⟩ := List.forall_mem_cons.mp h
      have hbase : 0 < base := Nat.zero_lt_of_lt hd
      obtain ⟨hfront, hdigits⟩ := @ih (n * base + d) hds
      have hquotient : (n * base + d) / base = n := by
        rw [Nat.mul_comm, Nat.mul_add_div hbase, Nat.div_eq_of_lt hd, Nat.add_zero]
      have hrest : (n * base + d) % base = d := by
        rw [Nat.mul_comm, Nat.mul_add_mod, Nat.mod_eq_of_lt hd]
      rw [value_cons, List.length_cons]
      constructor
      · rw [Nat.pow_succ, ← Nat.div_div_eq_div_mul, hfront, hquotient]
      · rw [digits, hfront, hrest, hdigits]

end NiceEditor.Radix
