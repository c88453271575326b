import Mathlib.Algebra.BigOperators.Group.List.Basic
import Mathlib.Algebra.Order.BigOperators.Group.List
import Mathlib.Algebra.Ring.Int.Defs

namespace NiceEditor.Nesting

variable {α β : Type*} {w : α → Int} {a x : α} {l m r : List α} {n k : Int}

/-- How a count ends: at an element where it is 0, or at the end of the list. -/
inductive Tally (α : Type*)
  | ends (a : α)
  | rest (n : Int)
deriving DecidableEq

/-- A list is counted from `n` on. -/
def tally (w : α → Int) : Int → List α → Tally α
  | n, [] => .rest n
  | n, a :: l => if n + w a = 0 then .ends a else tally w (n + w a) l

attribute [grind =] tally

/-- As much is closed as is opened, and nothing before it is opened. -/
structure Balanced (w : α → Int) (l : List α) : Prop where
  total : (l.map w).sum = 0
  before : ∀ a b, l = a ++ b → 0 ≤ (a.map w).sum

theorem tally_append (w : α → Int) (n : Int) (l r : List α) :
    tally w n (l ++ r) = match tally w n l with
      | .ends a => .ends a
      | .rest n => tally w n r := by
  induction l generalizing n with
  | nil => rfl
  | cons a l ih =>
      rw [List.cons_append, tally, tally]
      split
      · rfl
      · exact ih _

theorem tally_of_rest (h : tally w n l = .rest k) : tally w n (l ++ r) = tally w k r := by
  rw [tally_append, h]

theorem tally_pass (h : ∀ a b, l = a ++ b → 0 < n + (a.map w).sum) :
    tally w n l = .rest (n + (l.map w).sum) := by
  induction l generalizing n with
  | nil => simp [tally]
  | cons a l ih =>
      have hfirst := h [a] l rfl
      rw [List.map_singleton, List.sum_singleton] at hfirst
      rw [tally, if_neg (by omega), ih]
      · rw [List.map_cons, List.sum_cons, Int.add_assoc]
      · rintro b c rfl
        have hmore := h (a :: b) c rfl
        rw [List.map_cons, List.sum_cons] at hmore
        omega

theorem exists_of_ends (hw : ∀ a, -1 ≤ w a) (hn : 0 < n) (h : tally w n l = .ends x) :
    ∃ m r, l = m ++ x :: r ∧ (∀ a b, m = a ++ b → 0 < n + (a.map w).sum) ∧
      n + (m.map w).sum = 1 ∧ w x = -1 := by
  induction l generalizing n with
  | nil => exact absurd h nofun
  | cons a l ih =>
      have ha := hw a
      rw [tally] at h
      split at h
      case isTrue hzero =>
          obtain rfl : a = x := by simpa using h
          refine ⟨[], l, rfl, fun b c hnil => ?_, ?_, by omega⟩
          · obtain ⟨rfl, rfl⟩ := List.append_eq_nil_iff.mp hnil.symm
            simpa using hn
          · simp
            omega
      case isFalse hzero =>
          obtain ⟨m, r, rfl, hbefore, hsum, hx⟩ := ih (by omega) h
          refine ⟨a :: m, r, rfl, fun b c hsplit => ?_, ?_, hx⟩
          · obtain _ | ⟨b', b⟩ := b
            · simpa using hn
            · obtain ⟨rfl, rfl⟩ := List.cons_eq_cons.mp hsplit
              have := hbefore b c rfl
              rw [List.map_cons, List.sum_cons]
              omega
          · rw [List.map_cons, List.sum_cons]
            omega

theorem tally_one_iff (hw : ∀ a, -1 ≤ w a) :
    tally w 1 l = .ends x ↔ ∃ m r, l = m ++ x :: r ∧ Balanced w m ∧ w x = -1 := by
  constructor
  · intro h
    obtain ⟨m, r, hl, hbefore, hsum, hx⟩ := exists_of_ends hw Int.one_pos h
    refine ⟨m, r, hl, ⟨by omega, fun a b hm => ?_⟩, hx⟩
    have := hbefore a b hm
    omega
  · rintro ⟨m, r, rfl, ⟨htotal, hbefore⟩, hx⟩
    have hpass : tally w 1 m = .rest (1 + (m.map w).sum) := tally_pass fun a b hm => by
      have := hbefore a b hm
      omega
    rw [tally_of_rest hpass, tally, if_pos (by omega)]

theorem Balanced.reverse (h : Balanced w l) : Balanced (fun a => -w a) l.reverse := by
  have hneg : ∀ m : List α, (m.map fun a => -w a).sum = -(m.map w).sum := by
    intro m
    induction m with
    | nil => rfl
    | cons a m ih =>
        rw [List.map_cons, List.sum_cons, List.map_cons, List.sum_cons, ih]
        omega
  have hreverse : ∀ m : List α, (m.reverse.map w).sum = (m.map w).sum := fun m => by
    rw [List.map_reverse, List.sum_reverse]
  refine ⟨by rw [hneg, hreverse, h.total]; rfl, fun a b hsplit => ?_⟩
  have hl : l = b.reverse ++ a.reverse := by
    rw [← List.reverse_append, ← hsplit, List.reverse_reverse]
  have htotal := h.total
  have hbefore := h.before b.reverse a.reverse hl
  rw [hl, List.map_append, List.sum_append, hreverse] at htotal
  rw [hreverse] at hbefore htotal
  rw [hneg]
  omega

theorem tally_map {f : β → α} (w : α → Int) (n : Int) (l : List β) :
    tally w n (l.map f) = match tally (fun b => w (f b)) n l with
      | .ends b => .ends (f b)
      | .rest n => .rest n := by
  induction l generalizing n with
  | nil => rfl
  | cons b l ih =>
      rw [List.map_cons, tally, tally]
      split
      · rfl
      · exact ih _

end NiceEditor.Nesting
