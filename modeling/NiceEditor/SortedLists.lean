import Mathlib.Data.List.InsertIdx

namespace NiceEditor.SortedLists

variable {α β : Type*} {R : α → α → Prop} {cmp : α → α → Ordering}
variable {xs ys : List α} {x : α} {i k : Nat}

theorem insertIdx_eq (h : i ≤ xs.length) : xs.insertIdx i x = xs.take i ++ x :: xs.drop i := by
  obtain ⟨front, back, rfl, rfl, heq⟩ := List.exists_of_modifyTailIdx (x :: ·) h
  rw [List.take_left, List.drop_left]
  exact heq

theorem pairwise_insertIdx (h : xs.Pairwise R) (hi : i ≤ xs.length)
    (hbefore : ∀ j (hj : j < xs.length), j < i → R xs[j] x)
    (hbehind : ∀ j (hj : j < xs.length), i ≤ j → R x xs[j]) : (xs.insertIdx i x).Pairwise R := by
  rw [insertIdx_eq hi]
  rw [← List.take_append_drop i xs, List.pairwise_append] at h
  obtain ⟨htake, hdrop, hcross⟩ := h
  have hrest : ∀ y ∈ xs.drop i, R x y := fun y hy => by
    obtain ⟨j, hj, rfl⟩ := List.mem_drop_iff_getElem.mp hy
    exact hbehind (i + j) (by omega) (Nat.le_add_right i j)
  refine List.pairwise_append.mpr ⟨htake, List.pairwise_cons.mpr ⟨hrest, hdrop⟩, ?_⟩
  intro y hy z hz
  obtain rfl | hz := List.mem_cons.mp hz
  · obtain ⟨j, hj, rfl⟩ := List.mem_take_iff_getElem.mp hy
    exact hbefore j (by omega) (by omega)
  · exact hcross y hy z hz

/-- The list is in the order of the comparison. -/
def Ascending (cmp : α → α → Ordering) (xs : List α) : Prop := xs.Pairwise fun x y => (cmp x y).isLE

/-- The number of elements before `x` -/
def before (cmp : α → α → Ordering) (xs : List α) (x : α) : Nat := xs.countP fun y => (cmp y x).isLT

/-- The number of elements up to `x` -/
def upTo (cmp : α → α → Ordering) (xs : List α) (x : α) : Nat := xs.countP fun y => (cmp y x).isLE

theorem before_perm (h : xs.Perm ys) (x : α) : before cmp xs x = before cmp ys x := h.countP_eq _

theorem upTo_perm (h : xs.Perm ys) (x : α) : upTo cmp xs x = upTo cmp ys x := h.countP_eq _

theorem upTo_le (xs : List α) (x : α) : upTo cmp xs x ≤ xs.length := List.countP_le_length

section Ranks

variable [Std.TransCmp cmp]

theorem Ascending.le_of_le (h : Ascending cmp ys) (hi : i < ys.length) (hk : k < ys.length)
    (hik : i ≤ k) : (cmp ys[i] ys[k]).isLE := by
  obtain rfl | hlt := Nat.eq_or_lt_of_le hik
  · exact Std.ReflCmp.isLE_rfl
  · exact List.pairwise_iff_getElem.mp h i k hi hk hlt

theorem countP_le_index {P : α → Bool}
    (h : ∀ i (hi : i < ys.length), k ≤ i → P ys[i] = false) : ys.countP P ≤ k := by
  have hdrop : (ys.drop k).countP P = 0 := by
    rw [List.countP_eq_zero]
    intro y hy
    obtain ⟨j, hj, rfl⟩ := List.mem_iff_getElem.mp hy
    rw [List.length_drop] at hj
    rw [List.getElem_drop]
    simpa using h (k + j) (by omega) (Nat.le_add_right k j)
  rw [← List.take_append_drop k ys, List.countP_append, hdrop]
  exact Nat.le_trans List.countP_le_length (List.length_take_le k ys)

theorem index_lt_countP {P : α → Bool} (hk : k < ys.length)
    (h : ∀ i (hi : i < ys.length), i ≤ k → P ys[i] = true) : k < ys.countP P := by
  have htake : (ys.take (k + 1)).countP P = k + 1 := by
    rw [List.countP_eq_length.mpr, List.length_take]
    · omega
    · intro y hy
      obtain ⟨j, hj, rfl⟩ := List.mem_iff_getElem.mp hy
      rw [List.length_take] at hj
      rw [List.getElem_take]
      exact h j (by omega) (by omega)
  rw [← List.take_append_drop (k + 1) ys, List.countP_append, htake]
  omega

theorem Ascending.before_le (h : Ascending cmp ys) (hk : k < ys.length) :
    before cmp ys ys[k] ≤ k := by
  refine countP_le_index fun i hi hki => ?_
  have hle := h.le_of_le hk hi hki
  rw [← Std.OrientedCmp.isGE_iff_isLE] at hle
  cases hcmp : cmp ys[i] ys[k] <;> simp_all

theorem Ascending.lt_upTo (h : Ascending cmp ys) (hk : k < ys.length) :
    k < upTo cmp ys ys[k] :=
  index_lt_countP hk fun _ hi hik => h.le_of_le hi hk hik

variable [Std.LawfulEqCmp cmp]

theorem Ascending.get_eq (h : Ascending cmp ys) (hbefore : before cmp ys x ≤ k)
    (hupTo : k < upTo cmp ys x) (hk : k < ys.length) : ys[k] = x := by
  refine Std.LawfulEqCmp.eq_of_compare (?_ : cmp ys[k] x = .eq)
  cases hcmp : cmp ys[k] x with
  | eq => rfl
  | lt =>
      have hlt : k < before cmp ys x := index_lt_countP hk fun i hi hik => by
        rw [Ordering.isLT_iff_eq_lt]
        exact Std.TransCmp.lt_of_isLE_of_lt (h.le_of_le hi hk hik) hcmp
      omega
  | gt =>
      have hle : upTo cmp ys x ≤ k := countP_le_index fun i hi hki => by
        have hgt := Std.TransCmp.gt_of_isGE_of_gt
          (Std.OrientedCmp.isGE_of_isLE (h.le_of_le hk hi hki)) hcmp
        rw [hgt]
        rfl
      omega

theorem map_eq_iff (hperm : xs.Perm ys) (h : Ascending cmp ys) (w : α → β) :
    ys.map w = xs.map w ↔
      ∀ x ∈ xs, ∀ k y, before cmp xs x ≤ k → k < upTo cmp xs x → xs[k]? = some y → w y = w x := by
  constructor
  · intro hmap x _ k y hbefore hupTo hy
    rw [before_perm hperm] at hbefore
    rw [upTo_perm hperm] at hupTo
    have hk : k < ys.length := Nat.lt_of_lt_of_le hupTo (upTo_le ys x)
    have hget := congrArg (·[k]?) hmap
    simp only [List.getElem?_map, hy, List.getElem?_eq_getElem hk, Option.map_some,
      Option.some.injEq] at hget
    rw [← hget]
    exact congrArg w (h.get_eq hbefore hupTo hk)
  · intro hsame
    refine List.ext_getElem (by simp [hperm.length_eq]) fun k hk hk' => ?_
    rw [List.length_map] at hk hk'
    rw [List.getElem_map, List.getElem_map]
    refine (hsame ys[k] (hperm.mem_iff.mpr (List.getElem_mem hk)) k xs[k] ?_ ?_
      (List.getElem?_eq_getElem hk')).symm
    · rw [before_perm hperm]
      exact h.before_le hk
    · rw [upTo_perm hperm]
      exact h.lt_upTo hk

end Ranks

end NiceEditor.SortedLists
