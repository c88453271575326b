import Mathlib.Data.List.Basic
import Mathlib.Data.List.Count
import Mathlib.Tactic.Ring

namespace NiceEditor.Cells

variable {α : Type*}

/-- The `n` cells of a block from `start` on. -/
def readCells (m : Nat → α) : Nat → Nat → List α
  | _, 0 => []
  | start, n + 1 => m start :: readCells m (start + 1) n

/-- The block after `xs` has been stored from `start` on. -/
def writeCells (m : Nat → α) (start : Nat) (xs : List α) : Nat → α := fun i =>
  if start ≤ i then (xs[i - start]?).getD (m i) else m i

@[simp] theorem readCells_length (m : Nat → α) (start n : Nat) :
    (readCells m start n).length = n := by
  induction n generalizing start with
  | zero => rfl
  | succ n ih => simp [readCells, ih]

@[simp] theorem readCells_zero (m : Nat → α) (start : Nat) :
    readCells m start 0 = [] := rfl

theorem readCells_getElem? (m : Nat → α) (start n i : Nat) :
    (readCells m start n)[i]? = if i < n then some (m (start + i)) else none := by
  induction n generalizing start i with
  | zero => simp
  | succ n ih =>
      cases i with
      | zero => simp [readCells]
      | succ i =>
          simp only [readCells, List.getElem?_cons_succ, ih,
            Nat.add_lt_add_iff_right]
          rw [show start + 1 + i = start + (i + 1) by omega]

theorem mem_readCells {m : Nat → α} {start n : Nat} {x : α} :
    x ∈ readCells m start n ↔ ∃ i, start ≤ i ∧ i < start + n ∧ m i = x := by
  rw [List.mem_iff_getElem?]
  constructor
  · rintro ⟨i, hi⟩
    rw [readCells_getElem?] at hi
    split at hi
    · exact ⟨start + i, by omega, by omega, by simpa using hi⟩
    · simp at hi
  · rintro ⟨i, hstart, hend, rfl⟩
    refine ⟨i - start, ?_⟩
    rw [readCells_getElem?, if_pos (by omega), Nat.add_sub_cancel' hstart]

theorem readCells_congr {m m' : Nat → α} {start n : Nat}
    (h : ∀ i, start ≤ i → i < start + n → m' i = m i) :
    readCells m' start n = readCells m start n := by
  apply List.ext_getElem?
  intro i
  rw [readCells_getElem?, readCells_getElem?]
  split
  · rw [h (start + i) (by omega) (by omega)]
  · rfl

theorem readCells_add (m : Nat → α) (start a b : Nat) :
    readCells m start (a + b) =
      readCells m start a ++ readCells m (start + a) b := by
  induction a generalizing start with
  | zero => simp
  | succ a ih =>
      rw [show a + 1 + b = (a + b) + 1 by omega]
      simp only [readCells, ih, List.cons_append]
      rw [show start + 1 + a = start + (a + 1) by omega]

theorem readCells_take (m : Nat → α) {start n k : Nat} (h : k ≤ n) :
    (readCells m start n).take k = readCells m start k := by
  obtain ⟨d, rfl⟩ := Nat.exists_eq_add_of_le h
  rw [readCells_add, List.take_left' (by simp)]

theorem readCells_drop (m : Nat → α) {start n k : Nat} (h : k ≤ n) :
    (readCells m start n).drop k = readCells m (start + k) (n - k) := by
  obtain ⟨d, rfl⟩ := Nat.exists_eq_add_of_le h
  rw [readCells_add, List.drop_left' (by simp), Nat.add_sub_cancel_left]

theorem writeCells_of_outside (m : Nat → α) {start i : Nat} {xs : List α}
    (h : i < start ∨ start + xs.length ≤ i) : writeCells m start xs i = m i := by
  unfold writeCells
  split
  · rw [List.getElem?_eq_none (by omega)]
    rfl
  · rfl

theorem writeCells_of_inside (m : Nat → α) {start i : Nat} {xs : List α}
    (hstart : start ≤ i) (hend : i < start + xs.length) :
    writeCells m start xs i = xs[i - start] := by
  unfold writeCells
  rw [if_pos hstart, List.getElem?_eq_getElem (by omega)]
  rfl

theorem writeCells_of_getElem? (m : Nat → α) (start : Nat) {i : Nat} {xs : List α} {x : α}
    (h : xs[i]? = some x) : writeCells m start xs (start + i) = x := by
  unfold writeCells
  rw [if_pos (Nat.le_add_right _ _), Nat.add_sub_cancel_left, h]
  rfl

theorem writeCells_mem (m : Nat → α) {start i : Nat} {xs : List α}
    (hstart : start ≤ i) (hend : i < start + xs.length) :
    writeCells m start xs i ∈ xs := by
  rw [writeCells_of_inside m hstart hend]
  exact List.getElem_mem _

theorem writeCells_append (m : Nat → α) (start : Nat) (xs ys : List α) :
    writeCells (writeCells m start xs) (start + xs.length) ys =
      writeCells m start (xs ++ ys) := by
  funext i
  by_cases hlow : i < start + xs.length
  · rw [writeCells_of_outside _ (Or.inl hlow)]
    by_cases hi : start ≤ i
    · rw [writeCells_of_inside _ hi hlow, writeCells_of_inside _ hi (by simp; omega),
        List.getElem_append_left]
    · rw [writeCells_of_outside _ (by omega), writeCells_of_outside _ (by omega)]
  · by_cases hhigh : i < start + xs.length + ys.length
    · rw [writeCells_of_inside _ (by omega) hhigh,
        writeCells_of_inside _ (by omega) (by simp; omega),
        List.getElem_append_right (by omega)]
      congr 1
      omega
    · rw [writeCells_of_outside _ (by omega), writeCells_of_outside _ (by omega),
        writeCells_of_outside _ (by simp; omega)]

theorem writeCells_comm (m : Nat → α) {start target : Nat} {xs ys : List α}
    (h : start + xs.length ≤ target) :
    writeCells (writeCells m target ys) start xs =
      writeCells (writeCells m start xs) target ys := by
  funext i
  by_cases hlow : start ≤ i ∧ i < start + xs.length
  · rw [writeCells_of_inside _ hlow.1 hlow.2, writeCells_of_outside _ (by omega),
      writeCells_of_inside _ hlow.1 hlow.2]
  · rw [writeCells_of_outside _ (by omega)]
    by_cases hhigh : target ≤ i ∧ i < target + ys.length
    · rw [writeCells_of_inside _ hhigh.1 hhigh.2, writeCells_of_inside _ hhigh.1 hhigh.2]
    · rw [writeCells_of_outside _ (by omega), writeCells_of_outside _ (by omega),
        writeCells_of_outside _ (by omega)]

theorem writeCells_prepend (m : Nat → α) (start : Nat) (xs ys : List α) :
    writeCells (writeCells m (start + xs.length) ys) start xs = writeCells m start (xs ++ ys) := by
  rw [writeCells_comm m le_rfl, writeCells_append]

theorem readCells_writeCells (m : Nat → α) (start : Nat) (xs : List α) :
    readCells (writeCells m start xs) start xs.length = xs := by
  apply List.ext_getElem?
  intro i
  rw [readCells_getElem?]
  split
  · rename_i hi
    rw [writeCells_of_inside _ (by omega) (by omega), List.getElem?_eq_getElem hi]
    simp
  · rw [List.getElem?_eq_none (by omega)]

theorem readCells_writeCells_of_disjoint (m : Nat → α) {start n target : Nat}
    {xs : List α} (h : start + n ≤ target ∨ target + xs.length ≤ start) :
    readCells (writeCells m target xs) start n = readCells m start n :=
  readCells_congr fun i _ _ => writeCells_of_outside m (by omega)

theorem readCells_writeCells_end (m : Nat → α) (n : Nat) (xs : List α) :
    readCells (writeCells m n xs) 0 (n + xs.length) = readCells m 0 n ++ xs := by
  rw [readCells_add, readCells_writeCells_of_disjoint m (by omega), Nat.zero_add,
    readCells_writeCells]

section Scanning

variable [DecidableEq α] [Zero α]

/-- How many zero cells stand directly before `i`, up to a budget. -/
def zerosBefore (m : Nat → α) : Nat → Nat → Nat
  | 0, _ => 0
  | _ + 1, 0 => 0
  | budget + 1, i + 1 => if m i = 0 then zerosBefore m budget i + 1 else 0

/-- How many zero cells stand from `i` on and below `bound`, up to a budget. -/
def zerosAfter (m : Nat → α) (bound : Nat) : Nat → Nat → Nat
  | 0, _ => 0
  | budget + 1, i =>
      if i < bound ∧ m i = 0 then zerosAfter m bound budget (i + 1) + 1 else 0

attribute [grind =] readCells writeCells zerosBefore zerosAfter

theorem zerosBefore_le_start (m : Nat → α) (budget i : Nat) :
    zerosBefore m budget i ≤ i := by
  induction budget generalizing i with
  | zero => simp [zerosBefore]
  | succ budget ih =>
      cases i with
      | zero => simp [zerosBefore]
      | succ i =>
          simp only [zerosBefore]
          split
          · exact Nat.succ_le_succ (ih i)
          · omega

theorem zerosBefore_zero (m : Nat → α) (budget i : Nat) {j : Nat}
    (hlow : i - zerosBefore m budget i ≤ j) (hhigh : j < i) : m j = 0 := by
  induction budget generalizing i with
  | zero => simp [zerosBefore] at hlow; omega
  | succ budget ih =>
      cases i with
      | zero => omega
      | succ i =>
          simp only [zerosBefore] at hlow
          split at hlow
          · rename_i hzero
            rcases Nat.lt_succ_iff_lt_or_eq.mp hhigh with hj | rfl
            · exact ih _ (by omega) hj
            · exact hzero
          · omega

theorem zerosAfter_le_bound (m : Nat → α) (bound budget i : Nat) (h : i ≤ bound) :
    i + zerosAfter m bound budget i ≤ bound := by
  induction budget generalizing i with
  | zero => simpa [zerosAfter] using h
  | succ budget ih =>
      simp only [zerosAfter]
      split
      · rename_i hi
        have := ih (i + 1) hi.1
        omega
      · simpa using h

theorem zerosAfter_zero (m : Nat → α) (bound budget i : Nat) {j : Nat}
    (hlow : i ≤ j) (hhigh : j < i + zerosAfter m bound budget i) : m j = 0 := by
  induction budget generalizing i with
  | zero => simp [zerosAfter] at hhigh; omega
  | succ budget ih =>
      simp only [zerosAfter] at hhigh
      split at hhigh
      · rename_i hi
        rcases Nat.eq_or_lt_of_le hlow with rfl | hj
        · exact hi.2
        · exact ih _ (show i + 1 ≤ j from hj) (by omega)
      · omega

theorem zerosBefore_stop (m : Nat → α) (budget i : Nat)
    (hbudget : zerosBefore m budget i < budget) (hi : zerosBefore m budget i < i) :
    m (i - 1 - zerosBefore m budget i) ≠ 0 := by
  induction budget generalizing i with
  | zero => omega
  | succ budget ih =>
      cases i with
      | zero => omega
      | succ i =>
          simp only [zerosBefore] at hbudget hi ⊢
          split at hbudget
          · rename_i hzero
            simp only [hzero, if_true] at hi ⊢
            have := ih i (by omega) (by omega)
            rwa [show i + 1 - 1 - (zerosBefore m budget i + 1) =
              i - 1 - zerosBefore m budget i by omega]
          · rename_i hne
            simp [hne]

theorem zerosAfter_stop (m : Nat → α) (bound budget i : Nat)
    (hbudget : zerosAfter m bound budget i < budget)
    (hi : i + zerosAfter m bound budget i < bound) :
    m (i + zerosAfter m bound budget i) ≠ 0 := by
  induction budget generalizing i with
  | zero => omega
  | succ budget ih =>
      simp only [zerosAfter] at hbudget hi ⊢
      split at hbudget
      · rename_i hcond
        simp only [hcond, and_self, if_true] at hi ⊢
        have := ih (i + 1) (by omega) (by omega)
        rwa [show i + (zerosAfter m bound budget (i + 1) + 1) =
          i + 1 + zerosAfter m bound budget (i + 1) by omega]
      · rename_i hcond
        simp only [hcond, if_false, Nat.add_zero] at hi ⊢
        exact fun hzero => hcond ⟨hi, hzero⟩

/-- The number of zero cells below `size`. -/
def zeroCount (m : Nat → α) (size : Nat) : Nat :=
  (readCells m 0 size).count 0

theorem count_zero_readCells_of_zero {m : Nat → α} {start n : Nat}
    (h : ∀ i, start ≤ i → i < start + n → m i = 0) :
    (readCells m start n).count 0 = n := by
  induction n generalizing start with
  | zero => rfl
  | succ n ih =>
      simp only [readCells]
      rw [h start (by omega) (by omega), List.count_cons_self,
        ih fun i hlow hhigh => h i (by omega) (by omega)]

theorem count_zero_readCells_of_ne_zero {m : Nat → α} {start n : Nat}
    (h : ∀ i, start ≤ i → i < start + n → m i ≠ 0) :
    (readCells m start n).count 0 = 0 := by
  rw [List.count_eq_zero]
  intro hmem
  obtain ⟨i, hlow, hhigh, hi⟩ := mem_readCells.mp hmem
  exact h i hlow hhigh hi

theorem zeroCount_change {m m' : Nat → α} (size start n : Nat)
    (hbound : start + n ≤ size)
    (h : ∀ i, i < start ∨ start + n ≤ i → m' i = m i) :
    zeroCount m' size + (readCells m start n).count 0 =
      zeroCount m size + (readCells m' start n).count 0 := by
  obtain ⟨rest, rfl⟩ := Nat.exists_eq_add_of_le hbound
  have hsplit : ∀ f : Nat → α, zeroCount f (start + n + rest) =
      (readCells f 0 start).count 0 + (readCells f start n).count 0 +
        (readCells f (start + n) rest).count 0 := by
    intro f
    rw [zeroCount, readCells_add, readCells_add, List.count_append,
      List.count_append, Nat.zero_add, Nat.zero_add]
  have hlow : readCells m' 0 start = readCells m 0 start :=
    readCells_congr fun i _ hi => h i (by omega)
  have hhigh : readCells m' (start + n) rest = readCells m (start + n) rest :=
    readCells_congr fun i hi _ => h i (by omega)
  rw [hsplit, hsplit, hlow, hhigh]
  ring

end Scanning

end NiceEditor.Cells
