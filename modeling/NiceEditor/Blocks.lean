import Mathlib.Data.List.Basic

namespace NiceEditor.Blocks

variable {α : Type*}

/-- The block after `xs` has been stored from `i` on. -/
def overwrite (m : List α) (i : Nat) (xs : List α) : List α :=
  m.take i ++ (xs ++ m.drop (i + xs.length))

/-- A store that does not leave the block. -/
def store (m : List α) (i : Nat) (xs : List α) : Option (List α) :=
  if i + xs.length ≤ m.length then some (overwrite m i xs) else none

/-- The block with `n` cells; nobody knows what the new ones hold. -/
def resize (m : List α) (n : Nat) (fresh : Nat → α) : List α :=
  m.take n ++ (List.range (n - m.length)).map fresh

variable {m xs ys : List α} {i j n : Nat} {fresh : Nat → α}

theorem overwrite_length (h : i + xs.length ≤ m.length) :
    (overwrite m i xs).length = m.length := by
  simp only [overwrite, List.length_append, List.length_take, List.length_drop]
  omega

@[simp] theorem overwrite_nil : overwrite m i [] = m := by
  simp [overwrite]

theorem overwrite_take (h : i ≤ m.length) :
    (overwrite m i xs).take (i + xs.length) = m.take i ++ xs := by
  have hlen : (m.take i ++ xs).length = i + xs.length := by
    rw [List.length_append, List.length_take, Nat.min_eq_left h]
  rw [overwrite, ← List.append_assoc, ← hlen, List.take_left]

theorem overwrite_take_of_le (h : i ≤ m.length) (hj : j ≤ i) :
    (overwrite m i xs).take j = m.take j := by
  rw [overwrite, List.take_append_of_le_length (by rw [List.length_take]; omega), List.take_take,
    Nat.min_eq_left hj]

theorem overwrite_drop (h : i ≤ m.length) :
    (overwrite m i xs).drop i = xs ++ m.drop (i + xs.length) := by
  have hlen : (m.take i).length = i := by
    rw [List.length_take, Nat.min_eq_left h]
  rw [overwrite]
  nth_rewrite 1 [← hlen]
  rw [List.drop_left]

theorem store_eq (h : i + xs.length ≤ m.length) : store m i xs = some (overwrite m i xs) :=
  if_pos h

theorem resize_length : (resize m n fresh).length = n := by
  simp only [resize, List.length_append, List.length_take, List.length_map, List.length_range]
  omega

theorem resize_take (hm : j ≤ m.length) (hn : j ≤ n) :
    (resize m n fresh).take j = m.take j := by
  rw [resize, List.take_append_of_le_length (by rw [List.length_take]; omega), List.take_take,
    Nat.min_eq_left hn]

theorem overwrite_insert (hi : i ≤ j) (hj : j + xs.length ≤ m.length) :
    (overwrite (overwrite m (i + xs.length) ((m.drop i).take (j - i))) i xs).take
        (j + xs.length) =
      m.take i ++ (xs ++ (m.drop i).take (j - i)) := by
  have htail : ((m.drop i).take (j - i)).length = j - i := by
    rw [List.length_take, List.length_drop]
    omega
  have hmoved : (overwrite m (i + xs.length) ((m.drop i).take (j - i))).length = m.length :=
    overwrite_length (by rw [htail]; omega)
  have hfront : (overwrite m (i + xs.length) ((m.drop i).take (j - i))).take i = m.take i :=
    overwrite_take_of_le (by omega) (Nat.le_add_right i _)
  have hback : (overwrite m (i + xs.length) ((m.drop i).take (j - i))).drop (i + xs.length) =
      (m.drop i).take (j - i) ++ m.drop (j + xs.length) := by
    rw [overwrite_drop (by omega), htail, show i + xs.length + (j - i) = j + xs.length by omega]
  rw [overwrite, hfront, hback, ← List.append_assoc xs, ← List.append_assoc]
  apply List.take_left'
  simp only [List.length_append, List.length_take, htail]
  omega

end NiceEditor.Blocks
