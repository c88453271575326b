import NiceEditor.Blocks

/-!
Areas of memory in which pieces are laid one behind the other: pieces are added at the top,
rewritten in place and removed by moving what is behind them down.
-/

namespace NiceEditor.Arenas

open NiceEditor.Blocks

variable {α : Type*}

/-- A piece of an area: where it begins, and what it holds. -/
structure Piece (α : Type*) where
  start : Nat
  cells : List α

namespace Piece

/-- The end of a piece. -/
def stop (p : Piece α) : Nat := p.start + p.cells.length

/-- The area holds what the piece says. -/
def In (m : List α) (p : Piece α) : Prop := p.cells <+: m.drop p.start

/-- The pieces have no cell in common. -/
def Apart (p q : Piece α) : Prop := p.stop ≤ q.start ∨ q.stop ≤ p.start

/-- Where a piece is after `n` cells from `i` on have been taken away. -/
def shift (i n : Nat) (p : Piece α) : Piece α :=
  { p with start := if i ≤ p.start then p.start - n else p.start }

end Piece

/-- The pieces are in the area below `top`, and apart from each other. -/
structure Arranged (m : List α) (top : Nat) (ps : List (Piece α)) : Prop where
  holds : ∀ p ∈ ps, p.In m
  below : ∀ p ∈ ps, p.stop ≤ top
  apart : ps.Pairwise Piece.Apart
  top_le : top ≤ m.length

/-- The area after what is behind `n` cells from `i` on has been moved down onto them. -/
def compact (m : List α) (i n : Nat) : List α := overwrite m i (m.drop (i + n))

variable {m m' xs : List α} {p q : Piece α} {ps qs : List (Piece α)} {i k n top top' : Nat}

theorem overwrite_getElem? (h : i + xs.length ≤ m.length) :
    (overwrite m i xs)[k]? =
      if k < i then m[k]? else if k < i + xs.length then xs[k - i]? else m[k]? := by
  have hi : (m.take i).length = i := by
    rw [List.length_take]
    omega
  rw [overwrite]
  by_cases hk : k < i
  · rw [if_pos hk, List.getElem?_append_left (by omega), List.getElem?_take_of_lt hk]
  rw [if_neg hk, List.getElem?_append_right (by omega), hi]
  by_cases hx : k < i + xs.length
  · rw [if_pos hx, List.getElem?_append_left (by omega)]
  · rw [if_neg hx, List.getElem?_append_right (by omega), List.getElem?_drop]
    congr 1
    omega

theorem overwrite_middle {pre ys rest : List α} (h : xs.length = ys.length) :
    overwrite (pre ++ (ys ++ rest)) pre.length xs = pre ++ (xs ++ rest) := by
  rw [overwrite, List.take_left, h, ← List.drop_drop, List.drop_left, List.drop_left]

theorem compact_length (h : i + n ≤ m.length) : (compact m i n).length = m.length :=
  overwrite_length (by rw [List.length_drop]; omega)

theorem compact_getElem? (h : i + n ≤ m.length) (hk : k + n < m.length) :
    (compact m i n)[k]? = if k < i then m[k]? else m[k + n]? := by
  rw [compact, overwrite_getElem? (by rw [List.length_drop]; omega), List.length_drop]
  by_cases hi : k < i
  · rw [if_pos hi, if_pos hi]
  · rw [if_neg hi, if_neg hi, if_pos (by omega), List.getElem?_drop]
    congr 1
    omega

namespace Piece

@[simp] theorem shift_start :
    (p.shift i n).start = if i ≤ p.start then p.start - n else p.start := rfl

@[simp] theorem shift_cells : (p.shift i n).cells = p.cells := rfl

theorem Apart.symm (h : p.Apart q) : q.Apart p := Or.symm h

theorem in_iff : p.In m ↔ ∀ j, j < p.cells.length → m[p.start + j]? = p.cells[j]? := by
  rw [In, List.prefix_iff_getElem?]
  refine forall_congr' fun j => ⟨fun h hj => ?_, fun h hj => ?_⟩
  · rw [← List.getElem?_drop, h hj, List.getElem?_eq_getElem hj]
  · rw [List.getElem?_drop, h hj, List.getElem?_eq_getElem hj]

theorem In.congr (h : p.In m) (hm : ∀ j, p.start ≤ j → j < p.stop → m'[j]? = m[j]?) :
    p.In m' := by
  rw [in_iff] at h ⊢
  intro j hj
  rw [hm _ (Nat.le_add_right _ _) (by rw [stop]; omega)]
  exact h j hj

theorem Apart.sides (h : p.Apart q) (hq : q.cells ≠ []) :
    (q.start < p.start ∧ q.stop ≤ p.start) ∨ (p.start ≤ q.start ∧ p.stop ≤ q.start) := by
  have hlen := List.length_pos_iff.mpr hq
  simp only [Apart, stop] at *
  omega

end Piece

open Piece

theorem apart_perm (h : ps.Perm qs) : ps.Pairwise Piece.Apart ↔ qs.Pairwise Piece.Apart :=
  h.pairwise_iff fun h => h.symm

namespace Arranged

theorem perm (h : Arranged m top ps) (hperm : ps.Perm qs) : Arranged m top qs where
  holds p hp := h.holds p (hperm.mem_iff.mpr hp)
  below p hp := h.below p (hperm.mem_iff.mpr hp)
  apart := (apart_perm hperm).mp h.apart
  top_le := h.top_le

theorem congr (h : Arranged m top ps) (hm : m'.take top = m.take top) (htop : top ≤ m'.length) :
    Arranged m' top ps where
  holds p hp := by
    refine (h.holds p hp).congr fun j _ hj => ?_
    have hlt : j < top := Nat.lt_of_lt_of_le hj (h.below p hp)
    rw [← List.getElem?_take_of_lt hlt, hm, List.getElem?_take_of_lt hlt]
  below := h.below
  apart := h.apart
  top_le := htop

theorem push (h : Arranged m top ps) (hroom : top + xs.length ≤ m.length) :
    Arranged (overwrite m top xs) (top + xs.length) (⟨top, xs⟩ :: ps) where
  holds := by
    intro p hp
    obtain rfl | hp := List.mem_cons.mp hp
    · rw [Piece.In, overwrite_drop h.top_le]
      exact List.prefix_append _ _
    · refine (h.holds p hp).congr fun j _ hj => ?_
      rw [overwrite_getElem? hroom, if_pos (Nat.lt_of_lt_of_le hj (h.below p hp))]
  below := by
    intro p hp
    obtain rfl | hp := List.mem_cons.mp hp
    · exact Nat.le_refl _
    · exact Nat.le_add_right_of_le (h.below p hp)
  apart := List.pairwise_cons.mpr ⟨fun p hp => Or.inr (h.below p hp), h.apart⟩
  top_le := by
    rw [overwrite_length hroom]
    exact hroom

theorem rewrite (h : Arranged m top (ps ++ p :: qs)) (hlen : xs.length = p.cells.length) :
    Arranged (overwrite m p.start xs) top (ps ++ ⟨p.start, xs⟩ :: qs) := by
  have hp : p ∈ ps ++ p :: qs := List.mem_append_right _ List.mem_cons_self
  have hbelow := h.below p hp
  have htop := h.top_le
  have hroom : p.start + xs.length ≤ m.length := by
    rw [Piece.stop] at hbelow
    omega
  have hfirst : Arranged m top (p :: (ps ++ qs)) := h.perm List.perm_middle
  have hapart := List.pairwise_cons.mp hfirst.apart
  suffices harranged : Arranged (overwrite m p.start xs) top (⟨p.start, xs⟩ :: (ps ++ qs)) from
    harranged.perm List.perm_middle.symm
  refine ⟨?_, ?_, ?_, ?_⟩
  · intro q hq
    obtain rfl | hq := List.mem_cons.mp hq
    · change xs <+: (overwrite m p.start xs).drop p.start
      rw [overwrite_drop (by omega)]
      exact List.prefix_append _ _
    · refine (hfirst.holds q (List.mem_cons_of_mem _ hq)).congr fun j hj hj' => ?_
      have hout := hapart.1 q hq
      rw [Piece.Apart, Piece.stop] at hout
      rw [overwrite_getElem? hroom]
      by_cases hlt : j < p.start
      · rw [if_pos hlt]
      · rw [if_neg hlt, if_neg (by omega)]
  · intro q hq
    obtain rfl | hq := List.mem_cons.mp hq
    · rw [Piece.stop] at hbelow ⊢
      simpa only [hlen] using hbelow
    · exact hfirst.below q (List.mem_cons_of_mem _ hq)
  · refine List.pairwise_cons.mpr ⟨fun q hq => ?_, hapart.2⟩
    have hout := hapart.1 q hq
    simpa only [Piece.Apart, Piece.stop, hlen] using hout
  · rw [overwrite_length hroom]
    exact htop

theorem remove (h : Arranged m top (ps ++ p :: qs)) (hne : ∀ q ∈ ps ++ qs, q.cells ≠ []) :
    Arranged (compact m p.start p.cells.length) (top - p.cells.length)
      ((ps ++ qs).map (Piece.shift p.start p.cells.length)) := by
  have hfirst : Arranged m top (p :: (ps ++ qs)) := h.perm List.perm_middle
  have hapart := List.pairwise_cons.mp hfirst.apart
  have hp := hfirst.below p List.mem_cons_self
  have htop := h.top_le
  rw [Piece.stop] at hp
  refine ⟨?_, ?_, ?_, ?_⟩
  · intro q' hq'
    obtain ⟨q, hq, rfl⟩ := List.mem_map.mp hq'
    have hin := Piece.in_iff.mp (hfirst.holds q (List.mem_cons_of_mem _ hq))
    have hbelow := hfirst.below q (List.mem_cons_of_mem _ hq)
    rw [Piece.in_iff]
    intro j hj
    rw [Piece.shift_cells] at hj
    rw [Piece.stop] at hbelow
    rw [Piece.shift_cells, Piece.shift_start, ← hin j hj]
    obtain ⟨hlt, hstop⟩ | ⟨hge, hstop⟩ := (hapart.1 q hq).sides (hne q hq)
    · rw [Piece.stop] at hstop
      rw [if_neg (by omega), compact_getElem? (by omega) (by omega), if_pos (by omega)]
    · rw [Piece.stop] at hstop
      rw [if_pos hge, compact_getElem? (by omega) (by omega), if_neg (by omega)]
      congr 1
      omega
  · intro q' hq'
    obtain ⟨q, hq, rfl⟩ := List.mem_map.mp hq'
    have hbelow := hfirst.below q (List.mem_cons_of_mem _ hq)
    have hsides := (hapart.1 q hq).sides (hne q hq)
    simp only [Piece.stop, Piece.shift_start, Piece.shift_cells] at *
    split <;> omega
  · rw [List.pairwise_map]
    refine hapart.2.imp_of_mem fun {q r} hq hr hqr => ?_
    have hsides := (hapart.1 q hq).sides (hne q hq)
    have hsides' := (hapart.1 r hr).sides (hne r hr)
    simp only [Piece.Apart, Piece.stop, Piece.shift_start, Piece.shift_cells] at *
    split <;> split <;> omega
  · rw [compact_length (by omega)]
    omega

end Arranged

end NiceEditor.Arenas
