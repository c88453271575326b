import Mathlib.Data.ENat.Lattice
import NiceEditor.CursorMotion

namespace NiceEditor.CheapestMotion

open NiceEditor.PathCosts
open NiceEditor.CursorMotion

variable {w : Cm} {p q : Place} {row col srcy srcx dsty dstx x y : Int} {n : Nat}

section Potential

/-- The number of bytes of a row of motions -/
def bytes (w : Cm) (ms : List Motion) : Nat := (ms.map fun m => (w.size m).getD 0).sum

/-- What a motion costs, without a bound for those that the terminal has no string for -/
def weight (size : Option Nat) : ℕ∞ := size.elim ⊤ Nat.cast

/-- The cost of going from `a` to `b` one step at a time -/
def distance (back ahead : Option Nat) (a b : Int) : ℕ∞ :=
  if b < a then (a - b).natAbs * weight back else (b - a).natAbs * weight ahead

/-- The cost of going to a place with relative motions -/
def relative (w : Cm) (row col : Int) (p : Place) : ℕ∞ :=
  distance w.up w.down p.y row + distance w.left w.right p.x col

/-- The cost of the cheapest one of the ways -/
noncomputable def potential (w : Cm) (row col : Int) (p : Place) : ℕ∞ :=
  min (relative w row col p) (min (weight w.home + relative w row col ⟨0, 0⟩)
    (min (weight w.ll + relative w row col ⟨w.rows - 1, 0⟩)
      (weight w.cr + relative w row col ⟨p.y, 0⟩)))

theorem distance_self (back ahead : Option Nat) (a : Int) : distance back ahead a a = 0 := by
  rw [distance, if_neg (lt_irrefl a), Int.sub_self]
  exact zero_mul _

theorem distance_back (back ahead : Option Nat) (a b : Int) :
    distance back ahead a b ≤ weight back + distance back ahead (a - 1) b := by
  unfold distance
  rcases lt_trichotomy b (a - 1) with hlt | rfl | hgt
  · have hsucc : (a - b).natAbs = (a - 1 - b).natAbs + 1 := by omega
    rw [if_pos hlt, if_pos (by omega), hsucc, Nat.cast_succ, add_mul, one_mul, add_comm]
  · have hone : (a - (a - 1)).natAbs = 1 := by omega
    rw [if_pos (by omega), hone, Nat.cast_one, one_mul]
    exact le_self_add
  · have hsucc : (b - (a - 1)).natAbs = (b - a).natAbs + 1 := by omega
    rw [if_neg (by omega), if_neg (by omega), hsucc, Nat.cast_succ, add_mul]
    exact le_self_add.trans le_add_self

theorem distance_ahead (back ahead : Option Nat) (a b : Int) :
    distance back ahead a b ≤ weight ahead + distance back ahead (a + 1) b := by
  unfold distance
  rcases lt_or_ge a b with hlt | hge
  · have hsucc : (b - a).natAbs = (b - (a + 1)).natAbs + 1 := by omega
    rw [if_neg (by omega), if_neg (by omega), hsucc, Nat.cast_succ, add_mul, one_mul, add_comm]
  · have hsucc : (a + 1 - b).natAbs = (a - b).natAbs + 1 := by omega
    rw [if_pos (show b < a + 1 by omega), hsucc, Nat.cast_succ, add_mul]
    split
    · exact le_self_add.trans le_add_self
    · have hzero : (b - a).natAbs = 0 := by omega
      rw [hzero, Nat.cast_zero, zero_mul]
      exact zero_le

theorem potential_self (w : Cm) (p : Place) : potential w p.y p.x p = 0 := by
  apply le_antisymm _ zero_le
  refine (min_le_left _ _).trans ?_
  rw [relative, distance_self, distance_self, add_zero]

theorem potential_le_of (c : ℕ∞) {s t : Place}
    (hrel : relative w row col s ≤ c + relative w row col t)
    (hcr : relative w row col ⟨s.y, 0⟩ ≤ c + relative w row col ⟨t.y, 0⟩) :
    potential w row col s ≤ c + potential w row col t := by
  unfold potential
  rw [← min_add_add_left, ← min_add_add_left, ← min_add_add_left]
  refine min_le_min hrel (min_le_min le_add_self (min_le_min le_add_self ?_))
  rw [add_left_comm]
  exact add_le_add_right hcr _

theorem potential_jump {c : ℕ∞} {s t : Place} (ht : t.x = 0)
    (hle : potential w row col s ≤ c + relative w row col t) :
    potential w row col s ≤ c + potential w row col t := by
  have hhome : potential w row col s ≤ weight w.home + relative w row col ⟨0, 0⟩ :=
    (min_le_right _ _).trans (min_le_left _ _)
  have hll : potential w row col s ≤ weight w.ll + relative w row col ⟨w.rows - 1, 0⟩ :=
    (min_le_right _ _).trans ((min_le_right _ _).trans (min_le_left _ _))
  have hcr : (⟨t.y, 0⟩ : Place) = t := by rw [← ht]
  rw [show potential w row col t = min _ _ from rfl]
  rw [← min_add_add_left, ← min_add_add_left, ← min_add_add_left, hcr]
  refine le_min hle (le_min (hhome.trans le_add_self) (le_min (hll.trans le_add_self) ?_))
  rw [add_left_comm]
  exact hle.trans le_add_self

/-- The motion addresses a place. -/
def Addresses : Motion → Prop
  | .abs _ _ | .habs _ | .vabs _ => True
  | _ => False

theorem potential_step (htab : w.tab = none) (hlf : w.autoLf = false) (m : Motion)
    (hm : ¬ Addresses m) {s t : Place} (h : perform w m s = some t) :
    potential w row col s ≤ weight (w.size m) + potential w row col t := by
  obtain ⟨n, hsize, hmove⟩ := Option.bind_eq_some_iff.mp h
  cases m with
  | up =>
      rw [move, Option.ite_none_right_eq_some] at hmove
      obtain ⟨-, hmove⟩ := hmove
      cases hmove
      apply potential_le_of <;> unfold relative <;> rw [← add_assoc] <;>
        exact add_le_add_left (distance_back ..) _
  | down =>
      rw [move, Option.ite_none_right_eq_some] at hmove
      obtain ⟨-, hmove⟩ := hmove
      cases hmove
      apply potential_le_of <;> unfold relative <;> rw [← add_assoc] <;>
        exact add_le_add_left (distance_ahead ..) _
  | left =>
      rw [move, Option.ite_none_right_eq_some] at hmove
      obtain ⟨-, hmove⟩ := hmove
      cases hmove
      apply potential_le_of
      · unfold relative
        rw [add_left_comm]
        exact add_le_add_right (distance_back ..) _
      · exact le_add_self
  | right =>
      rw [move, Option.ite_none_right_eq_some] at hmove
      obtain ⟨-, hmove⟩ := hmove
      cases hmove
      apply potential_le_of
      · unfold relative
        rw [add_left_comm]
        exact add_le_add_right (distance_ahead ..) _
      · exact le_add_self
  | home =>
      cases hmove
      exact potential_jump rfl ((min_le_right _ _).trans (min_le_left _ _))
  | cr =>
      rw [move, Option.ite_none_left_eq_some, hlf] at hmove
      obtain ⟨-, hmove⟩ := hmove
      cases hmove
      exact potential_jump rfl ((min_le_right _ _).trans ((min_le_right _ _).trans
        (min_le_right _ _)))
  | ll =>
      cases hmove
      exact potential_jump rfl ((min_le_right _ _).trans ((min_le_right _ _).trans
        (min_le_left _ _)))
  | tab =>
      rw [Cm.size, htab] at hsize
      cases hsize
  | abs => exact absurd trivial hm
  | habs => exact absurd trivial hm
  | vabs => exact absurd trivial hm
  | oops => cases hmove

end Potential

section Bytes

theorem performs_size {ms : List Motion} (h : run (perform w) ms p = some q) :
    (ms.map fun m => weight (w.size m)).sum = (bytes w ms : ℕ∞) := by
  induction ms generalizing p with
  | nil => rfl
  | cons m ms ih =>
      rw [run_cons] at h
      obtain ⟨next, hperform, hrun⟩ := Option.bind_eq_some_iff.mp h
      obtain ⟨n, hsize, -⟩ := Option.bind_eq_some_iff.mp hperform
      rw [List.map_cons, List.sum_cons, ih hrun, bytes, bytes, List.map_cons, List.sum_cons, hsize]
      push_cast
      rfl

theorem cost_of_weight {size : Option Nat} {turns k : Nat}
    (h : (turns : ℕ∞) * weight size = k) (hk : (k : Int) < big) :
    ¬ (turns ≠ 0 ∧ cost size = big) ∧ cost size * turns = k := by
  rcases Nat.eq_zero_or_pos turns with rfl | hpos
  · rw [Nat.cast_zero, zero_mul] at h
    have hzero : k = 0 := by exact_mod_cast h.symm
    exact ⟨fun hne => hne.1 rfl, by rw [hzero, Nat.cast_zero, mul_zero]⟩
  · cases size with
    | none =>
        rw [weight, Option.elim_none, ENat.mul_top (by exact_mod_cast hpos.ne')] at h
        exact absurd h (ENat.top_ne_natCast k)
    | some n =>
        have hmul : turns * n = k := by
          rw [weight, Option.elim_some] at h
          exact_mod_cast h
        have hle : n ≤ turns * n := Nat.le_mul_of_pos_left n hpos
        refine ⟨fun hne => ?_, ?_⟩
        · have hbig : (n : Int) = big := hne.2
          omega
        · rw [cost, Option.elim_some, ← hmul]
          push_cast
          exact mul_comm _ _

theorem tabs_of_none (htab : w.tab = none) : tabs w srcx dstx = none := by
  refine if_pos (Or.inl ?_)
  rw [Cm.ccTab, htab]
  split
  · exact le_rfl
  · exact le_rfl

theorem calccost_of_tab (htab : w.tab = none) (hwrapped : w.curX ≠ w.cols) :
    calccost w srcy srcx dsty dstx =
      if dsty - srcy ≠ 0 ∧ (vertical w (dsty - srcy)).2 = big then (big, [.oops])
      else newdelta w (List.replicate (dsty - srcy).natAbs (vertical w (dsty - srcy)).1)
        ((vertical w (dsty - srcy)).2 * (dsty - srcy).natAbs) srcx dstx := by
  rw [calccost, if_neg hwrapped]
  dsimp only
  rw [tabs_of_none htab, ite_self]

theorem exists_of_add {a b : ℕ∞} {k : Nat} (h : a + b = k) :
    ∃ i j : Nat, a = i ∧ b = j ∧ i + j = k := by
  have hne : a + b ≠ ⊤ := h ▸ ENat.natCast_ne_top k
  obtain ⟨i, hi⟩ := ENat.ne_top_iff_exists.mp fun ha => hne (ENat.add_eq_top.mpr (Or.inl ha))
  obtain ⟨j, hj⟩ := ENat.ne_top_iff_exists.mp fun hb => hne (ENat.add_eq_top.mpr (Or.inr hb))
  refine ⟨i, j, hi.symm, hj.symm, ?_⟩
  rw [← hi, ← hj] at h
  exact_mod_cast h

theorem vertical_cost {k : Nat} (h : distance w.up w.down srcy row = k) (hk : (k : Int) < big) :
    ¬ (row - srcy ≠ 0 ∧ (vertical w (row - srcy)).2 = big) ∧
      (vertical w (row - srcy)).2 * (row - srcy).natAbs = k := by
  have hzero : row - srcy ≠ 0 ↔ (row - srcy).natAbs ≠ 0 := Int.natAbs_ne_zero.symm
  rw [hzero]
  unfold distance at h
  unfold vertical
  split at h
  · rename_i hup
    have habs : (srcy - row).natAbs = (row - srcy).natAbs := by omega
    rw [habs] at h
    rw [if_pos (by omega)]
    exact cost_of_weight h hk
  · rename_i hdown
    rw [if_neg (by omega)]
    exact cost_of_weight h hk

theorem newdelta_cost {k : Nat} {sent : List Motion} {total : Int}
    (h : distance w.left w.right srcx col = k) (hk : (k : Int) < big) :
    (newdelta w sent total srcx col).1 = total + k := by
  unfold distance at h
  unfold newdelta dodelta
  dsimp only
  split at h
  · rename_i hleft
    have habs : (srcx - col).natAbs = (col - srcx).natAbs := by omega
    rw [habs] at h
    obtain ⟨hne, hcost⟩ := cost_of_weight h hk
    rw [if_neg (by omega), if_neg (by omega),
      if_neg (show ¬ w.ccLeft = big from fun hbig => hne ⟨by omega, hbig⟩)]
    exact congrArg (total + ·) hcost
  · rename_i hright
    obtain ⟨hne, hcost⟩ := cost_of_weight h hk
    split
    · rename_i hzero
      rw [hzero, Int.natAbs_zero, Nat.cast_zero, mul_zero] at hcost
      rw [← hcost, add_zero]
    · rename_i hzero
      rw [if_pos (by omega),
        if_neg (show ¬ w.ccRight = big from fun hbig => hne ⟨by omega, hbig⟩)]
      exact congrArg (total + ·) hcost

theorem calccost_eq {k : Nat} (htab : w.tab = none) (hwrapped : w.curX ≠ w.cols)
    (h : relative w row col ⟨srcy, srcx⟩ = k) (hk : (k : Int) < big) :
    (calccost w srcy srcx row col).1 = k := by
  obtain ⟨i, j, hi, hj, hsum⟩ := exists_of_add h
  obtain ⟨hbig, hcost⟩ := vertical_cost hi (by omega)
  rw [calccost_of_tab htab hwrapped, if_neg hbig, newdelta_cost hj (by omega), hcost]
  omega

theorem bytes_append (ms ns : List Motion) : bytes w (ms ++ ns) = bytes w ms + bytes w ns := by
  rw [bytes, List.map_append, List.sum_append]
  rfl

theorem bytes_replicate (turns : Nat) (m : Motion) :
    bytes w (List.replicate turns m) = turns * (w.size m).getD 0 := by
  rw [bytes, List.map_replicate, List.sum_replicate_nat]

theorem bytes_singleton (m : Motion) : bytes w [m] = (w.size m).getD 0 := List.sum_singleton

theorem cost_eq_getD {size : Option Nat} (h : cost size ≠ big) : cost size = size.getD 0 := by
  obtain ⟨n, rfl⟩ := exists_of_cost_ne h
  rfl

theorem newdelta_bytes {sent : List Motion} {total : Int}
    (hcost : (newdelta w sent total srcx dstx).1 < big) (hsent : (bytes w sent : Int) = total) :
    (bytes w (newdelta w sent total srcx dstx).2 : Int) = (newdelta w sent total srcx dstx).1 := by
  unfold newdelta dodelta at *
  dsimp only at *
  split
  · exact hsent
  rename_i hne
  rw [if_neg hne] at hcost
  split
  · rename_i hright
    rw [if_pos hright] at hcost
    split
    · rename_i hbig
      rw [if_pos hbig] at hcost
      exact absurd hcost (lt_irrefl big)
    · rename_i hbig
      rw [bytes_append, bytes_replicate, Nat.cast_add, hsent, Nat.cast_mul, mul_comm]
      exact congrArg (total + · * _) (cost_eq_getD hbig).symm
  · rename_i hright
    rw [if_neg hright] at hcost
    split
    · rename_i hbig
      rw [if_pos hbig] at hcost
      exact absurd hcost (lt_irrefl big)
    · rename_i hbig
      rw [bytes_append, bytes_replicate, Nat.cast_add, hsent, Nat.cast_mul, mul_comm]
      exact congrArg (total + · * _) (cost_eq_getD hbig).symm

theorem calccost_bytes (htab : w.tab = none) (hcost : (calccost w srcy srcx dsty dstx).1 < big) :
    (bytes w (calccost w srcy srcx dsty dstx).2 : Int) =
      (calccost w srcy srcx dsty dstx).1 := by
  have hwrapped : w.curX ≠ w.cols := fun h => by
    rw [calccost_wrapped h] at hcost
    exact lt_irrefl big hcost
  rw [calccost_of_tab htab hwrapped] at *
  split
  · rename_i hbig
    rw [if_pos hbig] at hcost
    exact absurd hcost (lt_irrefl big)
  · rename_i hbig
    rw [if_neg hbig] at hcost
    apply newdelta_bytes hcost
    rw [bytes_replicate, Nat.cast_mul, mul_comm]
    rcases eq_or_ne (dsty - srcy) 0 with hzero | hne
    · rw [hzero, Int.natAbs_zero, Nat.cast_zero, mul_zero, mul_zero]
    · have hvertical : (vertical w (dsty - srcy)).2 =
          ((w.size (vertical w (dsty - srcy)).1).getD 0 : Nat) := by
        unfold vertical at *
        split
        · rename_i hup
          rw [if_pos hup] at hbig
          exact cost_eq_getD fun h => hbig ⟨hne, h⟩
        · rename_i hup
          rw [if_neg hup] at hbig
          exact cost_eq_getD fun h => hbig ⟨hne, h⟩
      rw [hvertical]

theorem moves_bytes (use : Use) (htab : w.tab = none) (hwidth : 0 ≤ w.tabWidth)
    (hcur : w.Shows w.curY w.curX) (hdst : w.Shows row col) (h : use.cost w row col < big) :
    (bytes w (use.moves w row col) : Int) = use.cost w row col := by
  obtain ⟨hy, hy', hx, hx'⟩ := hcur
  obtain ⟨-, -, hmoves⟩ := use.moves_spec hwidth hy hy' hx hx'.le hdst h
  obtain ⟨heq, hstart, -⟩ := use.cost_eq h
  have hnonneg := use.startCost_nonneg w
  have hsent : (bytes w (use.start w).1 : Int) = use.startCost w := by
    cases use with
    | rel => rfl
    | home => exact (congrArg _ (bytes_singleton .home)).trans (cost_eq_getD hstart.ne).symm
    | ll => exact (congrArg _ (bytes_singleton .ll)).trans (cost_eq_getD hstart.ne).symm
    | cr => exact (congrArg _ (bytes_singleton .cr)).trans (cost_eq_getD hstart.ne).symm
  rw [hmoves, bytes_append, Nat.cast_add, hsent, heq, calccost_bytes htab (by omega)]

theorem exists_use {k : Nat} (htab : w.tab = none) (hlf : w.autoLf = false)
    (hx : w.curX ≠ w.cols) (h : potential w row col ⟨w.curY, w.curX⟩ = k) (hk : (k : Int) < big) :
    ∃ use : Use, use.cost w row col = k := by
  have hjump : ∀ {size : Option Nat} {place : Place},
      weight size + relative w row col place = k →
      cost size < big ∧ cost size + (calccost w place.y place.x row col).1 = k := by
    intro size place hway
    obtain ⟨i, j, hi, hj, hsum⟩ := exists_of_add hway
    have hcost : cost size = i := by
      cases size with
      | none => exact absurd hi (ENat.top_ne_natCast i)
      | some n => exact congrArg Nat.cast (ENat.natCast_inj.mp hi)
    rw [calccost_eq htab hx hj (by omega), hcost]
    exact ⟨by omega, by omega⟩
  unfold potential at h
  rcases min_choice (relative w row col ⟨w.curY, w.curX⟩) _ with hmin | hmin
  · rw [hmin] at h
    exact ⟨.rel, calccost_eq htab hx h hk⟩
  rw [hmin] at h
  rcases min_choice (weight w.home + relative w row col ⟨0, 0⟩) _ with hmin | hmin
  · rw [hmin] at h
    obtain ⟨hcost, hsum⟩ := hjump h
    exact ⟨.home, (if_pos hcost).trans hsum⟩
  rw [hmin] at h
  rcases min_choice (weight w.ll + relative w row col ⟨w.rows - 1, 0⟩) _ with hmin | hmin
  · rw [hmin] at h
    obtain ⟨hcost, hsum⟩ := hjump h
    exact ⟨.ll, (if_pos hcost).trans hsum⟩
  · rw [hmin] at h
    obtain ⟨hcost, hsum⟩ := hjump h
    refine ⟨.cr, (if_pos hcost).trans ?_⟩
    rw [if_neg (by rw [hlf]; exact Bool.false_ne_true)]
    exact hsum

end Bytes

/-- `cm.c` takes the strings for the first row and column for the shortest ones. -/
structure ShortestAtZero (w : Cm) : Prop where
  abs : ∀ f, w.abs = some f → ∀ row col, w.Shows row col → f 0 0 ≤ f row col
  habs : ∀ f, w.habs = some f → ∀ row col, w.Shows row col → f 0 ≤ f col
  vabs : ∀ f, w.vabs = some f → ∀ row col, w.Shows row col → f 0 ≤ f row

theorem direct_le (hs : ShortestAtZero w) (hdst : w.Shows row col)
    (hsize : w.size (direct w row col).2 = some n) : (direct w row col).1 ≤ n := by
  unfold direct at *
  split
  · rename_i h
    rw [if_pos h] at hsize
    obtain ⟨f, hf, rfl⟩ := Option.map_eq_some_iff.mp hsize
    rw [Cm.ccHabs, hf]
    exact Int.ofNat_le.mpr (hs.habs f hf row col hdst)
  rename_i h
  rw [if_neg h] at hsize
  split
  · rename_i h
    rw [if_pos h] at hsize
    obtain ⟨f, hf, rfl⟩ := Option.map_eq_some_iff.mp hsize
    rw [Cm.ccVabs, hf]
    exact Int.ofNat_le.mpr (hs.vabs f hf row col hdst)
  · rename_i h
    rw [if_neg h] at hsize
    obtain ⟨f, hf, rfl⟩ := Option.map_eq_some_iff.mp hsize
    rw [Cm.ccAbs, hf]
    exact Int.ofNat_le.mpr (hs.abs f hf row col hdst)

/-- On a terminal without tabs, `cmgoto` never sends more than the string that addresses the place,
nor more than any row of other motions that lead to it. -/
theorem cmgoto_cheapest (ha : Addressable w) (hs : ShortestAtZero w) (htab : w.tab = none)
    (hlf : w.autoLf = false) (hcur : w.Shows w.curY w.curX) (hdst : w.Shows row col) :
    ∃ sent, cmgoto w row col = some ({ w with curY := row, curX := col }, sent) ∧
      bytes w sent ≤ bytes w [(direct w row col).2] ∧
      ∀ ms : List Motion, (∀ m ∈ ms, ¬ Addresses m) →
        run (perform w) ms ⟨w.curY, w.curX⟩ = some ⟨row, col⟩ → bytes w sent ≤ bytes w ms := by
  obtain ⟨hy, hy', hx, hx'⟩ := id hcur
  obtain ⟨hdirect, n, hsize, hshort, -⟩ := direct_spec ha hy hy' hdst
  obtain ⟨hcost, hleast⟩ := cheapest_spec w row col
  obtain ⟨sent, hsent, hway⟩ := send_spec (cheapest w row col) _ hsize
  have hbytes : bytes w [(direct w row col).2] = n := by
    rw [bytes_singleton, hsize]
    rfl
  have hmin := direct_le hs hdst hsize
  -- what is sent costs no more than the cheapest way
  have hbest : (bytes w sent : Int) ≤ (cheapest w row col).1 ∧ bytes w sent ≤ n := by
    rcases hway with ⟨rfl, hle⟩ | ⟨rfl, hless⟩
    · rw [hbytes]
      exact ⟨hle, le_rfl⟩
    · rw [hcost] at hless ⊢
      rw [moves_bytes _ htab ha.tabWidth hcur hdst (by omega)]
      have hmoves := moves_bytes _ htab ha.tabWidth hcur hdst
        (show (cheapest w row col).2.cost w row col < big by omega)
      exact ⟨le_rfl, by omega⟩
  rcases Classical.em (row = w.curY ∧ col = w.curX) with ⟨rfl, rfl⟩ | hmove
  · exact ⟨[], if_pos ⟨rfl, rfl⟩, Nat.zero_le _, fun _ _ _ => Nat.zero_le _⟩
  refine ⟨sent, ?_, hbytes ▸ hbest.2, fun ms haddresses hrun => ?_⟩
  · rw [cmgoto, if_neg hmove, if_pos ⟨hy, hx⟩]
    exact hsent
  · have hpotential : potential w row col ⟨w.curY, w.curX⟩ ≤
        (ms.map fun m => weight (w.size m)).sum + potential w row col ⟨row, col⟩ :=
      potential_le (fun m hm s t => potential_step htab hlf m (haddresses m hm)) hrun
    rw [performs_size hrun, potential_self w ⟨row, col⟩, add_zero] at hpotential
    obtain ⟨k, hk⟩ := ENat.ne_top_iff_exists.mp
      (ne_top_of_le_ne_top (ENat.natCast_ne_top _) hpotential)
    rw [← hk] at hpotential
    have hle : k ≤ bytes w ms := by exact_mod_cast hpotential
    rcases lt_or_ge (k : Int) big with hless | hge
    · obtain ⟨use, huse⟩ := exists_use htab hlf hx'.ne hk.symm hless
      have := hleast use
      omega
    · omega

theorem shortestAtZero_setupAnsiTerm : ShortestAtZero (setupAnsiTerm y x) where
  abs := by
    rintro f ⟨⟩ row col -
    have hrow := digits_pos row
    have hcol := digits_pos col
    have hzero : digits 0 = 1 := rfl
    dsimp only
    omega
  habs := nofun
  vabs := nofun

/-- From the middle of a row to the start of the next one -/
theorem cmgoto_cheapest_ansi : ∃ sent, cmgoto (setupAnsiTerm 9 40) 10 0 =
    some (setupAnsiTerm 10 0, sent) ∧
      bytes (setupAnsiTerm 9 40) sent ≤
        bytes (setupAnsiTerm 9 40) [(direct (setupAnsiTerm 9 40) 10 0).2] ∧
      ∀ ms : List Motion, (∀ m ∈ ms, ¬ Addresses m) →
        run (perform (setupAnsiTerm 9 40)) ms ⟨9, 40⟩ = some ⟨10, 0⟩ →
          bytes (setupAnsiTerm 9 40) sent ≤ bytes (setupAnsiTerm 9 40) ms :=
  cmgoto_cheapest addressable_setupAnsiTerm shortestAtZero_setupAnsiTerm rfl rfl
    ⟨by decide, by decide, by decide, by decide⟩ ⟨by decide, by decide, by decide, by decide⟩

/-- There, a carriage return and a line down are sent. -/
example : (cmgoto (setupAnsiTerm 9 40) 10 0).map Prod.snd = some [.cr, .down] := by decide

end NiceEditor.CheapestMotion
