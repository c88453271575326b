import Mathlib.Data.List.GetD
import NiceEditor.Find
import NiceEditor.Load

namespace NiceEditor.FindRefinement

open NiceEditor.Pools
open NiceEditor.BufferData
open NiceEditor.Encoding
open NiceEditor.Navigation
open NiceEditor.Cursor
open NiceEditor.Commands
open NiceEditor.LineSearch
open NiceEditor.Find
open NiceEditor.EditStream
open NiceEditor.Load

/-- The pattern occurs in a line at position `p`. -/
def occursIn (conv : Byte → Byte) (pattern line : List Byte) (p : Nat) : Bool :=
  ((line.drop p).take pattern.length).map conv = pattern.map conv

/-- The pattern occurs in a text at a place. -/
def occursAt (conv : Byte → Byte) (pattern : List Byte) (L : List (List Byte)) (q : Nat × Nat) :
    Bool :=
  occursIn conv pattern (L.getD q.1 []) q.2

variable {cv : Byte → Byte} {pattern line : List Byte} {p : Nat} {d : Byte → Nat}

theorem occursIn_iff : occursIn cv pattern line p = true ↔
    pattern.length ≤ line.length - p ∧
      ∀ i < pattern.length, cv (line.getD (p + i) 0) = cv (pattern.getD i 0) := by
  rw [occursIn, decide_eq_true_eq]
  constructor
  · intro h
    have hlength := congrArg List.length h
    simp only [List.length_map, List.length_take, List.length_drop] at hlength
    refine ⟨by omega, fun i hi => ?_⟩
    have hget := congrArg (fun s => s.getD i (cv 0)) h
    simp only [List.getD_map] at hget
    rwa [List.getD_eq_getElem?_getD, List.getElem?_take_of_lt hi, List.getElem?_drop,
      ← List.getD_eq_getElem?_getD] at hget
  · rintro ⟨hlength, hall⟩
    refine List.ext_getElem ?_ fun i hi hi' => ?_
    · simp only [List.length_map, List.length_take, List.length_drop]
      omega
    · have hlt : i < pattern.length := by simpa using hi'
      have hget := hall i hlt
      rw [List.getD_eq_getElem _ _ (by omega), List.getD_eq_getElem _ _ hlt] at hget
      simpa using hget

/-- A shift is at least 1 and at most the length of the pattern, and at most the distance to the
next place at which the character of the text meets the same character of the pattern. -/
def ShiftsForward (cv : Byte → Byte) (pattern : List Byte) (n : Nat) (d : Byte → Nat) : Prop :=
  ∀ c, 0 < d c ∧ d c ≤ pattern.length ∧
    ∀ i < n, cv (pattern.getD i 0) = c → d c ≤ pattern.length - 1 - i

/-- The same for a search backwards, for the characters from `n` on. -/
def ShiftsBackward (cv : Byte → Byte) (pattern : List Byte) (n : Nat) (d : Byte → Nat) : Prop :=
  ∀ c, 0 < d c ∧ d c ≤ pattern.length ∧
    ∀ i < pattern.length, n ≤ i → cv (pattern.getD i 0) = c → d c ≤ i

theorem forwardTable_shifts (hne : pattern ≠ []) :
    ShiftsForward cv pattern (pattern.length - 1) (forwardTable cv pattern) := by
  have hlength := List.length_pos_of_ne_nil hne
  suffices h : ∀ n ≤ pattern.length - 1, ShiftsForward cv pattern n
      ((List.range n).foldl (fun d i => Function.update d (cv (pattern.getD i 0))
        (pattern.length - i - 1)) fun _ => pattern.length) from h _ le_rfl
  intro n
  induction n with
  | zero => exact fun _ c => ⟨hlength, le_rfl, fun i hi => absurd hi (Nat.not_lt_zero i)⟩
  | succ n ih =>
      intro hn c
      rw [List.range_succ, List.foldl_append, List.foldl_cons, List.foldl_nil]
      obtain ⟨hpos, hle, hbound⟩ := ih (by omega) c
      by_cases hc : c = cv (pattern.getD n 0)
      · subst hc
        rw [Function.update_self]
        exact ⟨by omega, by omega, fun i hi _ => by omega⟩
      · rw [Function.update_of_ne hc]
        refine ⟨hpos, hle, fun i hi hchar => hbound i ?_ hchar⟩
        have hne : i ≠ n := fun h => hc (h ▸ hchar.symm)
        omega

theorem backwardTable_shifts (hne : pattern ≠ []) :
    ShiftsBackward cv pattern 1 (backwardTable cv pattern) := by
  have hlength := List.length_pos_of_ne_nil hne
  rw [backwardTable, List.foldl_reverse]
  suffices h : ∀ n s, s + n = pattern.length → 0 < s → ShiftsBackward cv pattern s
      ((List.range' s n).foldr (fun i d => Function.update d (cv (pattern.getD i 0)) i)
        fun _ => pattern.length) from h _ 1 (by omega) Nat.one_pos
  intro n
  induction n with
  | zero => exact fun s hs _ c => ⟨hlength, le_rfl, fun i hi hsi => by omega⟩
  | succ n ih =>
      intro s hs hpos c
      rw [List.range'_succ, List.foldr_cons]
      obtain ⟨hpositive, hle, hbound⟩ := ih (s + 1) (by omega) (by omega) c
      by_cases hc : c = cv (pattern.getD s 0)
      · subst hc
        rw [Function.update_self]
        exact ⟨hpos, by omega, fun i _ hsi _ => hsi⟩
      · rw [Function.update_of_ne hc]
        refine ⟨hpositive, hle, fun i hi hsi hchar => hbound i hi ?_ hchar⟩
        have hne : i ≠ s := fun h => hc (h ▸ hchar.symm)
        omega

theorem byteAt_nat (line : List Byte) (p : Nat) : byteAt line p = line.getD p 0 := rfl

theorem matches_forward (hne : pattern ≠ []) (hp : p + pattern.length ≤ line.length) :
    (cv (byteAt line ((p : Int) + pattern.length - 1)) =
        cv (pattern.getD (pattern.length - 1) 0) ∧
      ((List.range' 1 (pattern.length - 1)).all fun i =>
        cv (byteAt line ((p : Int) + pattern.length - 1 - i)) =
          cv (pattern.getD (pattern.length - i - 1) 0)) = true) ↔
      occursIn cv pattern line p = true := by
  have hlength := List.length_pos_of_ne_nil hne
  have hbyte : ∀ i < pattern.length, byteAt line ((p : Int) + pattern.length - 1 - i) =
      line.getD (p + (pattern.length - i - 1)) 0 := by
    intro i hi
    rw [← byteAt_nat]
    congr 1
    omega
  rw [occursIn_iff]
  simp only [List.all_eq_true, List.mem_range'_1, decide_eq_true_eq]
  constructor
  · rintro ⟨hlast, hall⟩
    refine ⟨by omega, fun i hi => ?_⟩
    rcases Nat.lt_or_ge i (pattern.length - 1) with hlt | hge
    · have hcompared := hall (pattern.length - 1 - i) (by omega)
      rw [hbyte _ (by omega)] at hcompared
      have hindex : pattern.length - (pattern.length - 1 - i) - 1 = i := by omega
      rwa [hindex] at hcompared
    · have hlastByte := hbyte 0 hlength
      have hindex : pattern.length - 0 - 1 = i := by omega
      rw [hindex, Nat.cast_zero, Int.sub_zero] at hlastByte
      rw [hlastByte] at hlast
      rw [hlast]
      congr 2
  · rintro ⟨-, hall⟩
    have hlastByte := hbyte 0 hlength
    rw [Nat.cast_zero, Int.sub_zero] at hlastByte
    refine ⟨?_, fun i hi => ?_⟩
    · rw [hlastByte]
      exact hall (pattern.length - 1) (by omega)
    · rw [hbyte i (by omega)]
      exact hall (pattern.length - i - 1) (by omega)

theorem matches_backward (hne : pattern ≠ []) (hp : p + pattern.length ≤ line.length) :
    (cv (byteAt line p) = cv (pattern.getD 0 0) ∧
      ((List.range' 1 (pattern.length - 1)).all fun i =>
        cv (byteAt line ((p : Int) + i)) = cv (pattern.getD i 0)) = true) ↔
      occursIn cv pattern line p = true := by
  have hlength := List.length_pos_of_ne_nil hne
  have hbyte : ∀ i : Nat, byteAt line ((p : Int) + i) = line.getD (p + i) 0 := fun i => by
    rw [← byteAt_nat, Nat.cast_add]
  rw [occursIn_iff]
  simp only [List.all_eq_true, List.mem_range'_1, decide_eq_true_eq, hbyte]
  constructor
  · rintro ⟨hfirst, hall⟩
    refine ⟨by omega, fun i hi => ?_⟩
    cases i with
    | zero => exact hfirst
    | succ i => exact hall (i + 1) (by omega)
  · rintro ⟨-, hall⟩
    exact ⟨hall 0 hlength, fun i hi => hall i (by omega)⟩

theorem shift_forward {n : Nat} (hd : ShiftsForward cv pattern (pattern.length - 1) d)
    (hn : p < n) (hshift : (n : Int) < p + d (cv (line.getD (p + pattern.length - 1) 0))) :
    occursIn cv pattern line n = false := by
  by_contra hoccurs
  rw [Bool.not_eq_false, occursIn_iff] at hoccurs
  obtain ⟨-, hall⟩ := hoccurs
  obtain ⟨-, hle, hbound⟩ := hd (cv (line.getD (p + pattern.length - 1) 0))
  have hchar := hall (p + pattern.length - 1 - n) (by omega)
  have hindex : n + (p + pattern.length - 1 - n) = p + pattern.length - 1 := by omega
  rw [hindex] at hchar
  have hdistance := hbound (p + pattern.length - 1 - n) (by omega) hchar.symm
  omega

theorem shift_backward {n : Nat} (hd : ShiftsBackward cv pattern 1 d)
    (hn : n < p) (hshift : (p : Int) - d (cv (line.getD p 0)) < n) :
    occursIn cv pattern line n = false := by
  by_contra hoccurs
  rw [Bool.not_eq_false, occursIn_iff] at hoccurs
  obtain ⟨-, hall⟩ := hoccurs
  obtain ⟨-, hle, hbound⟩ := hd (cv (line.getD p 0))
  have hchar := hall (p - n) (by omega)
  have hindex : n + (p - n) = p := by omega
  rw [hindex] at hchar
  have hdistance := hbound (p - n) (by omega) (by omega) hchar.symm
  omega

theorem scanForward_succ (hne : pattern ≠ []) (turns : Nat) :
    scanForward cv d pattern line (turns + 1) ((p : Int) + pattern.length - 1) =
      if (p : Int) ≤ line.length - pattern.length then
        if occursIn cv pattern line p then .found p
        else scanForward cv d pattern line turns
          ((p : Int) + d (cv (line.getD (p + pattern.length - 1) 0)) + pattern.length - 1)
      else .missed := by
  have hlength := List.length_pos_of_ne_nil hne
  have hbyte : byteAt line ((p : Int) + pattern.length - 1) =
      line.getD (p + pattern.length - 1) 0 := by
    rw [← byteAt_nat]
    congr 1
    omega
  have hnext : (p : Int) + pattern.length - 1 + d (cv (line.getD (p + pattern.length - 1) 0)) =
      (p : Int) + d (cv (line.getD (p + pattern.length - 1) 0)) + pattern.length - 1 := by ring
  have hfound : (p : Int) + pattern.length - 1 - pattern.length + 1 = p := by ring
  rw [scanForward]
  dsimp only
  by_cases hlimit : (p : Int) ≤ line.length - pattern.length
  · have hmatch := (@matches_forward cv pattern line) (p := p) hne
      (by omega)
    rw [if_pos (by omega), if_pos hlimit, hfound]
    rw [hbyte] at hmatch ⊢
    rw [hnext]
    by_cases hoccurs : occursIn cv pattern line p = true
    · obtain ⟨hlast, hall⟩ := hmatch.mpr hoccurs
      rw [if_neg (not_not.mpr hlast), if_pos hall, if_pos hoccurs]
    · rw [if_neg hoccurs]
      split
      · rfl
      · rename_i hlast
        rw [if_neg fun hall => hoccurs (hmatch.mp ⟨not_not.mp hlast, hall⟩)]
  · rw [if_neg (by omega), if_neg hlimit]

theorem scanBackward_succ (hne : pattern ≠ []) (hp : p + pattern.length ≤ line.length)
    (turns : Nat) :
    scanBackward cv d pattern line (turns + 1) p =
      if occursIn cv pattern line p then .found p
      else scanBackward cv d pattern line turns ((p : Int) - d (cv (line.getD p 0))) := by
  have hmatch := (@matches_backward cv) hne hp
  rw [scanBackward]
  dsimp only
  rw [if_pos (Int.natCast_nonneg p)]
  rw [byteAt_nat] at hmatch ⊢
  by_cases hoccurs : occursIn cv pattern line p = true
  · obtain ⟨hfirst, hall⟩ := hmatch.mpr hoccurs
    rw [if_neg (not_not.mpr hfirst), if_pos hall, if_pos hoccurs]
  · rw [if_neg hoccurs]
    split
    · rfl
    · rename_i hfirst
      rw [if_neg fun hall => hoccurs (hmatch.mp ⟨not_not.mp hfirst, hall⟩)]

theorem scanForward_spec {c : List Nat} {k : Nat} (hne : pattern ≠ [])
    (hfits : pattern.length ≤ line.length)
    (hd : ShiftsForward cv pattern (pattern.length - 1) d) (hsorted : c.Pairwise (· < ·))
    (hmem : ∀ p, p ∈ c ↔ k ≤ p ∧ p ≤ line.length) :
    scanForward cv d pattern line (line.length + 1) ((k : Int) + pattern.length - 1) =
      .ofOption ((c.find? (occursIn cv pattern line)).map fun p : Nat => (p : Int)) := by
  have hlength := List.length_pos_of_ne_nil hne
  refine (@skips_find? _ (fun p => (p : Int))
    (fun j => d (cv (line.getD (j.toNat + pattern.length - 1) 0)))
    ((line.length : Int) - pattern.length) k _ (fun j => occursIn cv pattern line j.toNat) _
    (fun turns j => scanForward cv d pattern line turns (j + pattern.length - 1)) (fun j => j))
    ?_ ?_ ?_ ?_ ?_ ?_ ?_ ?_ ?_ ?_
  · exact hsorted.imp fun h => by exact_mod_cast h
  · intro j hk hj
    exact ⟨j.toNat, (hmem _).mpr ⟨by omega, by omega⟩, by omega⟩
  · intro p _ hoccurs
    have hle := (occursIn_iff.mp hoccurs).1
    omega
  · exact fun p _ _ _ => rfl
  · exact fun p _ => rfl
  · intro turns j hk
    obtain ⟨n, rfl⟩ := Int.eq_ofNat_of_zero_le (show 0 ≤ j by omega)
    exact scanForward_succ hne turns
  · intro j hk hj hnone
    refine ⟨(hd _).1, fun i hi hshift hlimit => ?_⟩
    refine shift_forward (p := j.toNat) hd (by omega) ?_
    omega
  · exact fun p hp _ => by exact_mod_cast ((hmem p).mp hp).1
  · omega
  · omega

theorem scanBackward_spec {c : List Nat} {k : Int} (hne : pattern ≠ [])
    (hfits : k + pattern.length ≤ line.length)
    (hd : ShiftsBackward cv pattern 1 d) (hsorted : c.Pairwise (· > ·))
    (hcover : ∀ p : Nat, (p : Int) ≤ k → p ∈ c)
    (hmem : ∀ p ∈ c, occursIn cv pattern line p = true → (p : Int) ≤ k) :
    scanBackward cv d pattern line (line.length + 1) k =
      .ofOption ((c.find? (occursIn cv pattern line)).map fun p : Nat => (p : Int)) := by
  have hlength := List.length_pos_of_ne_nil hne
  have h := (@skips_find? c (fun p => -(p : Int)) (fun j => d (cv (line.getD (-j).toNat 0))) 0 (-k)
    (line.length + 1) (fun j => occursIn cv pattern line (-j).toNat) (occursIn cv pattern line)
    (fun turns j => scanBackward cv d pattern line turns (-j)) (fun j => -j))
    (hsorted.imp fun h => by omega)
    (fun j hk hj => ⟨(-j).toNat, hcover _ (by omega), by omega⟩)
    (fun p _ _ => by omega)
    (fun p _ _ _ => by simp)
    (fun p _ => by simp)
    (fun turns j hk => by
      by_cases hj : j ≤ 0
      · obtain ⟨n, rfl⟩ : ∃ n : Nat, j = -(n : Int) := ⟨(-j).toNat, by omega⟩
        have hsucc := (@scanBackward_succ cv _ line) (d := d) (p := n) hne (by omega)
          turns
        simp only [if_pos hj, neg_neg, Int.toNat_natCast, neg_add, ← sub_eq_add_neg]
        exact hsucc
      · rw [if_neg hj, scanBackward]
        dsimp only
        rw [if_neg (by omega)])
    (fun j hk hj hnone => by
      refine ⟨(hd _).1, fun i hi hshift hlimit => ?_⟩
      refine shift_backward (p := (-j).toNat) hd (by omega) ?_
      omega)
    (fun p hp hoccurs => by
      have hle := hmem p hp hoccurs
      omega)
    (by omega) (by omega)
  rwa [neg_neg] at h

section Lines

variable {L : List (List Byte)} {l : Nat} {start : Nat × Nat} {skipFirst : Bool}

theorem positions_sorted_forward : (positions false L l).Pairwise (· < ·) := by
  simpa [positions] using List.pairwise_lt_range

theorem positions_sorted_backward : (positions true L l).Pairwise (· > ·) := by
  simpa [positions, List.pairwise_reverse] using List.pairwise_lt_range

theorem mem_positions {back : Bool} : p ∈ positions back L l ↔ p ≤ (L.getD l []).length := by
  unfold positions
  split
  · rw [List.mem_reverse, List.mem_range, Nat.lt_succ_iff]
  · rw [List.mem_range, Nat.lt_succ_iff]

theorem mem_onward_forward : p ∈ onward false skipFirst L start ↔
    start.2 + (if skipFirst then 1 else 0) ≤ p ∧ p ≤ (L.getD start.1 []).length := by
  rw [onward, List.mem_filter, mem_positions, decide_eq_true_eq, OnSide, Ahead]
  cases skipFirst with
  | false =>
      simp [Prod.ext_iff]
      omega
  | true =>
      simp [Prod.ext_iff]
      omega

theorem mem_onward_backward : p ∈ onward true skipFirst L start ↔
    p + (if skipFirst then 1 else 0) ≤ start.2 ∧ p ≤ (L.getD start.1 []).length := by
  rw [onward, List.mem_filter, mem_positions, decide_eq_true_eq, OnSide, Ahead]
  cases skipFirst with
  | false =>
      simp [Prod.ext_iff]
      omega
  | true =>
      simp [Prod.ext_iff]
      omega

end Lines

/-- The shifts are safe in the direction of the search. -/
def Shifts (back : Bool) (cv : Byte → Byte) (pattern : List Byte) (d : Byte → Nat) : Prop :=
  if back then ShiftsBackward cv pattern 1 d
  else ShiftsForward cv pattern (pattern.length - 1) d

theorem shiftTable_shifts (back : Bool) (cv : Byte → Byte) (hne : pattern ≠ []) :
    Shifts back cv pattern (shiftTable back cv pattern) := by
  cases back with
  | false => exact forwardTable_shifts hne
  | true => exact backwardTable_shifts hne

section Buffer

variable {b : Buffer} {l k : Nat} {back skipFirst : Bool}

theorem missed_of_short {c : List Nat} (hshort : ¬ pattern.length ≤ line.length) :
    (Search.missed : Search Int) =
      .ofOption ((c.find? (occursIn cv pattern line)).map fun p : Nat => (p : Int)) := by
  have hnone : c.find? (occursIn cv pattern line) = none := by
    rw [List.find?_eq_none]
    intro p _ hoccurs
    have hle := (occursIn_iff.mp hoccurs).1
    omega
  rw [hnone]
  rfl

theorem scanLineFrom_fresh (hne : pattern ≠ []) (hd : Shifts back cv pattern d) :
    scanLineFrom back cv d pattern b l (freshPos back pattern.length b l) =
      .ofOption (((positions back (lines b) l).find? fun p =>
        occursAt cv pattern (lines b) (l, p)).map fun p : Nat => (p : Int)) := by
  have hlength := List.length_pos_of_ne_nil hne
  rw [scanLineFrom, freshPos, Int.toNat_natCast]
  by_cases hfits : pattern.length ≤ ((lines b).getD l []).length
  · rw [if_pos hfits]
    cases back with
    | false =>
        have h := scanForward_spec (k := 0) (c := positions false (lines b) l) hne hfits hd
          positions_sorted_forward fun p => by rw [mem_positions]; omega
        simp only [Nat.cast_zero, zero_add] at h
        exact h
    | true =>
        simp only [if_true]
        refine scanBackward_spec hne (by omega) hd positions_sorted_backward (fun p hp => ?_)
          fun p _ hoccurs => ?_
        · rw [mem_positions]
          omega
        · have hle := (occursIn_iff.mp hoccurs).1
          omega
  · rw [if_neg hfits]
    exact missed_of_short hfits

/-- The current line is searched from the cursor on. -/
theorem scanLineFrom_start {s : List Byte} (hne : pattern ≠ []) (hd : Shifts back cv pattern d)
    (hdesc : b.curLineDesc = some l) (hline : (lines b)[l]? = some s) (hpos : b.curPos = k)
    (hk : k ≤ s.length) :
    scanLineFrom back cv d pattern b l (startPos back skipFirst pattern.length b) =
      .ofOption (((onward back skipFirst (lines b) (l, k)).find? fun p =>
        occursAt cv pattern (lines b) (l, p)).map fun p : Nat => (p : Int)) := by
  have hlength := List.length_pos_of_ne_nil hne
  have hget : (lines b).getD l [] = s := by rw [List.getD_eq_getElem?_getD, hline]; rfl
  rw [scanLineFrom, startPos, Int.toNat_natCast, hget, hdesc, lineOf_some hline, hpos]
  dsimp only
  have hoccurs : (fun p => occursAt cv pattern (lines b) (l, p)) = occursIn cv pattern s := by
    funext p
    rw [occursAt, hget]
  rw [hoccurs]
  by_cases hfits : pattern.length ≤ s.length
  · rw [if_pos hfits]
    cases back with
    | false =>
        have hsorted : (onward false skipFirst (lines b) (l, k)).Pairwise (· < ·) :=
          List.Pairwise.filter _ positions_sorted_forward
        have h := scanForward_spec (k := k + if skipFirst then 1 else 0) hne hfits hd hsorted
          fun p => by rw [mem_onward_forward, hget]
        have hstart : ((k + if skipFirst then 1 else 0 : Nat) : Int) + pattern.length - 1 =
            (k : Int) + pattern.length - 1 + if skipFirst then 1 else 0 := by
          split
          · push_cast
            ring
          · push_cast
            ring
        rw [hstart] at h
        exact h
    | true =>
        have hsorted : (onward true skipFirst (lines b) (l, k)).Pairwise (· > ·) :=
          List.Pairwise.filter _ positions_sorted_backward
        simp only [if_true]
        by_cases hpast : (s.length : Int) - pattern.length < k
        · rw [if_pos hpast]
          refine scanBackward_spec hne (by omega) hd hsorted (fun p hp => ?_)
            fun p hp hoccurs => ?_
          · rw [mem_onward_backward, hget]
            split
            · omega
            · omega
          · have hle := (occursIn_iff.mp hoccurs).1
            omega
        · rw [if_neg hpast]
          cases skipFirst with
          | false =>
              simp only [Bool.false_eq_true, if_false]
              refine scanBackward_spec hne (by omega) hd hsorted (fun p hp => ?_) fun p hp _ => ?_
              · simp only [mem_onward_backward, hget, Bool.false_eq_true, if_false]
                omega
              · simp only [mem_onward_backward, Bool.false_eq_true, if_false] at hp
                omega
          | true =>
              simp only [if_true]
              refine scanBackward_spec hne (by omega) hd hsorted (fun p hp => ?_) fun p hp _ => ?_
              · simp only [mem_onward_backward, hget, if_true]
                omega
              · simp only [mem_onward_backward, if_true] at hp
                omega
  · rw [if_neg hfits]
    exact missed_of_short hfits

end Buffer

/-- A row of characters of an encoding.  In UTF-8 the bytes of a character after the first are
continuation bytes. -/
inductive Encoded (encoding : EncodingType) : List Byte → Prop
  | nil : Encoded encoding []
  | cons {c : Byte} {tail rest : List Byte} (hlen : charLen encoding c = tail.length + 1)
      (htail : encoding = .utf8 → ∀ x ∈ tail, 0x80 ≤ x ∧ x < 0xC0)
      (h : Encoded encoding rest) : Encoded encoding (c :: (tail ++ rest))

theorem wholeChars_take {encoding : EncodingType} (hline : Encoded encoding line)
    (hp : p < line.length)
    (hbegins : encoding = .utf8 → ¬ (0x80 ≤ line.getD p 0 ∧ line.getD p 0 < 0xC0)) :
    WholeChars encoding (line.take p) := by
  by_cases hutf8 : encoding = .utf8
  · induction hline generalizing p with
    | nil => exact absurd hp (Nat.not_lt_zero p)
    | @cons c tail rest hlen htail _ ih =>
        rcases p with _ | p
        · exact .nil
        simp only [List.length_cons, List.length_append] at hp
        rcases Nat.lt_or_ge p tail.length with hinside | hbehind
        · have hbyte : (c :: (tail ++ rest)).getD (p + 1) 0 = tail[p] := by
            rw [List.getD_cons_succ, List.getD_append _ _ _ _ hinside,
              List.getD_eq_getElem _ _ hinside]
          exact absurd (hbyte ▸ htail hutf8 _ (List.getElem_mem hinside)) (hbegins hutf8)
        · obtain ⟨k, rfl⟩ := Nat.exists_eq_add_of_le hbehind
          have hbyte : (c :: (tail ++ rest)).getD (tail.length + k + 1) 0 = rest.getD k 0 := by
            rw [List.getD_cons_succ, List.getD_append_right _ _ _ _ (by omega),
              Nat.add_sub_cancel_left]
          rw [List.take_succ_cons, List.take_length_add_append]
          exact .cons hlen (ih (by omega) (by rw [← hbyte]; exact hbegins))
  · exact wholeChars_of_ne_utf8 hutf8 _

theorem asciiUpCase_continuation (c : Byte) :
    (0x80 ≤ asciiUpCase c ∧ asciiUpCase c < 0xC0) ↔ (0x80 ≤ c ∧ c < 0xC0) := by
  rw [asciiUpCase]
  split
  · grind
  · rfl

theorem utf8len_continuation {c : Byte} (hc : 0x80 ≤ c ∧ c < 0xC0) : utf8len c = -1 := by
  rw [utf8len, if_neg (UInt8.not_lt.mpr hc.1), if_pos hc.2]

theorem wholeChars_of_occursIn {localisedUpCase : Byte → Byte} {b : Buffer}
    (hline : Encoded b.encoding line) (hpattern : Encoded b.encoding pattern) (hne : pattern ≠ [])
    (hoccurs : occursIn (convOf localisedUpCase b) pattern line p = true) :
    WholeChars b.encoding (line.take p) := by
  have hlength := List.length_pos_of_ne_nil hne
  obtain ⟨hfits, hall⟩ := occursIn_iff.mp hoccurs
  refine wholeChars_take hline (by omega) fun hutf8 hcontinuation => ?_
  have hfirst := hall 0 hlength
  rw [Nat.add_zero] at hfirst
  have hconv : ∀ c : Byte, (0x80 ≤ convOf localisedUpCase b c ∧ convOf localisedUpCase b c < 0xC0) ↔
      (0x80 ≤ c ∧ c < 0xC0) := by
    intro c
    rw [convOf, conv, upCase, if_pos hutf8]
    split
    · exact Iff.rfl
    · exact asciiUpCase_continuation c
  have hbegin := (hconv _).mp (hfirst ▸ (hconv _).mpr hcontinuation)
  cases hpattern with
  | nil => exact hne rfl
  | @cons c tail rest hlen _ _ =>
      rw [List.getD_cons_zero] at hbegin
      rw [charLen, if_pos hutf8, utf8len_continuation hbegin] at hlen
      omega

theorem gotoLinePos_line {t : Terminal} {b : Buffer} {n pos : Nat} {l : List Byte}
    (h : CursorOk b) (hline : (lines b)[n]? = some l) (hpos : pos ≤ l.length) :
    Moved b (gotoLinePos t b n pos) ∧ (gotoLinePos t b n pos).curLine = n := by
  by_cases hstay : (n : Int) = b.curLine ∧ (pos : Int) = b.curPos
  · simp only [gotoLinePos, if_pos (show _ ∨ _ from Or.inr hstay)]
    exact ⟨rfl, hstay.1.symm⟩
  · obtain ⟨hmoved, -, hcurLine, -⟩ := gotoLinePos_lands t h hline hpos hstay
    exact ⟨hmoved, hcurLine⟩

theorem find_compiled (t : Terminal) (localisedUpCase : Byte → Byte) {f : Finder} {b : Buffer}
    {arg : Option (List Byte)} (skipFirst wrapOnce : Bool)
    (hpattern : arg.or f.findString = some pattern) (hne : pattern ≠ [])
    (hcompiled : recompiles f arg = true ∨
      f.d = shiftTable b.opt.searchBack (convOf localisedUpCase b) pattern) :
    ∃ f' : Finder, Shifts b.opt.searchBack (convOf localisedUpCase b) pattern f'.d ∧
      find t localisedUpCase f b arg skipFirst wrapOnce =
        match searchLines (courseOf b.opt.searchBack b.numLines)
            (scanLineFrom b.opt.searchBack (convOf localisedUpCase b) f'.d pattern b)
            (freshPos b.opt.searchBack pattern.length b) (b.numLines + 1).toNat b.curLine
            (startPos b.opt.searchBack skipFirst pattern.length b) wrapOnce with
        | .found (y, pos) => some (.ok, f', gotoLinePos t b y pos)
        | .missed => some (.notFound, f', b)
        | .running => none := by
  have hshifts := shiftTable_shifts b.opt.searchBack (convOf localisedUpCase b) hne
  obtain ⟨c, rest, rfl⟩ := List.exists_cons_of_ne_nil hne
  rw [find]
  by_cases hrecompile : recompiles f arg = true
  · simp only [hrecompile, if_true, hpattern]
    refine ⟨{ f with
      findStringChanged := nextSerial f.searchSerialNum
      searchSerialNum := nextSerial f.searchSerialNum
      d := shiftTable b.opt.searchBack (convOf localisedUpCase b) (c :: rest) }, hshifts, ?_⟩
    rfl
  · have hd := hcompiled.resolve_left hrecompile
    simp only [hrecompile, Bool.false_eq_true, if_false, hpattern]
    exact ⟨f, hd ▸ hshifts, rfl⟩

/-- `find` finds what a naive search finds, and moves the cursor there. -/
theorem find_eq_naive (t : Terminal) (localisedUpCase : Byte → Byte) {f : Finder} {b : Buffer}
    {arg : Option (List Byte)} {s : List Byte} (skipFirst wrapOnce : Bool) (h : CursorOk b)
    (hline : (lines b)[b.curLine.toNat]? = some s) (hpos : 0 ≤ b.curPos ∧ b.curPos ≤ s.length)
    (hpattern : arg.or f.findString = some pattern) (hne : pattern ≠ [])
    (hcompiled : recompiles f arg = true ∨
      f.d = shiftTable b.opt.searchBack (convOf localisedUpCase b) pattern) :
    ∃ f',
      match naiveSearch b.opt.searchBack skipFirst wrapOnce
          (occursAt (convOf localisedUpCase b) pattern (lines b)) (lines b)
          (b.curLine.toNat, b.curPos.toNat) with
      | none => find t localisedUpCase f b arg skipFirst wrapOnce = some (.notFound, f', b)
      | some q => ∃ b', find t localisedUpCase f b arg skipFirst wrapOnce = some (.ok, f', b') ∧
          Moved b b' ∧ b'.curLine = q.1 ∧
          ((∀ l ∈ lines b, Encoded b.encoding l) → Encoded b.encoding pattern →
            b'.curPos = q.2) := by
  obtain ⟨l, hl⟩ : ∃ l : Nat, b.curLine = l := ⟨b.curLine.toNat, by
    have hwin := h.winY_nonneg
    have hle := h.winY_le
    omega⟩
  obtain ⟨k, hk⟩ := Int.eq_ofNat_of_zero_le hpos.1
  rw [hl, Int.toNat_natCast] at hline
  have hnum : b.numLines = (lines b).length := by rw [h.numLines, lines, List.length_map]
  have hcur : b.curLineDesc = some l := by rw [h.cur, hl, Int.toNat_natCast]
  have hlt : l < (lines b).length := (List.getElem?_eq_some_iff.mp hline).1
  have hlength := List.length_pos_of_ne_nil hne
  obtain ⟨f', hf', hfind⟩ := find_compiled t localisedUpCase (b := b) skipFirst wrapOnce hpattern
    hne hcompiled
  have hsearch :=
    (@searchLines_eq_naive (occursAt (convOf localisedUpCase b) pattern (lines b)) _ _ _
    (lines b) (l, k) b.opt.searchBack skipFirst wrapOnce) hlt
    (fun l _ => scanLineFrom_fresh hne hf') (scanLineFrom_start hne hf' hcur hline hk
      (by have := hpos.2; omega))
  have hturns : ((lines b).length + 1 : Int).toNat = (lines b).length + 1 := by omega
  rw [hnum, hl, hturns, hsearch] at hfind
  refine ⟨f', ?_⟩
  rw [hl, hk, Int.toNat_natCast, Int.toNat_natCast]
  cases hnaive : naiveSearch b.opt.searchBack skipFirst wrapOnce
      (occursAt (convOf localisedUpCase b) pattern (lines b)) (lines b) (l, k) with
  | none =>
      rw [hnaive] at hfind
      exact hfind
  | some q =>
      rw [hnaive] at hfind
      have hoccurs :
          occursIn (convOf localisedUpCase b) pattern ((lines b).getD q.1 []) q.2 = true :=
        List.find?_some (p := occursAt (convOf localisedUpCase b) pattern (lines b)) hnaive
      have hfits := (occursIn_iff.mp hoccurs).1
      obtain ⟨line, hline'⟩ : ∃ line, (lines b)[q.1]? = some line := by
        by_contra hno
        rw [not_exists] at hno
        have hnone : (lines b)[q.1]? = none := Option.eq_none_iff_forall_ne_some.mpr hno
        rw [List.getD_eq_getElem?_getD, hnone, Option.getD_none, List.length_nil] at hfits
        omega
      have hget : (lines b).getD q.1 [] = line := by
        rw [List.getD_eq_getElem?_getD, hline', Option.getD_some]
      rw [hget] at hoccurs hfits
      have hin : q.2 ≤ line.length := by omega
      obtain ⟨hmoved, hcurLine⟩ := gotoLinePos_line (t := t) h hline' hin
      refine ⟨gotoLinePos t b q.1 q.2, hfind, hmoved, hcurLine, fun htext hencoded => ?_⟩
      have hwhole := wholeChars_of_occursIn (htext line (List.mem_of_getElem? hline')) hencoded hne
        hoccurs
      exact (gotoLinePos_spec t h hline' hin hwhole).2.2.2

/-- Two lines, with the cursor at their start. -/
def searchedLines : Buffer :=
  (insertStream (newBuffer false none fun _ => true) 0 0 0 [97, 0, 98]).2

/-- A search has not been made before. -/
def noSearch : Finder := ⟨none, 0, false, 2, fun _ => 0⟩

def searchTerminal : Terminal := ⟨25, 80, fun _ => 1, twentyFive_pos, eighty_pos⟩

/-- The second line is found. -/
theorem find_eq_naive_searchedLines :
    ∃ f' b', find searchTerminal asciiUpCase noSearch searchedLines (some [98]) true true =
      some (.ok, f', b') ∧ b'.curLine = 1 := by
  have hlines : lines searchedLines = [[97], [98]] := by decide
  have hcursor : CursorOk searchedLines :=
    ⟨by decide, by decide, by decide, by decide, by decide, by decide⟩
  have hline : (lines searchedLines)[searchedLines.curLine.toNat]? = some [97] := by decide
  obtain ⟨f', h⟩ := @find_eq_naive [98] searchTerminal asciiUpCase noSearch _ (some [98]) _ true
    true hcursor hline (by decide) rfl (by decide) (Or.inl rfl)
  have hnaive : naiveSearch searchedLines.opt.searchBack true true
      (occursAt (convOf asciiUpCase searchedLines) [98] (lines searchedLines)) (lines searchedLines)
      (searchedLines.curLine.toNat, searchedLines.curPos.toNat) = some (1, 0) := by
    decide +kernel
  rw [hnaive] at h
  obtain ⟨b', hfind, -, hcurLine, -⟩ := h
  exact ⟨f', b', hfind, hcurLine⟩

end NiceEditor.FindRefinement
