import NiceEditor.ClipBlocks

namespace NiceEditor.ClipPasses

open NiceEditor.Cells
open NiceEditor.Pools
open NiceEditor.BufferData
open NiceEditor.LineText
open NiceEditor.InsertRefinement
open NiceEditor.Navigation
open NiceEditor.EditSteps
open NiceEditor.Clips
open NiceEditor.ClipBlocks

/-- Where the part of line `i` starts that is behind position `pos` of line `n`. -/
def partStart (L : List (List Byte)) (n pos i : Nat) : Nat :=
  if i = n then min pos (L.getD i []).length else 0

/-- Where the part of line `i` ends that is before position `pos` of line `n`. -/
def partEnd (L : List (List Byte)) (n pos i : Nat) : Nat :=
  if i = n then min pos (L.getD i []).length else (L.getD i []).length

/-- What belongs to the block of line `i` and of the lines below it starts here. -/
def startPlace (L : List (List Byte)) (n pos i : Nat) : Nat := offset L i (partStart L n pos i)

/-- What belongs to the block of line `i` and of the lines above it ends here, behind the
line break, if any. -/
def endPlace (L : List (List Byte)) (n pos i : Nat) : Nat :=
  offset L i (partEnd L n pos i) + if i = n then 0 else 1

variable {b b₁ : Buffer} {k q y c i n pos : Nat} {extra : Int → Int} {pad ch : Bool}
variable {turn : Int → List Byte → Int → Int → BlockState → BlockState} {s : BlockState}
variable {L : List (List Byte)}

theorem offset_next (hi : i < L.length) :
    offset L (i + 1) 0 = offset L i 0 + ((L.getD i []).length + 1) := by
  rw [offset_succ (getD_of_lt hi), offset_eq]
  rfl

theorem partEnd_le (L : List (List Byte)) (n pos i : Nat) :
    partEnd L n pos i ≤ (L.getD i []).length := by
  unfold partEnd
  split
  · exact min_le_right _ _
  · exact le_rfl

@[simp] theorem startPlace_self (L : List (List Byte)) (n pos : Nat) :
    startPlace L n pos n = placeIn L n pos := by
  rw [startPlace, partStart, if_pos rfl, placeIn]

@[simp] theorem endPlace_self (L : List (List Byte)) (n pos : Nat) :
    endPlace L n pos n = placeIn L n pos := by
  rw [endPlace, partEnd, if_pos rfl, if_pos rfl, placeIn]
  rfl

theorem startPlace_of_ne (h : i ≠ n) : startPlace L n pos i = offset L i 0 := by
  rw [startPlace, partStart, if_neg h]

theorem endPlace_of_ne (h : i ≠ n) (hi : i < L.length) :
    endPlace L n pos i = offset L (i + 1) 0 := by
  rw [endPlace, partEnd, if_neg h, if_neg h, offset_succ (getD_of_lt hi)]

theorem start_eq (i n pos : Nat) (L : List (List Byte)) :
    (if (i : Int) = n then min ((L.getD i []).length : Int) pos else 0) = partStart L n pos i := by
  unfold partStart
  split
  · rename_i h
    rw [if_pos (by omega)]
    omega
  · rw [if_neg (by omega)]
    rfl

theorem end_eq (i n pos : Nat) (L : List (List Byte)) :
    (if (i : Int) = n then min ((L.getD i []).length : Int) pos else (L.getD i []).length) =
      partEnd L n pos i := by
  unfold partEnd
  split
  · rename_i h
    rw [if_pos (by omega)]
    omega
  · rw [if_neg (by omega)]

theorem nodeAway_up (hik : k < i) : nodeAway (some i) (-1) = some (i - 1) := by
  rw [nodeAway, Option.map_some]
  congr 1
  omega

theorem nodeAway_down (i : Nat) : nodeAway (some i) 1 = some (i + 1) := rfl

theorem upLoop_stop (turns : Nat) (ld : Option Nat) {j : Int} (h : j < s.b.blockStartLine) :
    upLoop pad y turn turns ld j s = s := by
  cases turns with
  | zero => rfl
  | succ turns => rw [upLoop, if_pos h]

theorem downLoop_stop (turns : Nat) (ld : Option Nat) {j : Int} (h : s.b.blockStartLine < j) :
    downLoop pad y turn turns ld j s = s := by
  cases turns with
  | zero => rfl
  | succ turns => rw [downLoop, if_pos h]

theorem upLoop_turn {t : BlockState} (hm : Marks s.b k q y c) (hki : k ≤ i)
    (ht : (if i = k ∧ pad then padMark s (some i) i else s) = t) (hmt : Marks t.b k q y c)
    (turns : Nat) :
    upLoop pad y turn (turns + 1) (some i) i s =
      upLoop pad y turn turns (nodeAway (some i) (-1)) (i - 1)
        (turn i ((lines t.b).getD i []) (partStart (lines t.b) k q i)
          (partEnd (lines t.b) y c i - partStart (lines t.b) k q i) t) := by
  have hnot : ¬ (i : Int) < s.b.blockStartLine := by
    rw [hm.startLine]
    omega
  have hcond : ((i : Int) = s.b.blockStartLine ∧ pad = true) = (i = k ∧ pad = true) := by
    rw [hm.startLine, Int.natCast_inj]
  rw [upLoop, if_neg hnot]
  simp only [hcond, ht]
  simp only [lineOf_eq, hmt.startLine, hmt.startPos, hmt.curPos, start_eq, end_eq]

theorem downLoop_turn {t : BlockState} (hm : Marks s.b k q y c) (hik : i ≤ k)
    (ht : (if i = y ∧ pad then padCursor s (some i) i else s) = t) (hmt : Marks t.b k q y c)
    (turns : Nat) :
    downLoop pad y turn (turns + 1) (some i) i s =
      downLoop pad y turn turns (some (i + 1)) (i + 1)
        (turn i ((lines t.b).getD i []) (partStart (lines t.b) y c i)
          (partEnd (lines t.b) k q i - partStart (lines t.b) y c i) t) := by
  have hnot : ¬ s.b.blockStartLine < (i : Int) := by
    rw [hm.startLine]
    omega
  have hcond : ((i : Int) = y ∧ pad = true) = (i = y ∧ pad = true) := by
    rw [Int.natCast_inj]
  rw [downLoop, if_neg hnot]
  simp only [hcond, ht]
  simp only [lineOf_eq, hmt.startLine, hmt.startPos, hmt.curPos, min_comm (c : Int),
    min_comm (q : Int), start_eq, end_eq, nodeAway_down]

/-- Counting upwards; the line of the mark is padded at the end. -/
theorem upLoop_count (hm : Marks b k q y c) (hextra : ∀ j : Nat, j < y → extra j = 1)
    (hstart : ∀ len p stream,
      (if pad then padMark ⟨b, false, len, p, stream⟩ (some k) k else ⟨b, false, len, p, stream⟩) =
        ⟨b₁, ch, len, p, stream⟩)
    (hm₁ : Marks b₁ k q y c)
    (hpart : (partEnd (lines b₁) y c k : Int) - partStart (lines b₁) k q k =
      partEnd (lines b) y c k - partStart (lines b) k q k)
    (turns : Nat) (hki : k ≤ i) (hiy : i ≤ y) (hturns : i - k < turns) (len p : Int)
    (stream : Nat → Byte) :
    upLoop pad y (count extra) turns (some i) i ⟨b, false, len, p, stream⟩ =
      ⟨b₁, ch, len + (endPlace (lines b) y c i - placeIn (lines b) k q) +
        (if i = y then extra y else 0), p, stream⟩ := by
  induction turns generalizing i len with
  | zero => omega
  | succ turns ih =>
      have hextra' : extra i = (if i = y then 0 else 1) + if i = y then extra y else 0 := by
        split
        · rename_i hiy
          rw [hiy, zero_add]
        · rw [hextra i (by omega)]
          rfl
      have hend : endPlace (lines b) y c i =
          offset (lines b) i 0 + partEnd (lines b) y c i + if i = y then 0 else 1 := rfl
      rcases Nat.eq_or_lt_of_le hki with rfl | hlt
      · have hstart' := hstart len p stream
        have hplace : placeIn (lines b) k q = offset (lines b) k 0 + partStart (lines b) k q k := by
          rw [← startPlace_self]
          rfl
        rw [upLoop_turn (t := ⟨b₁, ch, len, p, stream⟩) hm hki (by simpa using hstart') hm₁, count,
          upLoop_stop _ _ (by simp only [hm₁.startLine]; omega), hpart, hextra']
        congr 1
        rw [hplace, hend]
        push_cast
        ring
      · rw [upLoop_turn (t := ⟨b, false, len, p, stream⟩) hm hki (if_neg (by omega)) hm, count,
          nodeAway_up hlt]
        have hcast : (i : Int) - 1 = (i - 1 : Nat) := by omega
        have hprev : endPlace (lines b) y c (i - 1) = offset (lines b) i 0 := by
          rw [endPlace_of_ne (by omega) ((Nat.sub_le i 1).trans_lt (hiy.trans_lt hm.curLine_lt)),
            Nat.sub_add_cancel (by omega)]
        have hfirst : partStart (lines b) k q i = 0 := if_neg (by omega)
        rw [hcast, ih (by omega) (by omega) (by omega), hprev, hend, hfirst, hextra']
        congr 1
        rw [if_neg (show ¬ i - 1 = y by omega)]
        push_cast
        ring

theorem downLoop_count_below (hm : Marks b k q y c) (hextra : ∀ j : Nat, y < j → extra j = 1)
    (turns : Nat) (hyi : y < i) (hik : i ≤ k) (hturns : k - i < turns) (len p : Int)
    (stream : Nat → Byte) :
    downLoop pad y (count extra) turns (some i) i ⟨b, ch, len, p, stream⟩ =
      ⟨b, ch, len + (placeIn (lines b) k q - offset (lines b) i 0 + 1), p, stream⟩ := by
  induction turns generalizing i len with
  | zero => omega
  | succ turns ih =>
      have hfirst : partStart (lines b) y c i = 0 := if_neg (by omega)
      rw [downLoop_turn (t := ⟨b, ch, len, p, stream⟩) hm hik (if_neg (by omega)) hm, count, hfirst,
        hextra i hyi]
      rcases Nat.eq_or_lt_of_le hik with rfl | hlt
      · have hplace : placeIn (lines b) i q = offset (lines b) i 0 + partEnd (lines b) i q i := by
          rw [← endPlace_self, endPlace, if_pos rfl]
          rfl
        rw [downLoop_stop _ _ (by simp only [hm.startLine]; omega)]
        congr 1
        rw [hplace]
        push_cast
        ring
      · have hcast : (i : Int) + 1 = (i + 1 : Nat) := by omega
        have hend : partEnd (lines b) k q i = ((lines b).getD i []).length := if_neg (by omega)
        have hnext := offset_next (hik.trans_lt hm.startLine_lt)
        rw [hcast, ih (by omega) (by omega) (by omega), hend, hnext]
        congr 1
        push_cast
        ring

theorem downLoop_count (hm : Marks b k q y c) (hextra : ∀ j : Nat, y < j → extra j = 1)
    (hstart : ∀ len p stream,
      (if pad then padCursor ⟨b, false, len, p, stream⟩ (some y) y
        else ⟨b, false, len, p, stream⟩) = ⟨b₁, ch, len, p, stream⟩)
    (hm₁ : Marks b₁ k q y c) (turns : Nat) (hyk : y ≤ k) (hturns : k - y < turns) (len p : Int)
    (stream : Nat → Byte) :
    downLoop pad y (count extra) turns (some y) y ⟨b, false, len, p, stream⟩ =
      ⟨b₁, ch, len + (placeIn (lines b₁) k q - placeIn (lines b₁) y c) + extra y, p, stream⟩ := by
  obtain ⟨turns, rfl⟩ : ∃ m, turns = m + 1 := ⟨turns - 1, by omega⟩
  have hplace : placeIn (lines b₁) y c = offset (lines b₁) y 0 + partStart (lines b₁) y c y := by
    rw [← startPlace_self]
    rfl
  have hstart' := hstart len p stream
  rw [downLoop_turn (t := ⟨b₁, ch, len, p, stream⟩) hm hyk (by simpa using hstart') hm₁, count]
  rcases Nat.eq_or_lt_of_le hyk with rfl | hlt
  · have hend : placeIn (lines b₁) y q = offset (lines b₁) y 0 + partEnd (lines b₁) y q y := by
      rw [← endPlace_self, endPlace, if_pos rfl]
      rfl
    rw [downLoop_stop _ _ (by simp only [hm₁.startLine]; omega)]
    congr 1
    rw [hplace, hend]
    push_cast
    ring
  · have hcast : (y : Int) + 1 = (y + 1 : Nat) := by omega
    have hend : partEnd (lines b₁) k q y = ((lines b₁).getD y []).length := if_neg (by omega)
    have hnext := offset_next hm₁.curLine_lt
    rw [hcast, downLoop_count_below hm₁ hextra turns (by omega) (by omega) (by omega), hend, hnext,
      hplace]
    congr 1
    push_cast
    ring

theorem part_eq (hi : i < L.length) {start stop : Nat} (hle : start ≤ stop)
    (hstop : stop ≤ (L.getD i []).length) :
    ((L.getD i []).drop start).take ((stop : Int) - start).toNat =
      between (text 0 L) (offset L i start) (offset L i stop) := by
  have hcount : ((stop : Int) - start).toNat = stop - start := by omega
  rw [between_line 0 (getD_of_lt hi) hle hstop, between, hcount]

theorem break_eq (hi : i + 1 < L.length) :
    [0] = between (text 0 L) (offset L i (L.getD i []).length) (offset L (i + 1) 0) :=
  (between_break 0 (getD_of_lt (Nat.lt_of_succ_lt hi)) hi).symm

theorem storeUp_part (hy : y < L.length) (hiy : i ≤ y) {start : Nat}
    (hle : start ≤ partEnd L y c i) (len : Int) (r : Nat) (stream : Nat → Byte) :
    storeUp y i (L.getD i []) start (partEnd L y c i - start)
        ⟨b, ch, len, (r + (endPlace L y c i - offset L i start) : Nat), stream⟩ =
      ⟨b, ch, len, r, writeCells stream r
        (between (text 0 L) (offset L i start) (endPlace L y c i))⟩ := by
  have hpart := part_eq (hiy.trans_lt hy) hle (partEnd_le L y c i)
  have hstart := offset_eq L i start
  rcases Nat.eq_or_lt_of_le hiy with rfl | hlt
  · have hend : endPlace L i c i = offset L i (partEnd L i c i) := by
      rw [endPlace, if_pos rfl]
      rfl
    have hstop := offset_eq L i (partEnd L i c i)
    have hp : ((r + (offset L i (partEnd L i c i) - offset L i start) : Nat) : Int) -
        (partEnd L i c i - start) = r := by
      omega
    simp only [storeUp, ne_eq, not_true_eq_false, if_false, BlockState.store, hend, hp, hpart,
      Int.toNat_natCast]
  · have hlast : partEnd L y c i = (L.getD i []).length := if_neg (by omega)
    have hend : endPlace L y c i = offset L (i + 1) 0 :=
      endPlace_of_ne (by omega) (hiy.trans_lt hy)
    have hnext := offset_next (hiy.trans_lt hy)
    have hstop := offset_eq L i (partEnd L y c i)
    have hbreak := break_eq (show i + 1 < L.length by omega)
    have hne : (i : Int) ≠ y := by omega
    have hp₁ : ((r + (endPlace L y c i - offset L i start) : Nat) : Int) - 1 =
        (r + (partEnd L y c i - start) : Nat) := by
      rw [hend]
      omega
    have hp₂ : ((r + (partEnd L y c i - start) : Nat) : Int) - (partEnd L y c i - start) = r := by
      omega
    have hlength : partEnd L y c i - start =
        (between (text 0 L) (offset L i start) (offset L i (partEnd L y c i))).length := by
      rw [between_line 0 (getD_of_lt (hiy.trans_lt hy)) hle (partEnd_le L y c i),
        between_length (partEnd_le L y c i)]
    simp only [storeUp, if_pos hne, BlockState.store, hp₁, hp₂, hpart, Int.toNat_natCast]
    rw [hlength, writeCells_prepend, hbreak, ← hlast, between_append (by omega) (by omega), hend]

/-- Storing upwards. -/
theorem upLoop_store (hm : Marks b k q y c) (hfirst : k = y → q ≤ c) (turns : Nat) (hki : k ≤ i)
    (hiy : i ≤ y) (hturns : i - k < turns) (len : Int) (r : Nat) (stream : Nat → Byte) :
    upLoop false y (storeUp y) turns (some i) i
        ⟨b, ch, len, (r + (endPlace (lines b) y c i - placeIn (lines b) k q) : Nat), stream⟩ =
      ⟨b, ch, len, r, writeCells stream r
        (between (bufferText b) (placeIn (lines b) k q) (endPlace (lines b) y c i))⟩ := by
  induction turns generalizing i stream with
  | zero => omega
  | succ turns ih =>
      have hle : partStart (lines b) k q i ≤ partEnd (lines b) y c i := by
        unfold partStart partEnd
        split
        · split
          · have := hfirst (by omega)
            omega
          · omega
        · exact Nat.zero_le _
      have hstop := offset_mono_pos (lines b) i hle
      have hend : endPlace (lines b) y c i =
          offset (lines b) i (partEnd (lines b) y c i) + if i = y then 0 else 1 := rfl
      rw [upLoop_turn (t := ⟨b, ch, len, _, stream⟩) hm hki (if_neg (by simp)) hm]
      rcases Nat.eq_or_lt_of_le hki with rfl | hlt
      · have hplace : placeIn (lines b) k q =
            offset (lines b) k (partStart (lines b) k q k) := by
          rw [← startPlace_self]
          rfl
        rw [hplace, storeUp_part hm.curLine_lt hiy hle,
          upLoop_stop _ _ (by simp only [hm.startLine]; omega)]
        rfl
      · have hcast : (i : Int) - 1 = (i - 1 : Nat) := by omega
        have hprev : endPlace (lines b) y c (i - 1) = offset (lines b) i 0 := by
          rw [endPlace_of_ne (by omega) ((Nat.sub_le i 1).trans_lt (hiy.trans_lt hm.curLine_lt)),
            Nat.sub_add_cancel (by omega)]
        have hzero : partStart (lines b) k q i = 0 := if_neg (by omega)
        have hbefore : placeIn (lines b) k q < offset (lines b) i 0 :=
          offset_lt_of_lt (getD_of_lt hm.startLine_lt) (min_le_right _ _) hlt
        rw [hzero] at hle hstop ⊢
        have hp : r + (endPlace (lines b) y c i - placeIn (lines b) k q) =
            r + (offset (lines b) i 0 - placeIn (lines b) k q) +
              (endPlace (lines b) y c i - offset (lines b) i 0) := by
          omega
        have hinner := ih (show k ≤ i - 1 by omega) (by omega) (by omega)
          (writeCells stream (r + (offset (lines b) i 0 - placeIn (lines b) k q))
            (between (bufferText b) (offset (lines b) i 0) (endPlace (lines b) y c i)))
        have hlength : offset (lines b) i 0 - placeIn (lines b) k q =
            (between (bufferText b) (placeIn (lines b) k q) (offset (lines b) i 0)).length := by
          rw [between_length]
          exact offset_le_length 0 (getD_of_lt (hiy.trans_lt hm.curLine_lt)) (Nat.zero_le _)
        rw [hp, storeUp_part hm.curLine_lt hiy hle, nodeAway_up hlt, hcast]
        rw [hprev] at hinner
        refine hinner.trans ?_
        congr 1
        rw [hlength, writeCells_prepend, between_append (by omega) (by omega)]

/-- The part of a line, with the line break behind it, is stored behind what has been
stored before. -/
theorem storeDown_part (hm : Marks b k q y c) (hik : i ≤ k) {start : Nat}
    (hle : start ≤ partEnd (lines b) k q i) (len : Int) (r : Nat) (stream : Nat → Byte) :
    storeDown i ((lines b).getD i []) start (partEnd (lines b) k q i - start)
        ⟨b, ch, len, r, stream⟩ =
      ⟨b, ch, len, (r + (endPlace (lines b) k q i - offset (lines b) i start) : Nat),
        writeCells stream r
          (between (bufferText b) (offset (lines b) i start) (endPlace (lines b) k q i))⟩ := by
  have hi := hik.trans_lt hm.startLine_lt
  have hpart := part_eq hi hle (partEnd_le (lines b) k q i)
  have hstart := offset_eq (lines b) i start
  have hstop := offset_eq (lines b) i (partEnd (lines b) k q i)
  rcases Nat.eq_or_lt_of_le hik with rfl | hlt
  · have hend : endPlace (lines b) i q i = offset (lines b) i (partEnd (lines b) i q i) := by
      rw [endPlace, if_pos rfl]
      rfl
    have hp : (r : Int) + (partEnd (lines b) i q i - start) =
        (r + (offset (lines b) i (partEnd (lines b) i q i) - offset (lines b) i start) : Nat) := by
      omega
    simp only [storeDown, hm.startLine, ne_eq, not_true_eq_false, if_false, BlockState.store, hend,
      hp, hpart, Int.toNat_natCast]
    rfl
  · have hlast : partEnd (lines b) k q i = ((lines b).getD i []).length := if_neg (by omega)
    have hend : endPlace (lines b) k q i = offset (lines b) (i + 1) 0 :=
      endPlace_of_ne (by omega) hi
    have hnext := offset_next hi
    have hlt' := hm.startLine_lt
    have hbreak := break_eq (show i + 1 < (lines b).length by omega)
    have hne : (i : Int) ≠ k := by omega
    have hp₁ : (r : Int) + (partEnd (lines b) k q i - start) =
        (r + (partEnd (lines b) k q i - start) : Nat) := by
      omega
    have hp₂ : ((r + (partEnd (lines b) k q i - start) : Nat) : Int) + 1 =
        (r + (offset (lines b) (i + 1) 0 - offset (lines b) i start) : Nat) := by
      omega
    have hlength : partEnd (lines b) k q i - start =
        (between (text 0 (lines b)) (offset (lines b) i start)
          (offset (lines b) i (partEnd (lines b) k q i))).length := by
      rw [between_line 0 (getD_of_lt hi) hle (partEnd_le (lines b) k q i),
        between_length (partEnd_le (lines b) k q i)]
    simp only [storeDown, hm.startLine, if_pos hne, BlockState.store, hpart, hp₁, hp₂,
      Int.toNat_natCast, hend]
    congr 1
    rw [hlength, writeCells_append, hbreak, ← hlast, between_append (by omega) (by omega)]
    rfl

/-- Storing downwards. -/
theorem downLoop_store (hm : Marks b k q y c) (hfirst : y = k → c ≤ q) (turns : Nat) (hyi : y ≤ i)
    (hik : i ≤ k) (hturns : k - i < turns) (len : Int) (r : Nat) (stream : Nat → Byte) :
    downLoop false y storeDown turns (some i) i ⟨b, ch, len, r, stream⟩ =
      ⟨b, ch, len, (r + (placeIn (lines b) k q - startPlace (lines b) y c i) : Nat),
        writeCells stream r
          (between (bufferText b) (startPlace (lines b) y c i) (placeIn (lines b) k q))⟩ := by
  induction turns generalizing i r stream with
  | zero => omega
  | succ turns ih =>
      have hle : partStart (lines b) y c i ≤ partEnd (lines b) k q i := by
        unfold partStart partEnd
        split
        · split
          · have := hfirst (by omega)
            omega
          · omega
        · exact Nat.zero_le _
      have hstop := offset_mono_pos (lines b) i hle
      have hend : endPlace (lines b) k q i =
          offset (lines b) i (partEnd (lines b) k q i) + if i = k then 0 else 1 := rfl
      rw [downLoop_turn (t := ⟨b, ch, len, r, stream⟩) hm hik (if_neg (by simp)) hm,
        storeDown_part hm hik hle]
      rcases Nat.eq_or_lt_of_le hik with rfl | hlt
      · rw [downLoop_stop _ _ (by simp only [hm.startLine]; omega), endPlace_self]
        rfl
      · have hcast : (i : Int) + 1 = (i + 1 : Nat) := by omega
        have hnext : startPlace (lines b) y c (i + 1) = endPlace (lines b) k q i := by
          rw [startPlace_of_ne (by omega), endPlace_of_ne (by omega) (hik.trans_lt hm.startLine_lt)]
        have hafter : endPlace (lines b) k q i ≤ placeIn (lines b) k q := by
          have hlt' := offset_lt_of_lt (j := min q ((lines b).getD k []).length)
            (getD_of_lt (hik.trans_lt hm.startLine_lt)) (partEnd_le (lines b) k q i) hlt
          rw [hend, if_neg (by omega)]
          exact hlt'
        rw [hcast, ih (by omega) (by omega) (by omega), hnext]
        have hstart : offset (lines b) i (partStart (lines b) y c i) =
            startPlace (lines b) y c i := rfl
        rw [hstart] at hstop ⊢
        have hp : r + (endPlace (lines b) k q i - startPlace (lines b) y c i) +
            (placeIn (lines b) k q - endPlace (lines b) k q i) =
              r + (placeIn (lines b) k q - startPlace (lines b) y c i) := by
          omega
        have hlength : endPlace (lines b) k q i - startPlace (lines b) y c i =
            (between (bufferText b) (startPlace (lines b) y c i)
              (endPlace (lines b) k q i)).length := by
          rw [between_length]
          exact hafter.trans (offset_le_length 0 (getD_of_lt hm.startLine_lt) (min_le_right _ _))
        rw [hp]
        congr 1
        rw [hlength, writeCells_append, between_append (by omega) hafter]

end NiceEditor.ClipPasses
