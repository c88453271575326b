import Mathlib.Data.List.Nodup
import NiceEditor.Characters
import NiceEditor.Cursor
import NiceEditor.Nesting

namespace NiceEditor.BracketMatching

open NiceEditor.Pools
open NiceEditor.BufferData
open NiceEditor.Encoding
open NiceEditor.Navigation
open NiceEditor.Clips
open NiceEditor.Cursor
open NiceEditor.Sequences
open NiceEditor.CharacterRows
open NiceEditor.Characters
open NiceEditor.Nesting

/-- `bracket_table` -/
def bracketTable : List (Byte × Byte) := [(40, 41), (91, 93), (123, 125), (60, 62), (96, 39)]

/-- The bracket that a character is, with the other one of its kind, and whether that is
looked for forwards. -/
def bracketAt (c : Byte) : Option (Byte × Byte × Bool) :=
  bracketTable.findSome? fun (opening, closing) =>
    if c = opening then some (opening, closing, true)
    else if c = closing then some (closing, opening, false)
    else none

/-- What `find_matching_bracket` returns. -/
inductive Match
  | notOnABracket
  | cantFindBracket
  | ok (line pos : Int)
deriving DecidableEq

/-- The count goes up at a bracket like the first one, and down at the other one. -/
def weight (own other c : Byte) : Int := if c = own then 1 else if c = other then -1 else 0

/-- The scan of a line, with the count so far.  Every turn moves the position by a byte at
least. -/
def scanBrackets (own other : Byte) (forward : Bool) (e : EncodingType) (line : List Byte) :
    Nat → Int → Int → Tally Int
  | 0, _, n => .rest n
  | turns + 1, pos, n =>
      if 0 ≤ pos ∧ pos < line.length then
        let n := n + weight own other (byteAt line pos)
        if n = 0 then .ends pos
        else
          scanBrackets own other forward e line turns
            (if forward then nextPos line pos e else prevPos line pos e) n
      else .rest n

/-- The loop of `find_matching_bracket` over the lines.  The line descriptor goes along with
the line number `y`; an empty line is NULL. -/
def bracketLines (own other : Byte) (forward : Bool) (b : Buffer) (minLine maxLine : Int) :
    Nat → Int → Int → Int → Match
  | 0, _, _, _ => .cantFindBracket
  | turns + 1, y, pos, n =>
      if (0 ≤ y ∧ y < b.lineDescList.length) ∧ minLine ≤ y ∧ y ≤ maxLine then
        let line := (lines b).getD y.toNat []
        match scanBrackets own other forward b.encoding line line.length pos n with
        | .ends pos => .ok y pos
        | .rest n =>
            let y := if forward then y + 1 else y - 1
            let line := (lines b).getD y.toNat []
            let pos := if line = [] then -1 else if forward then 0 else (line.length : Int) - 1
            bracketLines own other forward b minLine maxLine turns y pos n
      else .cantFindBracket

/-- `find_matching_bracket` -/
def findMatchingBracket (b : Buffer) (minLine maxLine : Int) : Match :=
  let line := lineOf b b.curLineDesc
  if line.length ≤ b.curPos then .notOnABracket
  else
    match bracketAt (byteAt line b.curPos) with
    | none => .notOnABracket
    | some (own, other, forward) =>
        bracketLines own other forward b minLine maxLine b.lineDescList.length b.curLine b.curPos 0

/-- A byte of a text, with its line and its position. -/
abbrev Spot := (Nat × Nat) × Byte

/-- A byte of a line, with its position. -/
def spotIn (y : Nat) (c : Byte × Nat) : Spot := ((y, c.2), c.1)

/-- The bytes of a text with their places, in order; its first line has number `y`. -/
def spots (y : Nat) (text : List (List Byte)) : List Spot :=
  (text.zipIdx y).flatMap fun (line, y) => line.zipIdx.map (spotIn y)

/-- The weight of a byte of a text. -/
def spotWeight (own other : Byte) (s : Spot) : Int := weight own other s.2

/-- An opening bracket at `p` and a closing one at `q`, with as many of them between the two
as belong together. -/
def Encloses (text : List (List Byte)) (opening closing : Byte) (p q : Nat × Nat) : Prop :=
  ∃ a m z, spots 0 text = a ++ (p, opening) :: (m ++ (q, closing) :: z) ∧
    Balanced (spotWeight opening closing) m

/-- The brackets at two places of a text belong together. -/
def Matches (text : List (List Byte)) (p q : Nat × Nat) : Prop :=
  ∃ opening closing, (opening, closing) ∈ bracketTable ∧
    (Encloses text opening closing p q ∨ Encloses text opening closing q p)

variable {own other : Byte} {e : EncodingType} {line a : List Byte} {n : Int} {k turns y : Nat}
variable {cs : List (List Byte)} {text front rest : List (List Byte)} {b : Buffer}

/-- The weight of a byte of a line. -/
def weightIn (own other : Byte) (c : Byte × Nat) : Int := weight own other c.1

theorem weightIn_mk (c : Byte) (x : Nat) : weightIn own other (c, x) = weight own other c := rfl

/-- The position at which a count ends. -/
def position : Tally (Byte × Nat) → Tally Int
  | .ends c => .ends c.2
  | .rest n => .rest n

theorem weight_high (hown : own < 0x80) (hother : other < 0x80) {c : Byte} (hc : ¬ c < 0x80) :
    weight own other c = 0 := by
  have hne : ∀ x : Byte, x < 0x80 → c ≠ x := by
    rintro x hx rfl
    exact hc hx
  rw [weight, if_neg (hne own hown), if_neg (hne other hother)]

theorem weight_continuation (hown : own < 0x80) (hother : other < 0x80) {c : Byte}
    (hc : c &&& 0xC0 = 0x80) : weight own other c = 0 :=
  weight_high hown hother (UInt8.not_lt.mpr (continuation_ge c hc).1)

theorem tally_zero {α : Type*} {w : α → Int} {l : List α} (hn : n ≠ 0) (h : ∀ a ∈ l, w a = 0)
    (r : List α) : tally w n (l ++ r) = tally w n r := by
  induction l with
  | nil => rfl
  | cons a l ih =>
      obtain ⟨ha, hl⟩ := List.forall_mem_cons.mp h
      rw [List.cons_append, tally, ha, Int.add_zero, if_neg hn]
      exact ih hl

/-- The scan of a line forwards counts its bytes. -/
theorem scanForward_tally (hown : own < 0x80) (hother : other < 0x80)
    (hchars : ∀ ch ∈ cs, IsCharacter e ch) (hn : n ≠ 0) (hturns : cs.flatten.length ≤ turns)
    (a : List Byte) :
    scanBrackets own other true e (a ++ cs.flatten) turns a.length n =
      position (tally (weightIn own other) n (cs.flatten.zipIdx a.length)) := by
  induction cs generalizing a turns n with
  | nil =>
      obtain _ | turns := turns
      · rfl
      · rw [scanBrackets, if_neg (by simp)]
        rfl
  | cons ch cs ih =>
      obtain ⟨hch, hcs⟩ := List.forall_mem_cons.mp hchars
      have hnext := nextPos_character hch a cs.flatten
      have hpos := hch.length_pos
      rw [List.flatten_cons, List.length_append] at hturns
      obtain _ | turns := turns
      · omega
      cases hch with
      | @mk c tail hlen htail =>
          have hbyte : byteAt (a ++ (c :: tail ++ cs.flatten)) a.length = c := by
            rw [byteAt, Int.toNat_natCast, List.getD_append_right _ _ _ _ le_rfl, Nat.sub_self]
            rfl
          have hin : 0 ≤ (a.length : Int) ∧
              (a.length : Int) < (a ++ (c :: tail ++ cs.flatten)).length := by
            simp only [List.length_append, List.length_cons]
            omega
          rw [List.flatten_cons, scanBrackets, if_pos hin, hbyte, List.cons_append,
            List.zipIdx_cons, tally]
          rw [weightIn_mk]
          by_cases hzero : n + weight own other c = 0
          · rw [if_pos hzero, if_pos hzero]
            rfl
          · have hzeros : ∀ x ∈ tail.zipIdx (a.length + 1), weightIn own other x = 0 :=
              fun x hx =>
                weight_continuation hown hother (htail x.1 (List.fst_mem_of_mem_zipIdx hx))
            have hrest := @ih _ turns hcs hzero (by omega) (a ++ c :: tail)
            rw [List.length_append, List.append_assoc] at hrest
            rw [if_neg hzero, if_neg hzero, List.zipIdx_append]
            refine Eq.trans ?_ (congrArg position (tally_zero hzero hzeros _).symm)
            rw [if_pos rfl, ← List.cons_append, hnext, hrest, List.length_cons]
            congr 3
            omega

theorem sequenceStart_spec (s : List Byte) (k : Nat) :
    sequenceStart s k ≤ k ∧
      ∀ i, sequenceStart s k < i → i ≤ k → s.getD i 0 &&& 0xC0 = 0x80 := by
  induction k with
  | zero => exact ⟨le_rfl, fun i hlt hle => absurd hle (by omega)⟩
  | succ k ih =>
      rw [sequenceStart]
      split
      case isFalse => exact ⟨le_rfl, fun i hlt hle => absurd hle (by omega)⟩
      case isTrue hcontinuation =>
          refine ⟨ih.1.trans (Nat.le_succ k), fun i hlt hle => ?_⟩
          rcases Nat.lt_or_eq_of_le hle with hlt' | rfl
          · exact ih.2 i hlt (by omega)
          · exact hcontinuation

theorem prevPos_spec (e : EncodingType) (hk : k < line.length) :
    ∃ j ≤ k, prevPos line k e = (j : Int) - 1 ∧
      ∀ i, j ≤ i → i < k → line.getD i 0 &&& 0xC0 = 0x80 := by
  have hne : line ≠ [] := List.ne_nil_of_length_pos (by omega)
  rw [prevPos, if_neg hne]
  split
  case isTrue hzero => exact ⟨0, Nat.zero_le k, rfl, fun i _ hi => absurd hi (by omega)⟩
  case isFalse hpos =>
      have hplace : ((k : Int) - 1).toNat = k - 1 := by omega
      split
      case isTrue =>
          obtain ⟨hle, hspec⟩ := sequenceStart_spec line (k - 1)
          rw [hplace]
          exact ⟨sequenceStart line (k - 1) + 1, by omega, by push_cast; omega,
            fun i hle hlt => hspec i (by omega) (by omega)⟩
      case isFalse => exact ⟨k, le_rfl, rfl, fun i _ hi => absurd hi (by omega)⟩

theorem tally_prevPos (e : EncodingType) (hown : own < 0x80) (hother : other < 0x80)
    (hk : k < line.length) (hn : n ≠ 0) :
    ∃ j ≤ k, prevPos line k e = (j : Int) - 1 ∧
      tally (weightIn own other) n (line.zipIdx.take k).reverse =
        tally (weightIn own other) n (line.zipIdx.take j).reverse := by
  obtain ⟨j, hj, hprev, hcontinuation⟩ := prevPos_spec e hk
  have hsplit : (line.zipIdx.take k).reverse =
      ((line.zipIdx.take k).drop j).reverse ++ (line.zipIdx.take j).reverse := by
    have htake : line.zipIdx.take j = (line.zipIdx.take k).take j := by
      rw [List.take_take, min_eq_left hj]
    rw [← List.reverse_append, htake, List.take_append_drop]
  have hzeros : ∀ x ∈ ((line.zipIdx.take k).drop j).reverse, weightIn own other x = 0 := by
    intro x hx
    obtain ⟨i, hi, rfl⟩ := List.getElem_of_mem (List.mem_reverse.mp hx)
    rw [List.length_drop, List.length_take, List.length_zipIdx] at hi
    have hbyte := hcontinuation (j + i) (by omega) (by omega)
    rw [List.getD_eq_getElem _ _ (by omega)] at hbyte
    rw [weightIn, List.getElem_drop, List.getElem_take, List.getElem_zipIdx]
    exact weight_continuation hown hother hbyte
  exact ⟨j, hj, hprev, by rw [hsplit, tally_zero hn hzeros]⟩

theorem scanBackward_tally (hown : own < 0x80) (hother : other < 0x80) (hk : k ≤ line.length)
    (hn : n ≠ 0) (hturns : k ≤ turns) :
    scanBrackets own other false e line turns ((k : Int) - 1) n =
      position (tally (weightIn own other) n (line.zipIdx.take k).reverse) := by
  induction k using Nat.strong_induction_on generalizing turns n with
  | _ k ih =>
      obtain _ | k := k
      · obtain _ | turns := turns
        · rfl
        · rw [scanBrackets, if_neg (by simp)]
          rfl
      obtain _ | turns := turns
      · omega
      have hlast : (line.zipIdx.take (k + 1)).reverse =
          ((line)[k], k) :: (line.zipIdx.take k).reverse := by
        rw [List.take_succ_eq_append_getElem (by rw [List.length_zipIdx]; omega),
          List.reverse_append, List.getElem_zipIdx]
        simp
      have hplace : (((k + 1 : Nat) : Int) - 1) = k := by omega
      have hbyte : byteAt line k = (line)[k] := by
        rw [byteAt, Int.toNat_natCast, List.getD_eq_getElem _ _ (by omega)]
      rw [hlast, hplace, scanBrackets, if_pos ⟨by omega, by omega⟩, hbyte, tally]
      rw [weightIn_mk]
      by_cases hzero : n + weight own other (line)[k] = 0
      · rw [if_pos hzero, if_pos hzero]
        rfl
      · obtain ⟨j, hj, hprev, htally⟩ :=
          tally_prevPos e hown hother (show k < line.length by omega) hzero
        rw [if_neg hzero, if_neg hzero, if_neg Bool.false_ne_true, hprev, htally]
        exact ih j (by omega) (by omega) hzero (by omega)

/-- Where a count over the text ends. -/
def place : Tally Spot → Match
  | .ends s => .ok s.1.1 s.1.2
  | .rest _ => .cantFindBracket

attribute [grind =] place

theorem rest_ne_zero {α : Type*} {w : α → Int} {l : List α} {n' : Int} (hn : n ≠ 0)
    (h : tally w n l = .rest n') : n' ≠ 0 := by
  induction l generalizing n with
  | nil =>
      obtain rfl : n = n' := by simpa [tally] using h
      exact hn
  | cons a l ih =>
      rw [tally] at h
      split at h
      case isTrue => exact absurd h nofun
      case isFalse hne => exact ih hne h

theorem spots_cons (y : Nat) (line : List Byte) (text : List (List Byte)) :
    spots y (line :: text) = line.zipIdx.map (spotIn y) ++ spots (y + 1) text := rfl

theorem spots_append (y : Nat) (text text' : List (List Byte)) :
    spots y (text ++ text') = spots y text ++ spots (y + text.length) text' := by
  rw [spots, List.zipIdx_append, List.flatMap_append]
  rfl

theorem tally_spots (y : Nat) (seg : List (Byte × Nat)) :
    tally (spotWeight own other) n (seg.map (spotIn y)) =
      match tally (weightIn own other) n seg with
      | .ends c => .ends (spotIn y c)
      | .rest n => .rest n := by
  have hweight : (fun c => spotWeight own other (spotIn y c)) = weightIn own other := rfl
  rw [tally_map, hweight]
  cases tally (weightIn own other) n seg <;> rfl

theorem inside_iff (hnum : b.numLines = b.lineDescList.length) (i : Int) :
    ((0 ≤ i ∧ i < b.lineDescList.length) ∧ 0 ≤ i ∧ i ≤ b.numLines - 1) ↔
      0 ≤ i ∧ i < (lines b).length := by
  rw [lines, List.length_map]
  omega

/-- The position that the scan of the next line starts at. -/
def nextPosition (forward : Bool) (line : List Byte) : Int :=
  if line = [] then -1 else if forward then 0 else (line.length : Int) - 1

theorem bracketLines_step {forward : Bool} {pos n' : Int} {seg : List (Byte × Nat)}
    (hnum : b.numLines = b.lineDescList.length) (htext : lines b = front ++ line :: rest)
    (hscan : scanBrackets own other forward b.encoding line line.length pos n =
      position (tally (weightIn own other) n' seg)) (turns : Nat) :
    bracketLines own other forward b 0 (b.numLines - 1) (turns + 1) front.length pos n =
      match tally (weightIn own other) n' seg with
      | .ends c => .ok front.length c.2
      | .rest n =>
          let y := if forward then (front.length : Int) + 1 else (front.length : Int) - 1
          bracketLines own other forward b 0 (b.numLines - 1) turns y
            (nextPosition forward ((lines b).getD y.toNat [])) n := by
  have hline : (lines b).getD (front.length : Int).toNat [] = line := by
    rw [htext, Int.toNat_natCast, List.getD_append_right _ _ _ _ le_rfl, Nat.sub_self]
    rfl
  have hinside : 0 ≤ (front.length : Int) ∧ (front.length : Int) < (lines b).length := by
    rw [htext, List.length_append, List.length_cons]
    omega
  rw [bracketLines, if_pos ((inside_iff hnum _).mpr hinside), hline]
  dsimp only
  rw [hscan]
  cases tally (weightIn own other) n' seg with
  | ends c => rfl
  | rest n => rfl

/-- The scan of the lines forwards counts the bytes of the text. -/
theorem bracketLines_forward {pos n' : Int} {seg : List (Byte × Nat)}
    (hown : own < 0x80) (hother : other < 0x80) (hnum : b.numLines = b.lineDescList.length)
    (htext : lines b = front ++ line :: rest) (hencoded : Encoded b.encoding rest)
    (hscan : scanBrackets own other true b.encoding line line.length pos n =
      position (tally (weightIn own other) n' seg))
    (hn : n' ≠ 0) (hturns : rest.length < turns) :
    bracketLines own other true b 0 (b.numLines - 1) turns front.length pos n =
      place (tally (spotWeight own other) n'
        (seg.map (spotIn front.length) ++ spots (front.length + 1) rest)) := by
  induction rest generalizing front line pos n n' seg turns with
  | nil =>
      obtain _ | turns := turns
      · omega
      rw [bracketLines_step hnum htext hscan, spots, List.zipIdx_nil, List.flatMap_nil,
        List.append_nil, tally_spots]
      cases tally (weightIn own other) n' seg with
      | ends c => rfl
      | rest n =>
          have houtside : ¬ (0 ≤ (front.length : Int) + 1 ∧
              (front.length : Int) + 1 < (lines b).length) := by
            rw [htext, List.length_append, List.length_singleton]
            omega
          cases turns with
          | zero => rfl
          | succ turns =>
              dsimp only [place]
              rw [if_pos rfl, bracketLines, if_neg (mt (inside_iff hnum _).mp houtside)]
  | cons next rest ih =>
      obtain _ | turns := turns
      · omega
      rw [bracketLines_step hnum htext hscan, tally_append, tally_spots]
      cases htally : tally (weightIn own other) n' seg with
      | ends c => rfl
      | rest n'' =>
          have hn'' := rest_ne_zero hn htally
          have htext' : lines b = (front ++ [line]) ++ next :: rest := by simpa using htext
          have hlength : ((front.length : Int) + 1) = ((front ++ [line]).length : Int) := by simp
          have hline : (lines b).getD ((front ++ [line]).length : Int).toNat [] = next := by
            rw [htext', Int.toNat_natCast, List.getD_append_right _ _ _ _ le_rfl, Nat.sub_self]
            rfl
          obtain ⟨⟨cs, hchars, hflatten⟩, hrest⟩ := List.forall_mem_cons.mp hencoded
          have hscan' : scanBrackets own other true b.encoding next next.length
              (nextPosition true next) n'' =
                position (tally (weightIn own other) n'' next.zipIdx) := by
            rw [nextPosition]
            split
            case isTrue hempty =>
                rw [hempty]
                rfl
            case isFalse =>
                rw [if_pos rfl, ← hflatten]
                exact scanForward_tally hown hother hchars hn'' le_rfl []
          dsimp only
          rw [if_pos rfl, hlength, hline, spots_cons,
            ih htext' hrest hscan' hn'' (by simpa using hturns)]
          simp

/-- The scan of the lines backwards counts the bytes of the text. -/
theorem bracketLines_backward {pos n' : Int} {seg : List (Byte × Nat)}
    (hown : own < 0x80) (hother : other < 0x80) (hnum : b.numLines = b.lineDescList.length)
    (htext : lines b = front ++ line :: rest)
    (hscan : scanBrackets own other false b.encoding line line.length pos n =
      position (tally (weightIn own other) n' seg))
    (hn : n' ≠ 0) (hturns : front.length < turns) :
    bracketLines own other false b 0 (b.numLines - 1) turns front.length pos n =
      place (tally (spotWeight own other) n'
        (seg.map (spotIn front.length) ++ (spots 0 front).reverse)) := by
  induction front using List.reverseRecOn generalizing line pos n n' seg turns rest with
  | nil =>
      obtain _ | turns := turns
      · omega
      rw [bracketLines_step hnum htext hscan, tally_append, tally_spots]
      cases tally (weightIn own other) n' seg with
      | ends c => rfl
      | rest n =>
          cases turns with
          | zero => rfl
          | succ turns =>
              dsimp only [place]
              rw [if_neg Bool.false_ne_true, bracketLines, if_neg (by simp)]
              rfl
  | append_singleton front before ih =>
      obtain _ | turns := turns
      · omega
      rw [bracketLines_step hnum htext hscan, tally_append, tally_spots]
      cases htally : tally (weightIn own other) n' seg with
      | ends c => rfl
      | rest n'' =>
          have hn'' := rest_ne_zero hn htally
          have htext' : lines b = front ++ before :: (line :: rest) := by simpa using htext
          have hlength : (((front ++ [before]).length : Int) - 1) = (front.length : Int) := by simp
          have hline : (lines b).getD (front.length : Int).toNat [] = before := by
            rw [htext', Int.toNat_natCast, List.getD_append_right _ _ _ _ le_rfl, Nat.sub_self]
            rfl
          have hscan' : scanBrackets own other false b.encoding before before.length
              (nextPosition false before) n'' =
                position (tally (weightIn own other) n'' before.zipIdx.reverse) := by
            have hpos : nextPosition false before = (before.length : Int) - 1 := by
              rw [nextPosition]
              split
              case isTrue hempty => rw [hempty]; rfl
              case isFalse => rfl
            rw [hpos, scanBackward_tally hown hother le_rfl hn'' le_rfl,
              List.take_of_length_le (by rw [List.length_zipIdx])]
          dsimp only
          rw [if_neg Bool.false_ne_true, hlength, hline,
            ih htext' hscan' hn'' (by simpa using hturns), spots_append, List.reverse_append]
          simp [spots]

/-- The cursor of a buffer is at a byte of its text. -/
structure CursorAt (b : Buffer) (p : Nat × Nat) (c : Byte) : Prop where
  numLines : b.numLines = b.lineDescList.length
  curLineDesc : b.curLineDesc = some p.1
  curLine : b.curLine = p.1
  curPos : b.curPos = p.2
  byte : ((lines b)[p.1]?.bind fun l => l[p.2]?) = some c

/-- What is before a place in a line. -/
def spotsBefore (text : List (List Byte)) (p : Nat × Nat) : List Spot :=
  spots 0 (text.take p.1) ++ ((text.getD p.1 []).zipIdx.take p.2).map (spotIn p.1)

/-- What is behind a place in a line. -/
def spotsAfter (text : List (List Byte)) (p : Nat × Nat) : List Spot :=
  ((text.getD p.1 []).zipIdx.drop (p.2 + 1)).map (spotIn p.1) ++
    spots (p.1 + 1) (text.drop (p.1 + 1))

theorem spots_eq {text : List (List Byte)} {p : Nat × Nat} {c : Byte}
    (h : (text[p.1]?.bind fun l => l[p.2]?) = some c) :
    spots 0 text = spotsBefore text p ++ (p, c) :: spotsAfter text p := by
  obtain ⟨line, hline, hbyte⟩ := Option.bind_eq_some_iff.mp h
  obtain ⟨hy, rfl⟩ := List.getElem?_eq_some_iff.mp hline
  obtain ⟨hx, rfl⟩ := List.getElem?_eq_some_iff.mp hbyte
  have htext : text = text.take p.1 ++ text[p.1] :: text.drop (p.1 + 1) := by
    rw [← List.drop_eq_getElem_cons, List.take_append_drop]
  have hline : text.getD p.1 [] = text[p.1] := List.getD_eq_getElem _ _ hy
  have hsplit : text[p.1].zipIdx =
      text[p.1].zipIdx.take p.2 ++ (text[p.1][p.2], p.2) :: text[p.1].zipIdx.drop (p.2 + 1) := by
    have hx' : p.2 < text[p.1].zipIdx.length := by
      rwa [List.length_zipIdx]
    have hget : text[p.1].zipIdx[p.2] = (text[p.1][p.2], p.2) := by
      rw [List.getElem_zipIdx]
      simp
    rw [← hget, ← List.drop_eq_getElem_cons, List.take_append_drop]
  have hlength : (text.take p.1).length = p.1 := List.length_take_of_le hy.le
  rw [spotsBefore, spotsAfter, hline]
  conv_lhs => rw [htext, spots_append, spots_cons, hlength, Nat.zero_add, hsplit, List.map_append]
  simp [spotIn]

theorem nodup_spots (text : List (List Byte)) : (spots 0 text).Nodup := by
  have hnodup : ∀ {α : Type} (l : List α), l.zipIdx.Nodup := fun l => by
    refine List.Nodup.of_map Prod.snd ?_
    rw [List.zipIdx_map_snd]
    exact List.nodup_range'
  refine List.nodup_flatMap.mpr ⟨?_, ?_⟩
  · rintro ⟨line, y⟩ -
    refine (hnodup line).map ?_
    rintro ⟨c, x⟩ ⟨c', x'⟩ heq
    simpa [spotIn, and_comm] using heq
  · refine (hnodup text).pairwise_of_forall_ne ?_
    rintro ⟨line, y⟩ hline ⟨line', y'⟩ hline' hne s hs hs'
    obtain ⟨c, -, rfl⟩ := List.mem_map.mp hs
    obtain ⟨c', -, heq⟩ := List.mem_map.mp hs'
    obtain rfl : y' = y := congrArg (fun s : Spot => s.1.1) heq
    have hsame := List.mk_mem_zipIdx_iff_getElem?.mp hline'
    rw [List.mk_mem_zipIdx_iff_getElem?.mp hline, Option.some.injEq] at hsame
    exact hne (by rw [hsame])

theorem split_unique {text : List (List Byte)} {p : Nat × Nat} {c : Byte} {a z : List Spot}
    (h : (text[p.1]?.bind fun l => l[p.2]?) = some c)
    (hsplit : spots 0 text = a ++ (p, c) :: z) :
    a = spotsBefore text p ∧ z = spotsAfter text p := by
  have hnodup := nodup_spots text
  have heq := spots_eq h
  rw [heq, List.nodup_middle, List.nodup_cons, List.mem_append, not_or] at hnodup
  rw [hsplit] at heq
  obtain ⟨hbefore, -, hafter⟩ :=
    (List.append_cons_inj_of_notMem hnodup.1.1 hnodup.1.2).mp heq.symm
  exact ⟨hbefore.symm, hafter.symm⟩

theorem byte_of_split {text : List (List Byte)} {p : Nat × Nat} {c : Byte} {a z : List Spot}
    (hsplit : spots 0 text = a ++ (p, c) :: z) :
    (text[p.1]?.bind fun l => l[p.2]?) = some c := by
  have hmem : (p, c) ∈ spots 0 text := by rw [hsplit]; simp
  obtain ⟨⟨line, y⟩, hline, hc⟩ := List.mem_flatMap.mp hmem
  obtain ⟨⟨c', x⟩, hbyte, heq⟩ := List.mem_map.mp hc
  simp only [spotIn, Prod.mk.injEq] at heq
  obtain ⟨rfl, rfl⟩ := heq
  rw [List.mk_mem_zipIdx_iff_getElem?.mp hline]
  exact List.mk_mem_zipIdx_iff_getElem?.mp hbyte

theorem bracketAt_of_mem : ∀ k ∈ bracketTable, bracketAt k.1 = some (k.1, k.2, true) ∧
    bracketAt k.2 = some (k.2, k.1, false) ∧ k.1 < 0x80 ∧ k.2 < 0x80 ∧ k.1 ≠ k.2 := by
  have hall : (bracketTable.all fun k => decide (bracketAt k.1 = some (k.1, k.2, true) ∧
      bracketAt k.2 = some (k.2, k.1, false) ∧ k.1 < 0x80 ∧ k.2 < 0x80 ∧ k.1 ≠ k.2)) = true := by
    decide
  simpa only [List.all_eq_true, decide_eq_true_eq] using hall

theorem mem_of_bracketAt {c : Byte} {forward : Bool}
    (h : bracketAt c = some (own, other, forward)) :
    c = own ∧ if forward then (own, other) ∈ bracketTable else (other, own) ∈ bracketTable := by
  obtain ⟨⟨opening, closing⟩, hmem, hsome⟩ := List.exists_of_findSome?_eq_some h
  dsimp only at hsome
  split at hsome
  case isTrue hopening =>
      simp only [Option.some.injEq, Prod.mk.injEq] at hsome
      obtain ⟨rfl, rfl, rfl⟩ := hsome
      exact ⟨hopening, hmem⟩
  case isFalse =>
      split at hsome
      case isTrue hclosing =>
          simp only [Option.some.injEq, Prod.mk.injEq] at hsome
          obtain ⟨rfl, rfl, rfl⟩ := hsome
          exact ⟨hclosing, hmem⟩
      case isFalse => exact absurd hsome nofun

/-- The scan of the line of the cursor counts what is in it behind the cursor, or before
it. -/
theorem scanBrackets_first {c : Byte} {forward : Bool} (hc : (line)[k]? = some c)
    (hbracket : bracketAt c = some (own, other, forward)) (hline : Spells e cs line) :
    scanBrackets own other forward e line line.length k 0 =
      position (tally (weightIn own other) 1
        (if forward then line.zipIdx.drop (k + 1) else (line.zipIdx.take k).reverse)) := by
  obtain ⟨rfl, hmem⟩ := mem_of_bracketAt hbracket
  have hlow : c < 0x80 ∧ other < 0x80 := by
    cases forward with
    | true =>
        obtain ⟨-, -, hown, hother, -⟩ := bracketAt_of_mem _ hmem
        exact ⟨hown, hother⟩
    | false =>
        obtain ⟨-, -, hother, hown, -⟩ := bracketAt_of_mem _ hmem
        exact ⟨hown, hother⟩
  obtain ⟨hown, hother⟩ := hlow
  obtain ⟨hk, hget⟩ := List.getElem?_eq_some_iff.mp hc
  have hbyte : byteAt line k = c := by
    rw [byteAt, Int.toNat_natCast, List.getD_eq_getElem _ _ hk, hget]
  obtain ⟨turns, hturns⟩ : ∃ turns, line.length = turns + 1 := ⟨line.length - 1, by omega⟩
  have hweight : (0 : Int) + weight c other c = 1 := by rw [weight, if_pos rfl]; rfl
  rw [hturns, scanBrackets, if_pos ⟨by omega, by omega⟩, hbyte, hweight]
  dsimp only
  rw [if_neg Int.one_ne_zero]
  cases forward with
  | true =>
      have hsplit : line = line.take k ++ c :: line.drop (k + 1) := by
        rw [← hget, ← List.drop_eq_getElem_cons, List.take_append_drop]
      have hnext : nextPos line k e = ((k + 1 : Nat) : Int) := by
        rw [nextPos, hbyte, charLen, utf8len, if_pos hown, ite_self]
        rfl
      rw [hsplit] at hline
      obtain ⟨front, rest, -, -, hchars, hrest⟩ := hline.split_low hown
      have hscan := scanForward_tally hown hother hchars Int.one_ne_zero
        (show rest.flatten.length ≤ turns by rw [hrest, List.length_drop]; omega)
        (line.take k ++ [c])
      have hlength : (line.take k ++ [c]).length = k + 1 := by
        rw [List.length_append, List.length_take_of_le hk.le, List.length_singleton]
      have hzip : line.zipIdx.drop (k + 1) = (line.drop (k + 1)).zipIdx (k + 1) := by
        conv_lhs => rw [hsplit, List.append_cons, List.zipIdx_append]
        rw [List.drop_left' (by rw [List.length_zipIdx, hlength]), hlength, Nat.zero_add]
      rw [hlength, hrest, List.append_assoc, List.singleton_append, ← hsplit] at hscan
      rw [if_pos rfl, if_pos rfl, hnext, hscan, hzip]
  | false =>
      obtain ⟨j, hj, hprev, htally⟩ := tally_prevPos e hown hother hk Int.one_ne_zero
      rw [if_neg Bool.false_ne_true, if_neg Bool.false_ne_true, hprev, htally]
      exact scanBackward_tally hown hother (by omega) Int.one_ne_zero (by omega)

/-- `find_matching_bracket` counts what is behind a bracket, or before it. -/
theorem findMatchingBracket_eq {p : Nat × Nat} {c : Byte} {forward : Bool} (h : CursorAt b p c)
    (hbracket : bracketAt c = some (own, other, forward))
    (hencoded : Encoded b.encoding (lines b)) :
    findMatchingBracket b 0 (b.numLines - 1) =
      place (tally (spotWeight own other) 1
        (if forward then spotsAfter (lines b) p else (spotsBefore (lines b) p).reverse)) := by
  obtain ⟨line, hline, hbyte⟩ := Option.bind_eq_some_iff.mp h.byte
  obtain ⟨hy, rfl⟩ := List.getElem?_eq_some_iff.mp hline
  obtain ⟨hx, hget⟩ := List.getElem?_eq_some_iff.mp hbyte
  have hlineOf : lineOf b b.curLineDesc = (lines b)[p.1] := by
    rw [h.curLineDesc]
    exact List.getD_eq_getElem _ _ hy
  have hgetD : (lines b).getD p.1 [] = (lines b)[p.1] := List.getD_eq_getElem _ _ hy
  have hbyteAt : byteAt (lines b)[p.1] p.2 = c := by
    rw [byteAt, Int.toNat_natCast, List.getD_eq_getElem _ _ hx, hget]
  have htext : lines b = (lines b).take p.1 ++ (lines b)[p.1] :: (lines b).drop (p.1 + 1) := by
    rw [← List.drop_eq_getElem_cons, List.take_append_drop]
  have hlength : ((lines b).take p.1).length = p.1 := List.length_take_of_le hy.le
  obtain ⟨cs, hcs⟩ := hencoded _ (List.getElem_mem hy)
  have hscan := scanBrackets_first hbyte hbracket hcs
  have hnum : (lines b).length = b.lineDescList.length := by rw [lines, List.length_map]
  obtain ⟨rfl, hmem⟩ := mem_of_bracketAt hbracket
  rw [findMatchingBracket, hlineOf, h.curPos, h.curLine]
  rw [if_neg (by omega), hbyteAt, hbracket]
  cases forward with
  | true =>
      obtain ⟨-, -, hown, hother, -⟩ := bracketAt_of_mem _ hmem
      have hrest : Encoded b.encoding ((lines b).drop (p.1 + 1)) :=
        fun line hline => hencoded line (List.mem_of_mem_drop hline)
      have hlines := bracketLines_forward hown hother h.numLines htext hrest hscan Int.one_ne_zero
        (show _ < b.lineDescList.length by rw [List.length_drop]; omega)
      rw [hlength] at hlines
      refine hlines.trans ?_
      rw [spotsAfter, hgetD, if_pos rfl, if_pos rfl]
  | false =>
      obtain ⟨-, -, hother, hown, -⟩ := bracketAt_of_mem _ hmem
      have hlines := bracketLines_backward hown hother h.numLines htext hscan Int.one_ne_zero
        (show _ < b.lineDescList.length by rw [hlength]; omega)
      rw [hlength] at hlines
      refine hlines.trans ?_
      rw [spotsBefore, hgetD, if_neg Bool.false_ne_true, if_neg Bool.false_ne_true,
        List.reverse_append, List.map_reverse]

theorem neg_one_le_spotWeight (own other : Byte) (s : Spot) : -1 ≤ spotWeight own other s := by
  unfold spotWeight weight
  split
  · decide
  · split <;> decide

theorem spotWeight_eq_neg_one (hne : own ≠ other) (q : Nat × Nat) :
    spotWeight own other (q, other) = -1 := by
  rw [spotWeight, weight, if_neg hne.symm, if_pos rfl]

theorem eq_of_spotWeight {s : Spot} (h : spotWeight own other s = -1) : s.2 = other := by
  rw [spotWeight, weight] at h
  split at h
  case isTrue => exact absurd h (by decide)
  case isFalse =>
      split at h
      case isTrue heq => exact heq
      case isFalse => exact absurd h (by decide)

theorem spotWeight_swap (hne : own ≠ other) :
    spotWeight other own = fun s => -spotWeight own other s := by
  funext s
  by_cases hown : s.2 = own
  · rw [spotWeight, spotWeight, weight, weight, hown, if_neg hne, if_pos rfl, if_pos rfl]
  · by_cases hother : s.2 = other
    · rw [spotWeight, spotWeight, weight, weight, hother, if_pos rfl, if_neg hne.symm, if_pos rfl]
      rfl
    · rw [spotWeight, spotWeight, weight, weight, if_neg hother, if_neg hown, if_neg hown,
        if_neg hother]
      rfl

theorem matches_forward {p q : Nat × Nat} {c : Byte}
    (hbyte : ((lines b)[p.1]?.bind fun l => l[p.2]?) = some c)
    (hbracket : bracketAt c = some (own, other, true)) :
    Matches (lines b) p q ↔ ∃ m z, spotsAfter (lines b) p = m ++ (q, other) :: z ∧
      Balanced (spotWeight own other) m := by
  obtain ⟨rfl, hmem⟩ := mem_of_bracketAt hbracket
  constructor
  · rintro ⟨opening, closing, hkind, ⟨a, m, z, hsplit, hbalanced⟩ | ⟨a, m, z, hsplit, -⟩⟩
    · have hopening := byte_of_split hsplit
      obtain rfl : c = opening := by simpa using hbyte.symm.trans hopening
      have hsame := hbracket.symm.trans (bracketAt_of_mem _ hkind).1
      simp only [Option.some.injEq, Prod.mk.injEq] at hsame
      obtain ⟨-, rfl, -⟩ := hsame
      exact ⟨m, z, (split_unique hbyte hsplit).2.symm, hbalanced⟩
    · rw [← List.cons_append, ← List.append_assoc] at hsplit
      have hclosing := byte_of_split hsplit
      obtain rfl : c = closing := by simpa using hbyte.symm.trans hclosing
      have hsame := hbracket.symm.trans (bracketAt_of_mem _ hkind).2.1
      simp at hsame
  · rintro ⟨m, z, hafter, hbalanced⟩
    exact ⟨c, other, hmem, .inl ⟨_, m, z, by rw [spots_eq hbyte, hafter], hbalanced⟩⟩

theorem matches_backward {p q : Nat × Nat} {c : Byte}
    (hbyte : ((lines b)[p.1]?.bind fun l => l[p.2]?) = some c)
    (hbracket : bracketAt c = some (own, other, false)) :
    Matches (lines b) p q ↔ ∃ m z, (spotsBefore (lines b) p).reverse = m ++ (q, other) :: z ∧
      Balanced (spotWeight own other) m := by
  obtain ⟨rfl, hmem⟩ := mem_of_bracketAt hbracket
  obtain ⟨-, -, -, -, hne⟩ := bracketAt_of_mem _ hmem
  constructor
  · rintro ⟨opening, closing, hkind, ⟨a, m, z, hsplit, -⟩ | ⟨a, m, z, hsplit, hbalanced⟩⟩
    · have hopening := byte_of_split hsplit
      obtain rfl : c = opening := by simpa using hbyte.symm.trans hopening
      have hsame := hbracket.symm.trans (bracketAt_of_mem _ hkind).1
      simp at hsame
    · rw [← List.cons_append, ← List.append_assoc] at hsplit
      have hclosing := byte_of_split hsplit
      obtain rfl : c = closing := by simpa using hbyte.symm.trans hclosing
      have hsame := hbracket.symm.trans (bracketAt_of_mem _ hkind).2.1
      simp only [Option.some.injEq, Prod.mk.injEq] at hsame
      obtain ⟨-, rfl, -⟩ := hsame
      refine ⟨m.reverse, a.reverse, ?_, ?_⟩
      · rw [← (split_unique hbyte hsplit).1]
        simp
      · rw [spotWeight_swap hne]
        exact hbalanced.reverse
  · rintro ⟨m, z, hbefore, hbalanced⟩
    have hbefore := congrArg List.reverse hbefore
    rw [List.reverse_reverse, List.reverse_append, List.reverse_cons] at hbefore
    refine ⟨other, c, hmem, .inr ⟨z.reverse, m.reverse, spotsAfter (lines b) p, ?_, ?_⟩⟩
    · rw [spots_eq hbyte, hbefore]
      simp
    · rw [spotWeight_swap hne.symm]
      exact hbalanced.reverse

theorem place_eq_ok {r : Tally Spot} {q : Nat × Nat} :
    place r = .ok q.1 q.2 ↔ ∃ s, r = .ends s ∧ s.1 = q := by
  cases r with
  | rest n => simp [place]
  | ends s =>
      simp only [place, Match.ok.injEq, Tally.ends.injEq]
      constructor
      · rintro ⟨hy, hx⟩
        exact ⟨s, rfl, Prod.ext (by exact_mod_cast hy) (by exact_mod_cast hx)⟩
      · rintro ⟨s, rfl, rfl⟩
        exact ⟨rfl, rfl⟩

theorem findMatchingBracket_iff {p : Nat × Nat} {c : Byte} (h : CursorAt b p c)
    (hbracket : bracketAt c ≠ none) (hencoded : Encoded b.encoding (lines b)) (q : Nat × Nat) :
    findMatchingBracket b 0 (b.numLines - 1) = .ok q.1 q.2 ↔ Matches (lines b) p q := by
  obtain ⟨⟨own, other, forward⟩, hsome⟩ := Option.ne_none_iff_exists'.mp hbracket
  have hends : ∀ l, place (tally (spotWeight own other) 1 l) = .ok q.1 q.2 ↔
      ∃ m z, l = m ++ (q, other) :: z ∧ Balanced (spotWeight own other) m := by
    intro l
    have hne : own ≠ other := by
      obtain ⟨-, hmem⟩ := mem_of_bracketAt hsome
      cases forward with
      | true => exact (bracketAt_of_mem _ hmem).2.2.2.2
      | false => exact (bracketAt_of_mem _ hmem).2.2.2.2.symm
    rw [place_eq_ok]
    constructor
    · rintro ⟨⟨_, c'⟩, htally, rfl⟩
      obtain ⟨m, z, hl, hbalanced, hweight⟩ :=
        (tally_one_iff (neg_one_le_spotWeight own other)).mp htally
      obtain rfl : c' = other := eq_of_spotWeight hweight
      exact ⟨m, z, hl, hbalanced⟩
    · rintro ⟨m, z, hl, hbalanced⟩
      exact ⟨(q, other), (tally_one_iff (neg_one_le_spotWeight own other)).mpr
        ⟨m, z, hl, hbalanced, spotWeight_eq_neg_one hne q⟩, rfl⟩
  rw [findMatchingBracket_eq h hsome hencoded, hends]
  cases forward with
  | true => exact (matches_forward h.byte hsome).symm
  | false => exact (matches_backward h.byte hsome).symm

theorem Matches.swap {text : List (List Byte)} {p q : Nat × Nat} (h : Matches text p q) :
    Matches text q p := by
  obtain ⟨opening, closing, hmem, hencloses⟩ := h
  exact ⟨opening, closing, hmem, hencloses.symm⟩

theorem Matches.bracket {text : List (List Byte)} {p q : Nat × Nat} (h : Matches text p q) :
    ∃ c, (text[q.1]?.bind fun l => l[q.2]?) = some c ∧ bracketAt c ≠ none := by
  obtain ⟨opening, closing, hmem, ⟨a, m, z, hsplit, -⟩ | ⟨a, m, z, hsplit, -⟩⟩ := h
  · rw [← List.cons_append, ← List.append_assoc] at hsplit
    exact ⟨closing, byte_of_split hsplit, by simp [(bracketAt_of_mem _ hmem).2.1]⟩
  · exact ⟨opening, byte_of_split hsplit, by simp [(bracketAt_of_mem _ hmem).1]⟩

/-- From a bracket of a text the place of the bracket that belongs to it is reported if there is
one, and from there the place of the first one. -/
theorem findMatchingBracket_involution {p : Nat × Nat} {c : Byte} (h : CursorAt b p c)
    (hbracket : bracketAt c ≠ none) (hencoded : Encoded b.encoding (lines b)) :
    (∀ y x, findMatchingBracket b 0 (b.numLines - 1) = .ok y x →
      ∃ q : Nat × Nat, q.1 = y ∧ q.2 = x ∧ Matches (lines b) p q ∧
        ∀ b' c', CursorAt b' q c' → lines b' = lines b → b'.encoding = b.encoding →
          findMatchingBracket b' 0 (b'.numLines - 1) = .ok p.1 p.2) ∧
      (findMatchingBracket b 0 (b.numLines - 1) = .cantFindBracket ↔
        ¬ ∃ q, Matches (lines b) p q) := by
  have hiff := findMatchingBracket_iff h hbracket hencoded
  obtain ⟨⟨own, other, forward⟩, hsome⟩ := Option.ne_none_iff_exists'.mp hbracket
  have hplace := findMatchingBracket_eq h hsome hencoded
  generalize tally (spotWeight own other) 1 _ = r at hplace
  constructor
  · intro y x hok
    cases r with
    | rest n => exact absurd (hplace.symm.trans hok) nofun
    | ends s =>
        obtain ⟨rfl, rfl⟩ : (s.1.1 : Int) = y ∧ (s.1.2 : Int) = x := by
          simpa [place] using hplace.symm.trans hok
        have hmatches := (hiff s.1).mp hok
        refine ⟨s.1, rfl, rfl, hmatches, fun b' c' h' hlines hencoding => ?_⟩
        obtain ⟨c'', hbyte, hbracket'⟩ := hmatches.bracket
        have hbyte' := h'.byte
        rw [hlines, hbyte, Option.some.injEq] at hbyte'
        subst hbyte'
        refine (findMatchingBracket_iff h' hbracket' ?_ p).mpr ?_
        · rwa [hlines, hencoding]
        · rw [hlines]
          exact hmatches.swap
  · constructor
    · rintro hnone ⟨q, hq⟩
      exact absurd (hnone.symm.trans ((hiff q).mpr hq)) nofun
    · intro hno
      cases r with
      | rest n => exact hplace
      | ends s => exact absurd ⟨s.1, (hiff s.1).mp hplace⟩ hno

/-- The brackets of `(<é)>` with the cursor on the first one: the other kind does not count. -/
theorem findMatchingBracket_involution_document :
    findMatchingBracket (document [40, 60, 0xC3, 0xA9, 41, 62] .utf8 0 0) 0 0 = .ok 0 4 ∧
      ∃ q : Nat × Nat, q.1 = (0 : Int) ∧ q.2 = (4 : Int) ∧
        Matches (lines (document [40, 60, 0xC3, 0xA9, 41, 62] .utf8 0 0)) (0, 0) q := by
  have hlines : lines (document [40, 60, 0xC3, 0xA9, 41, 62] .utf8 0 0) =
      [[40, 60, 0xC3, 0xA9, 41, 62]] := by decide +kernel
  have hcursor : CursorAt (document [40, 60, 0xC3, 0xA9, 41, 62] .utf8 0 0) (0, 0) 40 :=
    ⟨rfl, rfl, rfl, rfl, by rw [hlines]; rfl⟩
  have hencoded : Encoded .utf8 (lines (document [40, 60, 0xC3, 0xA9, 41, 62] .utf8 0 0)) := by
    rw [hlines]
    refine List.forall_mem_singleton.mpr ⟨[[40], [60], [0xC3, 0xA9], [41], [62]], by decide, rfl⟩
  have hfound : findMatchingBracket (document [40, 60, 0xC3, 0xA9, 41, 62] .utf8 0 0) 0 0 =
      .ok 0 4 := by decide +kernel
  obtain ⟨q, hy, hx, hmatches, -⟩ :=
    (findMatchingBracket_involution hcursor (by decide) hencoded).1 0 4 hfound
  exact ⟨hfound, q, hy, hx, hmatches⟩

end NiceEditor.BracketMatching
