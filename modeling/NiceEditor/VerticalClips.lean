import NiceEditor.Clips
import NiceEditor.ColumnPositions

namespace NiceEditor.VerticalClips

open NiceEditor.Cells
open NiceEditor.Pools
open NiceEditor.BufferData
open NiceEditor.UndoSteps
open NiceEditor.EditStream
open NiceEditor.Navigation
open NiceEditor.Clips
open NiceEditor.Characters
open NiceEditor.Columns
open NiceEditor.CharSteps
open NiceEditor.ColumnPositions

/-- `calc_width`; behind the end of the line stand spaces. -/
def calcWidthBehind (d : Display) (line : List Byte) (n : Int) : Int :=
  let s := scanLine d line (min n line.length)
  s.col + max 0 (n - s.pos)

/-- The mark and the cursor are at one position, on any lines, or both behind the end of one
line. -/
def emptyRectangle (b : Buffer) : Bool :=
  let lineLen : Int := (lineOf b b.curLineDesc).length
  b.curPos == b.blockStartPos ||
    (b.curLine == b.blockStartLine && lineLen ≤ b.curPos && lineLen ≤ b.blockStartPos)

/-- `start_x` and `end_x` -/
def rectangleColumns (t : Terminal) (b : Buffer) : Int × Int :=
  let startX := calcWidthBehind (display t b) (lineOf b (nthLineDesc b b.blockStartLine))
    b.blockStartPos
  let endX := b.winX + b.curX
  if endX < startX then (endX, startX) else (startX, endX)

/-- Line `i` is behind the line of the mark, seen from the cursor. -/
def pastMark (b : Buffer) (up : Bool) (i : Int) : Bool :=
  if up then i < b.blockStartLine else b.blockStartLine < i

/-- The loop from the line of the cursor up or down to the line of the mark, from line `i` on:
what a turn does to the `len` bytes of the line from `startPos` on is a parameter. -/
def rectangleLoop (t : Terminal) (columns : Int × Int) (up : Bool)
    (turn : Option Nat → Int → List Byte → Int → Int → BlockState → BlockState) :
    Nat → Option Nat → Int → BlockState → BlockState
  | 0, _, _, s => s
  | turns + 1, ld, i, s =>
      if pastMark s.b up i then s
      else
        let line := lineOf s.b ld
        let startPos := calcPos (display t s.b) line columns.1
        let len := calcPos (display t s.b) line columns.2 - startPos
        let step := if up then -1 else 1
        rectangleLoop t columns up turn turns (nodeAway ld step) (i + step)
          (turn ld i line startPos len s)

/-- The first pass: the bytes of the line are counted, and one for the line break. -/
def measureTurn (_ld : Option Nat) (i : Int) (line : List Byte) (startPos len : Int)
    (s : BlockState) : BlockState :=
  count (fun _ => 1) i line startPos len s

/-- The part of the line is deleted. -/
def cutPart (cut : Bool) (ld : Option Nat) (i startPos len : Int) (s : BlockState) : BlockState :=
  match cut, ld with
  | true, some ld => { s with b := (deleteStream s.b ld i startPos.toNat len.toNat).2 }
  | _, _ => s

/-- The second pass, upwards -/
def storeTurnUp (cut : Bool) (ld : Option Nat) (i : Int) (line : List Byte) (startPos len : Int)
    (s : BlockState) : BlockState :=
  let s := { s with p := s.p - 1 }.store [0]
  let s := { s with p := s.p - len }.store ((line.drop startPos.toNat).take len.toNat)
  cutPart cut ld i startPos len s

/-- The second pass, downwards -/
def storeTurnDown (cut : Bool) (ld : Option Nat) (i : Int) (line : List Byte) (startPos len : Int)
    (s : BlockState) : BlockState :=
  let s := s.store ((line.drop startPos.toNat).take len.toNat)
  let s := { s with p := s.p + len }.store [0]
  cutPart cut ld i startPos len { s with p := s.p + 1 }

/-- A pass over the lines of the rectangle. -/
def rectanglePass (t : Terminal) (columns : Int × Int) (up : Bool)
    (turn : Option Nat → Int → List Byte → Int → Int → BlockState → BlockState)
    (s : BlockState) : BlockState :=
  rectangleLoop t columns up turn (blockLines s.b) s.b.curLineDesc s.b.curLine s

/-- The second pass, from where the first one has ended. -/
def storePass (t : Terminal) (columns : Int × Int) (up cut : Bool) (s : BlockState)
    (stream : Nat → Byte) : BlockState :=
  if up then rectanglePass t columns up (storeTurnUp cut) { s with p := s.len, stream := stream }
  else rectanglePass t columns up (storeTurnDown cut) { s with p := 0, stream := stream }

/-- For a cut, the position of the cursor is made invalid and an undo chain is started. -/
def startCut (cut : Bool) (b : Buffer) : Buffer :=
  if cut then startUndoChain { b with curPos := -1 } else b

/-- `copy_vert_to_clip` -/
def copyVertToClip (t : Terminal) (granted : Bool) (b : Buffer) (clips : List ClipDesc) (n : Int)
    (cut : Bool) : ClipStatus × Buffer × List ClipDesc :=
  if ¬ b.marking then (.markBlockFirst, b, clips)
  else if b.numLines ≤ b.blockStartLine then (.markOutOfBuffer, b, clips)
  else if emptyRectangle b then
    match reallocClip granted clips n 0 with
    | (none, clips) => (.outOfMemory, b, clips)
    | (some cs, clips) => (.ok, b, setClip clips n (setStreamEncoding cs .ascii))
  else
    let columns := rectangleColumns t b
    let up : Bool := b.blockStartLine < b.curLine
    let s := rectanglePass t columns up measureTurn (BlockState.start (startCut cut b))
    match reallocClip granted clips n s.len.toNat with
    -- The position of the cursor and the undo chain are left as they are.
    | (none, clips) => (.outOfMemory, s.b, clips)
    | (some cs, clips) =>
        let s' := storePass t columns up cut s (cs.stream.getD fun _ => 0)
        let cs := { cs with stream := cs.stream.map fun _ => s'.stream, len := s.len.toNat }
        let clips := setClip clips n (setStreamEncoding cs s'.b.encoding)
        if cut then
          let place := min s'.b.blockStartPos b.curPos
          (.ok, endUndoChain (gotoLinePos t s'.b (min s'.b.blockStartLine s'.b.curLine) place),
            clips)
        else (.ok, s'.b, clips)

variable {t : Terminal} {b : Buffer} {d : Display} {cs : List (List Byte)} {line : List Byte}
variable {c₁ c₂ : Int} {columns : Int × Int} {up : Bool}

theorem boundary_mono (cs : List (List Byte)) {k n : Nat} (h : k ≤ n) :
    boundary cs k ≤ boundary cs n := by
  have htake : (cs.take k).flatten.length ≤ (cs.take n).flatten.length := by
    rw [← List.take_append_drop k (cs.take n), List.take_take, min_eq_left h, List.flatten_append,
      List.length_append]
    exact Nat.le_add_right _ _
  exact Int.ofNat_le.mpr htake

theorem calcPos_mono (h : Spells d.encoding cs line) (hle : c₁ ≤ c₂) :
    calcPos d line c₁ ≤ calcPos d line c₂ := by
  obtain ⟨m, hm, hrun₁⟩ := posLoop_line h c₁
  obtain ⟨n, hn, hrun₂⟩ := posLoop_line h c₂
  rw [calcPos, calcPos, hrun₁, hrun₂]
  refine boundary_mono cs ?_
  by_contra hlt
  have hnm : n < m := by omega
  have hinside : n < cs.length := hnm.trans_le hm.inside
  have hfits := hm.fits n hinside hnm
  have hfull := hn.full hinside
  omega

theorem rectangleColumns_le (t : Terminal) (b : Buffer) :
    (rectangleColumns t b).1 ≤ (rectangleColumns t b).2 := by
  unfold rectangleColumns
  dsimp only
  split
  · case _ hlt => exact hlt.le
  · case _ hge => exact not_lt.mp hge

theorem encoded_lineOf (hencoded : Encoded b.encoding (lines b)) (ld : Option Nat) :
    ∃ cs, Spells b.encoding cs (lineOf b ld) := by
  have hnil : ∃ cs, Spells b.encoding cs [] := ⟨[], nofun, rfl⟩
  cases ld with
  | none => exact hnil
  | some i =>
      obtain hlt | hge := lt_or_ge i (lines b).length
      · rw [lineOf, List.getD_eq_getElem _ _ hlt]
        exact hencoded _ (List.getElem_mem hlt)
      · rw [lineOf, List.getD_eq_default _ _ hge]
        exact hnil

theorem measureTurn_grows (hencoded : Encoded b.encoding (lines b))
    (hcolumns : columns.1 ≤ columns.2) (ld : Option Nat) (i : Int) (s : BlockState)
    (hs : s.b = b) :
    ∃ len, s.len < len ∧
      measureTurn ld i (lineOf s.b ld) (calcPos (display t s.b) (lineOf s.b ld) columns.1)
        (calcPos (display t s.b) (lineOf s.b ld) columns.2 -
          calcPos (display t s.b) (lineOf s.b ld) columns.1) s = { s with len := len } := by
  obtain ⟨cs, hspells⟩ := encoded_lineOf hencoded ld
  have hle := calcPos_mono (show Spells (display t b).encoding cs (lineOf b ld) from hspells)
    hcolumns
  refine ⟨_, ?_, rfl⟩
  rw [hs]
  dsimp only
  omega

theorem rectangleLoop_measure (hencoded : Encoded b.encoding (lines b))
    (hcolumns : columns.1 ≤ columns.2) (turns : Nat) (ld : Option Nat) (i : Int) (s : BlockState)
    (hs : s.b = b) :
    ∃ len, s.len ≤ len ∧
      rectangleLoop t columns up measureTurn turns ld i s = { s with len := len } := by
  induction turns generalizing ld i s with
  | zero => exact ⟨s.len, le_rfl, rfl⟩
  | succ turns ih =>
      cases hpast : pastMark s.b up i with
      | true => exact ⟨s.len, le_rfl, by rw [rectangleLoop, if_pos hpast]⟩
      | false =>
          obtain ⟨len, hlt, hturn⟩ := @measureTurn_grows t b columns hencoded hcolumns ld i s hs
          obtain ⟨len', hle, hrun⟩ := ih (nodeAway ld (if up then -1 else 1))
            (i + if up then -1 else 1) { s with len := len } hs
          refine ⟨len', hlt.le.trans hle, ?_⟩
          rw [rectangleLoop, if_neg (by rw [hpast]; decide)]
          dsimp only
          rw [hturn, hrun]

theorem rectanglePass_measure (hencoded : Encoded b.encoding (lines b))
    (hcolumns : columns.1 ≤ columns.2) :
    ∃ len : Int, 0 < len ∧
      rectanglePass t columns (b.blockStartLine < b.curLine) measureTurn (BlockState.start b) =
        { BlockState.start b with len := len } := by
  have hinside : ¬ pastMark (BlockState.start b).b (b.blockStartLine < b.curLine)
      (BlockState.start b).b.curLine = true := by
    unfold pastMark
    split
    · case _ hup =>
      exact mt of_decide_eq_true (not_lt.mpr (of_decide_eq_true hup).le)
    · case _ hup =>
      exact hup
  obtain ⟨len, hlt, hturn⟩ := @measureTurn_grows t b columns hencoded hcolumns b.curLineDesc
    b.curLine (BlockState.start b) rfl
  obtain ⟨len', hle, hrun⟩ := @rectangleLoop_measure t b columns
    (decide (b.blockStartLine < b.curLine)) hencoded hcolumns
    (b.curLine - b.blockStartLine).natAbs
    (nodeAway b.curLineDesc (if decide (b.blockStartLine < b.curLine) = true then -1 else 1))
    (b.curLine + if decide (b.blockStartLine < b.curLine) = true then -1 else 1)
    { BlockState.start b with len := len } rfl
  refine ⟨len', hlt.trans_le hle, ?_⟩
  rw [rectanglePass, blockLines, rectangleLoop, if_neg hinside, ← hrun, ← hturn]
  rfl

end NiceEditor.VerticalClips
