import NiceEditor.EditStream
import NiceEditor.Encoding

namespace NiceEditor.Navigation

open NiceEditor.Pools
open NiceEditor.BufferData
open NiceEditor.Encoding

/-- The terminal: its size, and the widths of the characters. -/
structure Terminal where
  neLines : Int
  neColumns : Int
  wcwidth : Int → Int
  lines_pos : 0 < neLines
  columns_pos : 0 < neColumns

theorem twentyFour_pos : (0 : Int) < 24 := by decide

theorem twentyFive_pos : (0 : Int) < 25 := by decide

theorem eighty_pos : (0 : Int) < 80 := by decide

def tab : Byte := 0x09

/-- `output_width` -/
def outputWidth (t : Terminal) (c : Int) : Int :=
  if 0 < t.wcwidth c then t.wcwidth c else 1

/-- The bits that `utf8char` takes from the bytes of a sequence after the first. -/
def continuation (s : List Byte) (i : Nat) : Nat := (s.getD i 0 &&& 0x3F).toNat

/-- `utf8char` -/
def utf8char (s : List Byte) : Int :=
  let c := s.getD 0 0
  let tail := fun n => (List.range n).foldl (fun x i => x * 64 + continuation s (i + 1))
  if c < 0x80 then c.toNat
  else if c < 0xC0 then -1
  else if c < 0xE0 then tail 1 (c &&& 0x1F).toNat
  else if c < 0xF0 then tail 2 (c &&& 0xF).toNat
  else if c < 0xF8 then tail 3 (c &&& 0x7).toNat
  else if c < 0xFC then tail 4 (c &&& 0x3).toNat
  else tail 5 (c &&& 0x1).toNat

/-- The byte at a position of a line. -/
def byteAt (line : List Byte) (pos : Int) : Byte := line.getD pos.toNat 0

/-- The bytes of a character, given the first one. -/
def charLen (encoding : EncodingType) (c : Byte) : Int :=
  if encoding = .utf8 then utf8len c else 1

/-- `next_pos`, in a line that is not NULL. -/
def nextPos (line : List Byte) (pos : Int) (encoding : EncodingType) : Int :=
  pos + charLen encoding (byteAt line pos)

/-- `get_char_width` -/
def getCharWidth (t : Terminal) (s : List Byte) (encoding : EncodingType) : Int :=
  let c := s.getD 0 0
  if c < 128 then 1
  else if encoding = .utf8 then outputWidth t (utf8char s)
  else outputWidth t c.toNat

/-- Where a loop over the characters of a line stands: at which position, in
which column and after how many characters. -/
structure Scan where
  pos : Int
  col : Int
  char : Int
deriving DecidableEq, Repr

/-- How the text of a line is shown. -/
structure Display where
  terminal : Terminal
  tabSize : Int
  encoding : EncodingType

def display (t : Terminal) (b : Buffer) : Display := ⟨t, b.opt.tabSize, b.encoding⟩

/-- A loop over the characters of a line passes one of them. -/
def scanChar (d : Display) (line : List Byte) (s : Scan) : Scan where
  pos := nextPos line s.pos d.encoding
  col := s.col +
    if byteAt line s.pos ≠ tab then getCharWidth d.terminal (line.drop s.pos.toNat) d.encoding
    else d.tabSize - s.col.tmod d.tabSize
  char := s.char + 1

/-- The characters of a line before position `n`.  A character has a byte at
least, so `n` turns are enough. -/
def scanTo (d : Display) (line : List Byte) (n : Int) : Nat → Scan → Scan
  | 0, s => s
  | turns + 1, s => if s.pos < n then scanTo d line n turns (scanChar d line s) else s

def scanLine (d : Display) (line : List Byte) (n : Int) : Scan :=
  scanTo d line n n.toNat ⟨0, 0, 0⟩

/-- `calc_width`, up to the end of the line -/
def calcWidth (d : Display) (line : List Byte) : Int := (scanLine d line line.length).col

/-- `calc_char_len`, up to the end of the line -/
def calcCharLen (d : Display) (line : List Byte) : Int := (scanLine d line line.length).char

/-- The line of a line descriptor. -/
def lineOf (b : Buffer) (ld : Option Nat) : List Byte :=
  match ld with
  | none => []
  | some i => (lines b).getD i []

/-- `move_to_sol` -/
def moveToSol (b : Buffer) : Buffer :=
  { b with xWanted := false, yWanted := false, winX := 0, curX := 0, curPos := 0, curChar := 0 }

/-- The loop of `move_to_eol`: the first column from which on the end of the
line is in the window. -/
def eolWindow (d : Display) (line : List Byte) (totalWidth : Int) : Nat → Scan → Option Int
  | 0, _ => none
  | turns + 1, s =>
      if s.pos < line.length then
        let s := scanChar d line s
        if totalWidth - s.col < d.terminal.neColumns - d.tabSize then some s.col
        else eolWindow d line totalWidth turns s
      else none

/-- `move_to_eol` -/
def moveToEol (t : Terminal) (b : Buffer) : Buffer :=
  let line := lineOf b b.curLineDesc
  let b := { b with xWanted := false, yWanted := false }
  if line = [] then moveToSol b
  else
    let d := display t b
    let totalWidth := calcWidth d line
    let atEnd := fun (b : Buffer) =>
      { b with
        curX := totalWidth - b.winX
        curPos := line.length
        curChar := calcCharLen d line }
    if b.winX ≤ totalWidth ∧ totalWidth < b.winX + t.neColumns then atEnd b
    else
      match eolWindow d line totalWidth line.length ⟨0, 0, 0⟩ with
      | some width => atEnd { b with winX := width - width.tmod b.opt.tabSize }
      | none => b

attribute [grind =] scanTo moveToEol

/-- How the loop of `resync_pos` ends, for the column it looks for: a character
ends there, a character that has begun at `s` ends behind it, or the line ends
before it. -/
inductive Landing
  | exact (s : Scan)
  | inside (s : Scan)
  | short (s : Scan)

/-- The loop of `resync_pos` -/
def resyncLoop (d : Display) (line : List Byte) (x : Int) : Nat → Scan → Landing
  | 0, s => .short s
  | turns + 1, s =>
      if s.pos < line.length then
        let next := scanChar d line s
        if next.col = x then .exact next
        else if x < next.col then .inside s
        else resyncLoop d line x turns next
      else .short s

/-- The column that `resync_pos` looks for. -/
def soughtColumn (b : Buffer) : Int := if b.xWanted then b.wantedX else b.winX + b.curX

/-- How the loop of `resync_pos` ends. -/
def landing (t : Terminal) (b : Buffer) (x : Int) : Landing :=
  let line := lineOf b b.curLineDesc
  resyncLoop (display t b) line x line.length ⟨0, 0, 0⟩

/-- What `resync_pos` does after its loop. -/
def land (t : Terminal) (b : Buffer) (x : Int) : Landing → Buffer
  | .exact s =>
      let b := { b with curPos := s.pos, curChar := s.char }
      if b.xWanted then
        let b := { b with xWanted := false }
        if x - b.winX < t.neColumns then { b with curX := x - b.winX }
        else
          -- The window starts behind column `w`, at a multiple of the tab size.
          let w := x - t.neColumns + 1
          let winX := w + (b.opt.tabSize - w.tmod b.opt.tabSize)
          { b with winX := winX, curX := x - winX }
      else b
  | .inside s =>
      let b := { b with curPos := s.pos, curChar := s.char, xWanted := true, wantedX := x }
      if s.col - b.winX < 0 then
        let w := max 0 (s.col - t.neColumns + 1)
        let winX := w - w.tmod b.opt.tabSize
        { b with winX := winX, curX := s.col - winX }
      else if s.col - b.winX < t.neColumns then { b with curX := s.col - b.winX }
      else
        let w := s.col - t.neColumns
        let winX := w + (b.opt.tabSize - w.tmod b.opt.tabSize)
        { b with winX := winX, curX := s.col - winX }
  | .short s =>
      if b.opt.freeForm then
        { b with
          curPos := (lineOf b b.curLineDesc).length + x - s.col
          curChar := s.char + x - s.col
          curX := x - b.winX
          xWanted := false }
      else { moveToEol t { b with wantedX := x } with xWanted := true }

/-- `resync_pos` -/
def resyncPos (t : Terminal) (b : Buffer) : Buffer :=
  let x := soughtColumn b
  if x = 0 then { b with curPos := 0, curChar := 0 } else land t b x (landing t b x)

/-- `goto_pos` -/
def gotoPos (t : Terminal) (b : Buffer) (pos : Int) : Buffer :=
  let line := lineOf b b.curLineDesc
  let s := scanLine (display t b) line (min pos line.length)
  let excess := pos - line.length
  let b := { b with curChar := s.char, xWanted := false }
  let (b, col) :=
    if line.length < pos then
      if b.opt.freeForm then
        ({ b with curChar := b.curChar + excess, curPos := pos }, s.col + excess)
      else
        ({ b with curPos := line.length, xWanted := true, wantedX := s.col + excess }, s.col)
    else ({ b with curPos := s.pos }, s.col)
  if col = b.winX + b.curX then b
  else if b.winX ≤ col ∧ col < b.winX + t.neColumns then { b with curX := col - b.winX }
  else
    let w := max 0 (col - t.neColumns.tdiv 2)
    let winX := w - w.tmod b.opt.tabSize
    { b with winX := winX, curX := col - winX }

/-- The descriptor `i` nodes away from another one. -/
def nodeAway (ld : Option Nat) (i : Int) : Option Nat :=
  ld.map fun k : Nat => ((k : Int) + i).toNat

/-- `nth_line_desc` -/
def nthLineDesc (b : Buffer) (n : Int) : Option Nat :=
  if n < 0 ∨ b.numLines ≤ n then none
  else
    let bestAbsoluteCost := min n (b.numLines - 1 - n)
    let relativeCost := if b.curLine < n then n - b.curLine else b.curLine - n
    if bestAbsoluteCost < relativeCost then
      if n < b.numLines.tdiv 2 then some n.toNat
      else some (b.lineDescList.length - 1 - (b.numLines - 1 - n)).toNat
    else nodeAway b.curLineDesc (n - b.curLine)

/-- `goto_line_pos` -/
def gotoLinePos (t : Terminal) (b : Buffer) (n pos : Int) : Buffer :=
  let b := { b with yWanted := false }
  let settle := fun (b : Buffer) => if pos ≠ -1 then gotoPos t b pos else resyncPos t b
  if b.numLines ≤ n ∨ (n = b.curLine ∧ pos = b.curPos) then b
  else if n = b.curLine ∧ pos = -1 then resyncPos t b
  else if b.winY ≤ n ∧ n < b.winY + t.neLines - 1 then
    let curY := n - b.winY
    settle { b with
      curY := curY
      curLine := n
      curLineDesc := nodeAway b.topLineDesc (max 0 curY) }
  else
    let limit := b.numLines - (t.neLines - 1)
    let winY := max 0 (min (n - (t.neLines - 1).tdiv 2) limit)
    let curY := n - winY
    let ld := nthLineDesc b n
    settle { b with
      winY := winY
      curY := curY
      curLine := n
      curLineDesc := ld
      topLineDesc := nodeAway ld (-(max 0 curY)) }

end NiceEditor.Navigation
