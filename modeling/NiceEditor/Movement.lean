import NiceEditor.Clips
import NiceEditor.Cursor
import NiceEditor.Commands

/-!
The movements of the cursor and of the window (`navigation.c`), and the actions that repeat
them (`do_action` in `actions.c`).
-/

namespace NiceEditor.Movement

open NiceEditor.Pools
open NiceEditor.BufferData
open NiceEditor.Navigation
open NiceEditor.Commands
open NiceEditor.Clips

/-- `ld_node.prev` -/
def prevNode (ld : Option Nat) : Option Nat := nodeAway ld (-1)

/-- `ld_node.next` -/
def nextNode (ld : Option Nat) : Option Nat := nodeAway ld 1

/-- The nodes before a node: `ld_node.prev->prev` is not NULL if there is one. -/
def nodesBefore (ld : Option Nat) : Nat := ld.getD 0

/-- The nodes behind a node: `ld_node.next->next` is not NULL if there is one. -/
def nodesAfter (b : Buffer) (ld : Option Nat) : Nat := b.lineDescList.length - 1 - ld.getD 0

/-- `line_up` -/
def lineUp (t : Terminal) (b : Buffer) : Status × Buffer :=
  let b := { b with yWanted := false }
  if 0 < b.curY then
    (.ok, resyncPos t { b with
      curY := b.curY - 1
      curLine := b.curLine - 1
      curLineDesc := prevNode b.curLineDesc })
  else if 0 < b.winY then
    (.ok, resyncPos t { b with
      winY := b.winY - 1
      curLine := b.curLine - 1
      curLineDesc := prevNode b.curLineDesc
      topLineDesc := prevNode b.topLineDesc })
  else (.error, b)

/-- `line_down` -/
def lineDown (t : Terminal) (b : Buffer) : Status × Buffer :=
  let b := { b with yWanted := false }
  if b.curY < t.neLines - 2 ∧ b.curLine < b.numLines - 1 then
    (.ok, resyncPos t { b with
      curY := b.curY + 1
      curLine := b.curLine + 1
      curLineDesc := nextNode b.curLineDesc })
  else if b.winY < b.numLines - t.neLines + 1 then
    (.ok, resyncPos t { b with
      winY := b.winY + 1
      curLine := b.curLine + 1
      curLineDesc := nextNode b.curLineDesc
      topLineDesc := nextNode b.topLineDesc })
  else (.error, b)

/-- The last loop of `keep_cursor_on_screen`.  A turn moves the cursor by a column at
least, so as many turns as there are columns beyond the screen are enough. -/
def shiftLeft (t : Terminal) : Nat → Buffer → Buffer
  | 0, b => b
  | turns + 1, b =>
      if t.neColumns ≤ b.curX then
        shiftLeft t turns { b with
          winX := b.winX + b.opt.tabSize
          curX := b.curX - b.opt.tabSize }
      else b

/-- `keep_cursor_on_screen` -/
def keepCursorOnScreen (t : Terminal) (b : Buffer) : Buffer :=
  let b := { b with opt := { b.opt with
    tabSize := min b.opt.tabSize (max (t.neColumns.tdiv 2 - 1) 1) } }
  let right := b.winX.tmod b.opt.tabSize
  let b := { b with winX := b.winX - right, curX := b.curX + right }
  let b :=
    if t.neLines - 2 < b.curY then
      -- The loop moves the top of the window down until the cursor is in the window.
      let down := b.curY - (t.neLines - 2)
      { b with
        curY := b.curY - down
        winY := b.winY + down
        topLineDesc := nodeAway b.topLineDesc down
        yWanted := false }
    else b
  shiftLeft t (b.curX - t.neColumns + 1).toNat b

/-- `block_left` -/
def blockLeft (n : Int) (b : Buffer) : Buffer :=
  let winX := max 0 (b.winX - n)
  { b with winX := winX, curX := b.curX + (b.winX - winX) }

/-- `block_right` -/
def blockRight (n : Int) (b : Buffer) : Buffer :=
  { b with winX := b.winX + n, curX := b.curX - n }

/-- The columns of the character before the cursor, for `char_left`. -/
def widthBefore (t : Terminal) (b : Buffer) : Int :=
  let line := lineOf b b.curLineDesc
  if b.curPos ≤ line.length then
    if byteAt line (b.curPos - 1) = tab then
      b.opt.tabSize - (scanLine (display t b) line (b.curPos - 1)).col.tmod b.opt.tabSize
    else getCharWidth t (line.drop (prevPos line b.curPos b.encoding).toNat) b.encoding
  else 1

/-- `char_left` -/
def charLeft (t : Terminal) (b : Buffer) : Status × Buffer :=
  let line := lineOf b b.curLineDesc
  let b := { b with xWanted := false, yWanted := false }
  if 0 < b.curPos then
    let disp := widthBefore t b
    let b := if b.curX < disp then blockLeft (b.opt.tabSize * 2) b else b
    (.ok, { b with
      curX := b.curX - disp
      curPos :=
        if (line.length : Int) < b.curPos then b.curPos - 1 else prevPos line b.curPos b.encoding
      curChar := b.curChar - 1 })
  else if 0 < b.curLine then (.ok, moveToEol t (lineUp t b).2)
  else (.error, b)

/-- The columns of the character at the cursor, for `char_right`. -/
def widthAt (t : Terminal) (b : Buffer) : Int :=
  let line := lineOf b b.curLineDesc
  if b.curPos < line.length then
    if byteAt line b.curPos = tab then
      b.opt.tabSize - (scanLine (display t b) line b.curPos).col.tmod b.opt.tabSize
    else getCharWidth t (line.drop b.curPos.toNat) b.encoding
  else 1

/-- `char_right` -/
def charRight (t : Terminal) (b : Buffer) : Status × Buffer :=
  let line := lineOf b b.curLineDesc
  let disp := widthAt t b
  let b := { b with xWanted := false, yWanted := false }
  if b.curPos = (line.length : Int) ∧ ¬ b.opt.freeForm then
    if nodesAfter b b.curLineDesc = 0 then (.error, b)
    else (.ok, (lineDown t (moveToSol b)).2)
  else
    let b := { b with
      curX := b.curX + disp
      curPos :=
        if (line.length : Int) ≤ b.curPos then b.curPos + 1 else nextPos line b.curPos b.encoding
      curChar := b.curChar + 1 }
    if t.neColumns ≤ b.curX ∨ (b.curPos < (line.length : Int) ∧
        t.neColumns < b.curX + getCharWidth t (line.drop b.curPos.toNat) b.encoding) then
      (.ok, blockRight (b.opt.tabSize * 2) b)
    else (.ok, b)

/-- `prev_page` -/
def prevPage (t : Terminal) (b : Buffer) : Status × Buffer :=
  let b := { b with yWanted := false }
  if 0 < b.curY then
    (.ok, resyncPos t { b with
      curLine := b.curLine - b.curY
      curY := 0
      curLineDesc := b.topLineDesc })
  else if b.winY = 0 then (.error, b)
  else
    -- The loop ends at the first line.
    let turns := min (t.neLines - 2).toNat (nodesBefore b.topLineDesc)
    (.error, resyncPos t { b with
      winY := max 0 (b.winY - (t.neLines - 2))
      curLine := b.curLine - turns
      topLineDesc := nodeAway b.topLineDesc (-turns)
      curLineDesc := nodeAway b.curLineDesc (-turns) })

/-- `next_page` -/
def nextPage (t : Terminal) (b : Buffer) : Status × Buffer :=
  let b := { b with yWanted := false }
  let limit := b.numLines - (t.neLines - 1)
  if b.curY < t.neLines - 2 then
    let i : Int :=
      if limit ≤ b.winY then min (t.neLines - 2).toNat (nodesAfter b b.topLineDesc)
      else t.neLines - 2
    (.ok, resyncPos t { b with
      curLine := b.curLine + (i - b.curY)
      curY := i
      curLineDesc := nodeAway b.topLineDesc i })
  else if limit ≤ b.winY then (.error, b)
  else
    let disp := min (t.neLines - 2) (limit - b.winY)
    let turns := min disp.toNat (nodesAfter b b.topLineDesc)
    (.ok, resyncPos t { b with
      winY := b.winY + disp
      curLine := b.curLine + disp
      topLineDesc := nodeAway b.topLineDesc turns
      curLineDesc := nodeAway b.curLineDesc turns })

/-- The line and the row that `page_up` and `page_down` start from. -/
def startPaging (b : Buffer) : Buffer :=
  if b.yWanted then b
  else { b with yWanted := true, wantedY := b.curLine, wantedCurY := b.curY }

/-- A turn of the loop of `page_up` -/
def pageUpTurn (b : Buffer) : Buffer :=
  let b := { b with wantedY := b.wantedY - 1 }
  let b :=
    if 0 ≤ b.wantedY ∧ b.wantedY < b.numLines - 1 then
      { b with curLineDesc := prevNode b.curLineDesc, curLine := b.curLine - 1 }
    else b
  if 0 < b.winY ∧ b.wantedY < b.winY + b.wantedCurY then
    { b with topLineDesc := prevNode b.topLineDesc, winY := b.winY - 1 }
  else b

/-- `page_up` -/
def pageUp (t : Terminal) (b : Buffer) : Status × Buffer :=
  if b.curLine = 0 then (.ok, b)
  else
    let b := pageUpTurn^[(t.neLines - 2).toNat] (startPaging b)
    (.ok, resyncPos t (keepCursorOnScreen t { b with curY := b.curLine - b.winY }))

/-- A turn of the loop of `page_down` -/
def pageDownTurn (shiftView : Bool) (b : Buffer) : Buffer :=
  let b := { b with wantedY := b.wantedY + 1 }
  let b :=
    if 0 < b.wantedY ∧ b.wantedY < b.numLines then
      { b with curLineDesc := nextNode b.curLineDesc, curLine := b.curLine + 1 }
    else b
  if shiftView ∧ b.winY < b.wantedY - b.wantedCurY then
    { b with topLineDesc := nextNode b.topLineDesc, winY := b.winY + 1 }
  else b

/-- `page_down` -/
def pageDown (t : Terminal) (b : Buffer) : Status × Buffer :=
  if b.curLine = b.numLines - 1 then (.ok, b)
  else
    let b := startPaging b
    let shiftView := decide (b.winY + (t.neLines - 2) < b.numLines)
    let b := (pageDownTurn shiftView)^[(t.neLines - 2).toNat] b
    (.ok, resyncPos t (keepCursorOnScreen t { b with curY := b.curLine - b.winY }))

/-- The function that an action repeats. -/
def repeated (t : Terminal) : Action → Option (Buffer → Status × Buffer)
  | .lineUpA => some (lineUp t)
  | .lineDownA => some (lineDown t)
  | .prevPageA => some (prevPage t)
  | .nextPageA => some (nextPage t)
  | .moveLeftA => some (charLeft t)
  | .moveRightA => some (charRight t)
  | .pageUpA => some (pageUp t)
  | .pageDownA => some (pageDown t)
  | _ => none

/-- The loop of `do_action` over the repetitions of a function. -/
def repeatWhileOk (f : Buffer → Status × Buffer) : Nat → Buffer → Status × Buffer
  | 0, b => (.ok, b)
  | c + 1, b =>
      let (status, b) := f b
      if status ≠ .ok then (status, b) else repeatWhileOk f c b

/-- `NORMALIZE` -/
def normalize (c : Int) : Int := if c < 0 then 1 else c

/-- `do_action` for an action that repeats a function, when it is not interrupted -/
def doRepeated (f : Buffer → Status × Buffer) (c : Int) (b : Buffer) : Status × Buffer :=
  repeatWhileOk f (normalize c).toNat b

end NiceEditor.Movement
