import NiceEditor.Navigation

namespace NiceEditor.Undo

open NiceEditor.Cells
open NiceEditor.Pools
open NiceEditor.BufferData
open NiceEditor.EditStream
open NiceEditor.Navigation

/-- The position of a step, whether it is linked to the following one or not. -/
def stepPos (step : UndoStep) : Int := if 0 ≤ step.pos then step.pos else -(1 + step.pos)

/-- The cursor goes to the place of a step. -/
def gotoStep (t : Terminal) (b : Buffer) (step : UndoStep) : Buffer :=
  gotoLinePos t b step.line (stepPos step)

/-- `insert_stream` at the cursor -/
def insertAtCursor (b : Buffer) (stream : List Byte) : Buffer :=
  match b.curLineDesc with
  | none => b
  | some ld => (insertStream b ld b.curLine b.curPos.toNat stream).2

/-- `delete_stream` at the cursor -/
def deleteAtCursor (b : Buffer) (len : Nat) : Buffer :=
  match b.curLineDesc with
  | none => b
  | some ld => (deleteStream b ld b.curLine b.curPos.toNat len).2

def stepBack (b : Buffer) : Buffer :=
  { b with undo := { b.undo with curStep := b.undo.curStep - 1 } }

def stepAhead (b : Buffer) : Buffer :=
  { b with undo := { b.undo with curStep := b.undo.curStep + 1 } }

/-- The last `n` bytes of the undo stream are given back. -/
def rewindStream (b : Buffer) (n : Nat) : Buffer :=
  { b with undo := { b.undo with curStream := b.undo.curStream - n } }

def forwardStream (b : Buffer) (n : Nat) : Buffer :=
  { b with undo := { b.undo with curStream := b.undo.curStream + n } }

/-- The last `n` bytes of the redo stream are given back. -/
def rewindRedo (b : Buffer) (n : Nat) : Buffer :=
  { b with undo := { b.undo with redo := { b.undo.redo with len := b.undo.redo.len - n } } }

/-- The `n` bytes of a stream behind its end. -/
def bytesBehind (cs : CharStream) (n : Nat) : List Byte :=
  match cs.stream with
  | none => []
  | some m => readCells m cs.len n

/-- A step is taken back. -/
def undoEdit (t : Terminal) (b : Buffer) (step : UndoStep) : Buffer :=
  if step.len = 0 then b
  else
    let b := gotoStep t b step
    let n := step.len.natAbs
    if step.len < 0 then deleteAtCursor b n
    else
      let b := rewindStream b n
      insertAtCursor b (readCells b.undo.streams b.undo.curStream n)

/-- The body of the loop of `undo`. -/
def undoStep (t : Terminal) (b : Buffer) : Buffer :=
  let b := stepBack b
  undoEdit t b (b.undo.steps b.undo.curStep)

/-- The loop of `undo`.  Every turn takes back a step, so `cur_step` turns are
enough. -/
def undoLoop (t : Terminal) : Nat → Buffer → Buffer
  | 0, b => b
  | turns + 1, b =>
      let b := undoStep t b
      if b.undo.curStep ≠ 0 ∧ (b.undo.steps (b.undo.curStep - 1)).pos < 0 then
        undoLoop t turns b
      else b

/-- `undo` -/
def undo (t : Terminal) (b : Buffer) : Status × Buffer :=
  if b.undo.curStep = 0 then (.nothingToUndo, b)
  else
    let b := undoLoop t b.undo.curStep { b with undoing := true }
    (.ok, { b with undoing := false })

/-- A step is done again. -/
def redoEdit (t : Terminal) (b : Buffer) (step : UndoStep) : Buffer :=
  if step.len = 0 then b
  else
    let b := gotoStep t b step
    let n := step.len.natAbs
    if step.len < 0 then
      let b := rewindRedo b n
      insertAtCursor b (bytesBehind b.undo.redo n)
    else forwardStream (deleteAtCursor b n) n

/-- The body of the loop of `redo`. -/
def redoStep (t : Terminal) (b : Buffer) : Buffer :=
  stepAhead (redoEdit t b (b.undo.steps b.undo.curStep))

/-- The loop of `redo`.  Every turn does a step again, so `last_step - cur_step`
turns are enough. -/
def redoLoop (t : Terminal) : Nat → Buffer → Buffer
  | 0, b => b
  | turns + 1, b =>
      let b := redoStep t b
      if b.undo.curStep < b.undo.lastStep ∧ (b.undo.steps (b.undo.curStep - 1)).pos < 0 then
        redoLoop t turns b
      else b

/-- `redo` -/
def redo (t : Terminal) (b : Buffer) : Status × Buffer :=
  if b.undo.curStep = b.undo.lastStep then (.nothingToRedo, b)
  else
    let b := redoLoop t (b.undo.lastStep - b.undo.curStep) { b with redoing := true }
    (.ok, { b with redoing := false })

end NiceEditor.Undo
