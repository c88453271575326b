import NiceEditor.BufferData

namespace NiceEditor.UndoSteps

open NiceEditor.Cells
open NiceEditor.Pools
open NiceEditor.BufferData

def charStreamSizeInc : Nat := 2048
def stdUndoStepSize : Nat := 1024
def stdUndoStreamSize : Nat := 16 * 1024

/-- The bytes in use of a stream. -/
def streamBytes (cs : CharStream) : List Byte :=
  match cs.stream with
  | none => []
  | some m => readCells m 0 cs.len

attribute [grind =] streamBytes

/-- `add_to_stream` -/
def addToStream (answers : Answers) (cs : CharStream) (s : List Byte) :
    Status × CharStream × Answers :=
  let append := fun (cs : CharStream) =>
    { cs with
      stream := cs.stream.map fun m => writeCells m cs.len s
      len := cs.len + s.length }
  if cs.size - cs.len < s.length then
    if answers 0 then
      let cs := { cs with
        stream := some (cs.stream.getD fun _ => 0)
        size := cs.len + s.length + charStreamSizeInc }
      (.ok, append cs, answers.rest)
    else
      -- The result of `realloc` overwrites the pointer.
      (.outOfMemory, { cs with stream := none }, answers.rest)
  else (.ok, append cs, answers)

/-- `reset_stream`, of a stream that is not NULL. -/
def resetStream (cs : CharStream) : CharStream :=
  if 2 * charStreamSizeInc < cs.size then { cs with len := 0, size := 0, stream := none }
  else { cs with len := 0 }

/-- `cat_undo_step` -/
def catUndoStep (answers : Answers) (ub : UndoBuffer) (line pos len : Int) :
    Status × UndoBuffer × Answers :=
  let record := fun (ub : UndoBuffer) =>
    { ub with
      steps := Function.update ub.steps ub.curStep ⟨line, pos, len⟩
      lastSaveStep := if ub.curStep < ub.lastSaveStep then -1 else ub.lastSaveStep
      curStep := ub.curStep + 1
      lastStep := ub.curStep + 1
      lastStream := ub.curStream
      redo := resetStream ub.redo }
  if ub.stepsSize ≤ ub.curStep then
    if answers 0 then
      (.ok, record { ub with stepsSize := ub.stepsSize + stdUndoStepSize }, answers.rest)
    else (.outOfMemory, ub, answers.rest)
  else (.ok, record ub, answers)

/-- `start_undo_chain` -/
def startUndoChain (b : Buffer) : Buffer :=
  { b with linkUndos := b.linkUndos + 1 }

/-- `end_undo_chain` -/
def endUndoChain (b : Buffer) : Buffer :=
  let b := { b with linkUndos := b.linkUndos - 1 }
  if b.linkUndos ≠ 0 then b
  else
    let last := b.undo.steps (b.undo.curStep - 1)
    if b.undo.curStep ≠ 0 ∧ last.pos < 0 then
      { b with undo := { b.undo with
        steps := Function.update b.undo.steps (b.undo.curStep - 1)
          { last with pos := -(1 + last.pos) } } }
    else b

theorem endUndoChain_eq (b : Buffer) :
    ∃ undo, endUndoChain b = { b with linkUndos := b.linkUndos - 1, undo := undo } := by
  rw [endUndoChain]
  dsimp only
  split
  · exact ⟨_, rfl⟩
  · split
    · exact ⟨_, rfl⟩
    · exact ⟨_, rfl⟩

/-- `add_undo_step` -/
def addUndoStep (b : Buffer) (line pos len : Int) : Status × Buffer :=
  let (status, ub, answers) := catUndoStep b.chars.answers b.undo line
    (if b.linkUndos ≠ 0 then -pos - 1 else pos) len
  (status, setAnswers { b with undo := ub } answers)

/-- `fix_last_undo_step` -/
def fixLastUndoStep (b : Buffer) (delta : Int) : Buffer :=
  let last := b.undo.steps (b.undo.curStep - 1)
  { b with undo := { b.undo with
    steps := Function.update b.undo.steps (b.undo.curStep - 1)
      { last with len := last.len + delta } } }

/-- `add_to_undo_stream` -/
def addToUndoStream (answers : Answers) (ub : UndoBuffer) (s : List Byte) :
    Status × UndoBuffer × Answers :=
  let append := fun (ub : UndoBuffer) =>
    { ub with
      streams := writeCells ub.streams ub.curStream s
      curStream := ub.curStream + s.length
      lastStream := ub.curStream + s.length }
  if ub.curStep = 0 ∨ (ub.steps (ub.curStep - 1)).len < 0 then (.error, ub, answers)
  else if ub.streamsSize ≤ ub.curStream + s.length then
    if answers 0 then
      (.ok, append { ub with
        streamsSize := ub.curStream + s.length + stdUndoStreamSize }, answers.rest)
    else (.outOfMemory, ub, answers.rest)
  else (.ok, append ub, answers)

/-- `reset_undo_buffer` -/
def resetUndoBuffer (ub : UndoBuffer) : UndoBuffer :=
  { ub with
    curStep := 0
    lastStep := 0
    curStream := 0
    lastStream := 0
    stepsSize := 0
    streamsSize := 0
    lastSaveStep := 0
    redo := resetStream ub.redo }

/-- The bytes of the undo stream up to `cur_stream`. -/
def undoBytes (ub : UndoBuffer) : List Byte := readCells ub.streams 0 ub.curStream

theorem granting_rest {answers : Answers} (h : Granting answers) : Granting answers.rest :=
  fun n => h (n + 1)

/-- `assert_char_stream` -/
structure StreamOk (cs : CharStream) : Prop where
  len_le : cs.len ≤ cs.size
  null : cs.stream = none → cs.size = 0

theorem addToStream_granting {answers : Answers} {cs : CharStream} {s : List Byte}
    (hgrant : Granting answers) (hcs : StreamOk cs) (hs : s ≠ []) :
    ∃ cs' answers', addToStream answers cs s = (.ok, cs', answers') ∧ Granting answers' ∧
      StreamOk cs' ∧ cs'.len = cs.len + s.length ∧
      streamBytes cs' = streamBytes cs ++ s := by
  have hpos : 0 < s.length := List.length_pos_iff.mpr hs
  have hlen := hcs.len_le
  unfold addToStream
  split
  · rw [if_pos (hgrant 0)]
    refine ⟨_, _, rfl, granting_rest hgrant, ⟨?_, by simp⟩, rfl, ?_⟩
    · simp only
      omega
    · simp only [streamBytes, Option.map_some, readCells_writeCells_end]
      cases hstream : cs.stream with
      | some m => rfl
      | none =>
          have hzero := hcs.null hstream
          rw [show cs.len = 0 by omega]
          rfl
  · rename_i hroom
    cases hstream : cs.stream with
    | none =>
        have hzero := hcs.null hstream
        omega
    | some m =>
        refine ⟨_, _, rfl, hgrant, ⟨?_, by simp [hstream]⟩, rfl, ?_⟩
        · simp only
          omega
        · simp only [streamBytes, Option.map_some, readCells_writeCells_end, hstream]

theorem resetStream_ok {cs : CharStream} (hcs : StreamOk cs) :
    StreamOk (resetStream cs) ∧ (resetStream cs).len = 0 ∧ streamBytes (resetStream cs) = [] := by
  unfold resetStream
  split
  · exact ⟨⟨le_rfl, fun _ => rfl⟩, rfl, rfl⟩
  · refine ⟨⟨Nat.zero_le _, hcs.null⟩, rfl, ?_⟩
    unfold streamBytes
    cases cs.stream <;> rfl

theorem addToUndoStream_granting {answers : Answers} (ub : UndoBuffer) (s : List Byte)
    (hgrant : Granting answers) (hstep : ub.curStep ≠ 0)
    (hlen : 0 ≤ (ub.steps (ub.curStep - 1)).len) :
    ∃ ub' answers', addToUndoStream answers ub s = (.ok, ub', answers') ∧ Granting answers' ∧
      undoBytes ub' = undoBytes ub ++ s ∧ ub'.curStream = ub.curStream + s.length ∧
      ub'.redo = ub.redo := by
  unfold addToUndoStream
  rw [if_neg (by omega)]
  split
  · rw [if_pos (hgrant 0)]
    exact ⟨_, _, rfl, granting_rest hgrant, readCells_writeCells_end _ _ _, rfl, rfl⟩
  · exact ⟨_, _, rfl, hgrant, readCells_writeCells_end _ _ _, rfl, rfl⟩

theorem addToStream_answers {answers : Answers} {cs : CharStream} {s : List Byte}
    (hgrant : Granting answers) : Granting (addToStream answers cs s).2.2 := by
  unfold addToStream
  split
  · rw [if_pos (hgrant 0)]
    exact granting_rest hgrant
  · exact hgrant

theorem addToUndoStream_answers {answers : Answers} (ub : UndoBuffer) (s : List Byte)
    (hgrant : Granting answers) : Granting (addToUndoStream answers ub s).2.2 := by
  unfold addToUndoStream
  split
  · exact hgrant
  split
  · rw [if_pos (hgrant 0)]
    exact granting_rest hgrant
  · exact hgrant

theorem addToUndoStream_frame (answers : Answers) (ub : UndoBuffer) (s : List Byte) :
    (addToUndoStream answers ub s).2.1.steps = ub.steps ∧
      (addToUndoStream answers ub s).2.1.curStep = ub.curStep ∧
      (addToUndoStream answers ub s).2.1.lastStep = ub.lastStep ∧
      (addToUndoStream answers ub s).2.1.lastSaveStep = ub.lastSaveStep := by
  unfold addToUndoStream
  split
  · exact ⟨rfl, rfl, rfl, rfl⟩
  split
  · split
    · exact ⟨rfl, rfl, rfl, rfl⟩
    · exact ⟨rfl, rfl, rfl, rfl⟩
  · exact ⟨rfl, rfl, rfl, rfl⟩

theorem catUndoStep_granting {answers : Answers} (ub : UndoBuffer) (line pos len : Int)
    (hgrant : Granting answers) :
    ∃ ub' answers', catUndoStep answers ub line pos len = (.ok, ub', answers') ∧
      Granting answers' ∧ ub'.steps = Function.update ub.steps ub.curStep ⟨line, pos, len⟩ ∧
      ub'.curStep = ub.curStep + 1 ∧ ub'.lastStep = ub.curStep + 1 ∧
      ub'.streams = ub.streams ∧ ub'.curStream = ub.curStream ∧
      ub'.lastStream = ub.curStream ∧ ub'.redo = resetStream ub.redo ∧
      ub'.lastSaveStep = if ub.curStep < ub.lastSaveStep then -1 else ub.lastSaveStep := by
  unfold catUndoStep
  split
  · rw [if_pos (hgrant 0)]
    exact ⟨_, _, rfl, granting_rest hgrant, rfl, rfl, rfl, rfl, rfl, rfl, rfl, rfl⟩
  · exact ⟨_, _, rfl, hgrant, rfl, rfl, rfl, rfl, rfl, rfl, rfl, rfl⟩

end NiceEditor.UndoSteps
