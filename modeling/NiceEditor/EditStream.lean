import NiceEditor.LineEdits
import NiceEditor.UndoSteps

/-!
`insert_stream` and `delete_stream` (`buffer.c`), the only ways of changing the
text of a buffer.
-/

namespace NiceEditor.EditStream

open NiceEditor.Pools
open NiceEditor.LineEdits
open NiceEditor.BufferData
open NiceEditor.UndoSteps

/-- Where a place of the buffer is after `len` characters have been inserted. -/
def placeAfterChars (line : Int) (pos len : Nat) (l p : Int) : Int × Int :=
  if l = line ∧ (pos : Int) < p then (l, p + len) else (l, p)

/-- Where a place of the buffer is after the line has been broken at `pos + len`. -/
def placeAfterBreak (line : Int) (pos len : Nat) (l p : Int) : Int × Int :=
  if l = line ∧ (pos : Int) < p then (l + 1, p - (pos + len))
  else if line < l then (l + 1, p)
  else (l, p)

/-- Where a place of the buffer is after the next line has been joined. -/
def placeAfterJoin (line : Int) (lineLen : Nat) (l p : Int) : Int × Int :=
  if l = line + 1 then (l - 1, p + lineLen)
  else if line < l then (l - 1, p)
  else (l, p)

/-- Where a place of the buffer is after `n` characters have been deleted. -/
def placeAfterDelete (line : Int) (pos n : Nat) (l p : Int) : Int × Int :=
  if l = line ∧ (pos : Int) ≤ p then
    if p < pos + n then (l, pos) else (l, p - n)
  else (l, p)

/-- Whether an edit is recorded in the undo buffer. -/
def recording (b : Buffer) : Bool :=
  b.opt.doUndo && !(b.undoing || b.redoing)

/-- One string of the stream is put into line `ld`. -/
def insertSegment (b : Buffer) (ld : Nat) (line : Int) (pos : Nat) (s : List Byte) :
    Status × Buffer :=
  if s = [] then (.ok, b)
  else
    match b.lineDescList[ld]? with
    | none => (.error, b)
    | some d =>
        match insertInLine b.chars d pos s with
        | (none, chars) => (.outOfMemoryDiskFull, { b with chars := chars })
        | (some d, chars) =>
            (.ok, movePlaces (setLine { b with chars := chars, isModified := true } ld d)
              (placeAfterChars line pos s.length))

/-- A new line is created under line `ld`.  Whether a line descriptor can be
allocated is an answer of the system. -/
def insertBreak (b : Buffer) (ld : Nat) (line : Int) (pos len : Nat) : Status × Buffer :=
  match b.lineDescList[ld]? with
  | none => (.error, b)
  | some d =>
      let granted := b.chars.answers 0
      let b := setAnswers b (Answers.rest b.chars.answers)
      if granted then
        let (head, tail) := splitLine d (pos + len)
        let b := addLine (setLine b ld head) ld tail
        (.ok, movePlaces { b with numLines := b.numLines + 1, isModified := true }
          (placeAfterBreak line pos len))
      else (.outOfMemoryDiskFull, b)

/-- The loop of `insert_stream`, over the strings of the stream. -/
def insertSegments (b : Buffer) (ld : Nat) (line : Int) (pos : Nat) :
    List (List Byte) → Status × Buffer
  | [] => (.ok, b)
  | [s] => insertSegment b ld line pos s
  | s :: next :: rest =>
      match insertSegment b ld line pos s with
      | (.ok, b) =>
          match insertBreak b ld line pos s.length with
          | (.ok, b) => insertSegments b (ld + 1) (line + 1) 0 (next :: rest)
          | failed => failed
      | failed => failed

/-- `insert_stream` -/
def insertStream (b : Buffer) (ld : Nat) (line : Int) (pos : Nat) (stream : List Byte) :
    Status × Buffer :=
  match b.lineDescList[ld]? with
  | none => (.error, b)
  | some d =>
      if stream.length < 1 ∨ d.lineLen < pos then (.error, b)
      else if recording b then
        match addUndoStep b line pos (-stream.length) with
        | (.ok, b) => insertSegments b ld line pos (stream.splitOn 0)
        | failed => failed
      else insertSegments b ld line pos (stream.splitOn 0)

/-- The deleted bytes go to the undo stream, or to the redo stream while
undoing; the result of the copy is not looked at. -/
def recordDeleted (b : Buffer) (s : List Byte) : Buffer :=
  if b.redoing then b
  else if b.undoing then
    let (_, redo, answers) := addToStream b.chars.answers b.undo.redo s
    setAnswers { b with undo := { b.undo with redo := redo } } answers
  else if b.opt.doUndo then
    let (_, undo, answers) := addToUndoStream b.chars.answers b.undo s
    setAnswers { b with undo := undo } answers
  else b

/-- The next line is unlinked: `d` holds the characters of both lines. -/
def mergeNext (b : Buffer) (ld : Nat) (d : LineDesc) (chars : CharPools) : Buffer :=
  let b := remLine (setLine { b with chars := chars } ld d) (ld + 1)
  { b with numLines := b.numLines - 1 }

/-- Line `ld` is joined with the next one. -/
def deleteBreak (b : Buffer) (ld : Nat) (line : Int) (d next : LineDesc) : Status × Buffer :=
  let b := movePlaces b (placeAfterJoin line d.lineLen)
  match joinLines b.chars d next with
  | (none, chars) => (.outOfMemoryDiskFull, { b with chars := chars })
  | (some d, chars) =>
      (.ok, { recordDeleted (mergeNext b ld d chars) [0] with isModified := true })

/-- `n` characters of line `ld` are deleted. -/
def deleteChars (b : Buffer) (ld : Nat) (line : Int) (pos : Nat) (d : LineDesc) (n : Nat) :
    Buffer :=
  let b := movePlaces b (placeAfterDelete line pos n)
  let b := recordDeleted b (((lineBytes b.chars d).drop pos).take n)
  let (d, chars) := removeChars b.chars d pos n
  { setLine { b with chars := chars } ld d with isModified := true }

/-- The loop of `delete_stream`, with the number of bytes left to delete.  Every
turn deletes a byte at least, so `len` turns are enough. -/
def deleteLoop (ld : Nat) (line : Int) (pos : Nat) : Nat → Nat → Buffer → Status × Nat × Buffer
  | 0, len, b => (.ok, len, b)
  | turns + 1, len, b =>
      if len = 0 then (.ok, 0, b)
      else
        match b.lineDescList[ld]? with
        | none => (.error, len, b)
        | some d =>
            if pos = d.lineLen then
              match b.lineDescList[ld + 1]? with
              | none => (.ok, len, b)
              | some next =>
                  match deleteBreak b ld line d next with
                  | (.ok, b) => deleteLoop ld line pos turns (len - 1) b
                  | (failed, b) => (failed, len, b)
            else
              let n := min len (d.lineLen - pos)
              deleteLoop ld line pos turns (len - n) (deleteChars b ld line pos d n)

/-- `delete_stream` -/
def deleteStream (b : Buffer) (ld : Nat) (line : Int) (pos len : Nat) : Status × Buffer :=
  match b.lineDescList[ld]? with
  | none => (.error, b)
  | some d =>
      if len = 0 ∨ d.lineLen < pos ∨ (pos = d.lineLen ∧ b.lineDescList.length ≤ ld + 1) then
        (.error, b)
      else if recording b then
        match addUndoStep b line pos len with
        | (.ok, b) =>
            let (status, left, b) := deleteLoop ld line pos len len b
            (status, fixLastUndoStep b (-left))
        | failed => failed
      else
        let (status, _, b) := deleteLoop ld line pos len len b
        (status, b)

attribute [grind =] insertSegment insertBreak insertSegments insertStream deleteStream

end NiceEditor.EditStream
