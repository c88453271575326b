import NiceEditor.EditStream
import NiceEditor.Encoding

/-!
Loading a file into a buffer (`load_fd_in_buffer`): the read of a seekable
file into memory, the memory-mapped files, and the read of a descriptor that
is not seekable.
-/

namespace NiceEditor.Load

open NiceEditor.Cells
open NiceEditor.Pools
open NiceEditor.BufferData
open NiceEditor.UndoSteps
open NiceEditor.Encoding

def startSize : Nat := 8 * 1024
def ldBufferCount : Nat := 256
def circBufferSize : Nat := 8 * 1024

def cr : Byte := 0x0d
def lf : Byte := 0x0a

/-- A file open for reading: its descriptor, all that can be read from it, and where a write of its
characters to the file of a mapping returns -1, if it is not done, and not a short count.  A read
of a regular file that returns -1 is not seen, either: the content is what the memory held. -/
structure File where
  fd : Nat
  seekable : Bool
  content : List Byte
  writeFails : Nat → Bool

/-- Whether a byte ends a line, for the terminators that the options select. -/
def isTerminator (opt : Options) (c : Byte) : Bool :=
  (!opt.binary && (c == (if opt.preserveCr then 0 else cr) || c == lf)) || c == 0

/-- `free_buffer_contents` -/
def freeBufferContents (b : Buffer) : Buffer :=
  { b with
    chars := { b.chars with charPoolList := [], allocatedChars := 0, freeChars := 0 }
    lineDescList := []
    curLineDesc := none
    topLineDesc := none
    numLines := 0
    isCRLF := false
    encoding := .ascii
    bookmarkMask := 0
    lastDeleted := none
    undo := resetUndoBuffer b.undo
    isModified := false
    marking := false
    xWanted := false }

/-- `reset_position_to_sof` -/
def resetPositionToSof (b : Buffer) : Buffer :=
  { b with
    xWanted := false
    yWanted := false
    winX := 0
    winY := 0
    curX := 0
    curY := 0
    curLine := 0
    curPos := 0
    curChar := 0
    curLineDesc := some 0
    topLineDesc := some 0 }

/-- `clear_buffer`; its line descriptor is taken to be allocated, as the code
does. -/
def clearBuffer (b : Buffer) : Buffer :=
  resetPositionToSof { freeBufferContents b with lineDescList := [⟨none, 0⟩], numLines := 1 }

/-- `new_buffer` -/
def newBuffer (ioUtf8 : Bool) (curB : Option Options) (answers : Answers) : Buffer :=
  clearBuffer (allocBuffer ioUtf8 curB answers)

/-- The first pass over the text of a pool: the lines ended, the bytes freed and
whether a CR/LF pair has been met. -/
def countLines (isTerm : Byte → Bool) : List Byte → Nat × Nat × Bool
  | [] => (0, 0, false)
  | [c] => if isTerm c then (1, 1, false) else (0, 0, false)
  | c :: d :: rest =>
      if isTerm c then
        if c = cr ∧ d = lf then
          let (lines, free, _) := countLines isTerm rest
          (lines + 1, free + 2, true)
        else
          let (lines, free, crlf) := countLines isTerm (d :: rest)
          (lines + 1, free + 1, crlf)
      else countLines isTerm (d :: rest)

/-- The line descriptor of `len` characters at `start`. -/
def lineAt (block start len : Nat) : LineDesc :=
  ⟨if len = 0 then none else some ⟨block, start⟩, len⟩

/-- The second pass, from offset `p` on: the line descriptors, and the text with
the line terminators set to NUL. -/
def cutLines (isTerm : Byte → Bool) (block : Nat) :
    Nat → Nat → List Byte → List LineDesc × List Byte
  | 0, _, rest => ([], rest)
  | n + 1, p, rest =>
      let line := rest.takeWhile fun c => !isTerm c
      let q := p + line.length
      let (lds, out) :=
        match rest.dropWhile fun c => !isTerm c with
        | [] => cutLines isTerm block n q []
        | [_] => let (lds, out) := cutLines isTerm block n (q + 1) []; (lds, 0 :: out)
        | c :: d :: tail =>
            if c = cr ∧ d = lf then
              let (lds, out) := cutLines isTerm block n (q + 2) tail
              (lds, 0 :: 0 :: out)
            else
              let (lds, out) := cutLines isTerm block n (q + 1) (d :: tail)
              (lds, 0 :: out)
      (lineAt block p line.length :: lds, line ++ out)

/-- What a loading strategy hands over: the pool and its text. -/
structure Loaded where
  cp : CharPool
  text : List Byte

/-- A text is put in a fresh block of memory, followed by zeroes. -/
def placeText (b : Buffer) (text : List Byte) : Buffer :=
  { b with chars := { b.chars with
      mem := Function.update b.chars.mem b.chars.nextBlock (writeCells (fun _ => 0) 0 text)
      nextBlock := b.chars.nextBlock + 1 } }

/-- The two passes over the text of a pool; `none` when the line descriptors
cannot be allocated. -/
def cutPool (b : Buffer) (cp : CharPool) (text : List Byte) : Option Buffer × Answers :=
  let (terms, free, crlf) := countLines (isTerminator b.opt) text
  let numLines := terms + 1
  let (lds, text) := cutLines (isTerminator b.opt) cp.pool numLines 0 text
  if b.chars.answers 0 then
    let b := placeText b text
    (some { b with
      chars := { b.chars with
        allocatedChars := cp.size
        freeChars := cp.size - text.length + free
        answers := Answers.rest b.chars.answers }
      numLines := numLines
      lineDescList := lds
      isCRLF := b.isCRLF || crlf }, Answers.rest b.chars.answers)
  else (none, Answers.rest b.chars.answers)

/-- The end of `load_fd_in_buffer`: the encoding is guessed, the ends of the
pool are set, or the pool is freed when no character is used. -/
def finishLoad (b : Buffer) (cp : CharPool) (len : Nat) : Buffer :=
  let m := b.chars.mem cp.pool
  let encoding := detectEncoding (readCells m 0 len)
  let b := { b with
    encoding := if encoding = .ascii then .ascii
      else if b.opt.utf8auto ∧ encoding = .utf8 then .utf8
      else .eightBit }
  let b :=
    if b.chars.freeChars < b.chars.allocatedChars then
      let cp := { cp with
        firstUsed := zerosAfter m len len 0
        lastUsed := len - 1 - zerosBefore m len len }
      { b with chars := { b.chars with charPoolList := cp :: b.chars.charPoolList } }
    else b
  let b := resetPositionToSof b
  if b.opt.doUndo then { b with undo := { b.undo with lastSaveStep := 0 } } else b

/-- The state of `create_mmap_files`: the circular buffer, the file as far as
it has not been read, and the two files written so far. -/
structure MmapState where
  buffer : Nat → Byte
  i : Nat
  currPos : Nat
  startOfLine : Nat
  remaining : List Byte
  charFile : List Byte
  ldFile : List (Nat × Nat)
  numLines : Nat
  freeChars : Nat
  isCRLF : Bool
  answers : Answers

/-- A write to the file of line descriptors, which may fail. -/
def writeFile (s : MmapState) : Except (Status × Answers) MmapState :=
  if s.answers 0 then .ok { s with answers := Answers.rest s.answers }
  else .error (.outOfMemoryDiskFull, Answers.rest s.answers)

/-- A write to the file of characters.  A short count is seen, but -1 is compared as an unsigned
number: the load goes on without the characters. -/
def writeChars (fails : Nat → Bool) (chars : List Byte) (s : MmapState) :
    Except (Status × Answers) MmapState :=
  if s.answers 0 then
    .ok { s with charFile := s.charFile ++ chars, answers := Answers.rest s.answers }
  else if fails s.currPos then .ok { s with answers := Answers.rest s.answers }
  else .error (.outOfMemoryDiskFull, Answers.rest s.answers)

/-- One step ahead in the circular buffer; when a half is complete it is written
and loaded again. -/
def advance (fails : Nat → Bool) (s : MmapState) : Except (Status × Answers) MmapState :=
  let s := { s with i := (s.i + 1) % (2 * circBufferSize), currPos := s.currPos + 1 }
  if s.i % circBufferSize = 0 then
    let p := (s.i + circBufferSize) % (2 * circBufferSize)
    match writeChars fails (readCells s.buffer p circBufferSize) s with
    | .error e => .error e
    | .ok s =>
        .ok { s with
          buffer := writeCells s.buffer p (s.remaining.take circBufferSize)
          remaining := s.remaining.drop circBufferSize }
  else .ok s

/-- A line descriptor is written to the buffer for line descriptors, which is
written to the file when it is full. -/
def putLineDesc (s : MmapState) (start len : Nat) : Except (Status × Answers) MmapState :=
  let s := { s with ldFile := s.ldFile ++ [(start, len)] }
  if s.ldFile.length % ldBufferCount = 0 then writeFile s else .ok s

/-- The CR of a CR/LF pair is passed. -/
def passReturn (fails : Nat → Bool) (len : Nat) (s : MmapState) :
    Except (Status × Answers) MmapState :=
  if s.currPos < len - 1 ∧ s.buffer s.i = cr ∧
      s.buffer ((s.i + 1) % (2 * circBufferSize)) = lf then
    advance fails { s with
      isCRLF := true
      buffer := Function.update s.buffer s.i 0
      freeChars := s.freeChars + 1 }
  else .ok s

/-- A line terminator at the current position. -/
def endLine (fails : Nat → Bool) (len : Nat) (s : MmapState) :
    Except (Status × Answers) MmapState := do
  let endOfLine := s.currPos
  let s ← passReturn fails len s
  let s ← putLineDesc { s with numLines := s.numLines + 1 } s.startOfLine
    (endOfLine - s.startOfLine)
  return { s with
    freeChars := s.freeChars + 1
    buffer := Function.update s.buffer s.i 0
    startOfLine := s.currPos + 1 }

/-- The byte at the current position is looked at. -/
def passByte (fails : Nat → Bool) (isTerm : Byte → Bool) (len : Nat) (s : MmapState) :
    Except (Status × Answers) MmapState :=
  if isTerm (s.buffer s.i) then endLine fails len s else .ok s

/-- The loop of `create_mmap_files`.  Every turn moves ahead, so `len` turns are
enough. -/
def mmapLoop (fails : Nat → Bool) (isTerm : Byte → Bool) (len : Nat) :
    Nat → MmapState → Except (Status × Answers) MmapState
  | 0, s => .ok s
  | turns + 1, s =>
      if s.currPos < len then do
        let s ← passByte fails isTerm len s
        let s ← advance fails s
        mmapLoop fails isTerm len turns s
      else .ok s

/-- What is left in the circular buffer is written. -/
def writeHalf (fails : Nat → Bool) (s : MmapState) : Except (Status × Answers) MmapState :=
  let half := readCells s.buffer (s.i / circBufferSize * circBufferSize) (s.i % circBufferSize)
  if s.i % circBufferSize ≠ 0 then writeChars fails half s else .ok s

/-- `create_mmap_files` -/
def createMmapFiles (fails : Nat → Bool) (isTerm : Byte → Bool) (content : List Byte)
    (answers : Answers) : Except (Status × Answers) MmapState := do
  let s ← mmapLoop fails isTerm content.length content.length
    { buffer := writeCells (fun _ => 0) 0 (content.take (2 * circBufferSize))
      i := 0
      currPos := 0
      startOfLine := 0
      remaining := content.drop (2 * circBufferSize)
      charFile := []
      ldFile := []
      numLines := 0
      freeChars := 0
      isCRLF := false
      answers := answers }
  let s ← writeHalf fails s
  writeFile { s with
    numLines := s.numLines + 1
    ldFile := s.ldFile ++ [(s.startOfLine, s.currPos - s.startOfLine)] }

/-- The next answer of the system decides whether a call succeeds. -/
def tryCall (failure : Status) (answers : Answers) : Except (Status × Answers) Answers :=
  if answers 0 then .ok (Answers.rest answers) else .error (failure, Answers.rest answers)

/-- `load_fd_mmap`.  Behind the end of the file of characters the mapping holds zeroes. -/
def loadFdMmap (b : Buffer) (content : List Byte) (fails : Nat → Bool) :
    Except (Status × Answers) (Buffer × CharPool) := do
  let answers ← tryCall .ioError b.chars.answers
  let answers ← tryCall .ioError answers
  let s ← createMmapFiles fails (isTerminator b.opt) content answers
  let answers ← tryCall .ioError s.answers
  let answers ← tryCall .ioError answers
  let answers ← tryCall .outOfMemory answers
  let answers ← tryCall .outOfMemory answers
  let cp : CharPool := ⟨b.chars.nextBlock, content.length, 0, 0⟩
  let b := placeText b s.charFile
  return ({ b with
    chars := { b.chars with
      allocatedChars := content.length
      freeChars := s.freeChars
      answers := answers }
    numLines := s.numLines
    lineDescList := s.ldFile.map fun (start, len) => lineAt cp.pool start len
    isCRLF := s.isCRLF }, cp)

/-- The read of a descriptor that is not seekable: the size of the pool is
doubled until the file fits with a byte to spare. -/
def growPool (len : Nat) : Nat → Nat → Answers → Except (Status × Answers) (Nat × Answers)
  | 0, size, answers => .ok (size, answers)
  | turns + 1, size, answers =>
      if len < size then .ok (size, answers)
      else do
        let answers ← tryCall .outOfMemory answers
        growPool len turns (2 * size) answers

/-- `alloc_char_pool(len, fd, 0)`: with descriptor 0 the pool is zeroed and
the file is not read. -/
def allocFilePool (b : Buffer) (f : File) : Option Loaded × Answers :=
  let len := f.content.length
  let size := if len < stdPoolSize ∧ f.fd = 0 then stdPoolSize else len
  if b.chars.answers 0 then
    (some ⟨⟨b.chars.nextBlock, size, 0, 0⟩,
      if f.fd = 0 then List.replicate len 0 else f.content⟩, Answers.rest b.chars.answers)
  else (none, Answers.rest b.chars.answers)

/-- The two passes, and the end of the load. -/
def cutAndFinish (b : Buffer) (l : Loaded) : Status × Buffer :=
  match cutPool b l.cp l.text with
  | (some b, _) => (.ok, finishLoad b l.cp l.text.length)
  | (none, answers) => (.outOfMemoryDiskFull, clearBuffer (setAnswers b answers))

/-- The load of a seekable file that is not empty. -/
def loadSeekable (b : Buffer) (f : File) : Status × Buffer :=
  let b := freeBufferContents b
  match allocFilePool b f with
  | (some l, answers) => cutAndFinish (setAnswers b answers) l
  | (none, answers) =>
      let b := setAnswers b answers
      match loadFdMmap b f.content f.writeFails with
      | .ok (b, cp) => (.ok, finishLoad b cp f.content.length)
      | .error (status, answers) => (status, clearBuffer (setAnswers b answers))

/-- The load of a descriptor that is not seekable. -/
def loadStream (b : Buffer) (f : File) : Status × Buffer :=
  let b := freeBufferContents b
  let len := f.content.length
  let granted := b.chars.answers 0
  -- Without memory for the pool a read of a byte fails.
  if granted = false ∧ len ≠ 0 then
    (.ioError, clearBuffer (setAnswers b (Answers.rest b.chars.answers)))
  else
    match growPool len (len + 1) startSize (Answers.rest b.chars.answers) with
    | .error (status, answers) => (status, clearBuffer (setAnswers b answers))
    | .ok (size, answers) =>
        match tryCall .outOfMemory answers with
        | .error (status, answers) => (status, clearBuffer (setAnswers b answers))
        | .ok answers =>
            let b := setAnswers b answers
            cutAndFinish b ⟨⟨b.chars.nextBlock, size, 0, 0⟩, f.content⟩

attribute [grind =] loadStream

/-- `load_fd_in_buffer` -/
def loadFdInBuffer (b : Buffer) (f : File) : Status × Buffer :=
  if f.seekable then
    if f.content = [] then
      let b := { clearBuffer b with encoding := .ascii }
      (.ok, if b.opt.doUndo then { b with undo := { b.undo with lastSaveStep := 0 } } else b)
    else loadSeekable b f
  else loadStream b f

end NiceEditor.Load
