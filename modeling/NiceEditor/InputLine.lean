import NiceEditor.Clips
import NiceEditor.Streams

namespace NiceEditor.InputLine

open NiceEditor.Pools
open NiceEditor.BufferData
open NiceEditor.Encoding
open NiceEditor.Navigation
open NiceEditor.UndoSteps
open NiceEditor.Clips
open NiceEditor.Streams

/-- `MAX_INPUT_LINE_LEN` -/
def maxInputLineLen : Nat := 2048

/-- `input_buf` -/
structure InputBuf where
  startX : Int
  len : Int
  x : Int
  pos : Int
  offset : Int
  encoding : EncodingType
  buf : List Byte
deriving DecidableEq

/-- What `request` is called with, what the terminal can do and which characters belong to
words. -/
structure Prompt where
  promptLen : Nat
  helpLen : Nat
  alphaAllowed : Bool
  preferUtf8 : Bool
  charInsDelOk : Bool
  isWord : Int → EncodingType → Bool

/-- `utf8seqlen` -/
def utf8seqlen (c : Nat) : Nat :=
  if c < 0x80 then 1
  else if c < 0x800 then 2
  else if c < 0x10000 then 3
  else if c < 0x200000 then 4
  else if c < 0x4000000 then 5
  else 6

/-- A continuation byte of `utf8str` -/
def continuationByte (c shift : Nat) : Byte := UInt8.ofNat (c >>> shift) &&& 0x3F ||| 0x80

/-- `utf8str` -/
def utf8str (c : Nat) : List Byte :=
  let first := fun shift bits => UInt8.ofNat (c >>> shift) ||| bits
  if c < 0x80 then [UInt8.ofNat c]
  else if c < 0x800 then [first 6 0xC0, continuationByte c 0]
  else if c < 0x10000 then [first 12 0xE0, continuationByte c 6, continuationByte c 0]
  else if c < 0x200000 then
    [first 18 0xF0, continuationByte c 12, continuationByte c 6, continuationByte c 0]
  else if c < 0x4000000 then
    [first 24 0xF8, continuationByte c 18, continuationByte c 12, continuationByte c 6,
      continuationByte c 0]
  else
    [first 30 0xFC, continuationByte c 24, continuationByte c 18, continuationByte c 12,
      continuationByte c 6, continuationByte c 0]

/-- `get_char` -/
def getChar (s : List Byte) (encoding : EncodingType) : Int :=
  if encoding = .utf8 then utf8char s else (s.getD 0 0).toNat

/-- The loop of `get_string_width`.  Every turn passes a byte at least. -/
def widthLoop (t : Terminal) (s : List Byte) (len : Int) (encoding : EncodingType) :
    Nat → Int → Int → Int
  | 0, _, width => width
  | turns + 1, pos, width =>
      if pos < len then
        widthLoop t s len encoding turns (nextPos s pos encoding)
          (width + getCharWidth t (s.drop pos.toNat) encoding)
      else width

/-- `get_string_width` -/
def getStringWidth (t : Terminal) (s : List Byte) (len : Int) (encoding : EncodingType) : Int :=
  widthLoop t s len encoding len.toNat 0 0

/-- Bytes are written to a place of the buffer. -/
def write (buf : List Byte) (pos : Int) (s : List Byte) : List Byte :=
  buf.take pos.toNat ++ (s ++ buf.drop (pos.toNat + s.length))

/-- `memmove`, in the buffer -/
def memmove (buf : List Byte) (dst src n : Int) : List Byte :=
  write buf dst ((buf.drop src.toNat).take n.toNat)

/-- `strncpy` -/
def strncpy (s : List Byte) (n : Nat) : List Byte :=
  let s := (s.take n).takeWhile (· != 0)
  s ++ List.replicate (n - s.length) 0

/-- `strlen` -/
def strlen (buf : List Byte) : Nat := (cString buf 0).length

def isAscii (s : List Byte) : Bool := s.all (· < 0x80)

namespace InputBuf

/-- The text of the line. -/
def text (ib : InputBuf) : List Byte := ib.buf.take ib.len.toNat

/-- The character at a place of the buffer. -/
def charAt (ib : InputBuf) (pos : Int) : Int := getChar (ib.buf.drop pos.toNat) ib.encoding

/-- The width of the character at a place of the buffer. -/
def widthAt (t : Terminal) (ib : InputBuf) (pos : Int) : Int :=
  getCharWidth t (ib.buf.drop pos.toNat) ib.encoding

def next (ib : InputBuf) (pos : Int) : Int := nextPos ib.buf pos ib.encoding

def prev (ib : InputBuf) (pos : Int) : Int := prevPos ib.buf pos ib.encoding

/-- `input_refresh` -/
def refresh (ib : InputBuf) : InputBuf := { ib with x := ib.startX + ib.pos - ib.offset }

/-- `input_and_prompt_refresh` -/
def refreshPrompt (p : Prompt) (ib : InputBuf) : InputBuf :=
  { ib with startX := p.promptLen + 2 }.refresh

/-- The line is drawn again by a requester that is open when the size of the window changes or
the editor has been suspended. -/
def redrawn (p : Prompt) (requester : Option Terminal) (ib : InputBuf) : InputBuf :=
  if requester.isSome then ib.refreshPrompt p else ib

/-- The encoding is `ENC_ASCII` again when the line is. -/
def toAscii (ib : InputBuf) : InputBuf :=
  if isAscii ib.text then { ib with encoding := .ascii } else ib

/-- The line ends at a place of the buffer. -/
def cutAt (ib : InputBuf) (len : Int) : InputBuf :=
  { ib with len := len, buf := write ib.buf len [0] }

/-- `input_move_left`, and whether the line is drawn again -/
def stepLeft (t : Terminal) (ib : InputBuf) : InputBuf × Bool :=
  if 0 < ib.pos then
    let pos := ib.prev ib.pos
    let xDelta := ib.widthAt t pos
    if ib.x = ib.startX then ({ ib with pos := pos, offset := pos }, true)
    else ({ ib with pos := pos, x := ib.x - xDelta }, false)
  else (ib, false)

/-- `input_move_left` -/
def moveLeft (t : Terminal) (p : Prompt) (doRefresh : Bool) (ib : InputBuf) : InputBuf :=
  let (ib, drawn) := ib.stepLeft t
  if drawn ∧ ¬ p.charInsDelOk ∧ doRefresh then ib.refresh else ib

/-- The loop of `input_move_right` that shifts the line; `width` columns have been
shifted. -/
def shiftLoop (t : Terminal) (ib : InputBuf) (shift : Int) : Nat → Int → Int → Int × Int
  | 0, offset, width => (offset, width)
  | turns + 1, offset, width =>
      let width := width + ib.widthAt t offset
      let offset := ib.next offset
      if width < shift ∧ offset < ib.len then shiftLoop t ib shift turns offset width
      else (offset, width)

/-- `input_move_right`, and whether the line is drawn again -/
def stepRight (t : Terminal) (ib : InputBuf) : InputBuf × Bool :=
  if ib.pos < ib.len then
    let xDelta := ib.widthAt t ib.pos
    let ib := { ib with pos := ib.next ib.pos, x := ib.x + xDelta }
    if t.neColumns ≤ ib.x then
      let (offset, width) :=
        ib.shiftLoop t (ib.x - (t.neColumns - 1)) (ib.len - ib.offset).toNat ib.offset 0
      ({ ib with offset := offset, x := ib.x - width }, true)
    else (ib, false)
  else (ib, false)

/-- `input_move_right` -/
def moveRight (t : Terminal) (p : Prompt) (doRefresh : Bool) (ib : InputBuf) : InputBuf :=
  let (ib, drawn) := ib.stepRight t
  if drawn ∧ ¬ p.charInsDelOk ∧ doRefresh then ib.refresh else ib

/-- `input_move_to_sol` -/
def moveToSol (ib : InputBuf) : InputBuf :=
  if ib.offset = 0 then { ib with x := ib.startX, pos := 0 }
  else { ib with x := ib.startX, offset := 0, pos := 0 }.refresh

/-- The loop of `input_move_to_eol`, with the columns that are left.  Every character takes
one at least. -/
def eolLoop (t : Terminal) : Nat → Int → InputBuf → InputBuf
  | 0, _, ib => ib
  | turns + 1, i, ib =>
      let prev := ib.prev ib.offset
      let width := ib.widthAt t prev
      if i - width < 0 then ib
      else eolLoop t turns (i - width) { ib with offset := prev, x := ib.x + width }

/-- `input_move_to_eol`, and whether the line is drawn again -/
def stepToEol (t : Terminal) (ib : InputBuf) : InputBuf × Bool :=
  let widthToEnd :=
    getStringWidth t (ib.buf.drop ib.pos.toNat) (ib.len - ib.pos) ib.encoding
  if ib.x + widthToEnd < t.neColumns then ({ ib with x := ib.x + widthToEnd, pos := ib.len }, false)
  else
    let i := t.neColumns - 1 - ib.startX
    (eolLoop t (i + 1).toNat i { ib with x := ib.startX, pos := ib.len, offset := ib.len }, true)

/-- `input_move_to_eol` -/
def moveToEol (t : Terminal) (ib : InputBuf) : InputBuf :=
  let (ib, drawn) := ib.stepToEol t
  if drawn then ib.refresh else ib

/-- The loop of `input_next_word` -/
def nextWordLoop (t : Terminal) (p : Prompt) : Nat → Bool → InputBuf → InputBuf
  | 0, _, ib => ib
  | turns + 1, spaceSkipped, ib =>
      if ib.pos < ib.len then
        let word := p.isWord (ib.charAt ib.pos) ib.encoding
        if word ∧ spaceSkipped then ib
        else nextWordLoop t p turns (spaceSkipped || !word) (ib.moveRight t p false)
      else ib

/-- `input_next_word`, before it draws the line -/
def toNextWord (t : Terminal) (p : Prompt) (ib : InputBuf) : InputBuf :=
  let ib := ib.nextWordLoop t p (ib.len - ib.pos).toNat false
  if ib.x = t.neColumns - 1 then { ib with offset := ib.pos, x := ib.startX } else ib

/-- The loop of `input_prev_word` -/
def toPrevWord (t : Terminal) (p : Prompt) : Nat → Bool → InputBuf → InputBuf
  | 0, _, ib => ib
  | turns + 1, wordSkipped, ib =>
      if 0 < ib.pos then
        let ib := ib.moveLeft t p false
        if p.isWord (ib.charAt ib.pos) ib.encoding then toPrevWord t p turns true ib
        else if wordSkipped then ib.moveRight t p false
        else toPrevWord t p turns false ib
      else ib

/-- `input_next_word` -/
def nextWord (t : Terminal) (p : Prompt) (ib : InputBuf) : InputBuf := (ib.toNextWord t p).refresh

/-- `input_prev_word` -/
def prevWord (t : Terminal) (p : Prompt) (ib : InputBuf) : InputBuf :=
  (ib.toPrevWord t p ib.pos.toNat false).refresh

/-- Bytes are inserted at the cursor. -/
def insert (ib : InputBuf) (s : List Byte) : InputBuf :=
  let buf := memmove ib.buf (ib.pos + s.length) ib.pos (ib.len - ib.pos + 1)
  { ib with buf := write buf ib.pos s, len := ib.len + s.length }

/-- The bytes before the cursor are deleted, from a place on. -/
def deleteBack (ib : InputBuf) (start : Int) : InputBuf :=
  { ib with
    buf := memmove ib.buf start ib.pos (ib.len - ib.pos + 1)
    len := ib.len - (ib.pos - start)
    pos := start }

/-- The character at the cursor is deleted. -/
def deleteAt (ib : InputBuf) : InputBuf :=
  let cLen := charLen ib.encoding (ib.buf.getD ib.pos.toNat 0)
  { ib with
    buf := memmove ib.buf ib.pos (ib.pos + cLen) (ib.len - ib.pos - cLen + 1)
    len := ib.len - cLen }

/-- The line is replaced by a string, of which no more than fits is copied. -/
def setLine (ib : InputBuf) (s : List Byte) : InputBuf :=
  let buf := write ib.buf 0 (strncpy s maxInputLineLen)
  { ib with buf := buf, len := strlen buf, encoding := detectEncoding (buf.take (strlen buf)) }

/-- The line is replaced by a line of the history. -/
def setHistoryLine (ib : InputBuf) (line : List Byte) : InputBuf :=
  let ib :=
    if line = [] then { ib.cutAt 0 with encoding := .ascii }
    else
      let n := min line.length maxInputLineLen
      let buf := write (write ib.buf 0 (strncpy line n)) n [0]
      { ib with buf := buf, len := strlen buf, encoding := detectEncoding (buf.take (strlen buf)) }
  { ib with x := ib.startX, pos := 0, offset := 0 }

/-- The first character that is typed, and `Find`, replace the default. -/
def clearIfFirst (first : Bool) (ib : InputBuf) : InputBuf := if first then ib.cutAt 0 else ib

/-- Whether `request` accepts a character. -/
def accepts (p : Prompt) (ib : InputBuf) (c cLen : Nat) : Bool :=
  decide (ib.len ≤ maxInputLineLen - cLen) &&
    (p.alphaAllowed || decide (48 ≤ c ∧ c ≤ 57) || decide (65 ≤ c ∧ c ≤ 70) ||
      decide (97 ≤ c ∧ c ≤ 102) || c == 88 || c == 120)

/-- The encoding of the line when a character is typed. -/
def typedEncoding (p : Prompt) (encoding : EncodingType) (c : Nat) : EncodingType :=
  if encoding = .ascii ∧ 0x7F < c then if p.preferUtf8 ∨ 0xFF < c then .utf8 else .eightBit
  else encoding

/-- The line is prepared for a character. -/
def prepare (p : Prompt) (first : Bool) (c : Nat) (ib : InputBuf) : InputBuf :=
  let ib := ib.clearIfFirst first
  { ib with encoding := typedEncoding p ib.encoding c }

/-- The bytes of a character that is typed. -/
def charBytes (ib : InputBuf) (c : Nat) : List Byte :=
  if ib.encoding = .utf8 then utf8str c else [UInt8.ofNat c]

/-- The line is drawn again before the cursor moves behind a character: it is in the middle
of the line, and visible. -/
def drawnBefore (t : Terminal) (ib : InputBuf) (c : Nat) : Bool :=
  decide (ib.x < t.neColumns - outputWidth t c) && ib.pos != ib.len - (ib.charBytes c).length

/-- `request`, for a character -/
def typeChar (t : Terminal) (p : Prompt) (first : Bool) (c : Nat) (ib : InputBuf) : InputBuf :=
  if 0xFF < c ∧ ib.encoding = .eightBit then ib
  else
    let ib := ib.prepare p first c
    if ib.accepts p c (ib.charBytes c).length then
      let ib := ib.insert (ib.charBytes c)
      let ib := if ib.drawnBefore t c ∧ ¬ p.charInsDelOk then ib.refresh else ib
      ib.moveRight t p true
    else ib

/-- `request`, for `DeleteChar` -/
def deleteChar (p : Prompt) (ib : InputBuf) : InputBuf :=
  if 0 < ib.len ∧ ib.pos < ib.len then
    let ib := ib.deleteAt.toAscii
    if p.charInsDelOk then ib else ib.refresh
  else ib

/-- `request`, for `Backspace` -/
def backspace (t : Terminal) (p : Prompt) (ib : InputBuf) : InputBuf :=
  if ib.pos = 0 then ib else (ib.moveLeft t p true).deleteChar p

/-- `request`, for `DeleteLine` -/
def deleteLine (ib : InputBuf) : InputBuf :=
  { ib.cutAt 0 with pos := 0, offset := 0, encoding := .ascii, x := ib.startX }

/-- `request`, for `DeleteEOL` -/
def deleteEol (ib : InputBuf) : InputBuf := (ib.cutAt ib.pos).toAscii

/-- `request`, for `MoveIncUp` -/
def moveIncUp (ib : InputBuf) : InputBuf :=
  if ib.x ≠ ib.startX then { ib with pos := ib.offset, x := ib.startX } else ib.moveToSol

/-- The loop of `MoveIncDown` over the characters that are in the window. -/
def visibleLoop (t : Terminal) (ib : InputBuf) : Nat → Int × Int → Int × Int
  | 0, s => s
  | turns + 1, (i, j) =>
      if j < ib.len ∧ i + ib.widthAt t j < t.neColumns then
        visibleLoop t ib turns (i + ib.widthAt t j, ib.next j)
      else (i, j)

/-- The column and the place of the last character in the window, if `MoveIncDown` goes
there. -/
def lastVisible (t : Terminal) (ib : InputBuf) : Option (Int × Int) :=
  let (i, j) := ib.visibleLoop t (ib.len - ib.pos).toNat (ib.x, ib.pos)
  if j ≠ ib.pos ∧ j < ib.len then some (i, j) else none

/-- `request`, for `MoveIncDown` -/
def moveIncDown (t : Terminal) (ib : InputBuf) : InputBuf :=
  match ib.lastVisible t with
  | some (i, j) => { ib with pos := j, x := i }
  | none => ib.moveToEol t

/-- `request`, for `ToggleSEOL` and `ToggleSEOF` -/
def toggle (t : Terminal) (ib : InputBuf) : InputBuf :=
  if ib.pos ≠ 0 then ib.moveToSol else ib.moveToEol t

/-- `input_paste`, before it draws the line.  `clip` is the current clip.  Without one, the
encoding of the clip is read from the NULL pointer when a line of the history is not in
ASCII. -/
def pasted (str : Option (List Byte)) (clip : Option ClipDesc) (ib : InputBuf) :
    Option InputBuf :=
  let clipEncoding := (clip.map fun cd => cd.cs.encoding).getD .ascii
  let source := str.orElse fun _ => clip.map fun cd => (streamBytes cd.cs).takeWhile (· != 0)
  match source with
  | none => none
  | some s =>
      if clipEncoding ≠ .ascii ∧ ib.encoding ≠ .ascii ∧ clipEncoding ≠ ib.encoding then none
      else
        let ib := ib.insert (s.take (min (s.length : Int) (maxInputLineLen - ib.len)).toNat)
        some (if isAscii ib.text = false ∧ clipEncoding ≠ .ascii then
          { ib with encoding := clipEncoding } else ib)

/-- `input_paste` -/
def paste (str : Option (List Byte)) (clip : Option ClipDesc) (ib : InputBuf) : InputBuf :=
  match ib.pasted str clip with
  | none => ib
  | some ib => ib.refresh

/-- `request_history`: a line of the history replaces the input, or it is pasted. -/
def requestHistory (clip : Option ClipDesc) (answer : Option (Bool × List Byte)) (ib : InputBuf) :
    InputBuf :=
  match answer with
  | none => ib
  | some (true, line) => (ib.setLine line).moveToSol
  | some (false, line) => ib.paste (some line) clip

/-- The quotes that a completion is inserted between, if the line ends with one: the place
behind the one before it. -/
def quotedPrefix (ib : InputBuf) : Option Nat :=
  if 0 < ib.len ∧ ib.buf.getD (ib.len - 1).toNat 0 = 34 then
    let upTo := ((cString (write ib.buf (ib.len - 1) [0]) 0).reverse.dropWhile (· != 34)).reverse
    if upTo = [] then none else some upTo.length
  else none

/-- The place behind the first blanks, or the start of the line. -/
def plainPrefix (ib : InputBuf) : Nat :=
  let s := cString ib.buf 0
  if 32 ∈ s then
    let word := s.takeWhile (· != 32)
    word.length + ((s.drop word.length).takeWhile (· == 32)).length
  else 0

/-- Where a completion is written. -/
def completionPlace (ib : InputBuf) : Nat := ib.quotedPrefix.getD ib.plainPrefix

/-- A completion is short enough. -/
def completionFits (ib : InputBuf) (completion : List Byte) : Bool :=
  decide (ib.completionPlace + completion.length + 1 < maxInputLineLen)

/-- A completion and the line are in the same encoding, or one of them is in ASCII. -/
def compatibleWith (ib : InputBuf) (encoding : EncodingType) : Bool :=
  decide (ib.encoding = .ascii ∨ encoding = .ascii ∨ ib.encoding = encoding)

/-- A closing quote is overwritten while the completion is looked for. -/
def unquoted (ib : InputBuf) : InputBuf :=
  if ib.quotedPrefix.isSome then { ib with buf := write ib.buf (ib.len - 1) [0] } else ib

/-- The quote is put back. -/
def requoted (ib : InputBuf) : InputBuf :=
  let buf := ib.unquoted.buf
  if ib.quotedPrefix.isSome then { ib with buf := write buf (strlen buf) [34, 0] } else ib

/-- A completion is written to the line. -/
def withCompletion (ib : InputBuf) (completion : List Byte) : InputBuf :=
  let encoding := detectEncoding completion
  let quote := if ib.quotedPrefix.isSome then [34] else []
  let buf := write ib.unquoted.buf ib.completionPlace (completion ++ (quote ++ [0]))
  { ib with
    buf := buf
    len := strlen buf
    pos := 0
    offset := 0
    x := ib.startX
    encoding := if ib.encoding = .ascii then encoding else ib.encoding }

/-- `request`, for the key that completes file names, with the completion that is found. -/
def complete (t : Terminal) (p : Prompt) (completion : Option (List Byte)) (ib : InputBuf) :
    InputBuf :=
  match completion.filter ib.completionFits with
  | none => ib.requoted
  | some s =>
      if ib.compatibleWith (detectEncoding s) then
        let completed := (ib.withCompletion s).moveToEol t
        (if ib.quotedPrefix.isSome then completed.moveLeft t p false else completed).refresh
      else ib.unquoted

/-- The loop of `input_autocomplete` over the characters before the cursor. -/
def wordStartLoop (p : Prompt) (ib : InputBuf) : Nat → Int × Int → Int × Int
  | 0, s => s
  | turns + 1, (place, dx) =>
      if place ≠ 0 ∧ p.isWord (ib.charAt place) ib.encoding then
        wordStartLoop p ib turns (ib.prev place, dx - 1)
      else (place, dx)

/-- Where the word before the cursor starts, and the characters from there, negated. -/
def wordStart (p : Prompt) (ib : InputBuf) : Int × Int :=
  if ib.pos ≠ 0 ∧ ib.pos ≤ ib.len then
    let (place, dx) := wordStartLoop p ib ib.pos.toNat (ib.prev ib.pos, -1)
    if p.isWord (ib.charAt place) ib.encoding then (place, dx) else (ib.next place, dx + 1)
  else (ib.pos, 0)

/-- The loop of `input_autocomplete` over the completion. -/
def advanceLoop (t : Terminal) (ib : InputBuf) : Nat → Int → Int × Int → Int × Int
  | 0, _, s => s
  | turns + 1, acLen, (pos, dx) =>
      if 0 < acLen then
        advanceLoop t ib turns (acLen - ib.widthAt t pos) (ib.next pos, dx + 1)
      else (pos, dx)

/-- `input_autocomplete`, before it draws the line -/
def autocompleted (t : Terminal) (p : Prompt) (s : List Byte) (ib : InputBuf) :
    Option InputBuf :=
  let encoding := detectEncoding s
  if encoding ≠ .ascii ∧ ib.encoding ≠ .ascii ∧ encoding ≠ ib.encoding then none
  else
    let (start, dx) := ib.wordStart p
    let ib := { ib with encoding := encoding }
    let ib := if start < ib.pos then ib.deleteBack start else ib
    let acLen : Int :=
      if (maxInputLineLen : Int) ≤ s.length + ib.len then maxInputLineLen - ib.len
      else s.length
    let ib := ib.insert (s.take acLen.toNat)
    let (pos, dx) := advanceLoop t ib acLen.toNat acLen (ib.pos, dx)
    let ib := { ib with pos := pos, x := ib.x + dx }
    some (if t.neColumns ≤ ib.x then
      { ib with offset := ib.next^[(ib.x - t.neColumns + 1).toNat] ib.offset, x := t.neColumns - 1 }
    else ib)

/-- `input_autocomplete`, with the completion that is found, up to the redrawing of the
screen -/
def autocomplete (t : Terminal) (p : Prompt) (completion : Option (List Byte)) (ib : InputBuf) :
    InputBuf :=
  (completion.bind fun s => ib.autocompleted t p s).getD ib

end InputBuf

/-- The state of `request`. -/
structure Request where
  terminal : Terminal
  ib : InputBuf
  firstCharTyped : Bool

/-- What `request` handles.  A terminal comes with the events after which the screen is
drawn again: its size may have changed.  So it may in a requester that a completion is chosen
in, which draws the line again. -/
inductive Event
  | char (c : Nat)
  | complete (completion : Option (List Byte)) (requester : Option Terminal)
  | history (line : List Byte)
  | find (clip : Option ClipDesc) (answer : Option (Bool × List Byte)) (t : Terminal)
  | moveLeft
  | moveRight
  | backspace
  | deleteChar
  | deleteLine
  | deleteEol
  | moveIncUp
  | moveSol
  | moveIncDown
  | moveEol
  | toggle
  | prevWord
  | nextWord
  | refresh
  | paste (clip : Option ClipDesc)
  | autocomplete (completion : Option (List Byte)) (requester t : Option Terminal)
  | resize (t : Terminal)
  | suspend (t : Terminal)
  | other

/-- `request`, before the first key -/
def start (t : Terminal) (p : Prompt) (showHelp : Bool) (buf : List Byte)
    (default : Option (List Byte)) : Request :=
  let startX := (if showHelp then p.helpLen else 0) + p.promptLen + 2
  let ib : InputBuf :=
    { startX := startX, len := 0, x := startX, pos := 0, offset := 0, encoding := .ascii,
      buf := write buf 0 [0] }
  { terminal := t
    ib := match default with
      | none => ib
      | some s => (ib.setLine s).refresh
    firstCharTyped := true }

/-- The line after an event. -/
def handled (p : Prompt) (r : Request) : Event → InputBuf
  | .char c => r.ib.typeChar r.terminal p r.firstCharTyped c
  | .complete completion requester =>
      (r.ib.redrawn p requester).complete (requester.getD r.terminal) p completion
  | .history line => (r.ib.setHistoryLine line).refresh
  | .find clip answer _ =>
      ((r.ib.clearIfFirst r.firstCharTyped).requestHistory clip answer).refreshPrompt p
  | .moveLeft => r.ib.moveLeft r.terminal p true
  | .moveRight => r.ib.moveRight r.terminal p true
  | .backspace => r.ib.backspace r.terminal p
  | .deleteChar => r.ib.deleteChar p
  | .deleteLine => r.ib.deleteLine
  | .deleteEol => r.ib.deleteEol
  | .moveIncUp => r.ib.moveIncUp
  | .moveSol => r.ib.moveToSol
  | .moveIncDown => r.ib.moveIncDown r.terminal
  | .moveEol => r.ib.moveToEol r.terminal
  | .toggle => r.ib.toggle r.terminal
  | .prevWord => r.ib.prevWord r.terminal p
  | .nextWord => r.ib.nextWord r.terminal p
  | .refresh => r.ib.refresh
  | .paste clip => r.ib.paste none clip
  | .autocomplete completion requester t =>
      let ib :=
        (r.ib.redrawn p requester).autocomplete (requester.getD r.terminal) p completion
      if t.isSome then ib.refreshPrompt p else ib.refresh
  | .resize _ | .suspend _ => r.ib.refreshPrompt p
  | .other => r.ib

/-- The terminal after an event. -/
def terminalAfter (r : Request) : Event → Terminal
  | .complete _ requester => requester.getD r.terminal
  | .find _ _ t => t
  | .autocomplete _ requester t => t.getD (requester.getD r.terminal)
  | .resize t | .suspend t => t
  | _ => r.terminal

/-- `request`, for an event.  After a change of the size of the window the default may still
be replaced. -/
def handle (p : Prompt) (r : Request) (e : Event) : Request where
  terminal := terminalAfter r e
  ib := handled p r e
  firstCharTyped := match e with
    | .resize _ => r.firstCharTyped
    | _ => false

end NiceEditor.InputLine
