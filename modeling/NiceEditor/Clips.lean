import NiceEditor.Undo

/-!
Clips (`clips.c`): the block between the mark and the cursor is copied, cut or
erased, and a clip is pasted.
-/

namespace NiceEditor.Clips

open NiceEditor.Cells
open NiceEditor.Pools
open NiceEditor.BufferData
open NiceEditor.Encoding
open NiceEditor.UndoSteps
open NiceEditor.EditStream
open NiceEditor.Navigation
open NiceEditor.Undo

/-- The return codes of the functions on clips. -/
inductive ClipStatus
  | ok
  | outOfMemory
  | markBlockFirst
  | markOutOfBuffer
  | clipDoesntExist
  | incompatibleClipEncoding
deriving DecidableEq, Repr

/-- `clip_desc` -/
structure ClipDesc where
  n : Int
  cs : CharStream

def space : Byte := 0x20

def maxStackSpaces : Nat := 256

def pasteStartBookmark : Nat := 11
def pasteEndBookmark : Nat := 12

/-- `get_nth_clip` -/
def getNthClip (clips : List ClipDesc) (n : Int) : Option ClipDesc :=
  clips.find? fun cd => cd.n = n

/-- The stream of the `n`th clip is written. -/
def setClip : List ClipDesc → Int → CharStream → List ClipDesc
  | [], _, _ => []
  | cd :: clips, n, cs => if cd.n = n then ⟨n, cs⟩ :: clips else cd :: setClip clips n cs

/-- `alloc_char_stream`, when memory is granted -/
def allocCharStream (size : Nat) : CharStream where
  size := size
  len := 0
  stream := if size = 0 then none else some fun _ => 0
  encoding := .ascii

/-- `realloc_char_stream`, of a stream that is not NULL; whether it has succeeded,
and the stream. -/
def reallocCharStream (granted : Bool) (cs : CharStream) (size : Nat) : Bool × CharStream :=
  if size = 0 then (true, { cs with stream := none, len := 0, size := 0 })
  else if granted then
    (true, { cs with
      stream := some (cs.stream.getD fun _ => 0)
      size := size
      len := min cs.len size })
  else (false, { cs with stream := none })

/-- `realloc_clip_desc` of the `n`th clip, and `add_head` when there was none; the
stream of the clip when it has succeeded.  Whether the memory is there is an answer of
the system. -/
def reallocClip (granted : Bool) (clips : List ClipDesc) (n : Int) (size : Nat) :
    Option CharStream × List ClipDesc :=
  match getNthClip clips n with
  | none =>
      if granted then
        let cs := allocCharStream size
        (some cs, ⟨n, cs⟩ :: clips)
      else (none, clips)
  | some cd =>
      let (done, cs) := reallocCharStream granted cd.cs size
      (if done then some cs else none, setClip clips n cs)

/-- The encoding that is guessed for some bytes from a source. -/
def guessEncoding (s : List Byte) (source : EncodingType) : EncodingType :=
  let encoding := detectEncoding s
  if source = .eightBit ∧ encoding = .utf8 then .eightBit else encoding

/-- `set_stream_encoding` -/
def setStreamEncoding (cs : CharStream) (source : EncodingType) : CharStream :=
  { cs with encoding := guessEncoding (streamBytes cs) source }

/-- The loop of `insert_spaces`.  Every turn inserts a space at least, so `n` turns
are enough. -/
def insertSpacesLoop (ld : Nat) (line : Int) (pos : Nat) : Nat → Nat → Buffer → Status × Buffer
  | 0, _, b => (.ok, b)
  | turns + 1, n, b =>
      if n = 0 then (.ok, b)
      else
        let i := min n maxStackSpaces
        match insertStream b ld line pos (List.replicate i space) with
        | (.ok, b) => insertSpacesLoop ld line pos turns (n - i) b
        | failed => failed

/-- `insert_spaces` -/
def insertSpaces (b : Buffer) (ld : Option Nat) (line : Int) (pos : Nat) (n : Int) :
    Status × Buffer :=
  match ld with
  | none => (.error, b)
  | some ld => insertSpacesLoop ld line pos n.toNat n.toNat b

/-- The mark and the cursor are at one position, or both behind the end of one line. -/
def emptyBlock (b : Buffer) : Bool :=
  let lineLen : Int := (lineOf b b.curLineDesc).length
  b.curLine == b.blockStartLine &&
    (b.curPos == b.blockStartPos || (lineLen ≤ b.curPos && lineLen ≤ b.blockStartPos))

/-- The mark is before or above the cursor. -/
def markFirst (b : Buffer) : Bool :=
  b.blockStartLine < b.curLine || (b.curLine == b.blockStartLine && b.blockStartPos < b.curPos)

/-- Where a loop over the lines of a block stands: `len` is what has been counted,
`p` the place in `stream` up to which, or from which on, the block is stored. -/
structure BlockState where
  b : Buffer
  chaining : Bool
  len : Int
  p : Int
  stream : Nat → Byte

def BlockState.start (b : Buffer) : BlockState := ⟨b, false, 0, 0, fun _ => 0⟩

/-- Line `ld` is padded with spaces up to a position, in an undo chain. -/
def padLine (s : BlockState) (ld : Option Nat) (i pos : Int) : BlockState :=
  let b := if s.chaining then s.b else startUndoChain s.b
  let lineLen := (lineOf s.b ld).length
  { s with b := (insertSpaces b ld i lineLen (pos - lineLen)).2, chaining := true }

/-- The line of the mark is padded.  The mark moves in the course of that, and is put
back. -/
def padMark (s : BlockState) (ld : Option Nat) (i : Int) : BlockState :=
  if ((lineOf s.b ld).length : Int) < s.b.blockStartPos then
    let bsp := s.b.blockStartPos
    let s := padLine s ld i bsp
    { s with b := { s.b with blockStartPos := bsp } }
  else s

/-- The line of the cursor is padded. -/
def padCursor (s : BlockState) (ld : Option Nat) (i : Int) : BlockState :=
  if ((lineOf s.b ld).length : Int) < s.b.curPos then padLine s ld i s.b.curPos else s

/-- The loop from the line of the cursor up to the line of the mark, from line `i` on:
what a turn does to the `len` characters of the line from `startPos` on is a
parameter. -/
def upLoop (pad : Bool) (y : Int) (turn : Int → List Byte → Int → Int → BlockState → BlockState) :
    Nat → Option Nat → Int → BlockState → BlockState
  | 0, _, _, s => s
  | turns + 1, ld, i, s =>
      if i < s.b.blockStartLine then s
      else
        let s := if i = s.b.blockStartLine ∧ pad then padMark s ld i else s
        let line := lineOf s.b ld
        let startPos :=
          if i = s.b.blockStartLine then min (line.length : Int) s.b.blockStartPos else 0
        let endPos := if i = y then min (line.length : Int) s.b.curPos else line.length
        upLoop pad y turn turns (nodeAway ld (-1)) (i - 1)
          (turn i line startPos (endPos - startPos) s)

/-- The loop from the line of the cursor down to the line of the mark. -/
def downLoop (pad : Bool) (y : Int) (turn : Int → List Byte → Int → Int → BlockState → BlockState) :
    Nat → Option Nat → Int → BlockState → BlockState
  | 0, _, _, s => s
  | turns + 1, ld, i, s =>
      if s.b.blockStartLine < i then s
      else
        let s := if i = y ∧ pad then padCursor s ld i else s
        let line := lineOf s.b ld
        let startPos := if i = y then min s.b.curPos (line.length : Int) else 0
        let endPos :=
          if i = s.b.blockStartLine then min s.b.blockStartPos (line.length : Int) else line.length
        downLoop pad y turn turns (nodeAway ld 1) (i + 1)
          (turn i line startPos (endPos - startPos) s)

/-- The characters of the line are counted, and `extra` bytes. -/
def count (extra : Int → Int) (i : Int) (_line : List Byte) (_startPos len : Int)
    (s : BlockState) : BlockState :=
  { s with len := s.len + (len + extra i) }

/-- The first pass of `copy_to_clip` -/
def copyMeasure (y : Int) : Int → List Byte → Int → Int → BlockState → BlockState :=
  count fun i => if i ≠ y then 1 else 0

/-- `erase_block` counts a byte for the line of the cursor, too. -/
def eraseMeasure : Int → List Byte → Int → Int → BlockState → BlockState := count fun _ => 1

/-- A row of bytes is stored at `p`. -/
def BlockState.store (s : BlockState) (xs : List Byte) : BlockState :=
  { s with stream := writeCells s.stream s.p.toNat xs }

/-- The second pass of `copy_to_clip`, upwards -/
def storeUp (y i : Int) (line : List Byte) (startPos len : Int) (s : BlockState) : BlockState :=
  let s := if i ≠ y then { s with p := s.p - 1 }.store [0] else s
  { s with p := s.p - len }.store ((line.drop startPos.toNat).take len.toNat)

/-- The second pass of `copy_to_clip`, downwards -/
def storeDown (i : Int) (line : List Byte) (startPos len : Int) (s : BlockState) : BlockState :=
  let s := s.store ((line.drop startPos.toNat).take len.toNat)
  let s := { s with p := s.p + len }
  if i ≠ s.b.blockStartLine then { s.store [0] with p := s.p + 1 } else s

def finishChain (s : BlockState) (b : Buffer) : Buffer :=
  if s.chaining then endUndoChain b else b

/-- The lines of a block, from the line of the cursor on. -/
def blockLines (b : Buffer) : Nat := (b.curLine - b.blockStartLine).natAbs + 1

/-- A pass over the block, in the direction from the cursor to the mark. -/
def pass (up pad : Bool) (turn : Int → List Byte → Int → Int → BlockState → BlockState)
    (s : BlockState) : BlockState :=
  if up then upLoop pad s.b.curLine turn (blockLines s.b) s.b.curLineDesc s.b.curLine s
  else downLoop pad s.b.curLine turn (blockLines s.b) s.b.curLineDesc s.b.curLine s

/-- The second pass of `copy_to_clip`, from where the first one has ended. -/
def secondPass (up : Bool) (s : BlockState) (stream : Nat → Byte) : BlockState :=
  if up then pass up false (storeUp s.b.curLine) { s with p := s.len, stream := stream }
  else pass up false storeDown { s with p := 0, stream := stream }

/-- The block of `len` bytes is deleted. -/
def deleteBlock (t : Terminal) (up : Bool) (b : Buffer) (len : Int) : Buffer :=
  let b := if up then gotoLinePos t b b.blockStartLine b.blockStartPos else b
  deleteAtCursor b len.toNat

/-- `copy_to_clip` -/
def copyToClip (t : Terminal) (granted : Bool) (b : Buffer) (clips : List ClipDesc) (n : Int)
    (cut : Bool) : ClipStatus × Buffer × List ClipDesc :=
  if ¬ b.marking then (.markBlockFirst, b, clips)
  else if b.numLines ≤ b.blockStartLine then (.markOutOfBuffer, b, clips)
  else if emptyBlock b then
    match reallocClip granted clips n 0 with
    | (none, clips) => (.outOfMemory, b, clips)
    | (some _, clips) => (.ok, b, clips)
  else
    let up := markFirst b
    let s := pass up cut (copyMeasure b.curLine) (BlockState.start b)
    match reallocClip granted clips n s.len.toNat with
    | (none, clips) => (.outOfMemory, finishChain s s.b, clips)
    | (some cs, clips) =>
        let s' := secondPass up s (cs.stream.getD fun _ => 0)
        let cs := { cs with stream := cs.stream.map fun _ => s'.stream, len := s.len.toNat }
        let b := if cut then deleteBlock t up s'.b s.len else s'.b
        (.ok, finishChain s b, setClip clips n (setStreamEncoding cs s'.b.encoding))

/-- `erase_block` -/
def eraseBlock (t : Terminal) (b : Buffer) : ClipStatus × Buffer :=
  if ¬ b.marking then (.markBlockFirst, b)
  else if b.numLines ≤ b.blockStartLine then (.markOutOfBuffer, b)
  else if emptyBlock b then (.ok, b)
  else
    let up := markFirst b
    let s := pass up true eraseMeasure (BlockState.start b)
    (.ok, finishChain s (deleteBlock t up s.b (s.len - 1)))

/-- The last position up to `pos` where a UTF-8 sequence may start. -/
def sequenceStart (s : List Byte) : Nat → Nat
  | 0 => 0
  | pos + 1 => if s.getD (pos + 1) 0 &&& 0xC0 = 0x80 then sequenceStart s pos else pos + 1

/-- `prev_pos` -/
def prevPos (s : List Byte) (pos : Int) (encoding : EncodingType) : Int :=
  if pos = 0 then -1
  else if s = [] then pos - 1
  else if encoding = .utf8 then sequenceStart s (pos - 1).toNat
  else pos - 1

def setBookmark (b : Buffer) (i : Nat) (place : Bookmark) : Buffer :=
  { b with
    bookmark := Function.update b.bookmark i place
    bookmarkMask := b.bookmarkMask ||| (1 <<< i) }

/-- A byte of memory, counted from a pointer on; `behind` is the memory behind the pools. -/
def readByte (behind : Nat → Nat → Byte) (b : CharPools) (p : Ptr) (i : Nat) : Byte :=
  if b.charPoolList.any fun c => c.pool = p.block ∧ p.off + i < c.size then
    b.mem p.block (p.off + i)
  else behind p.block (p.off + i)

/-- `n` bytes of memory from the start of a line on, which may go beyond its end; there are none
when the line is NULL. -/
def memoryOf (behind : Nat → Nat → Byte) (b : Buffer) (ld : Option Nat) (n : Nat) : List Byte :=
  match (ld.bind fun i => b.lineDescList[i]?).bind LineDesc.line with
  | none => []
  | some p => (List.range n).map (readByte behind b.chars p)

/-- The bookmarks that `paste_to_buffer` sets before it inserts the clip.  At the end of a line
`next_pos` reads the byte behind it. -/
def startPaste (behind : Nat → Nat → Byte) (b : Buffer) : Buffer :=
  let line := memoryOf behind b b.curLineDesc (b.curPos + 1).toNat
  let next := if line = [] then b.curPos + 1 else nextPos line b.curPos b.encoding
  let b := setBookmark b pasteStartBookmark ⟨b.curPos, b.curLine, b.curY⟩
  setBookmark b pasteEndBookmark { b.bookmark pasteEndBookmark with pos := next, line := b.curLine }

/-- The bookmark at the end of what has been pasted. -/
def finishPaste (behind : Nat → Nat → Byte) (t : Terminal) (b : Buffer) : Buffer :=
  let start := b.bookmark pasteStartBookmark
  let stop := b.bookmark pasteEndBookmark
  let line := memoryOf behind b (nthLineDesc b stop.line) stop.pos.toNat
  { b with bookmark := Function.update b.bookmark pasteEndBookmark { stop with
      pos := prevPos line stop.pos b.encoding
      curY := min (t.neLines - 2) (start.curY + stop.line - start.line) } }

/-- A clip may be pasted into a buffer. -/
def compatible (clip buffer : EncodingType) : Bool :=
  clip == .ascii || buffer == .ascii || clip == buffer

/-- `paste_to_buffer` -/
def pasteToBuffer (behind : Nat → Nat → Byte) (t : Terminal) (b : Buffer) (clips : List ClipDesc)
    (n : Int) : ClipStatus × Buffer :=
  match getNthClip clips n with
  | none => (.clipDoesntExist, b)
  | some cd =>
      if cd.cs.len = 0 then (.ok, b)
      else if compatible cd.cs.encoding b.encoding then
        let b := if b.encoding = .ascii then { b with encoding := cd.cs.encoding } else b
        let b := startUndoChain (startPaste behind b)
        let line := lineOf b b.curLineDesc
        let b :=
          if (line.length : Int) < b.curPos then
            (insertSpaces b b.curLineDesc b.curLine line.length
              (b.winX + b.curX - calcWidth (display t b) line)).2
          else b
        let b := endUndoChain (insertAtCursor b (streamBytes cd.cs))
        (.ok, finishPaste behind t b)
      else (.incompatibleClipEncoding, b)

end NiceEditor.Clips
