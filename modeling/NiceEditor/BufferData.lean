import NiceEditor.Pools

namespace NiceEditor.BufferData

open NiceEditor.Pools

/-- The return codes of the functions of this development. -/
inductive Status
  | ok
  | error
  | abort
  | outOfMemory
  | outOfMemoryDiskFull
  | ioError
  | nothingToUndo
  | nothingToRedo
  | documentIsReadOnly
  | fileIsDirectory
  | fileIsMigrated
  | cantOpenFile
  | cannotSaveDiskFull
deriving DecidableEq, Repr

inductive EncodingType
  | ascii
  | utf8
  | eightBit
deriving DecidableEq, Repr

/-- The answers the system will give to the requests for memory still to come. -/
abbrev Answers := Nat → Bool

def Answers.rest (answers : Answers) : Answers := fun n => answers (n + 1)

/-- `char_stream`; `stream = none` is the NULL pointer. -/
structure CharStream where
  size : Nat
  len : Nat
  stream : Option (Nat → Byte)
  encoding : EncodingType

/-- `undo_step`: a negative `len` records an insertion, a negative `pos` links
the step to the following one. -/
structure UndoStep where
  line : Int
  pos : Int
  len : Int
deriving DecidableEq, Repr

/-- `undo_buffer` -/
structure UndoBuffer where
  steps : Nat → UndoStep
  streams : Nat → Byte
  redo : CharStream
  stepsSize : Nat
  streamsSize : Nat
  curStep : Nat
  curStream : Nat
  lastStep : Nat
  lastStream : Nat
  lastSaveStep : Int

/-- `options_t` -/
structure Options where
  curClip : Int
  tabSize : Int
  rightMargin : Int
  autoIndent : Bool
  automatch : Nat
  autoPrefs : Bool
  binary : Bool
  caseSearch : Bool
  delTabs : Bool
  doUndo : Bool
  freeForm : Bool
  hexCode : Bool
  insert : Bool
  noFileReq : Bool
  preserveCr : Bool
  readOnly : Bool
  searchBack : Bool
  shiftTabs : Bool
  tabs : Bool
  utf8auto : Bool
  visualBell : Bool
  wordWrap : Bool
deriving DecidableEq, Repr

structure Bookmark where
  pos : Int
  line : Int
  curY : Int
deriving DecidableEq, Repr

/-- The fields of `buffer` that this development uses.  `curLineDesc` and
`topLineDesc` are pointers to nodes of `lineDescList`, given by the place of the
node in the list; a pointer to a node that is on the list no more is `none`. -/
structure Buffer where
  chars : CharPools
  lineDescList : List LineDesc
  curLineDesc : Option Nat
  topLineDesc : Option Nat
  lastDeleted : Option CharStream
  winX : Int
  winY : Int
  curX : Int
  curY : Int
  wantedX : Int
  wantedY : Int
  wantedCurY : Int
  curLine : Int
  curPos : Int
  curChar : Int
  numLines : Int
  blockStartLine : Int
  blockStartPos : Int
  encoding : EncodingType
  undo : UndoBuffer
  bookmark : Nat → Bookmark
  bookmarkMask : Nat
  linkUndos : Int
  isModified : Bool
  marking : Bool
  xWanted : Bool
  yWanted : Bool
  undoing : Bool
  redoing : Bool
  markIsVertical : Bool
  isCRLF : Bool
  opt : Options

/-- The lines of a document. -/
def lines (b : Buffer) : List (List Byte) :=
  b.lineDescList.map (lineBytes b.chars)

def setLine (b : Buffer) (ld : Nat) (d : LineDesc) : Buffer :=
  { b with lineDescList := b.lineDescList.set ld d }

/-- `add`: a node is linked after node `ld`. -/
def addLine (b : Buffer) (ld : Nat) (d : LineDesc) : Buffer :=
  let move := fun i => if ld < i then i + 1 else i
  { b with
    lineDescList := b.lineDescList.insertIdx (ld + 1) d
    curLineDesc := b.curLineDesc.map move
    topLineDesc := b.topLineDesc.map move }

/-- `rem` and `free_line_desc`: node `ld` is unlinked. -/
def remLine (b : Buffer) (ld : Nat) : Buffer :=
  let move := fun i => if i = ld then none else some (if ld < i then i - 1 else i)
  { b with
    lineDescList := b.lineDescList.eraseIdx ld
    curLineDesc := b.curLineDesc.bind move
    topLineDesc := b.topLineDesc.bind move }

def setAnswers (b : Buffer) (answers : Answers) : Buffer :=
  { b with chars := { b.chars with answers := answers } }

/-- The mark, when set, and the set bookmarks are moved by `f`. -/
def movePlaces (b : Buffer) (f : Int → Int → Int × Int) : Buffer :=
  let start := f b.blockStartLine b.blockStartPos
  { b with
    blockStartLine := if b.marking then start.1 else b.blockStartLine
    blockStartPos := if b.marking then start.2 else b.blockStartPos
    bookmark := fun i =>
      if b.bookmarkMask.testBit i then
        let place := f (b.bookmark i).line (b.bookmark i).pos
        { b.bookmark i with line := place.1, pos := place.2 }
      else b.bookmark i }

/-- The options that `alloc_buffer` sets. -/
def defaultOptions (ioUtf8 : Bool) : Options where
  curClip := 0
  tabSize := 8
  rightMargin := 0
  autoIndent := false
  automatch := 1
  autoPrefs := true
  binary := false
  caseSearch := false
  delTabs := false
  doUndo := true
  freeForm := false
  hexCode := false
  insert := true
  noFileReq := false
  preserveCr := false
  readOnly := false
  searchBack := false
  shiftTabs := true
  tabs := true
  utf8auto := ioUtf8
  visualBell := false
  wordWrap := false

/-- `alloc_buffer`; the options of the current buffer are inherited, apart from
`insert`, `read_only` and `search_back`. -/
def allocBuffer (ioUtf8 : Bool) (curB : Option Options) (answers : Answers) : Buffer where
  chars := ⟨fun _ _ => 0, 0, answers, [], 0, 0⟩
  lineDescList := []
  curLineDesc := none
  topLineDesc := none
  lastDeleted := none
  winX := 0
  winY := 0
  curX := 0
  curY := 0
  wantedX := 0
  wantedY := 0
  wantedCurY := 0
  curLine := 0
  curPos := 0
  curChar := 0
  numLines := 0
  blockStartLine := 0
  blockStartPos := 0
  encoding := .ascii
  undo := ⟨fun _ => ⟨0, 0, 0⟩, fun _ => 0, ⟨0, 0, none, .ascii⟩, 0, 0, 0, 0, 0, 0, 0⟩
  bookmark := fun _ => ⟨0, 0, 0⟩
  bookmarkMask := 0
  linkUndos := 0
  isModified := false
  marking := false
  xWanted := false
  yWanted := false
  undoing := false
  redoing := false
  markIsVertical := false
  isCRLF := false
  opt :=
    match curB with
    | none => defaultOptions ioUtf8
    | some opt => { opt with insert := true, readOnly := false, searchBack := false }

end NiceEditor.BufferData
