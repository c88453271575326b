import NiceEditor.CommandLine
import NiceEditor.Navigation
import NiceEditor.Streams

/-!
The execution of command lines (`execute_command_line`, `execute_macro` and
`play_macro` in `command.c`), and the options (`do_action` in `actions.c`).
-/

namespace NiceEditor.Sessions

open NiceEditor.Pools
open NiceEditor.BufferData
open NiceEditor.Encoding
open NiceEditor.UndoSteps
open NiceEditor.Navigation
open NiceEditor.Commands
open NiceEditor.CommandLine
open NiceEditor.Streams

/-- What `do_action` and the functions that execute command lines return. -/
inductive CommandStatus
  | ok | error | stopped
  | parse (e : ParseError)
  | incompatibleCommandEncoding | noSuchCommand | cantOpenMacro | cantOpenFile
  | outOfMemory | maxMacroDepthExceeded
  | tabSizeOutOfRange | escapeTimeOutOfRange | invalidMatchMode
  | invalidBracketedPasteDesignation | syntaxNotEnabled | bufferIsNotUtf8 | prefsStackFull
  | other (code : Nat)
  deriving DecidableEq

/-- A buffer with the fields that only commands use. -/
structure Document where
  buffer : Buffer
  filename : Option (List Byte)
  syn : Option (List Byte)
  bpasteSupport : Nat
  bpasteMacroBefore : Option (List Byte)
  bpasteMacroAfter : Option (List Byte)
  curMacro : List Byte
  execOnlyOptions : Bool
  atomicUndo : Bool
  findStringChanged : Nat

/-- The state of the editor.  `dispatched` lists the actions with which
`do_action` has been called. -/
structure Session where
  documents : Nat → Document
  curBuffer : Nat
  macroTable : List (List Byte × List Byte)
  recordingMacro : Option (List Byte)
  prefStack : List Options
  verboseMacros : Bool
  reqOrder : Bool
  fastGui : Bool
  statusBar : Bool
  ioUtf8 : Bool
  turbo : Int
  escapeTime : Int
  stop : Bool
  dispatched : List Action

/-- What the editor runs in: the terminal, the files, what the user answers, the
conversions of file names, the memory that is granted for the copy of a macro, the
bytes that lie behind that copy (up to a NUL), and `do_action` for the
commands that are neither options nor `NOP`. -/
structure World where
  terminal : Terminal
  bracketedPasteOk : Bool
  doSyntax : Bool
  files : List Byte → Option (List Byte)
  prefsDir : Option (List Byte)
  gprefsDir : Option (List Byte)
  loadSyntax : List Byte → Option (List Byte)
  convertName : List Byte → Int → Option (List Byte)
  requestNumber : Session → Action → Int
  requestString : Session → Action → Option (List Byte)
  granted : Session → Nat → Bool
  behind : List Byte
  others : Nat → Action → Int → Option (List Byte) → Session → CommandStatus × Session

/-- `detect_buffer_encoding` -/
def detectBufferEncoding (b : Buffer) : EncodingType :=
  (lines b).foldl (fun encoding l =>
    match detectEncoding l with
    | .ascii => encoding
    | .eightBit => .eightBit
    | .utf8 => if encoding = .ascii then .utf8 else encoding) .ascii

/-- `SET_USER_FLAG` and `SET_GLOBAL_FLAG`: the new value of a flag. -/
def setFlag (c : Int) (flag : Bool) : Bool := if c < 0 then !flag else c != 0

/-- `NUMERIC_ERROR` -/
def numericError (c : Int) : CommandStatus := if c = -2 then .ok else .parse .notANumber

/-- `MAX_PREF_STACK_SIZE` -/
def maxPrefStackSize : Nat := 32

namespace Session

/-- One of the documents is changed. -/
def setDocument (s : Session) (b : Nat) (f : Document → Document) : Session :=
  { s with documents := Function.update s.documents b (f (s.documents b)) }

/-- The options of one of the documents are changed. -/
def setOpt (s : Session) (b : Nat) (f : Options → Options) : Session :=
  s.setDocument b fun d => { d with buffer := { d.buffer with opt := f d.buffer.opt } }

/-- A stream is added to the macro that is being recorded. -/
def addToRecording (s : Session) (cs : List Byte) : Session :=
  { s with recordingMacro := s.recordingMacro.map (· ++ cs) }

end Session

/-- `push_prefs`, `c` times -/
def pushPrefs (opt : Options) : Nat → Session → CommandStatus × Session
  | 0, s => (.ok, s)
  | c + 1, s =>
      if maxPrefStackSize ≤ s.prefStack.length then (.prefsStackFull, s)
      else pushPrefs opt c { s with prefStack := opt :: s.prefStack }

/-- The two names in the argument of `BracketedPaste`. -/
def bpasteMacros (p : List Byte) : List Byte × List Byte :=
  let q := p.dropWhile (· == 32)
  (q.takeWhile (· != 32),
    ((q.dropWhile (· != 32)).dropWhile (· == 32)).takeWhile (· != 32))

/-- `do_action` for `BracketedPaste`, once the argument is known -/
def setBracketedPaste (s : Session) (b : Nat) (p : List Byte) : CommandStatus × Session :=
  if p = [48] ∨ p = [49] then
    let c := if p = [49] then 1 else 0
    if (s.documents b).bpasteSupport = c then (.ok, s)
    else (.ok, s.setDocument b fun d =>
      { d with bpasteSupport := c, bpasteMacroBefore := none, bpasteMacroAfter := none })
  else
    let (m1, m2) := bpasteMacros p
    if m1 ≠ [] ∧ m2 ≠ [] then
      (.ok, s.setDocument b fun d =>
        { d with bpasteSupport := 2, bpasteMacroBefore := some m1, bpasteMacroAfter := some m2 })
    else (.invalidBracketedPasteDesignation, s)

/-- `do_action` for `UTF8` -/
def setUtf8 (c : Int) (b : Buffer) : CommandStatus × Buffer :=
  let encoding := detectBufferEncoding b
  let finish := fun (new : EncodingType) =>
    moveToSol { b with
      encoding := new
      undo := if b.encoding = new then b.undo else resetUndoBuffer b.undo }
  if (c < 0 ∧ b.encoding ≠ .utf8) ∨ 0 < c then
    if encoding = .ascii ∨ encoding = .utf8 then (.ok, finish .utf8)
    else (.bufferIsNotUtf8, b)
  else (.ok, finish (if encoding = .ascii then .ascii else .eightBit))

/-- `do_action` for `Record` -/
def record (s : Session) (b : Nat) (c : Int) : CommandStatus × Session :=
  match s.recordingMacro with
  | some cs =>
      if c < 0 then
        (.ok, { s.setDocument b fun d => { d with curMacro := cs } with recordingMacro := none })
      else if c = 0 then (.ok, { s with recordingMacro := none })
      else (.error, s)
  | none =>
      if c = 1 then (.ok, { s with recordingMacro := some (s.documents b).curMacro })
      else if c < 0 then (.ok, { s with recordingMacro := some [] })
      else (.error, s)

/-- `do_action` for `Mark` and `MarkVert` -/
def mark (vertical : Bool) (c : Int) (b : Buffer) : Buffer :=
  let c := if c < 0 then 1 else c
  if c = 0 then { b with marking := false }
  else { b with
    marking := true
    markIsVertical := vertical
    blockStartLine := b.curLine
    blockStartPos := b.curPos }

/-- A number that the user is asked for if there is none. -/
def numberArgument (w : World) (s : Session) (a : Action) (c : Int) : Int :=
  if c < 0 then w.requestNumber s a else c

/-- The same for a number that is converted to `int` before it is checked. -/
def intArgument (w : World) (s : Session) (a : Action) (c : Int) : Int :=
  if toInt32 c < 0 then w.requestNumber s a else c

/-- `do_action`, for the options and `NOP`; the other commands are in `others`. -/
def doOption (w : World) (s : Session) (b : Nat) (a : Action) (c : Int)
    (p : Option (List Byte)) : CommandStatus × Session :=
  let flag := setFlag c
  let number := numberArgument w s a c
  let intNumber := intArgument w s a c
  match a with
  | .autoIndentA => (.ok, s.setOpt b fun o => { o with autoIndent := flag o.autoIndent })
  | .autoMatchBracketA =>
      if (c < 0 ∧ number < 0) ∨ 15 < number then
        (if number = -2 then .ok else .invalidMatchMode, s)
      else (.ok, s.setOpt b fun o => { o with automatch := number.toNat })
  | .autoPrefsA => (.ok, s.setOpt b fun o => { o with autoPrefs := flag o.autoPrefs })
  | .binaryA => (.ok, s.setOpt b fun o => { o with binary := flag o.binary })
  | .bracketedPasteA =>
      if ¬ w.bracketedPasteOk then (.ok, s)
      else match if p.all (fun q => q.head? == some 63) then w.requestString s a else p with
        | some q => setBracketedPaste s b q
        | none => (.ok, s)
  | .caseSearchA =>
      (.ok, (s.setOpt b fun o => { o with caseSearch := flag o.caseSearch }).setDocument b
        fun d => { d with findStringChanged := 1 })
  | .clipNumberA =>
      if toInt32 intNumber < 0 then (numericError intNumber, s)
      else (.ok, s.setOpt b fun o => { o with curClip := toInt32 intNumber })
  | .crlfA => (.ok, s.setDocument b fun d =>
      { d with buffer := { d.buffer with isCRLF := flag d.buffer.isCRLF } })
  | .delTabsA => (.ok, s.setOpt b fun o => { o with delTabs := flag o.delTabs })
  | .doUndoA =>
      let s := s.setOpt b fun o => { o with doUndo := flag o.doUndo }
      if (s.documents b).buffer.opt.doUndo then (.ok, s)
      else (.ok, s.setDocument b fun d =>
        { d with
          buffer := { d.buffer with undo := resetUndoBuffer d.buffer.undo }
          atomicUndo := false })
  | .escapeTimeA =>
      if c < 0 ∧ number < 0 then (numericError number, s)
      else if number < 256 then (.ok, { s with escapeTime := number })
      else (.escapeTimeOutOfRange, s)
  | .fastGUIA => (.ok, { s with fastGui := flag s.fastGui })
  | .freeFormA => (.ok, s.setOpt b fun o => { o with freeForm := flag o.freeForm })
  | .hexCodeA => (.ok, s.setOpt b fun o => { o with hexCode := flag o.hexCode })
  | .insertA => (.ok, s.setOpt b fun o => { o with insert := flag o.insert })
  | .markA => (.ok, s.setDocument b fun d => { d with buffer := mark false c d.buffer })
  | .markVertA => (.ok, s.setDocument b fun d => { d with buffer := mark true c d.buffer })
  | .modifiedA => (.ok, s.setDocument b fun d =>
      { d with buffer := { d.buffer with isModified := flag d.buffer.isModified } })
  | .nameConvertA => (.ok, s.setDocument b fun d =>
      { d with filename := d.filename.map fun f => (w.convertName f c).getD f })
  | .noFileReqA => (.ok, s.setOpt b fun o => { o with noFileReq := flag o.noFileReq })
  | .nopA => (.ok, s)
  | .preserveCRA => (.ok, s.setOpt b fun o => { o with preserveCr := flag o.preserveCr })
  | .pushPrefsA =>
      pushPrefs (s.documents b).buffer.opt (if c < 0 then 1 else c.toNat) s
  | .readOnlyA => (.ok, s.setOpt b fun o => { o with readOnly := flag o.readOnly })
  | .recordA => record s b c
  | .requestOrderA => (.ok, { s with reqOrder := flag s.reqOrder })
  | .rightMarginA =>
      if toInt32 intNumber < 0 then (numericError intNumber, s)
      else (.ok, s.setOpt b fun o => { o with rightMargin := toInt32 intNumber })
  | .searchBackA =>
      (.ok, (s.setOpt b fun o => { o with searchBack := flag o.searchBack }).setDocument b
        fun d => { d with findStringChanged := 1 })
  | .shiftTabsA => (.ok, s.setOpt b fun o => { o with shiftTabs := flag o.shiftTabs })
  | .statusBarA => (.ok, { s with statusBar := flag s.statusBar })
  | .syntaxA =>
      if ¬ w.doSyntax then (.syntaxNotEnabled, s)
      else match p.orElse fun _ => w.requestString s a with
        | none => (.error, s)
        | some q =>
            if q = [42] then (.ok, s.setDocument b fun d => { d with syn := none })
            else match w.loadSyntax q with
              | some name => (.ok, s.setDocument b fun d => { d with syn := some name })
              | none => (.error, s)
  | .tabsA => (.ok, s.setOpt b fun o => { o with tabs := flag o.tabs })
  | .tabSizeA =>
      if c < 0 ∧ number ≤ 0 then (numericError number, s)
      else if number < w.terminal.neColumns / 2 then
        (.ok, s.setDocument b fun d =>
          let sol := moveToSol d.buffer
          let buffer := { sol with opt := { sol.opt with tabSize := number } }
          { d with buffer := gotoPos w.terminal buffer d.buffer.curPos })
      else (.tabSizeOutOfRange, s)
  | .turboA =>
      if toInt32 intNumber < 0 then (numericError intNumber, s)
      else (.ok, { s with turbo := toInt32 intNumber })
  | .utf8A =>
      let (status, buffer) := setUtf8 c (s.documents b).buffer
      (status, s.setDocument b fun d => { d with buffer := buffer })
  | .utf8AutoA => (.ok, s.setOpt b fun o => { o with utf8auto := flag o.utf8auto })
  | .utf8IOA => (.ok, { s with ioUtf8 := flag s.ioUtf8 })
  | .verboseMacrosA => (.ok, { s with verboseMacros := flag s.verboseMacros })
  | .visualBellA => (.ok, s.setOpt b fun o => { o with visualBell := flag o.visualBell })
  | .wordWrapA => (.ok, s.setOpt b fun o => { o with wordWrap := flag o.wordWrap })
  | _ => w.others b a c p s

/-- `do_action` -/
def doAction (w : World) (s : Session) (b : Nat) (x : Parsed) : CommandStatus × Session :=
  doOption w { s with
    stop := false
    recordingMacro := s.recordingMacro.map fun cs =>
      recordAction cs x.action x.number x.string s.verboseMacros
    dispatched := s.dispatched ++ [x.action] } b x.action x.number x.string

/-- `MACRO_HASH_TABLE_SIZE` -/
def macroHashTableSize : Int := 101

/-- `hash_macro` -/
def hashMacro (s : List Byte) : Int :=
  (s.foldr (fun c h => (h * 31 + ((asciiUpCase c).toNat : Int)).tmod macroHashTableSize) (-1) +
    macroHashTableSize).tmod macroHashTableSize

/-- `file_part` -/
def filePart (pathname : List Byte) : List Byte :=
  (pathname.reverse.takeWhile (· != 47)).reverse

/-- The macro of the table that has the given name. -/
def findMacro (s : Session) (p : List Byte) : Option (List Byte × List Byte) :=
  s.macroTable.find? fun md => hashMacro md.1 == hashMacro p && cmdcmp md.1 p

/-- `load_macro` -/
def loadMacro (w : World) (s : Session) (name : List Byte) :
    Option ((List Byte × List Byte) × Session) :=
  let inPrefs := w.prefsDir.bind fun dir => w.files (dir ++ name)
  let inGprefs := w.gprefsDir.bind fun dir => w.files (dir ++ (bytes "macros/" ++ name))
  match (w.files name).orElse fun _ => inPrefs.orElse fun _ => inGprefs with
  | none => none
  | some file =>
      -- The last line may not be terminated.
      let md := (filePart name, loadStream false file ++ [0])
      some (md, { s with macroTable := s.macroTable ++ [md] })

/-- The loop of `play_macro` over the lines of the copy of the macro, which is
at the start of `mem`.  The places of the lines that have been executed are
returned, too.  Every turn passes a byte at least, so `len` turns are enough. -/
def playLines {σ : Type} (stop : σ → Bool) (exec : List Byte → σ → CommandStatus × σ)
    (mem : List Byte) (len : Nat) : Nat → Nat → σ → CommandStatus × σ × List Nat
  | 0, _, s => (.ok, s, [])
  | turns + 1, p, s =>
      if stop s ∨ len ≤ p then (.ok, s, [])
      else
        let line := cString mem p
        let (status, s) := exec line s
        if status ≠ .ok then (status, s, [p])
        else
          let (status, s, places) :=
            playLines stop exec mem len turns (p + line.length + 1) s
          (status, s, p :: places)

/-- The loop of `play_macro` over the repetitions. -/
def playTimes {σ : Type} (stop : σ → Bool) (exec : List Byte → σ → CommandStatus × σ)
    (mem : List Byte) (len : Nat) : Nat → σ → CommandStatus × σ × List (List Nat)
  | 0, s => (.ok, s, [])
  | c + 1, s =>
      if stop s then (.ok, s, [])
      else
        let (status, s, places) := playLines stop exec mem len len 0 s
        if status ≠ .ok then (status, s, [places])
        else
          let (status, s, rest) := playTimes stop exec mem len c s
          (status, s, places :: rest)

/-- `execute_macro`, with the function that plays a macro once -/
def executeMacro (w : World) (play : List Byte → Session → CommandStatus × Session)
    (s : Session) (name : List Byte) : CommandStatus × Session :=
  let found := match findMacro s (filePart name) with
    | some md => some (md, s)
    | none => loadMacro w s name
  match found with
  | none => (.cantOpenMacro, s)
  | some (md, s) =>
      let s := s.addToRecording (bytes "# include macro " ++ md.1 ++ [0])
      let (rc, s) := play md.2 s
      (rc, s.addToRecording (bytes "# conclude macro " ++ md.1 ++ [0]))

/-- `execute_command_line`, with the function that plays a macro once -/
def executeCommandLine (w : World) (play : List Byte → Session → CommandStatus × Session)
    (b : Nat) (commandLine : List Byte) (s : Session) : CommandStatus × Session :=
  let encoding := detectEncoding commandLine
  let d := s.documents b
  if d.buffer.encoding ≠ .ascii ∧ encoding ≠ .ascii ∧ d.buffer.encoding ≠ encoding then
    (.incompatibleCommandEncoding, s)
  else match parseCommandLine commandLine d.execOnlyOptions with
    | .ok x => doAction w s b x
    | .error .noSuchCommand =>
        let (rc, s) := executeMacro w play s commandLine
        (if rc = .cantOpenMacro then .noSuchCommand else rc, s)
    | .error e => (.parse e, s)

attribute [grind =] doOption playLines executeCommandLine

/-- `play_macro`; `room` is 32 less the depth of the calls. -/
def playMacro (w : World) : Nat → List Byte → Int → Session → CommandStatus × Session
  | room, cs, c, s =>
      if cs.length < 2 ∨ c < 1 then (.ok, s)
      else if ¬ w.granted s cs.length then (.outOfMemory, s)
      else match room with
        | 0 => (.maxMacroDepthExceeded, s)
        | room + 1 =>
            let exec := fun line (s : Session) =>
              executeCommandLine w (fun cs s => playMacro w room cs 1 s) s.curBuffer line s
            let (status, s, _) := playTimes Session.stop exec (cs ++ w.behind) cs.length c.toNat
              { s with stop := false }
            (if s.stop then .stopped else status, s)

/-- `load_prefs` -/
def loadPrefs (w : World) (room : Nat) (s : Session) (b : Nat) (name : List Byte) :
    CommandStatus × Session :=
  let setExecOnlyOptions := fun (flag : Bool) (s : Session) =>
    s.setDocument b fun d => { d with execOnlyOptions := flag }
  let s := setExecOnlyOptions true s
  match w.files name with
  | none => (.cantOpenFile, setExecOnlyOptions false s)
  | some file =>
      let (status, s) := playMacro w room (loadStream false file) 1 s
      (status, setExecOnlyOptions false s)

end NiceEditor.Sessions
