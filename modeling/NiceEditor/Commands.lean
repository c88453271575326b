import NiceEditor.Pools

/-!
The table of the commands (`command.c`).  The names and the hash tables are
those that `info2src.pl` makes from `ne.texinfo`.
-/

namespace NiceEditor.Commands

open NiceEditor.Pools

/-- `action` (`enums.h`) -/
inductive Action
  | aboutA | adjustViewA | alertA | atomicUndoA | autoCompleteA | autoIndentA | autoMatchBracketA
  | autoPrefsA | backspaceA | beepA | binaryA | bracketedPasteA | capitalizeA | caseSearchA
  | centerA | clearA | clipNumberA | closeDocA | copyA | crlfA | cutA | deleteCharA | deleteEOLA
  | deleteLineA | deleteNextWordA | deletePrevWordA | delTabsA | doUndoA | eraseA | escapeA
  | escapeTimeA | execA | exitA | fastGUIA | findA | findRegExpA | flagsA | flashA | freeFormA
  | gotoBookmarkA | gotoColumnA | gotoLineA | gotoMarkA | helpA | hexCodeA | insertA
  | insertCharA | insertLineA | insertStringA | insertTabA | keyCodeA | lineDownA | lineUpA
  | loadAutoPrefsA | loadPrefsA | macroA | markA | markVertA | matchBracketA | modifiedA
  | moveBOSA | moveEOFA | moveEOLA | moveEOWA | moveIncDownA | moveIncUpA | moveLeftA
  | moveRightA | moveSOFA | moveSOLA | moveTOSA | nameConvertA | newDocA | nextDocA | nextPageA
  | nextWordA | noFileReqA | nopA | openA | openClipA | openMacroA | openNewA | pageDownA
  | pageUpA | paragraphA | pasteA | pasteVertA | playA | popPrefsA | preserveCRA | prevDocA
  | prevPageA | prevWordA | pushPrefsA | quitA | readOnlyA | recordA | redoA | refreshA
  | repeatLastA | replaceA | replaceAllA | replaceOnceA | requestOrderA | rightMarginA | saveA
  | saveAllA | saveAsA | saveAutoPrefsA | saveClipA | saveDefPrefsA | saveMacroA | savePrefsA
  | searchBackA | selectDocA | setBookmarkA | shiftA | shiftTabsA | statusBarA | suspendA
  | syntaxA | systemA | tabsA | tabSizeA | throughA | toggleSEOFA | toggleSEOLA | toLowerA
  | toUpperA | turboA | undelLineA | undoA | unloadMacrosA | unsetBookmarkA | utf8A | utf8AutoA
  | utf8IOA | verboseMacrosA | visualBellA | wordWrapA
  deriving DecidableEq

/-- The flags of a command. -/
inductive Flag
  | noArgs | argIsString | isOption | doNotRecord | emptyStringOk
  deriving DecidableEq

/-- `command` -/
structure Command where
  name : String
  shortName : String
  flags : List Flag

/-- `commands` -/
def commands : Action → Command
  | .aboutA => ⟨"About", "About", [.noArgs]⟩
  | .adjustViewA => ⟨"AdjustView", "AV", [.argIsString]⟩
  | .alertA => ⟨"Alert", "AL", [.noArgs]⟩
  | .atomicUndoA => ⟨"AtomicUndo", "AU", [.argIsString, .emptyStringOk]⟩
  | .autoCompleteA => ⟨"AutoComplete", "AC", [.argIsString, .emptyStringOk]⟩
  | .autoIndentA => ⟨"AutoIndent", "AI", [.isOption]⟩
  | .autoMatchBracketA => ⟨"AutoMatchBracket", "AMB", [.isOption]⟩
  | .autoPrefsA => ⟨"AutoPrefs", "AP", [.isOption]⟩
  | .backspaceA => ⟨"Backspace", "BS", []⟩
  | .beepA => ⟨"Beep", "BE", [.noArgs]⟩
  | .binaryA => ⟨"Binary", "B", [.isOption]⟩
  | .bracketedPasteA => ⟨"BracketedPaste", "BP", [.argIsString, .isOption, .emptyStringOk]⟩
  | .capitalizeA => ⟨"Capitalize", "CA", []⟩
  | .caseSearchA => ⟨"CaseSearch", "CS", [.isOption]⟩
  | .centerA => ⟨"Center", "CE", []⟩
  | .clearA => ⟨"Clear", "CL", [.noArgs]⟩
  | .clipNumberA => ⟨"ClipNumber", "CN", [.isOption]⟩
  | .closeDocA => ⟨"CloseDoc", "CD", [.noArgs]⟩
  | .copyA => ⟨"Copy", "C", []⟩
  | .crlfA => ⟨"CRLF", "CRLF", [.isOption]⟩
  | .cutA => ⟨"Cut", "CU", []⟩
  | .deleteCharA => ⟨"DeleteChar", "DC", []⟩
  | .deleteEOLA => ⟨"DeleteEOL", "DE", [.noArgs]⟩
  | .deleteLineA => ⟨"DeleteLine", "DL", []⟩
  | .deleteNextWordA => ⟨"DeleteNextWord", "DNW", []⟩
  | .deletePrevWordA => ⟨"DeletePrevWord", "DPW", []⟩
  | .delTabsA => ⟨"DelTabs", "DT", [.isOption]⟩
  | .doUndoA => ⟨"DoUndo", "DU", [.isOption]⟩
  | .eraseA => ⟨"Erase", "E", []⟩
  | .escapeA => ⟨"Escape", "ESC", [.doNotRecord]⟩
  | .escapeTimeA => ⟨"EscapeTime", "ET", [.isOption]⟩
  | .execA => ⟨"Exec", "EX", [.argIsString, .doNotRecord]⟩
  | .exitA => ⟨"Exit", "X", [.noArgs]⟩
  | .fastGUIA => ⟨"FastGUI", "FG", [.isOption]⟩
  | .findA => ⟨"Find", "F", [.argIsString]⟩
  | .findRegExpA => ⟨"FindRegExp", "FX", [.argIsString]⟩
  | .flagsA => ⟨"Flags", "FLAG", [.noArgs, .doNotRecord]⟩
  | .flashA => ⟨"Flash", "FL", [.noArgs]⟩
  | .freeFormA => ⟨"FreeForm", "FF", [.isOption]⟩
  | .gotoBookmarkA => ⟨"GotoBookmark", "GBM", [.argIsString, .emptyStringOk]⟩
  | .gotoColumnA => ⟨"GotoColumn", "GC", []⟩
  | .gotoLineA => ⟨"GotoLine", "GL", []⟩
  | .gotoMarkA => ⟨"GotoMark", "GM", [.noArgs]⟩
  | .helpA => ⟨"Help", "H", [.argIsString, .doNotRecord]⟩
  | .hexCodeA => ⟨"HexCode", "HC", [.isOption]⟩
  | .insertA => ⟨"Insert", "I", [.isOption]⟩
  | .insertCharA => ⟨"InsertChar", "IC", []⟩
  | .insertLineA => ⟨"InsertLine", "IL", []⟩
  | .insertStringA => ⟨"InsertString", "IS", [.argIsString]⟩
  | .insertTabA => ⟨"InsertTab", "IT", []⟩
  | .keyCodeA => ⟨"KeyCode", "KC", [.doNotRecord]⟩
  | .lineDownA => ⟨"LineDown", "LD", []⟩
  | .lineUpA => ⟨"LineUp", "LU", []⟩
  | .loadAutoPrefsA => ⟨"LoadAutoPrefs", "LAP", [.noArgs]⟩
  | .loadPrefsA => ⟨"LoadPrefs", "LP", [.argIsString]⟩
  | .macroA => ⟨"Macro", "MA", [.argIsString, .doNotRecord]⟩
  | .markA => ⟨"Mark", "M", [.isOption]⟩
  | .markVertA => ⟨"MarkVert", "MV", [.isOption]⟩
  | .matchBracketA => ⟨"MatchBracket", "MB", [.noArgs]⟩
  | .modifiedA => ⟨"Modified", "MOD", [.isOption]⟩
  | .moveBOSA => ⟨"MoveBOS", "BOS", [.noArgs]⟩
  | .moveEOFA => ⟨"MoveEOF", "EOF", [.noArgs]⟩
  | .moveEOLA => ⟨"MoveEOL", "EOL", [.noArgs]⟩
  | .moveEOWA => ⟨"MoveEOW", "EOW", [.argIsString, .emptyStringOk]⟩
  | .moveIncDownA => ⟨"MoveIncDown", "MID", [.noArgs]⟩
  | .moveIncUpA => ⟨"MoveIncUp", "MIU", [.noArgs]⟩
  | .moveLeftA => ⟨"MoveLeft", "ML", []⟩
  | .moveRightA => ⟨"MoveRight", "MR", []⟩
  | .moveSOFA => ⟨"MoveSOF", "SOF", [.noArgs]⟩
  | .moveSOLA => ⟨"MoveSOL", "SOL", [.noArgs]⟩
  | .moveTOSA => ⟨"MoveTOS", "TOS", [.noArgs]⟩
  | .nameConvertA => ⟨"NameConvert", "NC", [.isOption]⟩
  | .newDocA => ⟨"NewDoc", "N", [.noArgs]⟩
  | .nextDocA => ⟨"NextDoc", "ND", [.noArgs]⟩
  | .nextPageA => ⟨"NextPage", "NP", []⟩
  | .nextWordA => ⟨"NextWord", "NW", [.argIsString, .emptyStringOk]⟩
  | .noFileReqA => ⟨"NoFileReq", "NFR", [.isOption]⟩
  | .nopA => ⟨"NOP", "NOP", [.noArgs]⟩
  | .openA => ⟨"Open", "O", [.argIsString]⟩
  | .openClipA => ⟨"OpenClip", "OC", [.argIsString]⟩
  | .openMacroA => ⟨"OpenMacro", "OM", [.argIsString]⟩
  | .openNewA => ⟨"OpenNew", "ON", [.argIsString]⟩
  | .pageDownA => ⟨"PageDown", "PDN", []⟩
  | .pageUpA => ⟨"PageUp", "PUP", []⟩
  | .paragraphA => ⟨"Paragraph", "PA", []⟩
  | .pasteA => ⟨"Paste", "P", []⟩
  | .pasteVertA => ⟨"PasteVert", "PV", []⟩
  | .playA => ⟨"Play", "PL", [.doNotRecord]⟩
  | .popPrefsA => ⟨"PopPrefs", "POPP", []⟩
  | .preserveCRA => ⟨"PreserveCR", "PCR", [.isOption]⟩
  | .prevDocA => ⟨"PrevDoc", "PD", [.noArgs]⟩
  | .prevPageA => ⟨"PrevPage", "PP", []⟩
  | .prevWordA => ⟨"PrevWord", "PW", [.argIsString, .emptyStringOk]⟩
  | .pushPrefsA => ⟨"PushPrefs", "PUSHP", [.isOption]⟩
  | .quitA => ⟨"Quit", "Q", [.doNotRecord]⟩
  | .readOnlyA => ⟨"ReadOnly", "RO", [.isOption]⟩
  | .recordA => ⟨"Record", "REC", [.isOption, .doNotRecord]⟩
  | .redoA => ⟨"Redo", "RE", []⟩
  | .refreshA => ⟨"Refresh", "REF", [.noArgs]⟩
  | .repeatLastA => ⟨"RepeatLast", "RL", [.argIsString, .emptyStringOk]⟩
  | .replaceA => ⟨"Replace", "R", [.argIsString, .emptyStringOk]⟩
  | .replaceAllA => ⟨"ReplaceAll", "RA", [.argIsString, .emptyStringOk]⟩
  | .replaceOnceA => ⟨"ReplaceOnce", "R1", [.argIsString, .emptyStringOk]⟩
  | .requestOrderA => ⟨"RequestOrder", "RQO", [.isOption]⟩
  | .rightMarginA => ⟨"RightMargin", "RM", [.isOption]⟩
  | .saveA => ⟨"Save", "S", [.noArgs]⟩
  | .saveAllA => ⟨"SaveAll", "SL", [.noArgs]⟩
  | .saveAsA => ⟨"SaveAs", "SA", [.argIsString]⟩
  | .saveAutoPrefsA => ⟨"SaveAutoPrefs", "SAP", [.noArgs]⟩
  | .saveClipA => ⟨"SaveClip", "SC", [.argIsString]⟩
  | .saveDefPrefsA => ⟨"SaveDefPrefs", "SDP", [.noArgs]⟩
  | .saveMacroA => ⟨"SaveMacro", "SM", [.argIsString]⟩
  | .savePrefsA => ⟨"SavePrefs", "SP", [.argIsString]⟩
  | .searchBackA => ⟨"SearchBack", "SB", [.isOption]⟩
  | .selectDocA => ⟨"SelectDoc", "SD", []⟩
  | .setBookmarkA => ⟨"SetBookmark", "SBM", [.argIsString, .emptyStringOk]⟩
  | .shiftA => ⟨"Shift", "SH", [.argIsString, .emptyStringOk]⟩
  | .shiftTabsA => ⟨"ShiftTabs", "SHT", [.isOption]⟩
  | .statusBarA => ⟨"StatusBar", "ST", [.isOption]⟩
  | .suspendA => ⟨"Suspend", "SU", [.noArgs]⟩
  | .syntaxA => ⟨"Syntax", "SY", [.argIsString, .isOption]⟩
  | .systemA => ⟨"System", "SYS", [.argIsString]⟩
  | .tabsA => ⟨"Tabs", "TAB", [.isOption]⟩
  | .tabSizeA => ⟨"TabSize", "TS", [.isOption]⟩
  | .throughA => ⟨"Through", "T", [.argIsString]⟩
  | .toggleSEOFA => ⟨"ToggleSEOF", "TSEOF", [.noArgs]⟩
  | .toggleSEOLA => ⟨"ToggleSEOL", "TSEOL", [.noArgs]⟩
  | .toLowerA => ⟨"ToLower", "TL", []⟩
  | .toUpperA => ⟨"ToUpper", "TU", []⟩
  | .turboA => ⟨"Turbo", "TUR", [.isOption]⟩
  | .undelLineA => ⟨"UndelLine", "UL", []⟩
  | .undoA => ⟨"Undo", "U", []⟩
  | .unloadMacrosA => ⟨"UnloadMacros", "UM", [.noArgs]⟩
  | .unsetBookmarkA => ⟨"UnsetBookmark", "UBM", [.argIsString, .emptyStringOk]⟩
  | .utf8A => ⟨"UTF8", "U8", [.isOption]⟩
  | .utf8AutoA => ⟨"UTF8Auto", "U8A", [.isOption]⟩
  | .utf8IOA => ⟨"UTF8IO", "U8IO", [.isOption]⟩
  | .verboseMacrosA => ⟨"VerboseMacros", "VM", [.isOption]⟩
  | .visualBellA => ⟨"VisualBell", "VB", [.isOption]⟩
  | .wordWrapA => ⟨"WordWrap", "WW", [.isOption]⟩

namespace Action

/-- The flag is one of the flags of the command. -/
def has (a : Action) (flag : Flag) : Bool := (commands a).flags.contains flag

end Action

/-- The bytes of a C string. -/
def bytes (s : String) : List Byte := s.toUTF8.data.toList

/-- `isasciispace` -/
def isAsciiSpace (c : Byte) : Bool := c == 32 || (9 ≤ c && c ≤ 13)

/-- `isalpha` -/
def isAlpha (c : Byte) : Bool := (65 ≤ c && c ≤ 90) || (97 ≤ c && c ≤ 122)

/-- `ascii_up_case` (`search.c`) -/
def asciiUpCase (c : Byte) : Byte := if 97 ≤ c ∧ c ≤ 122 then c - 32 else c

theorem forall_byte {P : Byte → Prop} (h : ∀ n < 256, P (.ofNat n)) (c : Byte) : P c := by
  have hc := h c.toNat c.toNat_lt
  rwa [UInt8.ofNat_toNat] at hc

theorem isAsciiSpace_upCase (c : Byte) : isAsciiSpace (asciiUpCase c) = isAsciiSpace c := by
  revert c
  exact forall_byte (by decide +kernel)

/-- `HASH_TABLE_SIZE` (`hash.h`): the first prime from 1500 on without conflicts. -/
def hashTableSize : Int := 3361

/-- One step of the loop of `hash_cmd`, which goes from the last character to the first. -/
def hashStep (c : Byte) (h : Int) : Int :=
  (h * 31 + (asciiUpCase c).toNat).tmod hashTableSize

/-- `hash_cmd` -/
def hashCmd (s : List Byte) : Int :=
  (s.foldr hashStep (-1) + hashTableSize).tmod hashTableSize

/-- `ACTION_COUNT` -/
def actionCount : Nat := 140

/-- The actions in the order of the table. -/
def actions : List Action := (List.range actionCount).map Action.ofNat

/-- `hash_table` (`hash.c`): the command whose name has the given code. -/
def hashTable (h : Int) : Option Action :=
  actions.find? fun a => hashCmd (bytes (commands a).name) == h

/-- `short_hash_table` (`hash.c`): the command whose short name has the given code. -/
def shortHashTable (h : Int) : Option Action :=
  actions.find? fun a => hashCmd (bytes (commands a).shortName) == h

/-- `cmdcmp`, which is true when the line `m` starts with the command `c`. -/
def cmdcmp : List Byte → List Byte → Bool
  | [], [] => true
  | [], m :: _ => isAsciiSpace m
  | _ :: _, [] => false
  | c :: cs, m :: ms => asciiUpCase c == asciiUpCase m && cmdcmp cs ms

/-- The command whose name or short name is the first word of the line. -/
def findCommand (line : List Byte) : Option Action :=
  let h := hashCmd (line.takeWhile fun c => !isAsciiSpace c)
  match hashTable h with
  | some a =>
      if cmdcmp (bytes (commands a).name) line then some a
      else (shortHashTable h).filter fun a => cmdcmp (bytes (commands a).shortName) line
  | none => (shortHashTable h).filter fun a => cmdcmp (bytes (commands a).shortName) line

variable {c m word rest : List Byte}

theorem mem_actions (a : Action) : a ∈ actions := by
  cases a <;> decide

theorem cmdcmp_append (hc : ∀ x ∈ c, isAsciiSpace x = false)
    (hword : ∀ x ∈ word, isAsciiSpace x = false) (hrest : ∀ x ∈ rest.head?, isAsciiSpace x = true) :
    cmdcmp c (word ++ rest) = cmdcmp c word := by
  induction word generalizing c with
  | nil =>
      cases c with
      | nil =>
          cases rest with
          | nil => rfl
          | cons x rest => exact hrest x rfl
      | cons y c =>
          cases rest with
          | nil => rfl
          | cons x rest =>
              have hy := hc y List.mem_cons_self
              have hx := hrest x rfl
              have hne : asciiUpCase y ≠ asciiUpCase x := by
                intro heq
                rw [← isAsciiSpace_upCase, heq, isAsciiSpace_upCase, hx] at hy
                exact Bool.noConfusion hy
              simp [cmdcmp, hne]
  | cons x word ih =>
      cases c with
      | nil =>
          have hx := hword x List.mem_cons_self
          simp [cmdcmp, hx]
      | cons y c =>
          simp only [List.cons_append, cmdcmp]
          rw [ih (fun z hz => hc z (List.mem_cons_of_mem _ hz))
            fun z hz => hword z (List.mem_cons_of_mem _ hz)]

theorem names_not_space : ∀ a ∈ actions,
    (∀ x ∈ bytes (commands a).name, isAsciiSpace x = false) ∧
      ∀ x ∈ bytes (commands a).shortName, isAsciiSpace x = false := by
  -- the kernel is faster over `Bool` than over instances
  have hnames : (actions.all fun a => (bytes (commands a).name).all fun x => !isAsciiSpace x) =
      true := by decide +kernel
  have hshort : (actions.all fun a => (bytes (commands a).shortName).all fun x => !isAsciiSpace x) =
      true := by decide +kernel
  simp only [List.all_eq_true, Bool.not_eq_true'] at hnames hshort
  exact fun a ha => ⟨hnames a ha, hshort a ha⟩

theorem findCommand_names : ∀ a ∈ actions,
    findCommand (bytes (commands a).name) = some a ∧
      findCommand (bytes (commands a).shortName) = some a := by
  have hnames : (actions.all fun a => decide (findCommand (bytes (commands a).name) = some a)) =
      true := by decide +kernel
  have hshort : (actions.all fun a =>
      decide (findCommand (bytes (commands a).shortName) = some a)) = true := by decide +kernel
  simp only [List.all_eq_true, decide_eq_true_eq] at hnames hshort
  exact fun a ha => ⟨hnames a ha, hshort a ha⟩

end NiceEditor.Commands
