import NiceEditor.Sessions

/-!
The preferences file (`save_prefs` in `prefs.c` and `cur_bracketed_paste_value` in
`support.c`).
-/

namespace NiceEditor.Preferences

open NiceEditor.Pools
open NiceEditor.BufferData
open NiceEditor.Commands
open NiceEditor.CommandLine
open NiceEditor.Streams
open NiceEditor.Sessions

/-- `MAX_MESSAGE_SIZE` -/
def maxMessageSize : Nat := 1024

/-- `cur_bracketed_paste_value`, unless it writes beyond the end of its buffer -/
def curBracketedPasteValue (d : Document) : Option (List Byte) :=
  if d.bpasteSupport < 1 then some [48]
  else if d.bpasteSupport = 1 then some [49]
  else
    let value := d.bpasteMacroBefore.getD [] ++ 32 :: d.bpasteMacroAfter.getD []
    if value.length ≤ maxMessageSize then some value else none

/-- The value of a flag in a command. -/
def flagValue (flag : Bool) : Int := if flag then 1 else 0

/-- The options that are saved as numbers, in their order. -/
def savedFlags (o : Options) : List (Action × Int) :=
  [(.tabSizeA, o.tabSize),
    (.rightMarginA, o.rightMargin),
    (.freeFormA, flagValue o.freeForm),
    (.hexCodeA, flagValue o.hexCode),
    (.wordWrapA, flagValue o.wordWrap),
    (.autoIndentA, flagValue o.autoIndent),
    (.preserveCRA, flagValue o.preserveCr),
    (.insertA, flagValue o.insert),
    (.doUndoA, flagValue o.doUndo),
    (.autoPrefsA, flagValue o.autoPrefs),
    (.noFileReqA, flagValue o.noFileReq),
    (.caseSearchA, flagValue o.caseSearch),
    (.tabsA, flagValue o.tabs),
    (.delTabsA, flagValue o.delTabs),
    (.shiftTabsA, flagValue o.shiftTabs),
    (.autoMatchBracketA, o.automatch),
    (.binaryA, flagValue o.binary),
    (.utf8AutoA, flagValue o.utf8auto),
    (.visualBellA, flagValue o.visualBell)]

/-- The global flags that are saved with the default preferences when they differ from
their defaults. -/
def savedGlobals (s : Session) : List (Action × Int) :=
  (if s.reqOrder then [(.requestOrderA, flagValue s.reqOrder)] else []) ++
    ((if s.fastGui then [(.fastGUIA, flagValue s.fastGui)] else []) ++
      ((if s.statusBar then [] else [(.statusBarA, flagValue s.statusBar)]) ++
        (if s.verboseMacros then [] else [(.verboseMacrosA, flagValue s.verboseMacros)])))

/-- The commands that `save_prefs` records for a document. -/
def savedCommands (w : World) (s : Session) (d : Document) (savingDefaults : Bool) :
    Option (List Parsed) := do
  let value ← if w.bracketedPasteOk then
      (curBracketedPasteValue d).map fun value => [⟨.bracketedPasteA, -1, some value⟩]
    else some []
  let syntaxName : List Parsed := match d.syn with
    | some name => if savingDefaults then [] else [⟨.syntaxA, -1, some name⟩]
    | none => []
  let numbers := fun (l : List (Action × Int)) => l.map fun x => (⟨x.1, x.2, none⟩ : Parsed)
  some (syntaxName ++ (numbers (savedFlags d.buffer.opt) ++
    (value ++ (if savingDefaults then numbers (savedGlobals s) else []))))

/-- `save_prefs`: the file that it writes. -/
def savePrefs (w : World) (s : Session) (b : Nat) (savingDefaults : Bool) :
    Option (List Byte) := do
  let d := s.documents b
  let commands ← savedCommands w s d savingDefaults
  let cs := commands.foldl (fun cs x => recordAction cs x.action x.number x.string s.verboseMacros)
    []
  some (saveStream cs d.buffer.isCRLF)

end NiceEditor.Preferences
