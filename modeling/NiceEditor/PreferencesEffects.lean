import NiceEditor.OptionsOnly
import NiceEditor.PreferencesText

namespace NiceEditor.PreferencesEffects

open NiceEditor.Pools
open NiceEditor.BufferData
open NiceEditor.Encoding
open NiceEditor.UndoSteps
open NiceEditor.Navigation
open NiceEditor.Commands
open NiceEditor.CommandLine
open NiceEditor.RecordedCommands
open NiceEditor.Streams
open NiceEditor.Sessions
open NiceEditor.OptionsOnly
open NiceEditor.Preferences
open NiceEditor.PreferencesText

/-- The fields for bracketed paste. -/
def pasteFields (d : Document) : Nat × Option (List Byte) × Option (List Byte) :=
  (d.bpasteSupport, d.bpasteMacroBefore, d.bpasteMacroAfter)

/-- The options of the current document have been changed by `f`, and its other fields that
a preferences file depends on are as they were. -/
structure Applied (f : Options → Options) (s s' : Session) : Prop where
  curBuffer : s'.curBuffer = s.curBuffer
  stop : s'.stop = false
  opt : (s'.documents s.curBuffer).buffer.opt = f (s.documents s.curBuffer).buffer.opt
  encoding : (s'.documents s.curBuffer).buffer.encoding = (s.documents s.curBuffer).buffer.encoding
  flag : (s'.documents s.curBuffer).execOnlyOptions = (s.documents s.curBuffer).execOnlyOptions
  paste : pasteFields (s'.documents s.curBuffer) = pasteFields (s.documents s.curBuffer)

variable {w : World} {s s' s'' : Session} {a : Action} {c : Int} {f g : Options → Options}
variable {status : CommandStatus} {x : Parsed} {p : Option (List Byte)}

theorem Applied.trans (h : Applied f s s') (h' : Applied g s' s'') :
    Applied (fun o => g (f o)) s s'' := by
  obtain ⟨hcur, hstop, hopt, hencoding, hflag, hpaste⟩ := h'
  rw [h.curBuffer] at hcur hopt hencoding hflag hpaste
  exact ⟨hcur, hstop, by rw [hopt, h.opt], hencoding.trans h.encoding, hflag.trans h.flag,
    hpaste.trans h.paste⟩

theorem applied_setDocument {change : Document → Document} (hstop : s.stop = false)
    (h : ∀ d, (change d).buffer.opt = f d.buffer.opt ∧
      (change d).buffer.encoding = d.buffer.encoding ∧
      (change d).execOnlyOptions = d.execOnlyOptions ∧ pasteFields (change d) = pasteFields d) :
    Applied f s (status, s.setDocument s.curBuffer change).2 := by
  obtain ⟨hopt, hencoding, hflag, hpaste⟩ := h (s.documents s.curBuffer)
  have hdocument : (s.setDocument s.curBuffer change).documents s.curBuffer =
      change (s.documents s.curBuffer) := by simp [Session.setDocument]
  exact ⟨rfl, hstop, by rw [hdocument, hopt], by rw [hdocument, hencoding],
    by rw [hdocument, hflag], by rw [hdocument, hpaste]⟩

theorem applied_setOpt (hstop : s.stop = false) :
    Applied f s (status, s.setOpt s.curBuffer f).2 :=
  applied_setDocument hstop fun _ => ⟨rfl, rfl, rfl, rfl⟩

theorem applied_setFlag (hstop : s.stop = false) (h : ∀ o, g o = f o) :
    Applied f s (status, s.setOpt s.curBuffer g).2 := by
  obtain rfl : g = f := funext h
  exact applied_setOpt hstop

theorem applied_of_eq (hcur : s'.curBuffer = s.curBuffer) (hdocuments : s'.documents = s.documents)
    (hstop : s'.stop = false) : Applied id s s' := by
  refine ⟨hcur, hstop, ?_, ?_, ?_, ?_⟩
  all_goals rw [hdocuments]
  rfl

theorem gotoPos_kept (t : Terminal) (b : Buffer) (pos : Int) :
    (gotoPos t b pos).opt = b.opt ∧ (gotoPos t b pos).encoding = b.encoding := by
  unfold gotoPos
  dsimp only
  repeat' split
  all_goals exact ⟨rfl, rfl⟩

/-- The options with one of the saved numbers in it. -/
def setSaved : Action → Int → Options → Options
  | .tabSizeA, c, o => { o with tabSize := c }
  | .rightMarginA, c, o => { o with rightMargin := c }
  | .freeFormA, c, o => { o with freeForm := c != 0 }
  | .hexCodeA, c, o => { o with hexCode := c != 0 }
  | .wordWrapA, c, o => { o with wordWrap := c != 0 }
  | .autoIndentA, c, o => { o with autoIndent := c != 0 }
  | .preserveCRA, c, o => { o with preserveCr := c != 0 }
  | .insertA, c, o => { o with insert := c != 0 }
  | .doUndoA, c, o => { o with doUndo := c != 0 }
  | .autoPrefsA, c, o => { o with autoPrefs := c != 0 }
  | .noFileReqA, c, o => { o with noFileReq := c != 0 }
  | .caseSearchA, c, o => { o with caseSearch := c != 0 }
  | .tabsA, c, o => { o with tabs := c != 0 }
  | .delTabsA, c, o => { o with delTabs := c != 0 }
  | .shiftTabsA, c, o => { o with shiftTabs := c != 0 }
  | .autoMatchBracketA, c, o => { o with automatch := c.toNat }
  | .binaryA, c, o => { o with binary := c != 0 }
  | .utf8AutoA, c, o => { o with utf8auto := c != 0 }
  | .visualBellA, c, o => { o with visualBell := c != 0 }
  | _, _, o => o

/-- The numbers that the commands accept. -/
def Fits (neColumns : Int) : Action → Int → Prop
  | .tabSizeA, c => c < neColumns / 2
  | .rightMarginA, c => c ≤ 2147483647
  | .autoMatchBracketA, c => c ≤ 15
  | _, _ => True

theorem setFlag_of_nonneg (hc : 0 ≤ c) (flag : Bool) : setFlag c flag = (c != 0) := by
  rw [setFlag, if_neg (by omega)]

theorem toInt32_of_le (hc : 0 ≤ c) (hmax : c ≤ 2147483647) : toInt32 c = c := by
  rw [toInt32, Int.bmod_eq_of_le_mul_two (by omega) (by omega)]

theorem applied_reset (hstop : s.stop = false) :
    Applied id s (s.setDocument s.curBuffer fun d =>
      { d with
        buffer := { d.buffer with undo := resetUndoBuffer d.buffer.undo }
        atomicUndo := false }) :=
  @applied_setDocument s id .ok (fun d =>
    { d with
      buffer := { d.buffer with undo := resetUndoBuffer d.buffer.undo }
      atomicUndo := false }) hstop fun _ => ⟨rfl, rfl, rfl, rfl⟩

theorem doAction_of_doOption {r : CommandStatus × Session} (hf : ∀ s₁ : Session,
    s₁.curBuffer = s.curBuffer → s₁.documents = s.documents → s₁.stop = false →
    doOption w s₁ s₁.curBuffer x.action x.number x.string = r → r.1 = status ∧ Applied f s₁ r.2)
    (hr : doAction w s s.curBuffer x = r) : r.1 = status ∧ Applied f s r.2 := by
  obtain ⟨s₁, hs₁⟩ : ∃ s₁ : Session, s₁ = { s with
    stop := false
    recordingMacro := s.recordingMacro.map fun cs =>
      recordAction cs x.action x.number x.string s.verboseMacros
    dispatched := s.dispatched ++ [x.action] } := ⟨_, rfl⟩
  have hcur : s₁.curBuffer = s.curBuffer := by rw [hs₁]
  have hdocuments : s₁.documents = s.documents := by rw [hs₁]
  have hstop : s₁.stop = false := by rw [hs₁]
  obtain ⟨hstatus, happlied⟩ := hf s₁ hcur hdocuments hstop (by
    rw [hcur, hs₁]
    exact hr)
  exact ⟨hstatus, (applied_of_eq hcur hdocuments hstop).trans happlied⟩

/-- The command sets the saved number. -/
def SetsSaved (w : World) (s : Session) (a : Action) (c : Int) : Prop :=
  (doOption w s s.curBuffer a c none).1 = .ok ∧
    Applied (setSaved a c) s (doOption w s s.curBuffer a c none).2

theorem setsSaved_tabSize (hc : 0 ≤ c) (hlt : c < w.terminal.neColumns / 2)
    (hstop : s.stop = false) : SetsSaved w s .tabSizeA c := by
  have hneg : ¬ c < 0 := by omega
  simp only [SetsSaved, doOption, numberArgument, hneg, false_and, if_false]
  rw [if_pos hlt]
  refine ⟨rfl, applied_setDocument hstop fun d => ⟨?_, ?_, rfl, rfl⟩⟩
  · rw [(gotoPos_kept _ _ _).1]
    rfl
  · rw [(gotoPos_kept _ _ _).2]
    rfl

theorem setsSaved_rightMargin (hc : 0 ≤ c) (hmax : c ≤ 2147483647) (hstop : s.stop = false) :
    SetsSaved w s .rightMarginA c := by
  have hneg : ¬ c < 0 := by omega
  simp only [SetsSaved, doOption, intArgument, toInt32_of_le hc hmax, hneg, if_false]
  exact ⟨trivial, @applied_setOpt s _ .ok hstop⟩

theorem setsSaved_autoMatchBracket (hc : 0 ≤ c) (hmax : c ≤ 15) (hstop : s.stop = false) :
    SetsSaved w s .autoMatchBracketA c := by
  have hneg : ¬ c < 0 := by omega
  have h15 : ¬ 15 < c := by omega
  simp only [SetsSaved, doOption, numberArgument, hneg, h15, false_and, if_false, or_self]
  exact ⟨trivial, @applied_setOpt s _ .ok hstop⟩

theorem setsSaved_doUndo (hc : 0 ≤ c) (hstop : s.stop = false) : SetsSaved w s .doUndoA c := by
  have hset : Applied (setSaved .doUndoA c) s (CommandStatus.ok,
      s.setOpt s.curBuffer fun o => { o with doUndo := setFlag c o.doUndo }).2 :=
    applied_setFlag hstop fun o => by simp only [setFlag_of_nonneg hc, setSaved]
  simp only [SetsSaved, doOption]
  split
  · exact ⟨rfl, hset⟩
  · exact ⟨rfl, hset.trans (applied_reset hset.stop)⟩

theorem setsSaved_caseSearch (hc : 0 ≤ c) (hstop : s.stop = false) :
    SetsSaved w s .caseSearchA c := by
  have hset : Applied (setSaved .caseSearchA c) s (CommandStatus.ok,
      s.setOpt s.curBuffer fun o => { o with caseSearch := setFlag c o.caseSearch }).2 :=
    applied_setFlag hstop fun o => by simp only [setFlag_of_nonneg hc, setSaved]
  exact ⟨rfl, hset.trans (@applied_setDocument _ id .ok
    (fun d => { d with findStringChanged := 1 }) hset.stop fun d => ⟨rfl, rfl, rfl, rfl⟩)⟩

theorem setsSaved {o : Options} (ha : (a, c) ∈ savedFlags o) (hc : 0 ≤ c)
    (hfits : Fits w.terminal.neColumns a c) (hstop : s.stop = false) : SetsSaved w s a c := by
  simp only [savedFlags, List.mem_cons, Prod.mk.injEq, List.not_mem_nil, or_false] at ha
  rcases ha with ⟨rfl, -⟩ | ⟨rfl, -⟩ | ⟨rfl, -⟩ | ⟨rfl, -⟩ | ⟨rfl, -⟩ | ⟨rfl, -⟩ | ⟨rfl, -⟩ |
    ⟨rfl, -⟩ | ⟨rfl, -⟩ | ⟨rfl, -⟩ | ⟨rfl, -⟩ | ⟨rfl, -⟩ | ⟨rfl, -⟩ | ⟨rfl, -⟩ | ⟨rfl, -⟩ |
    ⟨rfl, -⟩ | ⟨rfl, -⟩ | ⟨rfl, -⟩ | ⟨rfl, -⟩
  all_goals
    first
      | exact setsSaved_tabSize hc hfits hstop
      | exact setsSaved_rightMargin hc hfits hstop
      | exact setsSaved_autoMatchBracket hc hfits hstop
      | exact setsSaved_doUndo hc hstop
      | exact setsSaved_caseSearch hc hstop
      | exact ⟨rfl, applied_setFlag hstop fun o => by simp only [setFlag_of_nonneg hc, setSaved]⟩

/-- The line that is recorded for an option is parsed back, and can be parsed in every
document. -/
structure Readable (verbose : Bool) (x : Parsed) : Prop where
  parse : parseCommandLine (recordedLine verbose x) true = .ok x
  ascii : ∀ b ∈ recordedLine verbose x, b < 0x80
  oneLine : OneLine (recordedLine verbose x)

theorem names_ascii : ∀ a ∈ actions,
    (∀ b ∈ bytes (commands a).name, b < 0x80 ∧ b ≠ 0 ∧ b ≠ 10 ∧ b ≠ 13) ∧
      ∀ b ∈ bytes (commands a).shortName, b < 0x80 ∧ b ≠ 0 ∧ b ≠ 10 ∧ b ≠ 13 := by
  have hnames : (actions.all fun a => (bytes (commands a).name).all fun b =>
      decide (b < 0x80 ∧ b ≠ 0 ∧ b ≠ 10 ∧ b ≠ 13)) = true := by decide +kernel
  have hshort : (actions.all fun a => (bytes (commands a).shortName).all fun b =>
      decide (b < 0x80 ∧ b ≠ 0 ∧ b ≠ 10 ∧ b ≠ 13)) = true := by decide +kernel
  simp only [List.all_eq_true, decide_eq_true_eq] at hnames hshort
  exact fun a ha => ⟨hnames a ha, hshort a ha⟩

theorem recordedName_ascii (a : Action) (verbose : Bool) :
    ∀ b ∈ recordedName a verbose, b < 0x80 ∧ b ≠ 0 ∧ b ≠ 10 ∧ b ≠ 13 := by
  have hname := names_ascii a (mem_actions a)
  cases verbose with
  | false => exact hname.2
  | true => exact hname.1

theorem readable_of (hoption : a.has .isOption = true)
    (hparse : parseCommand a ((recordedArgument c p).dropWhile isAsciiSpace) false = .ok ⟨a, c, p⟩)
    (hargument : ∀ b ∈ recordedArgument c p, b < 0x80 ∧ b ≠ 0 ∧ b ≠ 10 ∧ b ≠ 13)
    (verbose : Bool) : Readable verbose ⟨a, c, p⟩ := by
  have hall : ∀ b ∈ recordedLine verbose ⟨a, c, p⟩, b < 0x80 ∧ b ≠ 0 ∧ b ≠ 10 ∧ b ≠ 13 := by
    intro b hb
    rcases List.mem_append.mp hb with hb | hb
    · exact recordedName_ascii a verbose b hb
    · exact hargument b hb
  refine ⟨?_, fun b hb => (hall b hb).1, fun h => (hall 0 h).2.1 rfl,
    fun h => (hall 10 h).2.2.1 rfl,
    fun h => (hall 13 h).2.2.2 rfl⟩
  rw [recordedLine, parseCommandLine_name recordedArgument_head true, ← hparse]
  simp [parseCommand, hoption]

theorem digit_ascii : ∀ b : Byte, isDigit b = true → b < 0x80 ∧ b ≠ 0 ∧ b ≠ 10 ∧ b ≠ 13 := by
  intro b h
  simp only [isDigit, Bool.and_eq_true, decide_eq_true_eq] at h
  grind

theorem readable_number (hoption : a.has .isOption = true) (hargs : a.has .noArgs = false)
    (hstring : a.has .argIsString = false) (hc : 0 ≤ c) (hmax : c ≤ int64Max) (verbose : Bool) :
    Readable verbose ⟨a, c, none⟩ := by
  have hrecordable : Recordable a c none := .inr ⟨hc, by simp [hargs], by simp [hstring]⟩
  refine readable_of hoption ((parse_recorded_number hc hmax).mpr hrecordable) ?_ verbose
  intro b hb
  rw [recordedArgument, if_pos hc] at hb
  rcases List.mem_cons.mp hb with rfl | hb
  · decide
  · exact digit_ascii b (decimal_digit b hb)

theorem readable_string {q : List Byte} (hoption : a.has .isOption = true)
    (hstring : a.has .argIsString = true) (hempty : q = [] → a.has .emptyStringOk = true)
    (hquoted : ¬ Quoted q) (hq : ∀ b ∈ q, b < 0x80 ∧ b ≠ 0 ∧ b ≠ 10 ∧ b ≠ 13) (verbose : Bool) :
    Readable verbose ⟨a, -1, some q⟩ := by
  have hrecordable : Recordable a (-1) (some q) := ⟨rfl, hstring, hempty, hquoted⟩
  refine readable_of hoption ((parse_recorded_string (by omega)).mpr hrecordable) ?_ verbose
  intro b hb
  simp only [recordedArgument] at hb
  rw [if_neg (by omega)] at hb
  have hquote : (34 : Byte) < 0x80 ∧ (34 : Byte) ≠ 0 ∧ (34 : Byte) ≠ 10 ∧
      (34 : Byte) ≠ 13 := by decide
  have hspace : (32 : Byte) < 0x80 ∧ (32 : Byte) ≠ 0 ∧ (32 : Byte) ≠ 10 ∧
      (32 : Byte) ≠ 13 := by decide
  split at hb
  · simp only [List.mem_cons, List.mem_append, List.not_mem_nil, or_false] at hb
    rcases hb with rfl | rfl | hb | rfl
    · exact hspace
    · exact hquote
    · exact hq b hb
    · exact hquote
  · rcases List.mem_cons.mp hb with rfl | hb
    · exact hspace
    · exact hq b hb

/-- The executor of the lines of a preferences file. -/
def execLine (w : World) (play : List Byte → Session → CommandStatus × Session)
    (line : List Byte) (s : Session) : CommandStatus × Session :=
  executeCommandLine w play s.curBuffer line s

variable {play : List Byte → Session → CommandStatus × Session} {verbose : Bool}

theorem execLine_eq {line : List Byte} (play : List Byte → Session → CommandStatus × Session)
    (hflag : (s.documents s.curBuffer).execOnlyOptions = true)
    (hparse : parseCommandLine line true = .ok x) (hascii : ∀ b ∈ line, b < 0x80) :
    execLine w play line s = doAction w s s.curBuffer x := by
  have hencoding := (detectEncoding_eq_ascii_iff line).mpr hascii
  simp only [execLine, executeCommandLine, hencoding, hflag]
  rw [if_neg (by simp), hparse]

/-- A command succeeds and changes the options of the current document by `f`. -/
def Applies (w : World) (x : Parsed) (f : Options → Options) : Prop :=
  ∀ s : Session, s.stop = false →
    (doOption w s s.curBuffer x.action x.number x.string).1 = .ok ∧
      Applied f s (doOption w s s.curBuffer x.action x.number x.string).2

theorem execLine_applied (play : List Byte → Session → CommandStatus × Session)
    (hx : Readable verbose x) (hf : Applies w x f)
    (hflag : (s.documents s.curBuffer).execOnlyOptions = true) :
    (execLine w play (recordedLine verbose x) s).1 = .ok ∧
      Applied f s (execLine w play (recordedLine verbose x) s).2 := by
  rw [execLine_eq play hflag hx.parse hx.ascii]
  refine doAction_of_doOption (fun s₁ _ _ hstop hr => ?_) rfl
  rw [← hr]
  exact hf s₁ hstop

theorem runLines_applied {xs : List Parsed} {F : Parsed → Options → Options}
    (play : List Byte → Session → CommandStatus × Session)
    (hreadable : ∀ x ∈ xs, Readable verbose x) (hF : ∀ x ∈ xs, Applies w x (F x))
    (hstop : s.stop = false) (hflag : (s.documents s.curBuffer).execOnlyOptions = true) :
    (runLines Session.stop (execLine w play) (xs.map (recordedLine verbose)) s).1 = .ok ∧
      Applied (fun o => xs.foldl (fun o x => F x o) o) s
        (runLines Session.stop (execLine w play) (xs.map (recordedLine verbose)) s).2 := by
  induction xs generalizing s with
  | nil => exact ⟨rfl, rfl, hstop, rfl, rfl, rfl, rfl⟩
  | cons x xs ih =>
      obtain ⟨hok, happlied⟩ := execLine_applied (w := w) play
        (hreadable x List.mem_cons_self) (hF x List.mem_cons_self) hflag
      have hflag' : ((execLine w play (recordedLine verbose x) s).2.documents
          (execLine w play (recordedLine verbose x) s).2.curBuffer).execOnlyOptions = true := by
        rw [happlied.curBuffer, happlied.flag, hflag]
      obtain ⟨hrest, happlied'⟩ := ih (fun y hy => hreadable y (List.mem_cons_of_mem x hy))
        (fun y hy => hF y (List.mem_cons_of_mem x hy)) happlied.stop hflag'
      have hrun : runLines Session.stop (execLine w play) ((x :: xs).map (recordedLine verbose)) s =
          runLines Session.stop (execLine w play) (xs.map (recordedLine verbose))
            (execLine w play (recordedLine verbose x) s).2 := by
        rw [List.map_cons, runLines, if_neg (by simp [hstop]), if_neg (by simp [hok])]
      rw [hrun]
      exact ⟨hrest, happlied.trans happlied'⟩

end NiceEditor.PreferencesEffects
