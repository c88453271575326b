import NiceEditor.PreferencesEffects
import NiceEditor.StreamWalks

namespace NiceEditor.PreferencesRoundTrip

open NiceEditor.Pools
open NiceEditor.LineText
open NiceEditor.BufferData
open NiceEditor.Encoding
open NiceEditor.Navigation
open NiceEditor.Commands
open NiceEditor.CommandLine
open NiceEditor.RecordedCommands
open NiceEditor.Streams
open NiceEditor.Sessions
open NiceEditor.OptionsOnly
open NiceEditor.Preferences
open NiceEditor.PreferencesText
open NiceEditor.PreferencesEffects

/-- The name of a macro in the setting of `BracketedPaste`. -/
def IsMacroName (m : List Byte) : Prop := m ≠ [] ∧ 32 ∉ m ∧ 0 ∉ m

/-- What the commands keep true of the options of a document. -/
structure ValidOptions (d : Document) : Prop where
  tabSize_pos : 0 < d.buffer.opt.tabSize
  tabSize_le : d.buffer.opt.tabSize ≤ 2147483647
  rightMargin_nonneg : 0 ≤ d.buffer.opt.rightMargin
  rightMargin_le : d.buffer.opt.rightMargin ≤ 2147483647
  automatch_le : d.buffer.opt.automatch ≤ 15
  paste : d.bpasteSupport ≤ 1 ∨ d.bpasteSupport = 2 ∧ ∃ m₁ m₂,
    d.bpasteMacroBefore = some m₁ ∧ d.bpasteMacroAfter = some m₂ ∧ IsMacroName m₁ ∧ IsMacroName m₂

/-- The setting of `BracketedPaste`, with its macros if they are used. -/
def pasteSetting (d : Document) : Nat × Option (List Byte) × Option (List Byte) :=
  if d.bpasteSupport = 2 then pasteFields d else (d.bpasteSupport, none, none)

/-- The options that `save_prefs` writes. -/
def savedOptions (bracketedPasteOk : Bool) (d : Document) :
    Options × Option (Nat × Option (List Byte) × Option (List Byte)) :=
  ({ d.buffer.opt with curClip := 0, readOnly := false, searchBack := false },
    if bracketedPasteOk then some (pasteSetting d) else none)

/-- The saved options are restored in every current document of every session, whatever the
user answers, on a window of the same size, if the files and the terminal are the same. -/
def RoundTrips (w : World) (s : Session) (b : Nat) (savingDefaults : Bool) : Prop :=
  ∃ file, savePrefs w s b savingDefaults = some file ∧
    ∀ (w' : World) (t : Session) (room : Nat) (name : List Byte),
      w'.terminal.neColumns = w.terminal.neColumns → w'.bracketedPasteOk = w.bracketedPasteOk →
      w'.doSyntax = w.doSyntax → w'.loadSyntax = w.loadSyntax → w'.files name = some file →
      (∀ s n, w'.granted s n = true) →
      savedOptions w.bracketedPasteOk
          ((loadPrefs w' (room + 1) t t.curBuffer name).2.documents t.curBuffer) =
        savedOptions w.bracketedPasteOk (s.documents b)

/-- The names of the two macros as `save_prefs` writes them. -/
def pasteValue (d : Document) : List Byte :=
  d.bpasteMacroBefore.getD [] ++ 32 :: d.bpasteMacroAfter.getD []

/-- The names of the macros can be read back. -/
structure PasteFits (d : Document) : Prop where
  length_le : (pasteValue d).length ≤ maxMessageSize
  no_request : (pasteValue d).head? ≠ some 63
  no_quotes : ¬ Quoted (pasteValue d)
  ascii : ∀ b ∈ pasteValue d, b < 0x80
  oneLine : 10 ∉ pasteValue d ∧ 13 ∉ pasteValue d

/-- The syntax, if it is saved, can be loaded under its name. -/
def SyntaxLoads (w : World) (d : Document) (savingDefaults : Bool) : Prop :=
  savingDefaults = true ∨ ∀ name ∈ d.syn, w.doSyntax = true ∧ name ≠ [] ∧ ¬ Quoted name ∧
    (∀ b ∈ name, b < 0x80 ∧ b ≠ 0 ∧ b ≠ 10 ∧ b ≠ 13) ∧
      (name = [42] ∨ (w.loadSyntax name).isSome = true)

variable {w : World} {s s' t : Session} {a : Action} {c : Int} {d : Document} {v : List Byte}
variable {savingDefaults verbose : Bool} {b : Nat}
variable {play : List Byte → Session → CommandStatus × Session}

theorem savedFlags_flags {o : Options} (h : (a, c) ∈ savedFlags o) :
    a.has .isOption = true ∧ a.has .noArgs = false ∧ a.has .argIsString = false ∧
      a.has .doNotRecord = false ∧ a ≠ .nopA := by
  simp only [savedFlags, List.mem_cons, Prod.mk.injEq, List.not_mem_nil, or_false] at h
  rcases h with ⟨rfl, -⟩ | ⟨rfl, -⟩ | ⟨rfl, -⟩ | ⟨rfl, -⟩ | ⟨rfl, -⟩ | ⟨rfl, -⟩ | ⟨rfl, -⟩ |
    ⟨rfl, -⟩ | ⟨rfl, -⟩ | ⟨rfl, -⟩ | ⟨rfl, -⟩ | ⟨rfl, -⟩ | ⟨rfl, -⟩ | ⟨rfl, -⟩ | ⟨rfl, -⟩ |
    ⟨rfl, -⟩ | ⟨rfl, -⟩ | ⟨rfl, -⟩ | ⟨rfl, -⟩
  all_goals decide

theorem flagValue_bounds (flag : Bool) : 0 ≤ flagValue flag ∧ flagValue flag ≤ 1 := by
  cases flag <;> decide

theorem flagValue_ne_zero (flag : Bool) : (flagValue flag != 0) = flag := by
  cases flag <;> rfl

theorem savedFlags_fits (hd : ValidOptions d) (h : (a, c) ∈ savedFlags d.buffer.opt) :
    0 ≤ c ∧ c ≤ 2147483647 ∧ (a = .tabSizeA → c = d.buffer.opt.tabSize) ∧
      ∀ columns : Int, (a = .tabSizeA → c < columns / 2) → Fits columns a c := by
  have htab := hd.tabSize_pos
  have htab' := hd.tabSize_le
  have hmargin := hd.rightMargin_nonneg
  have hmargin' := hd.rightMargin_le
  have hmatch := hd.automatch_le
  simp only [savedFlags, List.mem_cons, Prod.mk.injEq, List.not_mem_nil, or_false] at h
  rcases h with ⟨rfl, rfl⟩ | ⟨rfl, rfl⟩ | ⟨rfl, rfl⟩ | ⟨rfl, rfl⟩ | ⟨rfl, rfl⟩ | ⟨rfl, rfl⟩ |
    ⟨rfl, rfl⟩ | ⟨rfl, rfl⟩ | ⟨rfl, rfl⟩ | ⟨rfl, rfl⟩ | ⟨rfl, rfl⟩ | ⟨rfl, rfl⟩ | ⟨rfl, rfl⟩ |
    ⟨rfl, rfl⟩ | ⟨rfl, rfl⟩ | ⟨rfl, rfl⟩ | ⟨rfl, rfl⟩ | ⟨rfl, rfl⟩ | ⟨rfl, rfl⟩
  case inl => exact ⟨by omega, htab', fun _ => rfl, fun _ h => h rfl⟩
  case inr.inl => exact ⟨hmargin, hmargin', fun h => absurd h (by decide), fun _ _ => hmargin'⟩
  all_goals
    first
      | exact ⟨by omega, by omega, fun h => absurd h (by decide),
          fun _ _ => by simpa [Fits] using hmatch⟩
      | exact ⟨(flagValue_bounds _).1, (flagValue_bounds _).2.trans (by decide),
          fun h => absurd h (by decide), fun _ _ => trivial⟩

theorem foldl_setSaved (o o' : Options) :
    (savedFlags o).foldl (fun t x => setSaved x.1 x.2 t) o' =
      { o with curClip := o'.curClip, readOnly := o'.readOnly, searchBack := o'.searchBack } := by
  simp [savedFlags, setSaved, flagValue_ne_zero]

/-- The commands for the numbers -/
def numbersOf (o : Options) : List Parsed := (savedFlags o).map fun x => ⟨x.1, x.2, none⟩

theorem numbersOf_readable (hd : ValidOptions d) :
    ∀ x ∈ numbersOf d.buffer.opt, Readable verbose x := by
  intro x hx
  obtain ⟨⟨a, c⟩, hac, rfl⟩ := List.mem_map.mp hx
  obtain ⟨hoption, hargs, hstring, -⟩ := savedFlags_flags hac
  obtain ⟨hc, hmax, -⟩ := savedFlags_fits hd hac
  exact readable_number hoption hargs hstring hc (hmax.trans (by decide)) verbose

theorem numbersOf_applies (hd : ValidOptions d)
    (htab : d.buffer.opt.tabSize < w.terminal.neColumns / 2) :
    ∀ x ∈ numbersOf d.buffer.opt, Applies w x (setSaved x.action x.number) := by
  intro x hx
  obtain ⟨⟨a, c⟩, hac, rfl⟩ := List.mem_map.mp hx
  obtain ⟨hc, -, htabSize, hfits⟩ := savedFlags_fits hd hac
  intro s hstop
  exact setsSaved hac hc (hfits _ fun ha => (htabSize ha).symm ▸ htab) hstop

/-- The command for the syntax -/
def syntaxOf (d : Document) (savingDefaults : Bool) : List Parsed :=
  match d.syn with
  | some name => if savingDefaults then [] else [⟨.syntaxA, -1, some name⟩]
  | none => []

/-- The commands for the global flags -/
def globalsOf (s : Session) (savingDefaults : Bool) : List Parsed :=
  if savingDefaults then (savedGlobals s).map fun x => ⟨x.1, x.2, none⟩ else []

/-- The command for the setting of `BracketedPaste` -/
def pasteCommand (v : List Byte) : Parsed := ⟨.bracketedPasteA, -1, some v⟩

theorem savedCommands_eq {xs : List Parsed} (h : savedCommands w s d savingDefaults = some xs) :
    (w.bracketedPasteOk = false ∧ xs = syntaxOf d savingDefaults ++
        (numbersOf d.buffer.opt ++ globalsOf s savingDefaults)) ∨
      w.bracketedPasteOk = true ∧ ∃ v, curBracketedPasteValue d = some v ∧
        xs = syntaxOf d savingDefaults ++
          (numbersOf d.buffer.opt ++ (pasteCommand v :: globalsOf s savingDefaults)) := by
  cases hok : w.bracketedPasteOk with
  | false =>
      refine .inl ⟨rfl, ?_⟩
      simp only [savedCommands, hok, Bool.false_eq_true, if_false, Option.bind_eq_bind,
        Option.bind_some, Option.some_inj] at h
      exact h.symm
  | true =>
      refine .inr ⟨rfl, ?_⟩
      simp only [savedCommands, hok, if_true, Option.bind_eq_bind, Option.bind_eq_some_iff,
        Option.map_eq_some_iff, Option.some_inj] at h
      obtain ⟨_, ⟨v, hv, rfl⟩, hxs⟩ := h
      exact ⟨v, hv, hxs.symm⟩

theorem savedGlobals_flags (h : (a, c) ∈ savedGlobals s) :
    a.has .isOption = true ∧ a.has .noArgs = false ∧ a.has .argIsString = false ∧
      a.has .doNotRecord = false ∧ a ≠ .nopA ∧ 0 ≤ c ∧ c ≤ 1 := by
  have hbounds := flagValue_bounds
  simp only [savedGlobals, List.mem_append] at h
  rcases h with h | h | h | h
  all_goals
    split at h
    all_goals
      simp only [List.mem_singleton, Prod.mk.injEq, List.not_mem_nil] at h
    obtain ⟨rfl, rfl⟩ := h
    exact ⟨by decide, by decide, by decide, by decide, by decide, hbounds _⟩

/-- Every command that is saved is recorded. -/
theorem savedCommands_recorded {xs : List Parsed}
    (h : savedCommands w s d savingDefaults = some xs) :
    ∀ x ∈ xs, x.action.has .doNotRecord = false ∧ x.action ≠ .nopA := by
  have hloads : ∀ x ∈ syntaxOf d savingDefaults,
      x.action.has .doNotRecord = false ∧ x.action ≠ .nopA := by
    intro x hx
    unfold syntaxOf at hx
    split at hx
    · split at hx
      · cases hx
      · rw [List.mem_singleton.mp hx]
        exact ⟨rfl, by simp⟩
    · cases hx
  have hnumbers : ∀ x ∈ numbersOf d.buffer.opt,
      x.action.has .doNotRecord = false ∧ x.action ≠ .nopA := by
    intro x hx
    obtain ⟨⟨a, c⟩, hac, rfl⟩ := List.mem_map.mp hx
    obtain ⟨-, -, -, hrecord, hnop⟩ := savedFlags_flags hac
    exact ⟨hrecord, hnop⟩
  have hglobals : ∀ x ∈ globalsOf s savingDefaults,
      x.action.has .doNotRecord = false ∧ x.action ≠ .nopA := by
    intro x hx
    unfold globalsOf at hx
    split at hx
    · obtain ⟨⟨a, c⟩, hac, rfl⟩ := List.mem_map.mp hx
      obtain ⟨-, -, -, hrecord, hnop, -⟩ := savedGlobals_flags hac
      exact ⟨hrecord, hnop⟩
    · cases hx
  intro x hx
  rcases savedCommands_eq h with ⟨-, rfl⟩ | ⟨-, v, -, rfl⟩
  · simp only [List.mem_append] at hx
    rcases hx with hx | hx | hx
    · exact hloads x hx
    · exact hnumbers x hx
    · exact hglobals x hx
  · simp only [List.mem_append, List.mem_cons] at hx
    rcases hx with hx | hx | rfl | hx
    · exact hloads x hx
    · exact hnumbers x hx
    · exact ⟨rfl, by simp [pasteCommand]⟩
    · exact hglobals x hx

theorem savePrefs_eq {file : List Byte} (h : savePrefs w s b savingDefaults = some file) :
    ∃ xs, savedCommands w s (s.documents b) savingDefaults = some xs ∧
      file = saveStream (textBefore 0 (xs.map (recordedLine s.verboseMacros)))
        (s.documents b).buffer.isCRLF := by
  simp only [savePrefs, Option.bind_eq_bind, Option.bind_eq_some_iff, Option.some_inj] at h
  obtain ⟨xs, hxs, rfl⟩ := h
  refine ⟨xs, hxs, ?_⟩
  rw [foldl_recordAction xs (savedCommands_recorded hxs), List.nil_append]

/-- The session in which the lines of a preferences file are executed -/
def restricted (t : Session) : Session :=
  { t.setDocument t.curBuffer fun d => { d with execOnlyOptions := true } with stop := false }

theorem savedOptions_loadPrefs {ok : Bool} {file name : List Byte} {lines : List (List Byte)}
    (room : Nat) (t : Session) (hfile : w.files name = some file)
    (hgranted : ∀ s n, w.granted s n = true) (hstream : loadStream false file = textBefore 0 lines)
    (hlines : ∀ l ∈ lines, 0 ∉ l) (hlength : 2 ≤ (textBefore 0 lines).length) :
    savedOptions ok ((loadPrefs w (room + 1) t t.curBuffer name).2.documents t.curBuffer) =
      savedOptions ok ((runLines Session.stop (execLine w fun cs s => playMacro w room cs 1 s) lines
        (restricted t)).2.documents t.curBuffer) := by
  have hplay := playMacro_eq room
    (s := t.setDocument t.curBuffer fun d => { d with execOnlyOptions := true })
    hgranted hlines hlength
  have hkept : ∀ s' : Session, savedOptions ok ((s'.setDocument t.curBuffer fun d =>
      { d with execOnlyOptions := false }).documents t.curBuffer) =
        savedOptions ok (s'.documents t.curBuffer) := by
    intro s'
    simp [Session.setDocument, savedOptions, pasteSetting, pasteFields]
  simp only [loadPrefs, hfile, hstream]
  rw [hplay]
  exact hkept _

theorem runLines_stop {σ : Type} {stop : σ → Bool} {exec : List Byte → σ → CommandStatus × σ}
    {ls ls' : List (List Byte)} {l : List Byte} {s : σ} (h : (runLines stop exec ls s).1 = .ok)
    (hstop : stop (runLines stop exec ls s).2 = false)
    (hl : (exec l (runLines stop exec ls s).2).1 ≠ .ok) :
    runLines stop exec (ls ++ l :: ls') s = exec l (runLines stop exec ls s).2 := by
  rw [runLines_append h hstop, runLines, if_neg (by simp [hstop]), if_pos hl]

theorem runLines_next {σ : Type} {stop : σ → Bool} {exec : List Byte → σ → CommandStatus × σ}
    {ls ls' : List (List Byte)} {l : List Byte} {s : σ} (h : (runLines stop exec ls s).1 = .ok)
    (hstop : stop (runLines stop exec ls s).2 = false)
    (hl : (exec l (runLines stop exec ls s).2).1 = .ok) :
    runLines stop exec (ls ++ l :: ls') s =
      runLines stop exec ls' (exec l (runLines stop exec ls s).2).2 := by
  rw [runLines_append h hstop, runLines, if_neg (by simp [hstop]), if_neg (by simp [hl])]

theorem syntaxOf_applies (verbose : Bool) (hloads : SyntaxLoads w d savingDefaults) :
    ∀ x ∈ syntaxOf d savingDefaults, Readable verbose x ∧
      Applies w x (setSaved x.action x.number) := by
  intro x hx
  unfold syntaxOf at hx
  split at hx
  · rename_i name hname
    split at hx
    · cases hx
    · rename_i hdefaults
      rw [List.mem_singleton.mp hx]
      obtain ⟨hdo, hne, hquoted, hbytes, hload⟩ :=
        (hloads.resolve_left hdefaults) name hname
      refine ⟨readable_string rfl rfl (fun h => absurd h hne) hquoted hbytes verbose, ?_⟩
      intro s hstop
      have hid : setSaved .syntaxA (-1) = id := funext fun _ => rfl
      have hargument : (some name).orElse (fun _ => w.requestString s .syntaxA) = some name := rfl
      have hsyn : ∀ syn, Applied id s (CommandStatus.ok,
          s.setDocument s.curBuffer fun d => { d with syn := syn }).2 := fun syn =>
        applied_setDocument hstop fun _ => ⟨rfl, rfl, rfl, rfl⟩
      simp only [doOption, hargument, hid, hdo, not_true_eq_false, if_false]
      split
      · exact ⟨rfl, hsyn none⟩
      · rename_i hstar
        obtain ⟨syn, hsynName⟩ := Option.isSome_iff_exists.mp (hload.resolve_left hstar)
        rw [hsynName]
        exact ⟨rfl, hsyn (some syn)⟩
  · cases hx

theorem globalsOf_applies (w : World) (s : Session) (savingDefaults verbose : Bool) :
    ∀ x ∈ globalsOf s savingDefaults, Readable verbose x ∧
    Applies w x (setSaved x.action x.number) := by
  intro x hx
  unfold globalsOf at hx
  split at hx
  · obtain ⟨⟨a, c⟩, hac, rfl⟩ := List.mem_map.mp hx
    obtain ⟨hoption, hargs, hstring, -, -, hc, hc1⟩ := savedGlobals_flags hac
    refine ⟨readable_number hoption hargs hstring hc (hc1.trans (by decide)) verbose, ?_⟩
    intro s' hstop
    simp only [savedGlobals, List.mem_append] at hac
    rcases hac with hac | hac | hac | hac
    all_goals
      split at hac
      all_goals
        simp only [List.mem_singleton, Prod.mk.injEq, List.not_mem_nil] at hac
      obtain ⟨rfl, rfl⟩ := hac
      exact ⟨rfl, applied_of_eq rfl rfl hstop⟩
  · cases hx

/-- The commands before the one for `BracketedPaste` -/
def firstCommands (d : Document) (savingDefaults : Bool) : List Parsed :=
  syntaxOf d savingDefaults ++ numbersOf d.buffer.opt

theorem firstCommands_run (play : List Byte → Session → CommandStatus × Session) (verbose : Bool)
    (hd : ValidOptions d) (hloads : SyntaxLoads w d savingDefaults)
    (htab : d.buffer.opt.tabSize < w.terminal.neColumns / 2) (hstop : s.stop = false)
    (hflag : (s.documents s.curBuffer).execOnlyOptions = true) :
    let r := runLines Session.stop (execLine w play)
      ((firstCommands d savingDefaults).map (recordedLine verbose)) s
    r.1 = .ok ∧ Applied (fun o => { d.buffer.opt with
      curClip := o.curClip, readOnly := o.readOnly, searchBack := o.searchBack }) s r.2 := by
  have hall : ∀ x ∈ firstCommands d savingDefaults, Readable verbose x ∧
      Applies w x (setSaved x.action x.number) := by
    intro x hx
    rcases List.mem_append.mp hx with hx | hx
    · exact syntaxOf_applies verbose hloads x hx
    · exact ⟨numbersOf_readable hd x hx, numbersOf_applies hd htab x hx⟩
  obtain ⟨hok, happlied⟩ := runLines_applied (w := w) play
    (fun x hx => (hall x hx).1) (fun x hx => (hall x hx).2) hstop hflag
  have hfold : (fun o => (firstCommands d savingDefaults).foldl
      (fun o x => setSaved x.action x.number o) o) = fun o => { d.buffer.opt with
        curClip := o.curClip, readOnly := o.readOnly, searchBack := o.searchBack } := by
    funext o
    have hsyntaxFold : (syntaxOf d savingDefaults).foldl
        (fun o x => setSaved x.action x.number o) o = o := by
      unfold syntaxOf
      split
      · split <;> rfl
      · rfl
    rw [firstCommands, List.foldl_append, hsyntaxFold, numbersOf, List.foldl_map, foldl_setSaved]
  rw [hfold] at happlied
  exact ⟨hok, happlied⟩

theorem bpasteMacros_append {m₁ m₂ : List Byte} (h₁ : IsMacroName m₁) (h₂ : IsMacroName m₂) :
    bpasteMacros (m₁ ++ 32 :: m₂) = (m₁, m₂) := by
  have hall : ∀ {m : List Byte}, 32 ∉ m → ∀ x ∈ m, (x != 32) = true := fun hm x hx => by
    simpa using fun heq : x = 32 => hm (heq ▸ hx)
  have hdrop : ∀ (rest : List Byte) {m : List Byte}, m ≠ [] → 32 ∉ m →
      (m ++ rest).dropWhile (· == 32) = m ++ rest := by
    intro rest m hne hm
    obtain ⟨x, m, rfl⟩ := List.exists_cons_of_ne_nil hne
    have hx : (x == 32) = false := by simpa using fun heq : x = 32 => hm (by simp [heq])
    rw [List.cons_append, List.dropWhile_cons_of_neg (by simp [hx])]
  have hsecond := hdrop [] h₂.1 h₂.2.1
  rw [List.append_nil] at hsecond
  simp only [bpasteMacros]
  rw [hdrop _ h₁.1 h₁.2.1, List.takeWhile_append_of_pos (hall h₁.2.1),
    List.dropWhile_append_of_pos (hall h₁.2.1), List.takeWhile_cons_of_neg (by simp),
    List.dropWhile_cons_of_neg (by simp), List.dropWhile_cons_of_pos (by simp), hsecond,
    List.takeWhile_eq_self_iff.mpr (hall h₂.2.1), List.append_nil]

/-- The command for `BracketedPaste` has been executed: the rest of the document is as it
was. -/
structure Pasted (setting : Nat × Option (List Byte) × Option (List Byte)) (s s' : Session) :
    Prop where
  curBuffer : s'.curBuffer = s.curBuffer
  stop : s'.stop = false
  opt : (s'.documents s.curBuffer).buffer.opt = (s.documents s.curBuffer).buffer.opt
  flag : (s'.documents s.curBuffer).execOnlyOptions = (s.documents s.curBuffer).execOnlyOptions
  setting : pasteSetting (s'.documents s.curBuffer) = setting

theorem pasted_setDocument {change : Document → Document}
    {setting : Nat × Option (List Byte) × Option (List Byte)} (hstop : s.stop = false)
    (h : ∀ d, (change d).buffer.opt = d.buffer.opt ∧
      (change d).execOnlyOptions = d.execOnlyOptions ∧ pasteSetting (change d) = setting) :
    Pasted setting s (s.setDocument s.curBuffer change) := by
  obtain ⟨hopt, hflag, hsetting⟩ := h (s.documents s.curBuffer)
  have hdocument : (s.setDocument s.curBuffer change).documents s.curBuffer =
      change (s.documents s.curBuffer) := by simp [Session.setDocument]
  exact ⟨rfl, hstop, by rw [hdocument, hopt], by rw [hdocument, hflag], by rw [hdocument, hsetting]⟩

/-- The setting that is saved is set again. -/
theorem setBracketedPaste_saved (hd : ValidOptions d) (hv : curBracketedPasteValue d = some v)
    (hstop : s.stop = false) :
    (setBracketedPaste s s.curBuffer v).1 = .ok ∧
      Pasted (pasteSetting d) s (setBracketedPaste s s.curBuffer v).2 := by
  rcases hd.paste with hle | ⟨htwo, m₁, m₂, hbefore, hafter, hname₁, hname₂⟩
  · obtain ⟨n, hn⟩ : ∃ n, d.bpasteSupport = n := ⟨_, rfl⟩
    have hsetting : pasteSetting d = (n, none, none) := by
      rw [pasteSetting, if_neg (by omega), hn]
    have hcases : (v = [48] ∨ v = [49]) ∧ (if v = [49] then 1 else 0) = n := by
      unfold curBracketedPasteValue at hv
      split at hv
      · cases hv
        exact ⟨.inl rfl, by rw [if_neg (by decide)]; omega⟩
      · rw [if_pos (by omega)] at hv
        cases hv
        exact ⟨.inr rfl, by rw [if_pos rfl]; omega⟩
    rw [setBracketedPaste, if_pos hcases.1]
    simp only [hcases.2]
    split
    · rename_i hsame
      refine ⟨rfl, rfl, hstop, rfl, rfl, ?_⟩
      have hne : (s.documents s.curBuffer).bpasteSupport ≠ 2 := by
        rw [hsame]
        omega
      rw [hsetting, pasteSetting, if_neg hne, hsame]
    · have hne : n ≠ 2 := by omega
      refine ⟨rfl, ?_⟩
      dsimp only
      refine pasted_setDocument hstop ?_
      intro e
      refine ⟨rfl, rfl, ?_⟩
      rw [hsetting, pasteSetting, if_neg hne]
  · have hvalue : v = m₁ ++ 32 :: m₂ := by
      unfold curBracketedPasteValue at hv
      rw [if_neg (by omega), if_neg (by omega)] at hv
      simp only [hbefore, hafter, Option.getD_some] at hv
      split at hv
      · exact (Option.some.inj hv).symm
      · cases hv
    have hlong : ¬ (v = [48] ∨ v = [49]) := by
      have hpos := List.length_pos_of_ne_nil hname₁.1
      have hlength : v.length = m₁.length + (m₂.length + 1) := by simp [hvalue]
      rintro (h | h)
      all_goals
        rw [h, List.length_singleton] at hlength
        omega
    have hnames : m₁ ≠ [] ∧ m₂ ≠ [] := ⟨hname₁.1, hname₂.1⟩
    rw [setBracketedPaste, if_neg hlong, hvalue, bpasteMacros_append hname₁ hname₂]
    simp only [if_pos hnames]
    refine ⟨trivial, pasted_setDocument hstop ?_⟩
    intro e
    refine ⟨rfl, rfl, ?_⟩
    simp [pasteSetting, pasteFields, htwo, hbefore, hafter]

theorem pasteValue_eq (htwo : d.bpasteSupport = 2) (hv : curBracketedPasteValue d = some v) :
    v = pasteValue d ∧ (pasteValue d).length ≤ maxMessageSize := by
  unfold curBracketedPasteValue at hv
  rw [if_neg (by omega), if_neg (by omega)] at hv
  simp only at hv
  split at hv
  · rename_i hlength
    exact ⟨(Option.some.inj hv).symm, hlength⟩
  · cases hv

theorem pasteValue_digit (hone : d.bpasteSupport ≤ 1) (hv : curBracketedPasteValue d = some v) :
    v = [48] ∨ v = [49] := by
  unfold curBracketedPasteValue at hv
  split at hv
  · exact .inl (Option.some.inj hv).symm
  · rw [if_pos (by omega)] at hv
    exact .inr (Option.some.inj hv).symm

theorem not_mem_pasteValue (hd : ValidOptions d) (htwo : d.bpasteSupport = 2) :
    0 ∉ pasteValue d := by
  obtain ⟨-, m₁, m₂, hbefore, hafter, hname₁, hname₂⟩ := hd.paste.resolve_left (by omega)
  simp [pasteValue, hbefore, hafter, hname₁.2.2, hname₂.2.2]

theorem pasteCommand_readable (verbose : Bool) (hd : ValidOptions d)
    (hv : curBracketedPasteValue d = some v)
    (hfits : d.bpasteSupport = 2 → PasteFits d) :
    Readable verbose (pasteCommand v) ∧ v.head? ≠ some 63 := by
  have hdigit : v = [48] ∨ v = [49] → Readable verbose (pasteCommand v) ∧ v.head? ≠ some 63 := by
    rintro (rfl | rfl)
    all_goals
      refine ⟨readable_string rfl rfl ?_ ?_ ?_ verbose, by decide⟩
      · simp
      · simp [Quoted]
      · intro b hb
        rw [List.mem_singleton.mp hb]
        decide
  rcases hd.paste with hone | ⟨htwo, -⟩
  · exact hdigit (pasteValue_digit hone hv)
  · obtain ⟨rfl, -⟩ := pasteValue_eq htwo hv
    obtain ⟨-, hrequest, hquotes, hascii, h10, h13⟩ := hfits htwo
    have hzero := not_mem_pasteValue hd htwo
    refine ⟨readable_string rfl rfl (fun h => absurd h (by simp [pasteValue])) hquotes
      (fun b hb => ⟨hascii b hb, ?_, ?_, ?_⟩) verbose, hrequest⟩
    · rintro rfl
      exact hzero hb
    · rintro rfl
      exact h10 hb
    · rintro rfl
      exact h13 hb

theorem doOption_paste (hok : w.bracketedPasteOk = true) (hv : v.head? ≠ some 63) :
    doOption w s s.curBuffer .bracketedPasteA (-1) (some v) =
      setBracketedPaste s s.curBuffer v := by
  have hrequest : (some v).all (fun q => q.head? == some 63) = false := by simpa using hv
  simp only [doOption, hok, hrequest, not_true_eq_false, if_false, Bool.false_eq_true]

theorem execLine_paste (play : List Byte → Session → CommandStatus × Session) (verbose : Bool)
    (hd : ValidOptions d) (hok : w.bracketedPasteOk = true)
    (hv : curBracketedPasteValue d = some v) (hfits : d.bpasteSupport = 2 → PasteFits d)
    (hflag : (s.documents s.curBuffer).execOnlyOptions = true) :
    let r := execLine w play (recordedLine verbose (pasteCommand v)) s
    r.1 = .ok ∧ Pasted (pasteSetting d) s r.2 := by
  obtain ⟨hreadable, hrequest⟩ := pasteCommand_readable verbose hd hv hfits
  obtain ⟨s₁, hs₁⟩ : ∃ s₁ : Session, s₁ = { s with
    stop := false
    recordingMacro := s.recordingMacro.map fun cs =>
      recordAction cs .bracketedPasteA (-1) (some v) s.verboseMacros
    dispatched := s.dispatched ++ [.bracketedPasteA] } := ⟨_, rfl⟩
  have haction : doAction w s s.curBuffer (pasteCommand v) =
      setBracketedPaste s₁ s₁.curBuffer v := by
    rw [← doOption_paste hok hrequest, hs₁]
    rfl
  have hcur : s₁.curBuffer = s.curBuffer := by rw [hs₁]
  have hdocuments : s₁.documents = s.documents := by rw [hs₁]
  obtain ⟨hstatus, hpasted⟩ := setBracketedPaste_saved (s := s₁) hd hv (by rw [hs₁])
  rw [execLine_eq play hflag hreadable.parse hreadable.ascii, haction]
  refine ⟨hstatus, hpasted.curBuffer.trans hcur, hpasted.stop, ?_, ?_, ?_⟩
  · rw [← hcur, hpasted.opt, hdocuments]
  · rw [← hcur, hpasted.flag, hdocuments]
  · rw [← hcur, hpasted.setting]

theorem globals_run (w : World) (play : List Byte → Session → CommandStatus × Session)
    (savingDefaults verbose : Bool) (s₀ : Session) (hstop : s.stop = false)
    (hflag : (s.documents s.curBuffer).execOnlyOptions = true) :
    let r := runLines Session.stop (execLine w play)
      ((globalsOf s₀ savingDefaults).map (recordedLine verbose)) s
    r.1 = .ok ∧ Applied id s r.2 := by
  have happlies := fun x hx =>
    globalsOf_applies w s₀ savingDefaults verbose x hx
  obtain ⟨hok, happlied⟩ := runLines_applied (w := w) play
    (fun x hx => (happlies x hx).1) (fun x hx => (happlies x hx).2) hstop hflag
  refine ⟨hok, ?_⟩
  have hfold : (fun o => (globalsOf s₀ savingDefaults).foldl
      (fun o x => setSaved x.action x.number o) o) = id := by
    funext o
    unfold globalsOf savedGlobals
    cases savingDefaults <;> cases s₀.reqOrder <;> cases s₀.fastGui <;> cases s₀.statusBar <;>
      cases s₀.verboseMacros <;> rfl
  rwa [hfold] at happlied

theorem pasteSetting_congr {e : Document} (h : pasteFields e = pasteFields d) :
    pasteSetting e = pasteSetting d := by
  obtain ⟨hsupport, hbefore, hafter⟩ : _ ∧ _ ∧ _ := by
    simpa only [pasteFields, Prod.mk.injEq] using h
  simp [pasteSetting, pasteFields, hsupport, hbefore, hafter]

theorem savedOptions_congr {ok : Bool} {e : Document} {o : Options}
    (hopt : e.buffer.opt = { d.buffer.opt with
      curClip := o.curClip, readOnly := o.readOnly, searchBack := o.searchBack })
    (hpaste : pasteSetting e = pasteSetting d ∨ ok = false) :
    savedOptions ok e = savedOptions ok d := by
  unfold savedOptions
  rw [hopt]
  rcases hpaste with hpaste | rfl
  · rw [hpaste]
  · rfl

/-- What has been executed before the setting of `BracketedPaste` stays, and the settings
are those of the document that has been saved. -/
theorem savedCommands_run {xs : List Parsed} {s₀ : Session}
    (play : List Byte → Session → CommandStatus × Session) (verbose : Bool) (hd : ValidOptions d)
    (hloads : SyntaxLoads w d savingDefaults)
    (htab : d.buffer.opt.tabSize < w.terminal.neColumns / 2)
    (hfits : w.bracketedPasteOk = true → d.bpasteSupport = 2 → PasteFits d)
    (hxs : savedCommands w s₀ d savingDefaults = some xs) (hstop : s.stop = false)
    (hflag : (s.documents s.curBuffer).execOnlyOptions = true) :
    let r := runLines Session.stop (execLine w play) (xs.map (recordedLine verbose)) s
    savedOptions w.bracketedPasteOk (r.2.documents s.curBuffer) =
      savedOptions w.bracketedPasteOk d := by
  obtain ⟨hfirst, happlied⟩ := firstCommands_run play verbose hd hloads htab hstop hflag
  obtain ⟨s₁, hs₁⟩ : ∃ s₁, s₁ = (runLines Session.stop (execLine w play)
    ((firstCommands d savingDefaults).map (recordedLine verbose)) s).2 := ⟨_, rfl⟩
  rw [← hs₁] at happlied
  have hflag₁ : (s₁.documents s₁.curBuffer).execOnlyOptions = true := by
    rw [happlied.curBuffer, happlied.flag, hflag]
  rcases savedCommands_eq hxs with ⟨hok, rfl⟩ | ⟨hok, v, hv, rfl⟩
  · obtain ⟨-, hglobals⟩ := globals_run w play savingDefaults verbose s₀ happlied.stop hflag₁
    rw [← List.append_assoc, List.map_append]
    rw [← firstCommands, runLines_append hfirst (by rw [← hs₁]; exact happlied.stop), ← hs₁]
    refine savedOptions_congr (o := (s.documents s.curBuffer).buffer.opt) ?_ (.inr hok)
    rw [← happlied.curBuffer, hglobals.opt, happlied.curBuffer, happlied.opt]
    rfl
  · obtain ⟨hpasteOk, hpasted⟩ := execLine_paste play verbose hd hok hv (hfits hok) hflag₁
    obtain ⟨s₂, hs₂⟩ : ∃ s₂, s₂ = (execLine w play (recordedLine verbose (pasteCommand v)) s₁).2 :=
      ⟨_, rfl⟩
    rw [← hs₂] at hpasted
    have hflag₂ : (s₂.documents s₂.curBuffer).execOnlyOptions = true := by
      rw [hpasted.curBuffer, hpasted.flag, hflag₁]
    obtain ⟨-, hglobals⟩ := globals_run w play savingDefaults verbose s₀ hpasted.stop hflag₂
    rw [← List.append_assoc, List.map_append, List.map_cons]
    rw [← firstCommands, runLines_next hfirst (by rw [← hs₁]; exact happlied.stop)
      (by rw [← hs₁]; exact hpasteOk), ← hs₁, ← hs₂]
    have hcur : s.curBuffer = s₂.curBuffer := by rw [hpasted.curBuffer, happlied.curBuffer]
    have hopt : (s₂.documents s₂.curBuffer).buffer.opt = { d.buffer.opt with
        curClip := (s.documents s.curBuffer).buffer.opt.curClip
        readOnly := (s.documents s.curBuffer).buffer.opt.readOnly
        searchBack := (s.documents s.curBuffer).buffer.opt.searchBack } := by
      rw [hpasted.curBuffer, hpasted.opt, happlied.curBuffer, happlied.opt]
    have hsetting : pasteSetting (s₂.documents s₂.curBuffer) = pasteSetting d := by
      rw [hpasted.curBuffer, hpasted.setting]
    rw [hcur]
    refine savedOptions_congr (hglobals.opt.trans hopt) (.inl ?_)
    rw [pasteSetting_congr hglobals.paste, hsetting]

theorem firstCommands_readable (verbose : Bool) (hd : ValidOptions d)
    (hloads : SyntaxLoads w d savingDefaults) :
    ∀ x ∈ firstCommands d savingDefaults, Readable verbose x := by
  intro x hx
  rcases List.mem_append.mp hx with hx | hx
  · exact (syntaxOf_applies verbose hloads x hx).1
  · exact numbersOf_readable hd x hx

theorem savedCommands_readable {xs : List Parsed} (verbose : Bool) (hd : ValidOptions d)
    (hloads : SyntaxLoads w d savingDefaults)
    (hfits : w.bracketedPasteOk = true → d.bpasteSupport = 2 → PasteFits d)
    (hxs : savedCommands w s d savingDefaults = some xs) : ∀ x ∈ xs, Readable verbose x := by
  have hfirst := firstCommands_readable verbose hd hloads
  have hglobals := fun x hx => (globalsOf_applies w s savingDefaults verbose x hx).1
  intro x hx
  rcases savedCommands_eq hxs with ⟨-, rfl⟩ | ⟨hok, v, hv, rfl⟩
  · rw [← List.append_assoc] at hx
    rcases List.mem_append.mp hx with hx | hx
    · exact hfirst x hx
    · exact hglobals x hx
  · rw [← List.append_assoc] at hx
    rcases List.mem_append.mp hx with hx | hx
    · exact hfirst x hx
    rcases List.mem_cons.mp hx with rfl | hx
    · exact (pasteCommand_readable verbose hd hv (hfits hok)).1
    · exact hglobals x hx

theorem length_firstLines (d : Document) (savingDefaults verbose : Bool)
    (more : List (List Byte)) :
    2 ≤ (textBefore 0 ((firstCommands d savingDefaults).map (recordedLine verbose) ++ more)
      ).length := by
  have hcount : 19 ≤
      ((firstCommands d savingDefaults).map (recordedLine verbose) ++ more).length := by
    simp only [List.length_append, List.length_map, firstCommands, numbersOf, savedFlags,
      List.length_cons, List.length_nil]
    omega
  have hle := length_le_textBefore 0
    ((firstCommands d savingDefaults).map (recordedLine verbose) ++ more)
  omega

/-- Preferences are restored if the tab size is below half of the width of the window and
the names of the macros can be read back. -/
theorem roundTrips_of (hd : ValidOptions (s.documents b))
    (hloads : SyntaxLoads w (s.documents b) savingDefaults)
    (htab : (s.documents b).buffer.opt.tabSize < w.terminal.neColumns / 2)
    (hfits : w.bracketedPasteOk = true → (s.documents b).bpasteSupport = 2 →
      PasteFits (s.documents b)) : RoundTrips w s b savingDefaults := by
  obtain ⟨xs, hxs⟩ : ∃ xs, savedCommands w s (s.documents b) savingDefaults = some xs := by
    cases hok : w.bracketedPasteOk with
    | false => exact ⟨_, by simp only [savedCommands, hok]; rfl⟩
    | true =>
        obtain ⟨v, hv⟩ : ∃ v, curBracketedPasteValue (s.documents b) = some v := by
          unfold curBracketedPasteValue
          split
          · exact ⟨_, rfl⟩
          split
          · exact ⟨_, rfl⟩
          have htwo : (s.documents b).bpasteSupport = 2 := by
            rcases hd.paste with hone | ⟨htwo, -⟩
            · omega
            · exact htwo
          exact ⟨_, if_pos (hfits hok htwo).length_le⟩
        exact ⟨_, by simp only [savedCommands, hok, hv]; rfl⟩
  obtain ⟨file, hfile⟩ : ∃ file, savePrefs w s b savingDefaults = some file :=
    ⟨_, by simp only [savePrefs, hxs]; rfl⟩
  refine ⟨file, hfile, fun w' t room name hcolumns hok hdo hload hname hgranted => ?_⟩
  obtain ⟨xs', hxs', rfl⟩ := savePrefs_eq hfile
  obtain rfl : xs = xs' := Option.some.inj (hxs.symm.trans hxs')
  have hreadable := savedCommands_readable s.verboseMacros hd hloads hfits hxs
  have hone : ∀ l ∈ xs.map (recordedLine s.verboseMacros), OneLine l := by
    intro l hl
    obtain ⟨x, hx, rfl⟩ := List.mem_map.mp hl
    exact (hreadable x hx).oneLine
  have hlength : 2 ≤ (textBefore 0 (xs.map (recordedLine s.verboseMacros))).length := by
    rcases savedCommands_eq hxs with ⟨-, rfl⟩ | ⟨-, v, -, rfl⟩
    all_goals
      rw [← List.append_assoc, List.map_append]
      exact length_firstLines (s.documents b) savingDefaults s.verboseMacros _
  have hxs'' : savedCommands w' s (s.documents b) savingDefaults = some xs := by
    rw [← hxs]
    simp only [savedCommands, hok]
  have hloads' : SyntaxLoads w' (s.documents b) savingDefaults := by
    unfold SyntaxLoads
    rw [hdo, hload]
    exact hloads
  rw [savedOptions_loadPrefs room t hname hgranted (loadStream_saveStream hone)
    (fun l hl => (hone l hl).1) hlength, ← hok]
  exact savedCommands_run (s := restricted t) _ s.verboseMacros hd hloads' (hcolumns.symm ▸ htab)
    (hok.symm ▸ hfits) hxs'' rfl (by simp [restricted, Session.setDocument])

end NiceEditor.PreferencesRoundTrip
