import NiceEditor.Load
import NiceEditor.Sessions

namespace NiceEditor.OptionsOnly

open NiceEditor.Pools
open NiceEditor.BufferData
open NiceEditor.Load
open NiceEditor.Encoding
open NiceEditor.Navigation
open NiceEditor.Commands
open NiceEditor.CommandLine
open NiceEditor.Streams
open NiceEditor.Sessions

/-- The options, and the `NOP` of comments. -/
def Harmless (a : Action) : Prop := a.has .isOption = true ∨ a = .nopA

/-- Between two states only options and the `NOP` of comments have been executed,
and neither the current buffer nor the `exec_only_options` flags have changed. -/
structure OptionsFrom (s s' : Session) : Prop where
  curBuffer : s'.curBuffer = s.curBuffer
  flags : ∀ b, (s'.documents b).execOnlyOptions = (s.documents b).execOnlyOptions
  dispatched : ∃ acts, s'.dispatched = s.dispatched ++ acts ∧ ∀ a ∈ acts, Harmless a

variable {w : World} {s s' s'' : Session} {b : Nat} {a : Action} {c : Int}
variable {p : Option (List Byte)} {x : Parsed}

theorem OptionsFrom.refl (s : Session) : OptionsFrom s s :=
  ⟨rfl, fun _ => rfl, [], by simp, by simp⟩

theorem OptionsFrom.trans (h : OptionsFrom s s') (h' : OptionsFrom s' s'') :
    OptionsFrom s s'' := by
  obtain ⟨acts, hacts, hoptions⟩ := h.dispatched
  obtain ⟨acts', hacts', hoptions'⟩ := h'.dispatched
  refine ⟨h'.curBuffer.trans h.curBuffer, fun b => (h'.flags b).trans (h.flags b), acts ++ acts',
    by rw [hacts', hacts, List.append_assoc], fun a ha => ?_⟩
  rcases List.mem_append.mp ha with ha | ha
  · exact hoptions a ha
  · exact hoptions' a ha

theorem OptionsFrom.of_eq (hcur : s'.curBuffer = s.curBuffer)
    (hdocuments : s'.documents = s.documents) (hdispatched : s'.dispatched = s.dispatched) :
    OptionsFrom s s' :=
  ⟨hcur, fun b => by rw [hdocuments], [], by rw [hdispatched, List.append_nil], by simp⟩

theorem OptionsFrom.setDocument {f : Document → Document}
    (hf : ∀ d, (f d).execOnlyOptions = d.execOnlyOptions) :
    OptionsFrom s (s.setDocument b f) := by
  refine ⟨rfl, fun b' => ?_, [], (List.append_nil _).symm, by simp⟩
  by_cases hb : b' = b
  · subst hb
    simp [Session.setDocument, hf]
  · simp [Session.setDocument, hb]

theorem OptionsFrom.setOpt {f : Options → Options} : OptionsFrom s (s.setOpt b f) :=
  .setDocument fun _ => rfl

theorem options_setDocument {status : CommandStatus} {f : Document → Document}
    (hf : ∀ d, (f d).execOnlyOptions = d.execOnlyOptions) :
    OptionsFrom s (status, s.setDocument b f).2 := .setDocument hf

theorem options_setOpt {status : CommandStatus} {f : Options → Options} :
    OptionsFrom s (status, s.setOpt b f).2 := .setOpt

theorem options_setOpt_setDocument {status : CommandStatus} {f : Options → Options}
    {g : Document → Document} (hg : ∀ d, (g d).execOnlyOptions = d.execOnlyOptions) :
    OptionsFrom s (status, (s.setOpt b f).setDocument b g).2 :=
  OptionsFrom.setOpt.trans (.setDocument hg)

theorem pushPrefs_options {opt : Options} (n : Nat) : OptionsFrom s (pushPrefs opt n s).2 := by
  induction n generalizing s with
  | zero => exact .refl s
  | succ n ih =>
      rw [pushPrefs]
      split
      · exact .refl s
      · have hpush : OptionsFrom s { s with prefStack := opt :: s.prefStack } := .of_eq rfl rfl rfl
        exact hpush.trans ih

theorem setBracketedPaste_options {q : List Byte} :
    OptionsFrom s (setBracketedPaste s b q).2 := by
  simp only [setBracketedPaste]
  split
  · split
    all_goals
      split
      · exact .refl s
      · exact options_setDocument (by intro d; rfl)
  · split
    · exact options_setDocument (by intro d; rfl)
    · exact .refl s

theorem record_options : OptionsFrom s (record s b c).2 := by
  unfold record
  split
  · rename_i cs _
    split
    · have hset : OptionsFrom s (s.setDocument b fun d => { d with curMacro := cs }) :=
        .setDocument fun _ => rfl
      exact hset.trans (.of_eq rfl rfl rfl)
    · split
      · exact .of_eq rfl rfl rfl
      · exact .refl s
  · split
    · exact .of_eq rfl rfl rfl
    · split
      · exact .of_eq rfl rfl rfl
      · exact .refl s

/-- An option changes neither the current buffer nor the flags, and executes no
other command. -/
theorem doOption_options (h : Harmless a) :
    OptionsFrom s (doOption w s b a c p).2 := by
  cases a with
  | autoMatchBracketA =>
      simp only [doOption]
      split
      · exact .refl s
      · exact options_setOpt
  | bracketedPasteA =>
      simp only [doOption]
      split
      · exact .refl s
      · split
        · exact setBracketedPaste_options
        · exact .refl s
  | caseSearchA => exact options_setOpt_setDocument (by intro d; rfl)
  | searchBackA => exact options_setOpt_setDocument (by intro d; rfl)
  | clipNumberA | rightMarginA =>
      simp only [doOption]
      split
      · exact .refl s
      · exact options_setOpt
  | doUndoA =>
      simp only [doOption]
      split
      · exact options_setOpt
      · exact options_setOpt_setDocument (by intro d; rfl)
  | escapeTimeA =>
      simp only [doOption]
      split
      · exact .refl s
      · split
        · exact .of_eq rfl rfl rfl
        · exact .refl s
  | turboA =>
      simp only [doOption]
      split
      · exact .refl s
      · exact .of_eq rfl rfl rfl
  | pushPrefsA => exact pushPrefs_options _
  | recordA => exact record_options
  | syntaxA =>
      simp only [doOption]
      split
      · exact .refl s
      · split
        · exact .refl s
        · split
          · exact options_setDocument (by intro d; rfl)
          · split
            · exact options_setDocument (by intro d; rfl)
            · exact .refl s
  | tabSizeA =>
      simp only [doOption]
      split
      · exact .refl s
      · split
        · exact options_setDocument (by intro d; rfl)
        · exact .refl s
  | crlfA | markA | markVertA | modifiedA | nameConvertA | utf8A =>
      exact options_setDocument (by intro d; rfl)
  | fastGUIA | requestOrderA | statusBarA | utf8IOA | verboseMacrosA => exact .of_eq rfl rfl rfl
  | nopA => exact .refl s
  | _ =>
      rcases h with h | h
      all_goals first | exact absurd h (by decide) | exact options_setOpt

theorem doAction_options (h : Harmless x.action) :
    OptionsFrom s (doAction w s b x).2 := by
  set s₁ : Session := { s with
    stop := false
    recordingMacro := s.recordingMacro.map fun cs =>
      recordAction cs x.action x.number x.string s.verboseMacros
    dispatched := s.dispatched ++ [x.action] } with hs₁
  have hfirst : OptionsFrom s s₁ := by
    refine ⟨rfl, fun _ => rfl, [x.action], rfl, fun a ha => ?_⟩
    rw [List.mem_singleton.mp ha]
    exact h
  exact hfirst.trans (doOption_options h)

theorem parseCommand_isOption {q : List Byte} (h : parseCommand a q true = .ok x) :
    x.action.has .isOption = true := by
  have hoption : a.has .isOption = true := by
    by_contra hne
    unfold parseCommand at h
    split at h
    · cases h
    split at h
    · cases h
    rw [if_pos ⟨hne, rfl⟩] at h
    cases h
  rwa [parseCommand_action h]

theorem parseCommandLine_harmless {line : List Byte} (h : parseCommandLine line true = .ok x) :
    Harmless x.action := by
  simp only [parseCommandLine] at h
  split at h
  · cases h
    exact Or.inr rfl
  split at h
  · cases h
    exact Or.inr rfl
  split at h
  · cases h
  · exact Or.inl (parseCommand_isOption h)

/-- A function that plays macros executes only options while the flag is set. -/
def PlaysOptions (play : List Byte → Session → CommandStatus × Session) : Prop :=
  ∀ cs s, (s.documents s.curBuffer).execOnlyOptions = true → OptionsFrom s (play cs s).2

theorem OptionsFrom.flag (h : OptionsFrom s s')
    (hflag : (s.documents s.curBuffer).execOnlyOptions = true) :
    (s'.documents s'.curBuffer).execOnlyOptions = true := by
  rw [h.curBuffer, h.flags, hflag]

theorem executeMacro_options {play : List Byte → Session → CommandStatus × Session}
    {name : List Byte} (hplay : PlaysOptions play)
    (hflag : (s.documents s.curBuffer).execOnlyOptions = true) :
    OptionsFrom s (executeMacro w play s name).2 := by
  have hrecording : ∀ (s : Session) cs, OptionsFrom s (s.addToRecording cs) :=
    fun _ _ => .of_eq rfl rfl rfl
  simp only [executeMacro]
  split
  · exact .refl s
  · rename_i md s₁ hfound
    have hfirst : OptionsFrom s s₁ := by
      split at hfound
      · cases hfound
        exact .refl s
      · simp only [loadMacro] at hfound
        split at hfound
        · cases hfound
        · cases hfound
          exact .of_eq rfl rfl rfl
    have hbefore := hfirst.trans (hrecording s₁ (bytes "# include macro " ++ md.1 ++ [0]))
    exact hbefore.trans ((hplay _ _ (hbefore.flag hflag)).trans (hrecording _ _))

theorem executeCommandLine_options {play : List Byte → Session → CommandStatus × Session}
    {line : List Byte} (hplay : PlaysOptions play)
    (hflag : (s.documents s.curBuffer).execOnlyOptions = true) :
    OptionsFrom s (executeCommandLine w play s.curBuffer line s).2 := by
  simp only [executeCommandLine, hflag]
  split
  · exact .refl s
  · split
    · rename_i x hparse
      exact doAction_options (parseCommandLine_harmless hparse)
    · exact executeMacro_options hplay hflag
    · exact .refl s

theorem playLines_options {exec : List Byte → Session → CommandStatus × Session}
    (hexec : PlaysOptions exec) (mem : List Byte) (len turns place : Nat)
    (hflag : (s.documents s.curBuffer).execOnlyOptions = true) :
    OptionsFrom s (playLines Session.stop exec mem len turns place s).2.1 := by
  induction turns generalizing place s with
  | zero => exact .refl s
  | succ turns ih =>
      have hstep := hexec (cString mem place) s hflag
      simp only [playLines]
      split
      · exact .refl s
      · split
        · exact hstep
        · exact hstep.trans (ih _ (hstep.flag hflag))

theorem playTimes_options {exec : List Byte → Session → CommandStatus × Session}
    (hexec : PlaysOptions exec) (mem : List Byte) (len turns : Nat)
    (hflag : (s.documents s.curBuffer).execOnlyOptions = true) :
    OptionsFrom s (playTimes Session.stop exec mem len turns s).2.1 := by
  induction turns generalizing s with
  | zero => exact .refl s
  | succ turns ih =>
      have hstep := playLines_options hexec mem len len 0 hflag
      simp only [playTimes]
      split
      · exact .refl s
      · split
        · exact hstep
        · exact hstep.trans (ih (hstep.flag hflag))

theorem playMacro_options (room : Nat) (c : Int) : PlaysOptions fun cs s =>
    playMacro w room cs c s := by
  induction room generalizing c with
  | zero =>
      intro cs s hflag
      simp only [playMacro]
      split
      · exact .refl s
      · split
        · exact .refl s
        · exact .refl s
  | succ room ih =>
      intro cs s hflag
      have hexec : PlaysOptions fun line s => executeCommandLine w
          (fun cs s => playMacro w room cs 1 s) s.curBuffer line s :=
        fun line s hflag => executeCommandLine_options (ih 1) hflag
      have hstop : OptionsFrom s { s with stop := false } := .of_eq rfl rfl rfl
      have hplay := hstop.trans
        (playTimes_options hexec (cs ++ w.behind) cs.length c.toNat (hstop.flag hflag))
      simp only [playMacro]
      split
      · exact .refl s
      · split
        · exact .refl s
        · exact hplay

theorem loadPrefs_spec (w : World) (room : Nat) (s : Session) (name : List Byte) :
    let s' := (loadPrefs w room s s.curBuffer name).2
    (∃ acts, s'.dispatched = s.dispatched ++ acts ∧ ∀ a ∈ acts, Harmless a) ∧
      (s'.documents s.curBuffer).execOnlyOptions = false ∧
      ∀ b ≠ s.curBuffer, (s'.documents b).execOnlyOptions = (s.documents b).execOnlyOptions := by
  simp only [loadPrefs]
  split
  · refine ⟨⟨[], by simp [Session.setDocument], by simp⟩, by simp [Session.setDocument],
      fun b hb => by simp [Session.setDocument, hb]⟩
  · rename_i file _
    set s₁ := s.setDocument s.curBuffer fun d => { d with execOnlyOptions := true } with hs₁
    have hplay := playMacro_options (w := w) room 1 (loadStream false file) s₁
      (by simp [hs₁, Session.setDocument])
    refine ⟨hplay.dispatched, by simp [Session.setDocument], fun b hb => ?_⟩
    have hother : (s₁.documents b).execOnlyOptions = (s.documents b).execOnlyOptions := by
      simp [hs₁, Session.setDocument, hb]
    simpa [Session.setDocument, hb] using (hplay.flags b).trans hother

/-- While preferences are loaded for the current buffer, every action that
`do_action` is called with is an option or the `NOP` of a comment or a blank line,
and the flag returns to its value, on every path. -/
theorem loadPrefs_options (w : World) (room : Nat) (s : Session) (name : List Byte)
    (hflag : (s.documents s.curBuffer).execOnlyOptions = false) :
    let s' := (loadPrefs w room s s.curBuffer name).2
    (∃ acts, s'.dispatched = s.dispatched ++ acts ∧
      ∀ a ∈ acts, a.has .isOption = true ∨ a = .nopA) ∧
      ∀ b, (s'.documents b).execOnlyOptions = (s.documents b).execOnlyOptions := by
  obtain ⟨hdispatched, hclear, hothers⟩ := loadPrefs_spec w room s name
  refine ⟨hdispatched, fun b => ?_⟩
  by_cases hb : b = s.curBuffer
  · subst hb
    exact hclear.trans hflag.symm
  · exact hothers b hb

/-- A world with one preferences file and no macros. -/
def plainWorld (prefs : List Byte) : World where
  terminal := ⟨24, 80, fun _ => 1, twentyFour_pos, eighty_pos⟩
  bracketedPasteOk := true
  doSyntax := false
  files := fun name => if name = bytes "prefs" then some prefs else none
  prefsDir := none
  gprefsDir := none
  loadSyntax := fun _ => none
  convertName := fun _ _ => none
  requestNumber := fun _ _ => -1
  requestString := fun _ _ => none
  granted := fun _ _ => true
  behind := []
  others := fun _ _ _ _ s => (.ok, s)

def plainDocument : Document where
  buffer := newBuffer false none fun _ => true
  filename := none
  syn := none
  bpasteSupport := 0
  bpasteMacroBefore := none
  bpasteMacroAfter := none
  curMacro := []
  execOnlyOptions := false
  atomicUndo := false
  findStringChanged := 0

def plainSession : Session where
  documents := fun _ => plainDocument
  curBuffer := 0
  macroTable := []
  recordingMacro := none
  prefStack := []
  verboseMacros := true
  reqOrder := false
  fastGui := false
  statusBar := true
  ioUtf8 := false
  turbo := 0
  escapeTime := 10
  stop := false
  dispatched := []

/-- The actions that preferences execute when they are loaded for buffer `b`. -/
def dispatchedBy (prefs : List Byte) (b : Nat) : List Action :=
  (loadPrefs (plainWorld prefs) 32 plainSession b (bytes "prefs")).2.dispatched

theorem loadPrefs_options_free :
    (plainSession.documents 0).execOnlyOptions = false ∧
      ∀ a ∈ dispatchedBy (bytes "FF 1\nBeep\n") 0, a.has .isOption = true ∨ a = .nopA := by
  refine ⟨rfl, ?_⟩
  obtain ⟨⟨acts, hacts, hoptions⟩, -⟩ := loadPrefs_options (plainWorld (bytes "FF 1\nBeep\n")) 32
    plainSession (bytes "prefs") rfl
  intro a ha
  refine hoptions a ?_
  have hcur : plainSession.curBuffer = 0 := rfl
  have hnone : plainSession.dispatched = [] := rfl
  rw [hcur, hnone, List.nil_append] at hacts
  rw [dispatchedBy, hacts] at ha
  exact ha

/-- A session in which the flags are set. -/
def restrictedSession : Session :=
  { plainSession with documents := fun _ => { plainDocument with execOnlyOptions := true } }

/-- A comment dispatches `NOP`, which is not an option; for another buffer than the
current one the flag is not consulted; and a flag that is set on entry is cleared. -/
theorem not_loadPrefs_options :
    (∃ a ∈ dispatchedBy (bytes "# comment") 0, a.has .isOption = false) ∧
      (∃ a ∈ dispatchedBy (bytes "Beep\n") 1, a.has .isOption = false) ∧
      ((loadPrefs (plainWorld []) 32 restrictedSession 0 (bytes "none")).2.documents 0
        ).execOnlyOptions ≠ (restrictedSession.documents 0).execOnlyOptions := by
  have hcomment : dispatchedBy (bytes "# comment") 0 = [.nopA] := by decide +kernel
  have hbeep : dispatchedBy (bytes "Beep\n") 1 = [.beepA] := by decide +kernel
  rw [hcomment, hbeep]
  decide +kernel

end NiceEditor.OptionsOnly
