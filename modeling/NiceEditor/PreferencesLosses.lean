import NiceEditor.PreferencesRoundTrip
import NiceEditor.OptionFrames

namespace NiceEditor.PreferencesLosses

open NiceEditor.Pools
open NiceEditor.LineText
open NiceEditor.BufferData
open NiceEditor.Encoding
open NiceEditor.Commands
open NiceEditor.CommandLine
open NiceEditor.RecordedCommands
open NiceEditor.Streams
open NiceEditor.Sessions
open NiceEditor.OptionsOnly
open NiceEditor.OptionFrames
open NiceEditor.Preferences
open NiceEditor.PreferencesText
open NiceEditor.PreferencesEffects
open NiceEditor.PreferencesRoundTrip

/-- The settings of `BracketedPaste` are the same in every document. -/
def KeepsPaste (s s' : Session) : Prop :=
  ∀ b, pasteFields (s'.documents b) = pasteFields (s.documents b)

variable {w : World} {s s' t : Session} {a : Action} {c : Int} {d : Document} {v l : List Byte}
variable {savingDefaults verbose : Bool} {b : Nat} {p : Option (List Byte)} {x : Parsed}
variable {encoding : EncodingType}

theorem KeepsPaste.setDocument {f : Document → Document}
    (hf : ∀ d, pasteFields (f d) = pasteFields d) : KeepsPaste s (s.setDocument b f) := by
  intro b'
  by_cases hb : b' = b
  · subst hb
    simp [Session.setDocument, hf]
  · simp [Session.setDocument, hb]

theorem KeepsPaste.setOpt {f : Options → Options} : KeepsPaste s (s.setOpt b f) :=
  .setDocument fun _ => rfl

theorem doOption_keepsPaste (h : Harmless a) (ha : a ≠ .bracketedPasteA) :
    KeepsPaste s (doOption w s b a c p).2 := by
  by_cases hdoUndo : a = .doUndoA
  · subst hdoUndo
    simp only [doOption]
    have hopt : ∀ {status : CommandStatus} {f : Options → Options},
        KeepsPaste s (status, s.setOpt b f).2 := .setOpt
    split
    · exact hopt
    · intro b'
      have hset : ∀ s' : Session, KeepsPaste s' (s'.setDocument b fun d =>
          { d with
            buffer := { d.buffer with undo := UndoSteps.resetUndoBuffer d.buffer.undo }
            atomicUndo := false }) := fun _ => .setDocument fun _ => rfl
      exact (hset _ b').trans (KeepsPaste.setOpt b')
  by_cases hutf8 : a = .utf8A
  · subst hutf8
    have hset : ∀ buffer : Buffer, KeepsPaste s (s.setDocument b fun d =>
        { d with buffer := buffer }) := fun _ => .setDocument fun _ => rfl
    exact hset _
  · intro b'
    have hfixed := doOption_keepsFixed (w := w) (s := s) (b := b) (c := c) (p := p) h ha hdoUndo
      hutf8 b'
    simp only [fixedFields, FixedFields.mk.injEq] at hfixed
    simp only [pasteFields, hfixed]

/-- Neither macro name contains a line terminator. -/
def CleanNames (d : Document) : Prop :=
  ∀ m, d.bpasteMacroBefore = some m ∨ d.bpasteMacroAfter = some m → 10 ∉ m ∧ 13 ∉ m

theorem CleanNames.of_eq {e : Document} (h : CleanNames d) (he : pasteFields e = pasteFields d) :
    CleanNames e := by
  obtain ⟨-, hbefore, hafter⟩ : _ ∧ _ ∧ _ := by
    simpa only [pasteFields, Prod.mk.injEq] using he
  intro m hm
  rw [hbefore, hafter] at hm
  exact h m hm

theorem bpasteMacros_subset (p : List Byte) :
    (bpasteMacros p).1 ⊆ p ∧ (bpasteMacros p).2 ⊆ p := by
  simp only [bpasteMacros]
  constructor
  · exact List.Subset.trans (List.takeWhile_subset _) (List.dropWhile_subset _)
  · refine List.Subset.trans (List.takeWhile_subset _) (List.Subset.trans (List.dropWhile_subset _)
      (List.Subset.trans (List.dropWhile_subset _) (List.dropWhile_subset _)))

theorem setBracketedPaste_clean (hd : CleanNames (s.documents b)) (hv : 10 ∉ v ∧ 13 ∉ v) :
    CleanNames ((setBracketedPaste s b v).2.documents b) := by
  have hnames := bpasteMacros_subset v
  simp only [setBracketedPaste]
  split
  · split
    all_goals
      split
      · exact hd
      · simp [Session.setDocument, CleanNames]
  · split
    · intro m hm
      simp only [Session.setDocument, Function.update_self, Option.some_inj] at hm
      rcases hm with rfl | rfl
      · exact ⟨fun h => hv.1 (hnames.1 h), fun h => hv.2 (hnames.1 h)⟩
      · exact ⟨fun h => hv.1 (hnames.2 h), fun h => hv.2 (hnames.2 h)⟩
    · exact hd

theorem doAction_clean (h : Harmless x.action) (hrequest : ∀ s a, w.requestString s a = none)
    (hx : ∀ q ∈ x.string, 10 ∉ q ∧ 13 ∉ q) (hd : CleanNames (s.documents b)) :
    CleanNames ((doAction w s b x).2.documents b) := by
  by_cases ha : x.action = .bracketedPasteA
  · simp only [doAction, ha, doOption]
    split
    · exact hd
    · split
      · rename_i q hq
        split at hq
        · rw [hrequest] at hq
          cases hq
        · exact setBracketedPaste_clean hd (hx q hq)
      · exact hd
  · exact hd.of_eq (doOption_keepsPaste h ha b)

theorem unquote_subset (p : List Byte) : unquote p ⊆ p := by
  unfold unquote
  split
  · exact List.Subset.trans (List.dropLast_subset _) (List.tail_subset _)
  · exact List.Subset.refl p

theorem parseCommand_subset {q : List Byte} {e : Bool} (h : parseCommand a q e = .ok x) :
    ∀ r ∈ x.string, r ⊆ q := by
  unfold parseCommand at h
  split at h
  · cases h
  split at h
  · cases h
  split at h
  · cases h
  split at h
  · cases h
    rintro r ⟨⟩
  unfold parseArgument at h
  split at h
  · split at h
    · cases h
    · cases h
      rintro r ⟨⟩
      exact unquote_subset q
  · split at h
    · cases h
      rintro r ⟨⟩
    · cases h

theorem parseCommandLine_subset {e : Bool} (h : parseCommandLine l e = .ok x) :
    ∀ r ∈ x.string, r ⊆ l := by
  simp only [parseCommandLine] at h
  split at h
  · cases h
    rintro r ⟨⟩
  split at h
  · cases h
    rintro r ⟨⟩
    exact List.dropWhile_subset _
  split at h
  · cases h
  · intro r hr
    exact List.Subset.trans (parseCommand_subset h r hr) (List.Subset.trans
      (List.dropWhile_subset _) (List.Subset.trans (List.dropWhile_subset _)
        (List.dropWhile_subset _)))

theorem playMacro_documents (cs : List Byte) :
    (playMacro w 0 cs 1 s).2.documents = s.documents ∧
      (playMacro w 0 cs 1 s).2.curBuffer = s.curBuffer := by
  simp only [playMacro]
  split
  · exact ⟨rfl, rfl⟩
  · split <;> exact ⟨rfl, rfl⟩

/-- The player that is used for those macros -/
def playDeep (w : World) (cs : List Byte) (s : Session) : CommandStatus × Session :=
  playMacro w 0 cs 1 s

theorem executeMacro_documents {name : List Byte} :
    (executeMacro w (playDeep w) s name).2.documents = s.documents := by
  simp only [executeMacro]
  split
  · rfl
  · rename_i md s₁ hfound
    have hfirst : s₁.documents = s.documents := by
      split at hfound
      · cases hfound
        rfl
      · simp only [loadMacro] at hfound
        split at hfound
        · cases hfound
        · cases hfound
          rfl
    exact (playMacro_documents md.2).1.trans hfirst

theorem execLine_clean (hrequest : ∀ s a, w.requestString s a = none)
    (hflag : (s.documents s.curBuffer).execOnlyOptions = true) (hl : 10 ∉ l ∧ 13 ∉ l)
    (hd : CleanNames (s.documents s.curBuffer)) :
    CleanNames ((execLine w (playDeep w) l s).2.documents s.curBuffer) := by
  simp only [execLine, executeCommandLine, hflag]
  split
  · exact hd
  · split
    · rename_i x hparse
      refine doAction_clean (parseCommandLine_harmless hparse) hrequest (fun q hq => ?_) hd
      have hsubset := parseCommandLine_subset hparse q hq
      exact ⟨fun h => hl.1 (hsubset h), fun h => hl.2 (hsubset h)⟩
    · simp only [executeMacro_documents]
      exact hd
    · exact hd

theorem runLines_clean {lines : List (List Byte)} (hrequest : ∀ s a, w.requestString s a = none)
    (hlines : ∀ l ∈ lines, 10 ∉ l ∧ 13 ∉ l)
    (hflag : (s.documents s.curBuffer).execOnlyOptions = true)
    (hd : CleanNames (s.documents s.curBuffer)) :
    CleanNames ((runLines Session.stop (execLine w (playDeep w)) lines s).2.documents
      s.curBuffer) := by
  induction lines generalizing s with
  | nil => exact hd
  | cons l lines ih =>
      have hstep := execLine_clean hrequest hflag (hlines l List.mem_cons_self) hd
      have hoptions : OptionsFrom s (execLine w (playDeep w) l s).2 :=
        executeCommandLine_options (playMacro_options 0 1) hflag
      rw [runLines]
      split
      · exact hd
      · split
        · exact hstep
        · have hrest := ih (s := (execLine w (playDeep w) l s).2)
            (fun l hl => hlines l (List.mem_cons_of_mem _ hl)) (hoptions.flag hflag)
            (by rw [hoptions.curBuffer]; exact hstep)
          rwa [hoptions.curBuffer] at hrest

/-- A world in which the user answers nothing and the preferences file is the only file. -/
def bareWorld (w : World) (file : List Byte) : World :=
  { w with
    files := fun _ => some file
    prefsDir := none
    gprefsDir := none
    requestNumber := fun _ _ => -1
    requestString := fun _ _ => none
    granted := fun _ _ => true
    behind := [] }

/-- A session whose documents differ from the given one in the flag for free form and in the
setting of `BracketedPaste`. -/
def otherSession (d : Document) (encoding : EncodingType) : Session :=
  { plainSession with
    documents := fun _ => { plainDocument with
      buffer := { plainDocument.buffer with
        opt := { d.buffer.opt with freeForm := !d.buffer.opt.freeForm }
        encoding := encoding } } }

/-- The current document after the lines have been executed in the other session. -/
def loaded (w : World) (d : Document) (encoding : EncodingType) (lines : List (List Byte)) :
    Document :=
  (runLines Session.stop (execLine w (playDeep w)) lines
    (restricted (otherSession d encoding))).2.documents 0

theorem restricted_flag (t : Session) :
    ((restricted t).documents (restricted t).curBuffer).execOnlyOptions = true := by
  simp [restricted, Session.setDocument]

theorem restricted_other (d : Document) (encoding : EncodingType) :
    ((restricted (otherSession d encoding)).documents 0).buffer.opt =
        { d.buffer.opt with freeForm := !d.buffer.opt.freeForm } ∧
      ((restricted (otherSession d encoding)).documents 0).buffer.encoding = encoding ∧
      pasteFields ((restricted (otherSession d encoding)).documents 0) = (0, none, none) := by
  refine ⟨?_, ?_, ?_⟩
  all_goals simp [restricted, otherSession, Session.setDocument, plainSession, pasteFields,
    plainDocument]

theorem savedLines_not_mem {xs : List Parsed} (verbose : Bool) (hd : ValidOptions d)
    (hloads : SyntaxLoads w d savingDefaults) (hxs : savedCommands w s d savingDefaults = some xs) :
    ∀ l ∈ xs.map (recordedLine verbose), 0 ∉ l := by
  have hfirst : ∀ x ∈ firstCommands d savingDefaults, 0 ∉ recordedLine verbose x := fun x hx =>
    (firstCommands_readable verbose hd hloads x hx).oneLine.1
  have hglobals : ∀ x ∈ globalsOf s savingDefaults, 0 ∉ recordedLine verbose x := fun x hx =>
    (globalsOf_applies w s savingDefaults verbose x hx).1.oneLine.1
  intro l hl
  obtain ⟨x, hx, rfl⟩ := List.mem_map.mp hl
  rcases savedCommands_eq hxs with ⟨-, rfl⟩ | ⟨-, v, hv, rfl⟩
  · rw [← List.append_assoc] at hx
    rcases List.mem_append.mp hx with hx | hx
    · exact hfirst x hx
    · exact hglobals x hx
  · rw [← List.append_assoc] at hx
    rcases List.mem_append.mp hx with hx | hx
    · exact hfirst x hx
    rcases List.mem_cons.mp hx with rfl | hx
    · have hzero : 0 ∉ v := by
        rcases hd.paste with hone | ⟨htwo, -⟩
        · rcases pasteValue_digit hone hv with rfl | rfl <;> decide
        · rw [(pasteValue_eq htwo hv).1]
          exact not_mem_pasteValue hd htwo
      have hargument : ∀ q ∈ (pasteCommand v).string, 0 ∉ q := by
        rintro q ⟨⟩
        exact hzero
      rw [recordedLine, List.mem_append, not_or]
      exact ⟨(recordedName_spec _ verbose).2.2.2, recordedArgument_not_mem hargument⟩
    · exact hglobals x hx

theorem loaded_of_roundTrips (h : RoundTrips w s b savingDefaults) :
    ∃ xs file, savedCommands w s (s.documents b) savingDefaults = some xs ∧
      ∀ (encoding : EncodingType) (lines : List (List Byte)),
        loadStream false (saveStream (textBefore 0 (xs.map (recordedLine s.verboseMacros)))
          (s.documents b).buffer.isCRLF) = textBefore 0 lines →
        (∀ l ∈ lines, 0 ∉ l) → 2 ≤ (textBefore 0 lines).length →
        savedOptions w.bracketedPasteOk
            (loaded (bareWorld w file) (s.documents b) encoding lines) =
          savedOptions w.bracketedPasteOk (s.documents b) := by
  obtain ⟨file, hfile, hall⟩ := h
  obtain ⟨xs, hxs, hsaved⟩ := savePrefs_eq hfile
  refine ⟨xs, file, hxs, fun encoding lines hstream hlines hlength => ?_⟩
  rw [← hsaved] at hstream
  have hloaded := hall (bareWorld w file) (otherSession (s.documents b) encoding) 0 [] rfl rfl rfl
    rfl
    rfl fun _ _ => rfl
  rw [savedOptions_loadPrefs 0 _ rfl (fun _ _ => rfl) hstream hlines hlength] at hloaded
  exact hloaded

theorem doAction_tabSize_refused (hc : 0 ≤ c) (htab : ¬ c < w.terminal.neColumns / 2) :
    (doAction w s b ⟨.tabSizeA, c, none⟩).1 ≠ .ok ∧
      (doAction w s b ⟨.tabSizeA, c, none⟩).2.documents = s.documents := by
  have hneg : ¬ c < 0 := by omega
  simp only [doAction, doOption, numberArgument, hneg, false_and, if_false]
  rw [if_neg htab]
  exact ⟨by simp, rfl⟩

/-- The lines in front of the tab size do not change the options, and the load stops
there. -/
theorem loaded_freeForm (encoding : EncodingType) (file : List Byte) (verbose : Bool)
    (hd : ValidOptions d)
    (hloads : SyntaxLoads w d savingDefaults)
    (htab : ¬ d.buffer.opt.tabSize < w.terminal.neColumns / 2) (more : List (List Byte)) :
    (loaded (bareWorld w file) d encoding
      ((firstCommands d savingDefaults).map (recordedLine verbose) ++ more)).buffer.opt.freeForm =
        !d.buffer.opt.freeForm := by
  obtain ⟨numbers, hnumbers⟩ : ∃ numbers, numbersOf d.buffer.opt =
      ⟨.tabSizeA, d.buffer.opt.tabSize, none⟩ :: numbers := ⟨_, rfl⟩
  have hsyntaxLines := syntaxOf_applies (w := bareWorld w file) verbose hloads
  obtain ⟨hok, happlied⟩ := runLines_applied (playDeep (bareWorld w file))
    (fun x hx => (hsyntaxLines x hx).1) (fun x hx => (hsyntaxLines x hx).2)
    (s := restricted (otherSession d encoding)) rfl (restricted_flag _)
  obtain ⟨s₁, hs₁⟩ : ∃ s₁, s₁ = (runLines Session.stop
    (execLine (bareWorld w file) (playDeep (bareWorld w file)))
    ((syntaxOf d savingDefaults).map (recordedLine verbose))
    (restricted (otherSession d encoding))).2 := ⟨_, rfl⟩
  rw [← hs₁] at happlied
  have htabLine : Readable verbose ⟨.tabSizeA, d.buffer.opt.tabSize, none⟩ :=
    numbersOf_readable hd _ (by rw [hnumbers]; exact List.mem_cons_self)
  have hflag₁ : (s₁.documents s₁.curBuffer).execOnlyOptions = true := by
    rw [happlied.curBuffer, happlied.flag, restricted_flag]
  obtain ⟨hrefused, hkept⟩ := doAction_tabSize_refused (w := bareWorld w file) (s := s₁)
    (b := s₁.curBuffer) hd.tabSize_pos.le htab
  have hexec := execLine_eq (w := bareWorld w file) (playDeep (bareWorld w file)) hflag₁
    htabLine.parse htabLine.ascii
  have hlines : (firstCommands d savingDefaults).map (recordedLine verbose) ++ more =
      (syntaxOf d savingDefaults).map (recordedLine verbose) ++
        (recordedLine verbose ⟨.tabSizeA, d.buffer.opt.tabSize, none⟩ ::
          (numbers.map (recordedLine verbose) ++ more)) := by
    rw [firstCommands, hnumbers]
    simp
  rw [loaded, hlines, runLines_stop hok (by rw [← hs₁]; exact happlied.stop)
    (by rw [← hs₁, hexec]; exact hrefused), ← hs₁, hexec, hkept]
  have hopt := happlied.opt
  have hfold : ∀ o, (syntaxOf d savingDefaults).foldl
      (fun o x => setSaved x.action x.number o) o = o := by
    intro o
    unfold syntaxOf
    split
    · split <;> rfl
    · rfl
  have hcur : (restricted (otherSession d encoding)).curBuffer = 0 := rfl
  rw [hcur, (restricted_other d encoding).1] at hopt
  rw [hopt, hfold]

theorem loaded_front_of_roundTrips (hd : ValidOptions (s.documents b))
    (hloads : SyntaxLoads w (s.documents b) savingDefaults)
    (h : RoundTrips w s b savingDefaults) :
    ∃ file more, (∀ l ∈ more, OneLine l) ∧
      savedOptions w.bracketedPasteOk (loaded (bareWorld w file) (s.documents b) .ascii
        ((firstCommands (s.documents b) savingDefaults).map (recordedLine s.verboseMacros) ++
          more)) =
          savedOptions w.bracketedPasteOk (s.documents b) := by
  obtain ⟨xs, file, hxs, hloaded⟩ := loaded_of_roundTrips h
  obtain ⟨back, hback⟩ : ∃ back, xs = firstCommands (s.documents b) savingDefaults ++ back := by
    rcases savedCommands_eq hxs with ⟨-, rfl⟩ | ⟨-, v, -, rfl⟩
    all_goals exact ⟨_, (List.append_assoc _ _ _).symm⟩
  have hzero := savedLines_not_mem s.verboseMacros hd hloads hxs
  rw [hback, List.map_append] at hzero hloaded
  have hone : ∀ l ∈ (firstCommands (s.documents b) savingDefaults).map
      (recordedLine s.verboseMacros), OneLine l := by
    intro l hl
    obtain ⟨x, hx, rfl⟩ := List.mem_map.mp hl
    exact (firstCommands_readable s.verboseMacros hd hloads x hx).oneLine
  obtain ⟨more, hstream, hmore⟩ := loadStream_front (s.documents b).buffer.isCRLF hone fun l hl =>
    hzero l (List.mem_append_right _ hl)
  refine ⟨file, more, hmore, hloaded .ascii _ hstream (fun l hl => ?_)
    (length_firstLines (s.documents b) savingDefaults s.verboseMacros more)⟩
  rcases List.mem_append.mp hl with hl | hl
  · exact (hone l hl).1
  · exact (hmore l hl).1

theorem tabSize_lt_of_roundTrips (hd : ValidOptions (s.documents b))
    (hloads : SyntaxLoads w (s.documents b) savingDefaults)
    (h : RoundTrips w s b savingDefaults) :
    (s.documents b).buffer.opt.tabSize < w.terminal.neColumns / 2 := by
  by_contra htab
  obtain ⟨file, more, -, hsaved⟩ := loaded_front_of_roundTrips hd hloads h
  have hfreeForm := loaded_freeForm .ascii file s.verboseMacros hd hloads htab more
  have hopt := congrArg (fun o => o.1.freeForm) hsaved
  simp only [savedOptions] at hopt
  rw [hopt] at hfreeForm
  exact absurd hfreeForm (by simp)

/-- The other session when the first commands have been executed in it -/
structure AtPaste (encoding : EncodingType) (s : Session) : Prop where
  curBuffer : s.curBuffer = 0
  stop : s.stop = false
  flag : (s.documents s.curBuffer).execOnlyOptions = true
  encoding : (s.documents 0).buffer.encoding = encoding
  paste : pasteFields (s.documents 0) = (0, none, none)

theorem exists_atPaste (hd : ValidOptions d) (hloads : SyntaxLoads w d savingDefaults)
    (htab : d.buffer.opt.tabSize < w.terminal.neColumns / 2) (encoding : EncodingType)
    (file : List Byte) (verbose : Bool) :
    ∃ s₁, AtPaste encoding s₁ ∧ ∀ more, loaded (bareWorld w file) d encoding
        ((firstCommands d savingDefaults).map (recordedLine verbose) ++ more) =
      (runLines Session.stop (execLine (bareWorld w file) (playDeep (bareWorld w file))) more s₁
        ).2.documents 0 := by
  obtain ⟨hok, happlied⟩ := firstCommands_run (w := bareWorld w file)
    (playDeep (bareWorld w file)) verbose hd hloads htab
    (s := restricted (otherSession d encoding)) rfl (restricted_flag _)
  obtain ⟨-, hencoding, hpaste⟩ := restricted_other d encoding
  refine ⟨_, ⟨happlied.curBuffer, happlied.stop, ?_, ?_, ?_⟩, fun more => ?_⟩
  · rw [happlied.curBuffer, happlied.flag, restricted_flag]
  · exact happlied.encoding.trans hencoding
  · exact happlied.paste.trans hpaste
  · rw [loaded, runLines_append hok happlied.stop]

theorem oneLine_of_roundTrips (hd : ValidOptions (s.documents b))
    (hloads : SyntaxLoads w (s.documents b) savingDefaults)
    (htab : (s.documents b).buffer.opt.tabSize < w.terminal.neColumns / 2)
    (h : RoundTrips w s b savingDefaults) (hok : w.bracketedPasteOk = true)
    (htwo : (s.documents b).bpasteSupport = 2) :
    10 ∉ pasteValue (s.documents b) ∧ 13 ∉ pasteValue (s.documents b) := by
  obtain ⟨file, more, hmore, hsaved⟩ := loaded_front_of_roundTrips hd hloads h
  set d := s.documents b with hdDef
  obtain ⟨s₁, hs₁, hrun⟩ := exists_atPaste hd hloads htab .ascii file s.verboseMacros
  have hclean₁ : CleanNames (s₁.documents s₁.curBuffer) := by
    intro m hm
    have hpaste := hs₁.paste
    rw [hs₁.curBuffer] at hm
    simp only [pasteFields, Prod.mk.injEq] at hpaste
    rw [hpaste.2.1, hpaste.2.2] at hm
    rcases hm with hm | hm <;> cases hm
  have hclean := runLines_clean (w := bareWorld w file) (fun _ _ => rfl)
    (fun l hl => (hmore l hl).2) hs₁.flag hclean₁
  rw [hs₁.curBuffer, ← hrun more] at hclean
  -- The names are those of the saved document.
  have hsetting := congrArg (fun o => o.2) hsaved
  simp only [savedOptions, hok, if_true, Option.some_inj] at hsetting
  have hfields : pasteFields (loaded (bareWorld w file) d .ascii
      ((firstCommands d savingDefaults).map (recordedLine s.verboseMacros) ++ more)) =
        pasteFields d := by
    rw [pasteSetting, pasteSetting, if_pos htwo] at hsetting
    split at hsetting
    · exact hsetting
    · rename_i hne
      have hsupport := congrArg Prod.fst hsetting
      simp only [pasteFields, htwo] at hsupport
      exact absurd hsupport hne
  have hcleanNames : CleanNames d := hclean.of_eq hfields.symm
  obtain ⟨-, m₁, m₂, hbefore, hafter, -⟩ := hd.paste.resolve_left (by omega)
  have hclean₁ := hcleanNames m₁ (.inl hbefore)
  have hclean₂ := hcleanNames m₂ (.inr hafter)
  simp [pasteValue, hbefore, hafter, hclean₁, hclean₂]

theorem setting_ne_of_execLine {s₀ : Session} {line : List Byte} {encoding : EncodingType}
    (play : List Byte → Session → CommandStatus × Session) (hs : AtPaste encoding s)
    (hok : (execLine w play line s).1 = .ok →
      (execLine w play line s).2.stop = false ∧ OptionsFrom s (execLine w play line s).2)
    (hne : pasteSetting ((execLine w play line s).2.documents 0) ≠ pasteSetting d) :
    pasteSetting ((runLines Session.stop (execLine w play)
      (line :: (globalsOf s₀ savingDefaults).map (recordedLine verbose)) s).2.documents 0) ≠
        pasteSetting d := by
  rw [runLines, if_neg (by simp [hs.stop])]
  split
  · exact hne
  · rename_i hstatus
    obtain ⟨hstop, hoptions⟩ := hok (not_not.mp hstatus)
    have hcur : (execLine w play line s).2.curBuffer = 0 := hoptions.curBuffer.trans hs.curBuffer
    obtain ⟨-, hglobals⟩ := globals_run w play savingDefaults verbose s₀ hstop
      (hoptions.flag hs.flag)
    have hpaste := hglobals.paste
    rw [hcur] at hpaste
    rw [pasteSetting_congr hpaste]
    exact hne

/-- The argument of the command as it is parsed -/
def readBack (v : List Byte) : List Byte :=
  if v.head?.all isAsciiSpace then v else unquote v

theorem parse_pasteCommand (hv : v ≠ []) (verbose : Bool) :
    parseCommandLine (recordedLine verbose (pasteCommand v)) true =
      .ok (pasteCommand (readBack v)) := by
  obtain ⟨q, hq, hne, hback⟩ : ∃ q, (recordedArgument (-1) (some v)).dropWhile isAsciiSpace = q ∧
      q ≠ [] ∧ unquote q = readBack v := by
    refine ⟨_, recordedArgument_some (by omega), ?_, ?_⟩
    · split
      · exact List.cons_ne_nil _ _
      · exact hv
    · rw [readBack]
      split
      · exact unquote_quotes v
      · rfl
  rw [recordedLine, parseCommandLine_name recordedArgument_head true]
  change parseCommand .bracketedPasteA
    ((recordedArgument (-1) (some v)).dropWhile isAsciiSpace) true = _
  rw [hq, ← hback]
  have hstring : parseArgument .bracketedPasteA q = .ok ⟨.bracketedPasteA, -1, some (unquote q)⟩ :=
    (parseArgument_string rfl).mpr ⟨rfl, rfl, fun _ => rfl⟩
  have hnoArgs : Action.bracketedPasteA.has .noArgs = false := rfl
  have hisString : Action.bracketedPasteA.has .argIsString = true := rfl
  have hisOption : Action.bracketedPasteA.has .isOption = true := rfl
  simp [parseCommand, hne, hnoArgs, hisString, hisOption, hstring, pasteCommand]

theorem execLine_paste_eq (play : List Byte → Session → CommandStatus × Session)
    (hflag : (s.documents s.curBuffer).execOnlyOptions = true) (hv : v ≠ []) (verbose : Bool) :
    execLine w play (recordedLine verbose (pasteCommand v)) s =
      if (s.documents s.curBuffer).buffer.encoding ≠ .ascii ∧
          detectEncoding (recordedLine verbose (pasteCommand v)) ≠ .ascii ∧
          (s.documents s.curBuffer).buffer.encoding ≠
            detectEncoding (recordedLine verbose (pasteCommand v))
      then (.incompatibleCommandEncoding, s)
      else doAction w s s.curBuffer (pasteCommand (readBack v)) := by
  simp only [execLine, executeCommandLine, hflag, parse_pasteCommand hv verbose]

theorem bpasteMacros_length (p : List Byte) (h : (bpasteMacros p).2 ≠ []) :
    (bpasteMacros p).1.length + (bpasteMacros p).2.length < p.length := by
  obtain ⟨q, hq⟩ : ∃ q, q = p.dropWhile (· == 32) := ⟨_, rfl⟩
  have hfirst : (bpasteMacros p).1 = q.takeWhile (· != 32) := by
    simp only [bpasteMacros, hq]
  have hsecond : (bpasteMacros p).2 =
      ((q.dropWhile (· != 32)).dropWhile (· == 32)).takeWhile (· != 32) := by
    simp only [bpasteMacros, hq]
  have hsplit := congrArg List.length (List.takeWhile_append_dropWhile (p := (· != 32)) (l := q))
  have hle := (List.dropWhile_suffix (l := p) (· == 32)).length_le
  have hsecondLe := (List.takeWhile_prefix
    (l := (q.dropWhile (· != 32)).dropWhile (· == 32)) (· != 32)).length_le
  have hspace : ((q.dropWhile (· != 32)).dropWhile (· == 32)).length <
      (q.dropWhile (· != 32)).length ∨ (bpasteMacros p).2 = [] := by
    cases hrest : q.dropWhile (· != 32) with
    | nil => exact .inr (by rw [hsecond, hrest]; rfl)
    | cons c rest =>
        obtain rfl : c = 32 := by
          have hhead := List.head?_dropWhile_not (· != 32) q
          rw [hrest] at hhead
          simpa using hhead
        refine .inl ?_
        rw [List.dropWhile_cons_of_pos (by simp)]
        exact Nat.lt_succ_of_le (List.dropWhile_suffix (· == 32)).length_le
  have hlt := hspace.resolve_right h
  rw [List.length_append] at hsplit
  rw [hfirst, hsecond]
  rw [← hq] at hle
  omega

theorem setBracketedPaste_ne {p m₁ m₂ : List Byte} (hp : p.length ≤ m₁.length + m₂.length)
    (hs : pasteFields (s.documents b) = (0, none, none)) :
    pasteSetting ((setBracketedPaste s b p).2.documents b) ≠ (2, some m₁, some m₂) := by
  have hunchanged : pasteSetting (s.documents b) ≠ (2, some m₁, some m₂) := by
    have hsupport : (s.documents b).bpasteSupport = 0 := congrArg Prod.fst hs
    simp [pasteSetting, hsupport]
  simp only [setBracketedPaste]
  split
  · split
    all_goals
      split
      · exact hunchanged
      · simp [Session.setDocument, pasteSetting]
  · split
    · rename_i hnames
      intro heq
      simp only [Session.setDocument, Function.update_self, pasteSetting, pasteFields, if_true,
        Prod.mk.injEq, Option.some_inj, true_and] at heq
      have hlength := bpasteMacros_length p hnames.2
      rw [heq.1, heq.2] at hlength
      omega
    · exact hunchanged

theorem setBracketedPaste_stop (s : Session) (b : Nat) (v : List Byte) :
    (setBracketedPaste s b v).2.stop = s.stop := by
  simp only [setBracketedPaste]
  split
  · split
    all_goals split <;> rfl
  · split <;> rfl

theorem doAction_paste_stop (p : List Byte) : (doAction w s b (pasteCommand p)).2.stop = false := by
  simp only [doAction, pasteCommand, doOption]
  split
  · rfl
  · split
    · exact setBracketedPaste_stop _ _ _
    · rfl

theorem doAction_paste_ne {p m₁ m₂ : List Byte} (hrequest : ∀ s a, w.requestString s a = none)
    (hp : p.head? = some 63 ∨ p.length ≤ m₁.length + m₂.length)
    (hs : pasteFields (s.documents b) = (0, none, none)) :
    pasteSetting ((doAction w s b (pasteCommand p)).2.documents b) ≠ (2, some m₁, some m₂) := by
  have hunchanged : pasteSetting (s.documents b) ≠ (2, some m₁, some m₂) := by
    have hsupport : (s.documents b).bpasteSupport = 0 := congrArg Prod.fst hs
    simp [pasteSetting, hsupport]
  simp only [doAction, pasteCommand, doOption]
  split
  · exact hunchanged
  by_cases hhead : p.head? = some 63
  · simp only [Option.all_some, hhead, beq_self_eq_true, if_true, hrequest]
    exact hunchanged
  · have hnot : (p.head? == some 63) = false := by simpa using hhead
    simp only [Option.all_some, hnot, Bool.false_eq_true, if_false]
    exact setBracketedPaste_ne (hp.resolve_left hhead) hs

/-- What the round trip says when the names contain no line terminator. -/
theorem setting_of_roundTrips (hd : ValidOptions (s.documents b))
    (hloads : SyntaxLoads w (s.documents b) savingDefaults)
    (htab : (s.documents b).buffer.opt.tabSize < w.terminal.neColumns / 2)
    (h : RoundTrips w s b savingDefaults) (hok : w.bracketedPasteOk = true)
    (htwo : (s.documents b).bpasteSupport = 2) :
    (pasteValue (s.documents b)).length ≤ maxMessageSize ∧
      ∃ file, ∀ encoding, ∃ s₁, AtPaste encoding s₁ ∧
        pasteSetting ((runLines Session.stop
          (execLine (bareWorld w file) (playDeep (bareWorld w file)))
          (recordedLine s.verboseMacros (pasteCommand (pasteValue (s.documents b))) ::
            (globalsOf s savingDefaults).map (recordedLine s.verboseMacros)) s₁).2.documents 0) =
          pasteSetting (s.documents b) := by
  have hterminators := oneLine_of_roundTrips hd hloads htab h hok htwo
  obtain ⟨xs, file, hxs, hloaded⟩ := loaded_of_roundTrips h
  obtain ⟨v, hv, rfl⟩ : ∃ v, curBracketedPasteValue (s.documents b) = some v ∧
      xs = syntaxOf (s.documents b) savingDefaults ++ (numbersOf (s.documents b).buffer.opt ++
        (pasteCommand v :: globalsOf s savingDefaults)) := by
    rcases savedCommands_eq hxs with ⟨hnot, -⟩ | ⟨-, v, hv, rfl⟩
    · rw [hok] at hnot
      cases hnot
    · exact ⟨v, hv, rfl⟩
  obtain ⟨rfl, hlength⟩ := pasteValue_eq htwo hv
  have hzero := savedLines_not_mem s.verboseMacros hd hloads hxs
  rw [← List.append_assoc, ← firstCommands, List.map_append, List.map_cons] at hzero hloaded
  have hone : ∀ l ∈ (firstCommands (s.documents b) savingDefaults).map
      (recordedLine s.verboseMacros) ++
        recordedLine s.verboseMacros (pasteCommand (pasteValue (s.documents b))) ::
          (globalsOf s savingDefaults).map (recordedLine s.verboseMacros), OneLine l := by
    intro l hl
    refine ⟨hzero l hl, ?_⟩
    rcases List.mem_append.mp hl with hl | hl
    · obtain ⟨x, hx, rfl⟩ := List.mem_map.mp hl
      exact (firstCommands_readable s.verboseMacros hd hloads x hx).oneLine.2
    rcases List.mem_cons.mp hl with rfl | hl
    · have hname := recordedName_ascii .bracketedPasteA s.verboseMacros
      have hargument : ∀ c ∈ recordedArgument (-1) (some (pasteValue (s.documents b))),
          c = 32 ∨ c = 34 ∨ c ∈ pasteValue (s.documents b) := by
        intro c hc
        simp only [recordedArgument] at hc
        rw [if_neg (by omega)] at hc
        split at hc <;> simp at hc <;> tauto
      have hbytes : ∀ c ∈ recordedLine s.verboseMacros
          (pasteCommand (pasteValue (s.documents b))), c ≠ 10 ∧ c ≠ 13 := by
        intro c hc
        rcases List.mem_append.mp hc with hc | hc
        · exact ⟨(hname c hc).2.2.1, (hname c hc).2.2.2⟩
        · rcases hargument c hc with rfl | rfl | hc
          · decide
          · decide
          · exact ⟨fun heq => hterminators.1 (heq ▸ hc), fun heq => hterminators.2 (heq ▸ hc)⟩
      exact ⟨fun h => (hbytes 10 h).1 rfl, fun h => (hbytes 13 h).2 rfl⟩
    · obtain ⟨x, hx, rfl⟩ := List.mem_map.mp hl
      exact (globalsOf_applies w s savingDefaults s.verboseMacros x hx).1.oneLine.2
  refine ⟨hlength, file, fun encoding => ?_⟩
  obtain ⟨s₁, hs₁, hrun⟩ := exists_atPaste hd hloads htab encoding file s.verboseMacros
  refine ⟨s₁, hs₁, ?_⟩
  have hsaved := hloaded encoding _ (loadStream_saveStream hone) hzero
    (length_firstLines (s.documents b) savingDefaults s.verboseMacros _)
  rw [hrun] at hsaved
  have hsetting := congrArg (fun o => o.2) hsaved
  simpa only [savedOptions, hok, if_true, Option.some_inj] using hsetting

theorem execLine_paste_stop (play : List Byte → Session → CommandStatus × Session)
    (hs : AtPaste encoding s) (hv : v ≠ []) :
    (execLine w play (recordedLine verbose (pasteCommand v)) s).2.stop = false := by
  rw [execLine_paste_eq play hs.flag hv verbose]
  split
  · exact hs.stop
  · exact doAction_paste_stop _

theorem pasteValue_ne_nil (d : Document) : pasteValue d ≠ [] := by simp [pasteValue]

theorem execLine_paste_of_roundTrips (hd : ValidOptions (s.documents b))
    (hloads : SyntaxLoads w (s.documents b) savingDefaults)
    (htab : (s.documents b).buffer.opt.tabSize < w.terminal.neColumns / 2)
    (h : RoundTrips w s b savingDefaults) (hok : w.bracketedPasteOk = true)
    (htwo : (s.documents b).bpasteSupport = 2) :
    ∃ file, ∀ encoding, ∃ s₁, AtPaste encoding s₁ ∧
      pasteSetting ((execLine (bareWorld w file) (playDeep (bareWorld w file)) (recordedLine
        s.verboseMacros (pasteCommand (pasteValue (s.documents b)))) s₁).2.documents 0) =
          pasteSetting (s.documents b) := by
  obtain ⟨-, file, hall⟩ := setting_of_roundTrips hd hloads htab h hok htwo
  refine ⟨file, fun encoding => ?_⟩
  obtain ⟨s₁, hs₁, hsetting⟩ := hall encoding
  refine ⟨s₁, hs₁, ?_⟩
  by_contra hne
  exact setting_ne_of_execLine _ hs₁ (fun _ => ⟨execLine_paste_stop _ hs₁ (pasteValue_ne_nil _),
    executeCommandLine_options (playMacro_options 0 1) hs₁.flag⟩) hne hsetting

theorem ascii_of_execLine {line : List Byte} {play : List Byte → Session → CommandStatus × Session}
    (hall : ∀ encoding, ∃ s₁, AtPaste encoding s₁ ∧
      pasteSetting ((execLine w play line s₁).2.documents 0) = pasteSetting d)
    (htwo : d.bpasteSupport = 2) : ∀ c ∈ line, c < 0x80 := by
  rw [← detectEncoding_eq_ascii_iff]
  by_contra hne
  obtain ⟨encoding, hascii, hother⟩ : ∃ encoding : EncodingType, encoding ≠ .ascii ∧
      encoding ≠ detectEncoding line := by
    cases hline : detectEncoding line with
    | ascii => exact absurd hline hne
    | utf8 => exact ⟨.eightBit, by decide, by decide⟩
    | eightBit => exact ⟨.utf8, by decide, by decide⟩
  obtain ⟨s₁, hs₁, hsetting⟩ := hall encoding
  rw [execLine, executeCommandLine, hs₁.curBuffer, hs₁.encoding,
    if_pos ⟨hascii, hne, hother⟩] at hsetting
  have hsupport : (s₁.documents 0).bpasteSupport = 0 := congrArg Prod.fst hs₁.paste
  have hzero : (0 : Nat) = 2 := by
    simpa [pasteSetting, hsupport, htwo, pasteFields] using congrArg Prod.fst hsetting
  exact absurd hzero (by decide)

theorem readBack_of_execLine {m₁ m₂ : List Byte} (hs : AtPaste .ascii s)
    {play : List Byte → Session → CommandStatus × Session} (hv : v ≠ [])
    (hrequest : ∀ s a, w.requestString s a = none)
    (hsetting : pasteSetting
      ((execLine w play (recordedLine verbose (pasteCommand v)) s).2.documents 0) =
        (2, some m₁, some m₂)) :
    ¬ ((readBack v).head? = some 63 ∨ (readBack v).length ≤ m₁.length + m₂.length) := by
  intro h
  rw [execLine_paste_eq play hs.flag hv verbose, hs.curBuffer, if_neg (by simp [hs.encoding])]
    at hsetting
  exact doAction_paste_ne hrequest h hs.paste hsetting

/-- The names that are restored can be read back. -/
theorem pasteFits_of_roundTrips (hd : ValidOptions (s.documents b))
    (hloads : SyntaxLoads w (s.documents b) savingDefaults)
    (htab : (s.documents b).buffer.opt.tabSize < w.terminal.neColumns / 2)
    (h : RoundTrips w s b savingDefaults) (hok : w.bracketedPasteOk = true)
    (htwo : (s.documents b).bpasteSupport = 2) : PasteFits (s.documents b) := by
  obtain ⟨file, hall⟩ := execLine_paste_of_roundTrips hd hloads htab h hok htwo
  obtain ⟨-, m₁, m₂, hbefore, hafter, hm₁, -⟩ := hd.paste.resolve_left (by omega)
  have hsetting : pasteSetting (s.documents b) = (2, some m₁, some m₂) := by
    simp [pasteSetting, pasteFields, htwo, hbefore, hafter]
  have hvalue : pasteValue (s.documents b) = m₁ ++ 32 :: m₂ := by
    simp [pasteValue, hbefore, hafter]
  have hline := ascii_of_execLine hall htwo
  obtain ⟨s₁, hs₁, hrest⟩ := hall .ascii
  rw [hsetting] at hrest
  have hback := readBack_of_execLine (w := bareWorld w file) hs₁ (pasteValue_ne_nil _)
    (fun _ _ => rfl) hrest
  rw [not_or, not_le] at hback
  have hspace : ∀ c, (pasteValue (s.documents b)).head? = some c → isAsciiSpace c = false →
      readBack (pasteValue (s.documents b)) = unquote (pasteValue (s.documents b)) := by
    intro c hc hnot
    rw [readBack, hc, Option.all_some, if_neg (by simp [hnot])]
  refine {
    length_le := (setting_of_roundTrips hd hloads htab h hok htwo).1
    no_request := ?no_request
    no_quotes := ?no_quotes
    ascii := ?ascii
    oneLine := oneLine_of_roundTrips hd hloads htab h hok htwo }
  case no_request =>
    intro hhead
    have hunquote : unquote (pasteValue (s.documents b)) = pasteValue (s.documents b) :=
      if_neg fun hquoted => absurd (hhead.symm.trans hquoted.2.1) (by decide)
    rw [hspace 63 hhead (by decide), hunquote] at hback
    exact hback.1 hhead
  case no_quotes =>
    intro hquoted
    have hunquote : unquote (pasteValue (s.documents b)) =
        (pasteValue (s.documents b)).tail.dropLast := if_pos hquoted
    rw [hspace 34 hquoted.2.1 (by decide), hunquote, List.length_dropLast, List.length_tail,
      hvalue, List.length_append, List.length_cons] at hback
    omega
  case ascii =>
    intro c hc
    refine hline c ?_
    have hneg : ¬ (0 : Int) ≤ -1 := by omega
    simp only [recordedLine, recordedArgument, pasteCommand, hneg, if_false]
    split
    all_goals simp [hc]

/-- The saved options are restored exactly if the tab size fits the window and the names of
the macros can be read back. -/
theorem roundTrips_iff (hd : ValidOptions (s.documents b))
    (hloads : SyntaxLoads w (s.documents b) savingDefaults) :
    RoundTrips w s b savingDefaults ↔
      (s.documents b).buffer.opt.tabSize < w.terminal.neColumns / 2 ∧
        (w.bracketedPasteOk = true → (s.documents b).bpasteSupport = 2 →
          PasteFits (s.documents b)) := by
  constructor
  · intro h
    have htab := tabSize_lt_of_roundTrips hd hloads h
    exact ⟨htab, pasteFits_of_roundTrips hd hloads htab h⟩
  · rintro ⟨htab, hfits⟩
    exact roundTrips_of hd hloads htab hfits

theorem validOptions_plain : ValidOptions plainDocument :=
  ⟨by decide, by decide, by decide, by decide, by decide, .inl (by decide)⟩

theorem syntaxLoads_plain (w : World) (savingDefaults : Bool) :
    SyntaxLoads w plainDocument savingDefaults := .inr (by rintro name ⟨⟩)

/-- A document with options of its own, and macros around what is pasted -/
def codingDocument : Document :=
  { plainDocument with
    buffer := { plainDocument.buffer with
      opt := { plainDocument.buffer.opt with
        tabSize := 3, rightMargin := 72, automatch := 5, autoIndent := false, tabs := false
        freeForm := false, caseSearch := true, wordWrap := true } }
    bpasteSupport := 2
    bpasteMacroBefore := some (bytes "Before")
    bpasteMacroAfter := some (bytes "After") }

def codingSession : Session := { plainSession with documents := fun _ => codingDocument }

theorem validOptions_coding : ValidOptions codingDocument :=
  ⟨by decide, by decide, by decide, by decide, by decide,
    .inr ⟨rfl, bytes "Before", bytes "After", rfl, rfl, ⟨by decide, by decide, by decide⟩,
      ⟨by decide, by decide, by decide⟩⟩⟩

theorem roundTrips_iff_coding : RoundTrips (plainWorld []) codingSession 0 false :=
  (roundTrips_iff validOptions_coding (.inr (by rintro name ⟨⟩))).mpr
    ⟨by decide, fun _ _ => ⟨by decide, by decide, fun h => absurd h.2.1 (by decide),
      by decide +kernel, by decide⟩⟩

/-- A window of 16 columns -/
def narrowWorld : World :=
  { plainWorld [] with terminal := ⟨24, 16, fun _ => 1, Navigation.twentyFour_pos, by decide⟩ }

/-- The default tab size is not restored. -/
theorem not_roundTrips : ¬ RoundTrips narrowWorld plainSession 0 false := fun h =>
  absurd (tabSize_lt_of_roundTrips validOptions_plain (syntaxLoads_plain _ _) h) (by decide)

end NiceEditor.PreferencesLosses
