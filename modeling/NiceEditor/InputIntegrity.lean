import NiceEditor.InputEvents
import NiceEditor.Runs

namespace NiceEditor.InputIntegrity

open NiceEditor.Pools
open NiceEditor.BufferData
open NiceEditor.Encoding
open NiceEditor.Navigation
open NiceEditor.Clips
open NiceEditor.Streams
open NiceEditor.InputLine
open NiceEditor.CharacterRows
open NiceEditor.Utf8Detection
open NiceEditor.InputRows
open NiceEditor.InputEvents
open NiceEditor.Runs

/-- The offset, the cursor and the length are in order, the line ends with its first 0, and
it is in its encoding. -/
structure Integral (ib : InputBuf) : Prop where
  offset : 0 ≤ ib.offset
  offset_le : ib.offset ≤ ib.pos
  pos_le : ib.pos ≤ ib.len
  len_le : ib.len ≤ maxInputLineLen
  ends : ib.buf[ib.len.toNat]? = some 0
  zero : 0 ∉ ib.text
  ascii : ib.encoding = .ascii → ∀ c ∈ ib.text, c < 0x80
  utf8 : ib.encoding = .utf8 → IsEncodings ib.text ∧
    IsEncodings (ib.text.take ib.pos.toNat) ∧ IsEncodings (ib.text.take ib.offset.toNat)

/-- The cursor is in the column of the characters before it, and in the window. -/
structure InColumn (t : Terminal) (ib : InputBuf) : Prop where
  x : ib.x = ib.startX +
    getStringWidth t (ib.buf.drop ib.offset.toNat) (ib.pos - ib.offset) ib.encoding
  start : ib.startX ≤ ib.x
  lt : ib.x < t.neColumns

/-- The routine between two keys, with what it was called with. -/
structure Session where
  prompt : Prompt
  request : Request

/-- A condition on what the routine is called with: the terminal, the prompt, whether the help is
shown, and the default. -/
abbrev CallCondition := Terminal → Prompt → Bool → Option (List Byte) → Prop

/-- The routine is called, with what its static buffer has held before. -/
def Called (fits : CallCondition) (buf : List Byte) (s : Session) : Prop :=
  ∃ t p showHelp default, fits t p showHelp default ∧ s = ⟨p, start t p showHelp buf default⟩

/-- The routine is called for the first time. -/
def Starts (fits : CallCondition) (s : Session) : Prop :=
  Called fits (List.replicate (maxInputLineLen + 1) 0) s

/-- The routine handles an event, or it has returned and is called again. -/
def Step (fits : CallCondition) (permitted : Prompt → Request → Event → Prop)
    (s s' : Session) : Prop :=
  (∃ e, permitted s.prompt s.request e ∧ s' = ⟨s.prompt, handle s.prompt s.request e⟩) ∨
    Called fits s.request.ib.buf s'

/-- The character, the completion or the text of an event can be inserted. -/
def Accepts (p : Prompt) (r : Request) : Event → Prop
  | .char c => (0 < c ∧ c < 2 ^ 31) ∧ (p.charInsDelOk = false →
      r.ib.x < r.terminal.neColumns - outputWidth r.terminal c → r.ib.pos ≠ r.ib.len →
        EvenBetween r.terminal r.ib r.ib.offset r.ib.pos)
  | .complete completion _ => Completes completion r.ib
  | .history line => Exact (copied line)
  | .find clip answer _ => (∀ line, answer = some (true, line) → Exact (copied line)) ∧
      ∀ line, answer = some (false, line) →
        Pastes (some line) clip (r.ib.clearIfFirst r.firstCharTyped)
  | .paste clip => Pastes none clip r.ib
  | .autocomplete completion requester _ => ∀ s ∈ completion,
      Autocompletes (requester.getD r.terminal) p s r.ib ∧ ∀ t ∈ requester, Redrawable t p r.ib
  | _ => True

/-- The handlers that read the column of the cursor. -/
def readsColumn : Event → Bool
  | .char _ | .moveLeft | .moveRight | .backspace | .moveIncDown | .moveEol | .toggle
  | .prevWord | .nextWord => true
  | .autocomplete _ requester _ => requester.isNone
  | _ => false

/-- The text of an event can be inserted, and its handler reads the right column if it reads
it. -/
def Permitted (p : Prompt) (r : Request) (e : Event) : Prop :=
  Accepts p r e ∧ (readsColumn e = true → InColumn r.terminal r.ib)

/-- What is behind the cursor does not get into the window. -/
def TooLong (r : Request) : Prop :=
  r.terminal.neColumns ≤ r.ib.x + getStringWidth r.terminal (r.ib.buf.drop r.ib.pos.toNat)
    (r.ib.len - r.ib.pos) r.ib.encoding

/-- The characters at the end of the line that get into the window take as many columns as
bytes. -/
def EvenEnd (r : Request) : Prop :=
  EvenAtEnd r.terminal r.ib.encoding r.ib.text (r.terminal.neColumns - r.ib.startX)

/-- What gets before the cursor takes as many columns as bytes where the handler of an event calls
`input_refresh` with the cursor behind the start of the window. -/
def DrawsEven (p : Prompt) (r : Request) : Event → Prop
  | .char c =>
      let ib := r.ib.prepare p r.firstCharTyped c
      p.charInsDelOk = false →
        r.terminal.neColumns ≤ r.ib.x + getCharWidth r.terminal (ib.charBytes c) ib.encoding →
          EvenBetween r.terminal r.ib r.ib.offset r.ib.pos ∧
            getCharWidth r.terminal (ib.charBytes c) ib.encoding = (ib.charBytes c).length
  | .complete completion requester =>
      let t := requester.getD r.terminal
      let startX := (r.ib.redrawn p requester).startX
      (taken completion r.ib = none → ∀ t ∈ requester, Redrawable t p r.ib) ∧
        ∀ s ∈ taken completion r.ib, startX < t.neColumns ∧
          EvenAtEnd t (completedEncoding r.ib s) (completedText r.ib s) (t.neColumns - startX)
  | .find _ answer t => (p.promptLen + 2 : Int) < t.neColumns ∧
      ((∀ line, answer ≠ some (true, line)) → Redrawable t p r.ib)
  | .moveRight => p.charInsDelOk = false → r.ib.pos < r.ib.len →
      r.terminal.neColumns ≤ r.ib.x + r.ib.widthAt r.terminal r.ib.pos →
        EvenBetween r.terminal r.ib r.ib.offset (r.ib.next r.ib.pos)
  | .backspace => p.charInsDelOk = false → r.ib.pos ≠ 0 →
      EvenBetween r.terminal r.ib r.ib.offset (r.ib.prev r.ib.pos)
  | .deleteChar => p.charInsDelOk = false → r.ib.pos < r.ib.len →
      EvenBetween r.terminal r.ib r.ib.offset r.ib.pos
  | .moveIncDown => r.ib.pos < r.ib.len →
      r.terminal.neColumns ≤ r.ib.x + r.ib.widthAt r.terminal r.ib.pos → EvenEnd r
  | .moveEol => TooLong r → EvenEnd r
  | .toggle => r.ib.pos = 0 → TooLong r → EvenEnd r
  | .prevWord => EvenBetween r.terminal r.ib 0 r.ib.pos
  | .nextWord => EvenBetween r.terminal r.ib r.ib.offset r.ib.len
  | .refresh => EvenBetween r.terminal r.ib r.ib.offset r.ib.pos
  | .paste clip => clip.isSome = true → Joins clip r.ib →
      EvenBetween r.terminal r.ib r.ib.offset r.ib.pos
  | .autocomplete completion requester t =>
      let t₁ := requester.getD r.terminal
      (∀ t ∈ requester, Redrawable t p r.ib) ∧
        ((∀ s ∈ completion, Foreign s r.ib) →
          EvenBetween t₁ r.ib r.ib.offset r.ib.pos) ∧
        ∀ t₂ ∈ t, t₂.wcwidth = t₁.wcwidth ∧
          t₁.neColumns - (r.ib.redrawn p requester).startX ≤ t₂.neColumns - (p.promptLen + 2)
  | .resize t | .suspend t => Redrawable t p r.ib
  | .history _ | .moveLeft | .deleteLine | .deleteEol | .moveIncUp | .moveSol | .other => True

variable {t : Terminal} {p : Prompt} {r : Request} {e : Event} {ib : InputBuf} {s s' : Session}
variable {hidden shown rest : List (List Byte)} {ok : Prop}

/-- The line is a row of characters, and it is not scrolled when its default may be
replaced. -/
structure Invariant (ok : Prop) (r : Request) : Prop where
  kept : Kept r.terminal ok r.ib
  first : r.firstCharTyped = true → r.ib.pos = 0 ∧ r.ib.offset = 0

theorem inColumn_iff (h : Holds ib hidden shown rest) :
    InColumn t ib ↔ Placed t ib shown := by
  constructor
  · rintro ⟨hx, -, hlt⟩
    rw [h.shown_width] at hx
    exact ⟨hx, hlt⟩
  · rintro ⟨hx, hlt⟩
    have := columns_nonneg t ib.encoding shown
    exact ⟨by rw [h.shown_width, hx], by omega, hlt⟩

theorem InColumn.kept (hcolumn : InColumn t ib) (h : Rowed ib) : Kept t True ib := by
  obtain ⟨hidden, shown, rest, hholds⟩ := h
  exact ⟨hidden, shown, rest, hholds, fun _ => (inColumn_iff hholds).mp hcolumn⟩

theorem Rowed.integral (h : Rowed ib) : Integral ib := by
  obtain ⟨hidden, shown, rest, hholds⟩ := h
  have htext := hholds.row.text
  have hpos := hholds.pos
  have hoffset := hholds.offset
  have hlen := hholds.len_eq
  refine ⟨by omega, by omega, by omega, hholds.row.len_le, ?_, ?_, fun hascii => ?_,
    fun hutf8 => ?_⟩
  · obtain ⟨junk, hbuf⟩ := hholds.row.ends
    rw [hbuf, hholds.row.len, Int.toNat_natCast, bytes,
      List.getElem?_append_right le_rfl, Nat.sub_self]
    rfl
  · rw [htext]
    exact hholds.row.zero_not_mem
  · have hchars := hholds.row.chars
    rw [htext]
    rw [hascii] at hchars
    intro c hc
    obtain ⟨ch, hch, hmem⟩ := List.mem_flatten.mp hc
    cases hchars ch hch with
    | ascii hne hlow => rwa [List.mem_singleton.mp hmem]
  · have hvalid := hholds.row.valid
    rw [hutf8] at hvalid
    have hfront : ∀ cs cs', cs ++ cs' = hidden ++ (shown ++ rest) →
        IsEncodings ((hidden ++ (shown ++ rest)).flatten.take (bytes cs)) := by
      intro cs cs' heq
      rw [← heq, List.flatten_append, bytes, List.take_left]
      rw [← heq] at hvalid
      exact (valid_append.mp hvalid).1.isEncodings
    rw [htext]
    refine ⟨hvalid.isEncodings, ?_, ?_⟩
    · have hplace : ib.pos.toNat = bytes (hidden ++ shown) := by
        rw [bytes_append]
        omega
      rw [hplace]
      exact hfront _ rest (by simp)
    · rw [hoffset, Int.toNat_natCast]
      exact hfront _ _ rfl

/-- An event keeps the line a row of characters, and the cursor in its column where
`input_refresh` keeps it there. -/
theorem handled_kept (h : Invariant ok r) (hpermitted : Permitted p r e)
    (heven : ok → DrawsEven p r e) : Kept (terminalAfter r e) ok (handled p r e) := by
  obtain ⟨haccepts, hcolumn⟩ := hpermitted
  obtain ⟨hkept, hfirst⟩ := h
  have hrowed := hkept.rowed
  have hat : readsColumn e = true → ∃ row, At r.terminal r.ib row := fun hreads =>
    ((hcolumn hreads).kept hrowed).at
  cases e with
  | char c =>
      obtain ⟨row, hrow⟩ := hat rfl
      obtain ⟨⟨hpos, hmax⟩, hbefore⟩ := haccepts
      refine typeChar_kept hrow hfirst hpos hmax hbefore fun hok hins hout => ?_
      obtain ⟨hbetween, hbytes⟩ := heven hok hins hout
      exact ⟨hbetween, List.forall_mem_singleton.mpr hbytes⟩
  | complete completion requester =>
      cases requester with
      | none =>
          exact complete_kept hrowed haccepts (fun hok _ => hkept.of_ok hok)
            fun hok => (heven hok).2
      | some t =>
          obtain ⟨hidden, shown, rest, hholds⟩ := hrowed
          have hredrawn : Rowed (r.ib.refreshPrompt p) :=
            ⟨hidden, shown, rest, (hholds.started (p.promptLen + 2)).refresh⟩
          exact complete_kept hredrawn haccepts
            (fun hok hnone => refreshPrompt_kept hkept.rowed fun _ => (heven hok).1 hnone t rfl)
            fun hok => (heven hok).2
  | history line => exact historyLine_kept hkept haccepts
  | find clip answer t =>
      exact find_kept hrowed hfirst haccepts.1 haccepts.2 (fun hok => (heven hok).1)
        fun hok => (heven hok).2
  | moveLeft =>
      obtain ⟨row, hrow⟩ := hat rfl
      exact (moveLeft_at hrow true).kept ok
  | moveRight =>
      obtain ⟨row, hrow⟩ := hat rfl
      exact moveRight_kept hrow heven
  | backspace =>
      obtain ⟨row, hrow⟩ := hat rfl
      exact backspace_kept hrow heven
  | deleteChar => exact deleteChar_kept hkept heven
  | deleteLine => exact deleteLine_kept hkept
  | deleteEol => exact deleteEol_kept hkept
  | moveIncUp => exact moveIncUp_kept hkept
  | moveSol => exact moveToSol_kept hkept
  | moveIncDown =>
      obtain ⟨row, hrow⟩ := hat rfl
      exact moveIncDown_kept hrow heven
  | moveEol =>
      obtain ⟨row, hrow⟩ := hat rfl
      exact moveToEol_kept hrow heven
  | toggle =>
      obtain ⟨row, hrow⟩ := hat rfl
      rw [handled, InputBuf.toggle]
      split
      case isTrue => exact moveToSol_kept hkept
      case isFalse hzero => exact moveToEol_kept hrow fun hok => heven hok (not_not.mp hzero)
  | prevWord =>
      obtain ⟨row, hrow⟩ := hat rfl
      exact prevWord_kept hrow heven
  | nextWord =>
      obtain ⟨row, hrow⟩ := hat rfl
      exact nextWord_kept hrow heven
  | refresh =>
      obtain ⟨hidden, shown, rest, hholds, hplaced⟩ := hkept
      exact hholds.redrawn fun hok => ⟨hplaced hok, hholds.even (heven hok)⟩
  | paste clip =>
      refine paste_kept hkept haccepts fun hok hsome => heven hok ?_
      simpa [pasteSource] using hsome
  | autocomplete completion requester t =>
      cases requester with
      | none =>
          refine autocomplete_kept hrowed (fun _ => (hcolumn rfl).kept hrowed)
            (fun s hs => (haccepts s hs).1) (fun hok => (heven hok).2.1) fun hok => (heven hok).2.2
      | some t₁ =>
          obtain ⟨hidden, shown, rest, hholds⟩ := hrowed
          have hredrawn : Rowed (r.ib.refreshPrompt p) :=
            ⟨hidden, shown, rest, (hholds.started (p.promptLen + 2)).refresh⟩
          refine autocomplete_kept hredrawn (fun hor => ?_)
            (fun s hs => (haccepts s hs).1.refreshPrompt)
            (fun hok => (heven hok).2.1) fun hok => (heven hok).2.2
          refine refreshPrompt_kept hkept.rowed fun _ => ?_
          rcases hor with hok | ⟨s, hs⟩
          · exact (heven hok).1 t₁ rfl
          · exact (haccepts s hs).2 t₁ rfl
  | resize t => exact refreshPrompt_kept hrowed heven
  | suspend t => exact refreshPrompt_kept hrowed heven
  | other => exact hkept

theorem handle_invariant (h : Invariant ok r) (hpermitted : Permitted p r e)
    (heven : ok → DrawsEven p r e) : Invariant ok (handle p r e) := by
  refine ⟨handled_kept h hpermitted heven, fun hfirst => ?_⟩
  cases e with
  | resize t => exact h.first hfirst
  | _ => exact absurd hfirst nofun

theorem start_invariant {buf : List Byte} (hsized : Sized buf) (t : Terminal) (p : Prompt)
    (showHelp : Bool) {default : Option (List Byte)} (hexact : ∀ s ∈ default, Exact (copied s))
    (hlt : ok → ((if showHelp then p.helpLen else 0) + p.promptLen + 2 : Nat) < t.neColumns) :
    Invariant ok (start t p showHelp buf default) := by
  have hempty : write buf 0 [0] = 0 :: buf.drop 1 := by simp [write]
  have hwritten : Sized (write buf 0 [0]) := by
    have hlength := hsized.length
    exact hsized.write (.inl (by rw [hlength]; simp [maxInputLineLen]))
  cases default with
  | none =>
      have hholds : Holds (start t p showHelp buf none).ib [] [] [] :=
        ⟨⟨Valid.nil, hwritten, ⟨_, hempty⟩, rfl⟩, rfl, rfl⟩
      exact ⟨hholds.at_start rfl hlt, fun _ => ⟨rfl, rfl⟩⟩
  | some s =>
      obtain ⟨row, hrow⟩ := (@setLine_row (start t p showHelp buf none).ib s) hwritten
        (hexact s rfl)
      have hholds : Holds (start t p showHelp buf (some s)).ib [] [] row :=
        ⟨⟨hrow.valid, hrow.sized, hrow.ends, hrow.len⟩, rfl, rfl⟩
      refine ⟨hholds.at_start ?_ hlt, fun _ => ⟨rfl, rfl⟩⟩
      dsimp only [start, InputBuf.refresh, InputBuf.setLine]
      omega

/-- `detect_encoding` is right about the default. -/
def exactDefault : CallCondition := fun _ _ _ default => ∀ s ∈ default, Exact (copied s)

/-- The prompt is shorter than the window. -/
def promptFits : CallCondition := fun t p showHelp default =>
  exactDefault t p showHelp default ∧
    ((if showHelp then p.helpLen else 0) + p.promptLen + 2 : Nat) < t.neColumns

theorem reached_invariant {fits : CallCondition} {permitted : Prompt → Request → Event → Prop}
    (hfits : ∀ t p showHelp default, fits t p showHelp default →
      exactDefault t p showHelp default ∧ (ok → promptFits t p showHelp default))
    (hpermitted : ∀ p r e, Invariant ok r → permitted p r e →
      Permitted p r e ∧ (ok → DrawsEven p r e))
    (h : Reached (Starts fits) (Step fits permitted) s) : Invariant ok s.request := by
  have hcalled : ∀ buf s, Sized buf → Called fits buf s → Invariant ok s.request := by
    rintro buf s hsized ⟨t, p, showHelp, default, hfit, rfl⟩
    obtain ⟨hexact, hprompt⟩ := hfits t p showHelp default hfit
    exact start_invariant hsized t p showHelp hexact fun hok => (hprompt hok).2
  have hzeros : Sized (List.replicate (maxInputLineLen + 1) 0) :=
    ⟨List.length_replicate, by simp [List.getLast?_replicate]⟩
  refine @Reached.invariant Session _ (fun s => Invariant ok s.request) _ s h
    (fun s => hcalled _ s hzeros) ?_
  rintro s s' hinvariant (⟨e, hevent, rfl⟩ | hcall)
  · obtain ⟨hevent, heven⟩ := hpermitted s.prompt s.request e hinvariant hevent
    exact handle_invariant hinvariant hevent heven
  · obtain ⟨hidden, shown, rest, hholds⟩ := hinvariant.kept.rowed
    exact hcalled _ s' hholds.row.sized hcall

/-- Events that are permitted one after the other. -/
def AllPermitted (permitted : Prompt → Request → Event → Prop) (p : Prompt) :
    Request → List Event → Prop
  | _, [] => True
  | r, e :: es => permitted p r e ∧ AllPermitted permitted p (handle p r e) es

theorem reached_events {fits : CallCondition} {permitted : Prompt → Request → Event → Prop}
    (es : List Event) (h : Reached (Starts fits) (Step fits permitted) ⟨p, r⟩)
    (hall : AllPermitted permitted p r es) :
    Reached (Starts fits) (Step fits permitted) ⟨p, es.foldl (handle p) r⟩ := by
  induction es generalizing r with
  | nil => exact h
  | cons e es ih => exact ih (.next h (.inl ⟨e, hall.1, rfl⟩)) hall.2

theorem exact_of_low {s : List Byte} (h : ∀ x ∈ s, x < 0xFE) : Exact s := by
  refine (exact_iff s).mpr ?_
  rintro ⟨x, hx, hhigh⟩
  exact absurd (h x hx) (UInt8.not_lt.mpr hhigh)

/-- In a run of the routine in which only what is valid is inserted and the handlers read the
right column, the line is integral after every event. -/
theorem integral_of_reached
    (h : Reached (Starts exactDefault) (Step exactDefault Permitted) s) :
    Integral s.request.ib := by
  have hinvariant : Invariant False s.request :=
    reached_invariant (fun _ _ _ _ hexact => ⟨hexact, nofun⟩)
      (fun p r e _ hpermitted => ⟨hpermitted, nofun⟩) h
  exact Rowed.integral hinvariant.kept.rowed

/-- A terminal of 80 columns, with wide characters. -/
def eightyColumns : Terminal :=
  ⟨25, 80, fun c => if 0x1100 ≤ c then 2 else 1, twentyFive_pos, eighty_pos⟩

def filePrompt : Prompt where
  promptLen := 4
  helpLen := 0
  alphaAllowed := true
  preferUtf8 := true
  charInsDelOk := true
  isWord _ _ := false

/-- The routine is called with a default. -/
def withDefault (s : List Byte) : Session :=
  ⟨filePrompt,
    start eightyColumns filePrompt false (List.replicate (maxInputLineLen + 1) 0) (some s)⟩

/-- A wide character is typed, one before it, and a file name completed; then a line of the history
is chosen, and its last character deleted. -/
def typing : List Event :=
  [.char 0x4E2D, .moveLeft, .char 0xE9,
    .complete (some [0xC3, 0xA9, 0xE4, 0xB8, 0xAD, 0xC3, 0xA9]) none,
    .history [97, 32, 0xC3, 0xA9], .moveEol, .backspace]

theorem typing_permitted :
    AllPermitted Permitted filePrompt (withDefault [0xC3, 0xA9]).request typing := by
  refine ⟨⟨⟨by decide, nofun⟩, fun _ => ?_⟩, ⟨trivial, fun _ => ?_⟩,
    ⟨⟨by decide, nofun⟩, fun _ => ?_⟩, ⟨?_, nofun⟩, ⟨?_, nofun⟩, ⟨trivial, fun _ => ?_⟩,
    ⟨trivial, fun _ => ?_⟩, trivial⟩
  · exact ⟨by decide +kernel, by decide +kernel, by decide +kernel⟩
  · exact ⟨by decide +kernel, by decide +kernel, by decide +kernel⟩
  · exact ⟨by decide +kernel, by decide +kernel, by decide +kernel⟩
  · rintro s ⟨⟩
    exact ⟨by decide, exact_of_low (by decide +kernel), by decide +kernel⟩
  · exact exact_of_low (by decide +kernel)
  · exact ⟨by decide +kernel, by decide +kernel, by decide +kernel⟩
  · exact ⟨by decide +kernel, by decide +kernel, by decide +kernel⟩

theorem withDefault_starts :
    Starts exactDefault (withDefault [0xC3, 0xA9]) := by
  refine ⟨eightyColumns, filePrompt, false, some [0xC3, 0xA9], ?_, rfl⟩
  rintro s ⟨⟩
  exact exact_of_low (by decide +kernel)

theorem integral_typing :
    Integral (typing.foldl (handle filePrompt) (withDefault [0xC3, 0xA9]).request).ib :=
  integral_of_reached (reached_events typing (.init withDefault_starts) typing_permitted)

/-- A completion in another encoding leaves a 0 before the end of the line, in the place of
the quote. -/
theorem not_integral : ¬ ∀ s, Reached (Starts fun _ _ _ _ => True)
    (Step (fun _ _ _ _ => True) fun _ _ _ => True) s → Integral s.request.ib := by
  intro h
  have hzero := (h ⟨filePrompt, handle filePrompt
      (withDefault [0xC3, 0xA9, 32, 34, 97, 34]).request (.complete (some [97, 0xE9]) none)⟩
    (.next (.init ⟨eightyColumns, filePrompt, false, some [0xC3, 0xA9, 32, 34, 97, 34], trivial,
      rfl⟩) (.inl ⟨_, trivial, rfl⟩))).zero
  exact absurd hzero (by decide +kernel)

theorem kept_inColumn (h : Kept t True ib) : InColumn t ib := by
  obtain ⟨hidden, shown, rest, hholds, hplaced⟩ := h
  exact (inColumn_iff hholds).mpr (hplaced trivial)

/-- The text of an event can be inserted, and what is before the cursor is even where its handler
draws the line. -/
def AcceptsEven (p : Prompt) (r : Request) (e : Event) : Prop := Accepts p r e ∧ DrawsEven p r e

/-- In a run of the routine in which the columns before the cursor are bytes wherever
`input_refresh` is called, the cursor is in its column after every event. -/
theorem inColumn_of_reached
    (h : Reached (Starts promptFits) (Step promptFits AcceptsEven) s) :
    InColumn s.request.terminal s.request.ib := by
  have hinvariant : Invariant True s.request := by
    refine reached_invariant (fun _ _ _ _ hfits => ⟨hfits.1, fun _ => hfits⟩) ?_ h
    rintro p r e hinvariant ⟨haccepts, heven⟩
    exact ⟨⟨haccepts, fun _ => kept_inColumn hinvariant.kept⟩, fun _ => heven⟩
  exact kept_inColumn hinvariant.kept

/-- On a terminal that cannot insert characters the end of a line is shown that is too long for 20
columns, a character is typed and one deleted, and the window made wider; then the cursor moves in
a line of the history. -/
def redrawing : List Event :=
  [.moveEol, .char 120, .moveLeft, .backspace, .resize eightyColumns, .history [0xC3, 0xA9, 97],
    .moveRight, .moveEol]

def plainPrompt : Prompt := { filePrompt with charInsDelOk := false }

theorem twenty_pos : (0 : Int) < 20 := by decide

def twentyColumns : Terminal :=
  ⟨25, 20, fun c => if 0x1100 ≤ c then 2 else 1, twentyFive_pos, twenty_pos⟩

def longDefault : Session :=
  ⟨plainPrompt, start twentyColumns plainPrompt false (List.replicate (maxInputLineLen + 1) 0)
    (some (List.replicate 16 97))⟩

theorem redrawing_acceptsEven :
    AllPermitted AcceptsEven plainPrompt longDefault.request redrawing := by
  refine ⟨⟨trivial, fun _ => ?_⟩, ⟨⟨by decide, fun _ _ _ => ?_⟩, fun _ _ => ⟨?_, ?_⟩⟩,
    ⟨trivial, trivial⟩, ⟨trivial, fun _ _ => ?_⟩, ⟨trivial, ?_, ?_⟩, ⟨?_, trivial⟩,
    ⟨trivial, fun _ _ hout => ?_⟩, ⟨trivial, fun hout => ?_⟩, trivial⟩
  · exact evenAtEnd_of_ascii (by decide +kernel)
  · exact evenBetween_of_ascii (by decide +kernel) _ _
  · exact evenBetween_of_ascii (by decide +kernel) _ _
  · decide +kernel
  · exact evenBetween_of_ascii (by decide +kernel) _ _
  · exact evenBetween_of_ascii (by decide +kernel) _ _
  · decide +kernel
  · exact exact_of_low (by decide +kernel)
  · exact absurd hout (by decide +kernel)
  · exact absurd hout (by unfold TooLong; decide +kernel)

theorem longDefault_starts : Starts promptFits longDefault := by
  refine ⟨twentyColumns, plainPrompt, false, some (List.replicate 16 97), ⟨?_, by decide⟩, rfl⟩
  rintro s ⟨⟩
  exact exact_of_low (by decide +kernel)

theorem inColumn_redrawing : InColumn eightyColumns
    (redrawing.foldl (handle plainPrompt) longDefault.request).ib :=
  inColumn_of_reached (reached_events redrawing (.init longDefault_starts) redrawing_acceptsEven)

/-- `input_refresh` counts the bytes of a character of two bytes as columns. -/
theorem not_inColumn : ¬ ∀ s, Reached (Starts fun _ _ _ _ => True)
    (Step (fun _ _ _ _ => True) fun _ _ _ => True) s →
      InColumn s.request.terminal s.request.ib := by
  intro h
  have hcolumn := (h ⟨filePrompt, handle filePrompt (handle filePrompt
      (withDefault [0xC3, 0xA9]).request .moveRight) .refresh⟩
    (.next (.next (.init ⟨eightyColumns, filePrompt, false, some [0xC3, 0xA9], trivial, rfl⟩)
      (.inl ⟨_, trivial, rfl⟩)) (.inl ⟨_, trivial, rfl⟩))).x
  exact absurd hcolumn (by decide +kernel)

end NiceEditor.InputIntegrity
