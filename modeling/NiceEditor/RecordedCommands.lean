import NiceEditor.CommandLine
import Mathlib.Data.List.TakeWhile

namespace NiceEditor.RecordedCommands

open NiceEditor.Pools
open NiceEditor.Commands
open NiceEditor.CommandLine

variable {a : Action} {c : Int} {p : Option (List Byte)} {s rest : List Byte} {verbose : Bool}
variable {n : Nat}

/-- The name under which a command is recorded. -/
def recordedName (a : Action) (verbose : Bool) : List Byte :=
  bytes (if verbose then (commands a).name else (commands a).shortName)

/-- The string is taken for a quoted one. -/
def Quoted (s : List Byte) : Prop := 1 < s.length ∧ s.head? = some 34 ∧ s.getLast? = some 34

/-- The argument is one that the command has, and it is not changed by the quoting rules. -/
def Recordable (a : Action) (c : Int) : Option (List Byte) → Prop
  | none => c = -1 ∨ 0 ≤ c ∧ ¬ a.has .noArgs ∧ ¬ a.has .argIsString
  | some s => c = -1 ∧ a.has .argIsString ∧ (s = [] → a.has .emptyStringOk) ∧ ¬ Quoted s

/-- The calls of `do_action` that can be recorded.  While `InsertString`,
`InsertTab` and `AutoComplete` call other actions the recording is suspended. -/
inductive Invocation : Action → Int → Option (List Byte) → Prop
  | commandLine {line : List Byte} {execOnlyOptions : Bool} {x : Parsed}
      (h : parseCommandLine line execOnlyOptions = .ok x) : Invocation x.action x.number x.string
  | typed {c : Int} (h : 0 ≤ c) : Invocation .insertCharA c none
  | typedTab : Invocation .insertTabA 1 none
  | typedReturn : Invocation .insertLineA (-1) none
  | refresh : Invocation .refreshA 0 none
  | menus : Invocation .execA (-1) none
  | opened : Invocation .prevDocA 1 none
  | pasted : Invocation .gotoBookmarkA (-1) (some [60])
  | startNew : Invocation .newDocA (-1) none
  | startOpen (name : List Byte) : Invocation .openA 0 (some name)
  | startNext : Invocation .nextDocA (-1) none
  | startLine {line : Int} (h : line ≠ 0) : Invocation .gotoLineA line none
  | startColumn {col : Int} (h : col ≠ 0) : Invocation .gotoColumnA col none
  | startMacro (name : List Byte) : Invocation .macroA (-1) (some name)

theorem decimal_digit (c : Byte) (h : c ∈ decimal n) : isDigit c = true := by
  unfold decimal at h
  split at h
  · rw [List.mem_singleton] at h
    subst h
    decide
  · obtain ⟨d, hd, rfl⟩ := List.mem_map.mp h
    have hlt : d < 10 := Nat.digits_lt_base (by decide) (List.mem_reverse.mp hd)
    interval_cases d <;> decide

theorem decimal_ne_nil (n : Nat) : decimal n ≠ [] := by
  unfold decimal
  split
  · simp
  · rename_i hn
    rw [Ne, List.map_eq_nil_iff, List.reverse_eq_nil_iff]
    exact Nat.digits_ne_nil_iff_ne_zero.mpr hn

theorem digit_facts : ∀ c : Byte, isDigit c = true →
    isAsciiSpace c = false ∧ c ≠ 45 ∧ c ≠ 43 ∧ c ≠ 0 ∧ isXDigit c = true ∧
      isDigitOf 10 c = true := by
  intro c h
  have hdigit : isDigitOf 10 c = true := by
    rw [isDigitOf, digitVal, if_pos h, Option.any_some, decide_eq_true_eq]
    simp only [isDigit, Bool.and_eq_true, decide_eq_true_eq] at h
    have hle := UInt8.le_iff_toNat_le.mp h.2
    have hnine : (57 : Byte).toNat = 57 := rfl
    omega
  refine ⟨?_, ?_, ?_, ?_, ?_, hdigit⟩
  all_goals
    simp only [isDigit, isXDigit, isAsciiSpace, Bool.or_eq_true, Bool.and_eq_true,
      decide_eq_true_eq] at h ⊢
    grind

theorem readDigits_reverse (ds : List Nat) (h : ∀ d ∈ ds, d < 10) :
    readDigits 10 (ds.reverse.map fun d => .ofNat (48 + d)) = Nat.ofDigits 10 ds := by
  induction ds with
  | nil => rfl
  | cons d ds ih =>
      have hd := h d List.mem_cons_self
      have hval : (digitVal (.ofNat (48 + d))).getD 0 = d := by
        interval_cases d <;> decide
      have hrest := ih fun x hx => h x (List.mem_cons_of_mem _ hx)
      rw [List.reverse_cons, List.map_append, readDigits, List.foldl_append, ← readDigits, hrest,
        Nat.ofDigits_cons]
      simp only [List.map_cons, List.map_nil, List.foldl_cons, List.foldl_nil, hval]
      omega

/-- `strtoll` reads a printed number back. -/
theorem strtoll_decimal (h : (n : Int) ≤ int64Max) : strtoll (decimal n) = ((n : Int), []) := by
  by_cases hn : n = 0
  · subst hn
    decide
  have hdigits := @decimal_digit n
  have hne := decimal_ne_nil n
  have hhead : ∃ c s, decimal n = c :: s ∧ c ≠ 48 := by
    have hnil : Nat.digits 10 n ≠ [] := Nat.digits_ne_nil_iff_ne_zero.mpr hn
    have hlast := Nat.getLast_digit_ne_zero 10 hn
    obtain ⟨front, d, hsplit⟩ := (List.eq_nil_or_concat (Nat.digits 10 n)).resolve_left hnil
    have hd : d ≠ 0 := by
      simpa [hsplit] using hlast
    have hmem : d ∈ Nat.digits 10 n := by simp [hsplit]
    have hlt : d < 10 := Nat.digits_lt_base (by decide) hmem
    refine ⟨.ofNat (48 + d), front.reverse.map fun d => .ofNat (48 + d), ?_, ?_⟩
    · rw [decimal, if_neg hn, hsplit]
      simp
    · interval_cases d <;> simp_all
  have hread : readDigits 10 (decimal n) = n := by
    rw [decimal, if_neg hn, readDigits_reverse _ fun d hd => Nat.digits_lt_base (by decide) hd,
      Nat.ofDigits_digits]
  obtain ⟨c, s, hcs, hc⟩ := hhead
  obtain ⟨hspace, hminus, hplus, -⟩ := digit_facts c (hdigits c (by simp [hcs]))
  have hdrop : (decimal n).dropWhile isAsciiSpace = decimal n := by
    rw [hcs, List.dropWhile_cons_of_neg (by simp [hspace])]
  have hbase : numberBase (decimal n) = (10, decimal n) := by
    rw [hcs]
    unfold numberBase
    split <;> simp_all
  have hall : ∀ x ∈ decimal n, isDigitOf 10 x = true := fun x hx =>
    (digit_facts x (hdigits x hx)).2.2.2.2.2
  have hsign : ¬ ((decimal n).head? = some 45 ∨ (decimal n).head? = some 43) := by
    simp [hcs, hminus, hplus]
  have hneg : ¬ (decimal n).head? = some 45 := fun heq => hsign (Or.inl heq)
  have htake : (decimal n).takeWhile (isDigitOf 10) = decimal n := by
    exact List.takeWhile_eq_self_iff.mpr hall
  have hrest : (decimal n).dropWhile (isDigitOf 10) = [] := by
    exact List.dropWhile_eq_nil_iff.mpr hall
  simp only [strtoll, hdrop, if_neg hsign, hbase, htake, if_neg hne, hrest, hread, if_neg hneg]
  rw [min_eq_right h]

theorem names_start : ∀ a ∈ actions,
    ((bytes (commands a).name).head?.any isAlpha = true ∧ 0 ∉ bytes (commands a).name) ∧
      (bytes (commands a).shortName).head?.any isAlpha = true ∧
        0 ∉ bytes (commands a).shortName := by
  decide +kernel

theorem recordedName_spec (a : Action) (verbose : Bool) :
    (recordedName a verbose).head?.any isAlpha = true ∧
      (∀ x ∈ recordedName a verbose, isAsciiSpace x = false) ∧
      findCommand (recordedName a verbose) = some a ∧ 0 ∉ recordedName a verbose := by
  have hstart := names_start a (mem_actions a)
  have hspace := names_not_space a (mem_actions a)
  have hfind := findCommand_names a (mem_actions a)
  cases verbose with
  | false => exact ⟨hstart.2.1, hspace.2, hfind.2, hstart.2.2⟩
  | true => exact ⟨hstart.1.1, hspace.1, hfind.1, hstart.1.2⟩

theorem findCommand_append {word : List Byte} (hword : ∀ x ∈ word, isAsciiSpace x = false)
    (hrest : ∀ x ∈ rest.head?, isAsciiSpace x = true) :
    findCommand (word ++ rest) = findCommand word := by
  have htake : (word ++ rest).takeWhile (fun c => !isAsciiSpace c) =
      word.takeWhile fun c => !isAsciiSpace c := by
    have hall : ∀ x ∈ word, (!isAsciiSpace x) = true := fun x hx => by simp [hword x hx]
    rw [List.takeWhile_append_of_pos hall, List.takeWhile_eq_self_iff.mpr hall]
    cases rest with
    | nil => rw [List.takeWhile_nil, List.append_nil]
    | cons x rest =>
        rw [List.takeWhile_cons_of_neg (by simp [hrest x rfl]), List.append_nil]
  have hname (a : Action) := cmdcmp_append (names_not_space a (mem_actions a)).1 hword hrest
  have hshort (a : Action) := cmdcmp_append (names_not_space a (mem_actions a)).2 hword hrest
  simp only [findCommand, htake, hname, hshort]

theorem parseCommandLine_name (hrest : ∀ x ∈ rest.head?, isAsciiSpace x = true)
    (execOnlyOptions : Bool) :
    parseCommandLine (recordedName a verbose ++ rest) execOnlyOptions =
      parseCommand a (rest.dropWhile isAsciiSpace) execOnlyOptions := by
  obtain ⟨hstart, hspace, hfind, -⟩ := recordedName_spec a verbose
  obtain ⟨x, name, hname⟩ : ∃ x name, recordedName a verbose = x :: name := by
    cases h : recordedName a verbose with
    | nil => simp [h] at hstart
    | cons x name => exact ⟨x, name, rfl⟩
  have hx : isAsciiSpace x = false := hspace x (by simp [hname])
  have hline : (recordedName a verbose ++ rest).dropWhile isAsciiSpace =
      recordedName a verbose ++ rest := by
    rw [hname, List.cons_append, List.dropWhile_cons_of_neg (by simp [hx])]
  have hhead : (recordedName a verbose ++ rest).head?.any isAlpha = true := by
    simpa [hname] using hstart
  have hargument : (recordedName a verbose ++ rest).dropWhile (fun c => !isAsciiSpace c) =
      rest := by
    rw [List.dropWhile_append_of_pos fun y hy => by simp [hspace y hy]]
    cases rest with
    | nil => rfl
    | cons y rest => rw [List.dropWhile_cons_of_neg (by simp [hrest y rfl])]
  have hne : recordedName a verbose ++ rest ≠ [] := by simp [hname]
  simp only [parseCommandLine, if_neg hne, hline, hhead, not_true_eq_false, if_false,
    findCommand_append hspace hrest, hfind, hargument]

theorem noArgs_or_argIsString : ∀ a ∈ actions,
    a.has .noArgs = true → a.has .argIsString = false := by
  decide +kernel

theorem parseArgument_string (ha : a.has .argIsString = true) :
    parseArgument a s = .ok ⟨a, c, p⟩ ↔
      c = -1 ∧ p = some (unquote s) ∧ (unquote s = [] → a.has .emptyStringOk = true) := by
  rw [parseArgument, if_pos ha]
  split
  · rename_i h
    simp only [reduceCtorEq, false_iff]
    rintro ⟨-, -, hempty⟩
    exact h.2 (hempty h.1)
  · rename_i h
    simp only [Except.ok.injEq, Parsed.mk.injEq, true_and]
    constructor
    · rintro ⟨rfl, rfl⟩
      refine ⟨rfl, rfl, fun hnil => ?_⟩
      by_contra hempty
      exact h ⟨hnil, hempty⟩
    · rintro ⟨rfl, rfl, -⟩
      exact ⟨rfl, rfl⟩

theorem parseArgument_number (ha : a.has .argIsString = false)
    (h : parseArgument a s = .ok ⟨a, c, p⟩) : p = none := by
  rw [parseArgument, if_neg (by simp [ha])] at h
  split at h
  · cases h
    rfl
  · exact absurd h (by simp)

theorem parse_recorded_number (hc : 0 ≤ c) (hmax : c ≤ int64Max) :
    parseCommand a ((recordedArgument c p).dropWhile isAsciiSpace) false = .ok ⟨a, c, p⟩ ↔
      Recordable a c p := by
  have hne := decimal_ne_nil c.toNat
  have hdigit := @decimal_digit c.toNat
  obtain ⟨x, s, hxs⟩ := List.exists_cons_of_ne_nil hne
  obtain ⟨hspace, -, -, -, hx, -⟩ := digit_facts x (hdigit x (by simp [hxs]))
  have hargument : (recordedArgument c p).dropWhile isAsciiSpace = decimal c.toNat := by
    simp only [recordedArgument]
    rw [if_pos hc, List.dropWhile_cons_of_pos rfl, hxs,
      List.dropWhile_cons_of_neg (by simp [hspace])]
  have hread : strtoll (decimal c.toNat) = (c, []) := by
    rw [strtoll_decimal (by omega), Int.toNat_of_nonneg hc]
  have hxdigit : (decimal c.toNat).head?.any isXDigit = true := by
    simpa [hxs] using hx
  have hnonneg : c ≠ -1 := by omega
  rw [hargument]
  simp only [parseCommand, hxdigit, hne, ne_eq, not_false_eq_true, true_and, not_true_eq_false,
    false_and, and_false, if_false, Bool.false_eq_true]
  cases hargs : a.has .noArgs with
  | true => cases p <;> simp [Recordable, hargs, hnonneg]
  | false =>
      rw [if_neg (by simp)]
      cases hstring : a.has .argIsString with
      | true =>
          rw [parseArgument_string hstring]
          cases p <;> simp [Recordable, hstring, hnonneg]
      | false =>
          have hparse : parseArgument a (decimal c.toNat) = .ok ⟨a, c, none⟩ := by
            rw [parseArgument, if_neg (by simp [hstring]), hread]
            exact if_pos fun x hx => absurd hx (by simp)
          rw [hparse]
          cases p <;> simp [Recordable, hargs, hstring, hnonneg, hc]

theorem recordedArgument_some (hc : ¬ 0 ≤ c) :
    (recordedArgument c (some s)).dropWhile isAsciiSpace =
      if s.head?.all isAsciiSpace then 34 :: (s ++ [34]) else s := by
  simp only [recordedArgument]
  rw [if_neg hc]
  cases s with
  | nil => rfl
  | cons x s =>
      split
      · rfl
      · rename_i hx
        rw [List.dropWhile_cons_of_pos rfl,
          List.dropWhile_cons_of_neg (by simpa using hx)]

theorem unquote_quotes (s : List Byte) : unquote (34 :: (s ++ [34])) = s := by
  rw [unquote, if_pos ⟨by simp, rfl, by simp [List.getLast?_cons]⟩]
  simp

/-- Nothing or a string is parsed back, if the command takes it and the quoting
rules leave it alone. -/
theorem parse_recorded_string (hc : c < 0) :
    parseCommand a ((recordedArgument c p).dropWhile isAsciiSpace) false = .ok ⟨a, c, p⟩ ↔
      Recordable a c p := by
  have hneg : ¬ 0 ≤ c := by omega
  cases p with
  | none =>
      have hargument : (recordedArgument c none).dropWhile isAsciiSpace = [] := by
        simp [recordedArgument, hneg]
      rw [hargument]
      have hparse : parseCommand a [] false = .ok ⟨a, -1, none⟩ := by
        simp [parseCommand]
      rw [hparse]
      simp only [Except.ok.injEq, Parsed.mk.injEq, true_and, and_true, Recordable, hneg,
        false_and, or_false]
      exact eq_comm
  | some s =>
      rw [recordedArgument_some hneg]
      set q := if s.head?.all isAsciiSpace = true then 34 :: (s ++ [34]) else s with hq
      have hne : q ≠ [] := by
        rw [hq]
        split
        · simp
        · rename_i h
          rintro rfl
          simp at h
      have hunquote : unquote q = s ↔ ¬ Quoted s := by
        rw [hq]
        split
        · rename_i h
          rw [unquote_quotes]
          simp only [true_iff]
          rintro ⟨-, hfirst, -⟩
          rw [hfirst] at h
          exact absurd h (by decide)
        · rw [unquote]
          split
          · rename_i hquoted
            refine iff_of_false (fun heq => ?_) (not_not.mpr hquoted)
            have hlength := congrArg List.length heq
            rw [List.length_dropLast, List.length_tail] at hlength
            omega
          · rename_i hquoted
            exact iff_of_true rfl hquoted
      have hexclusive := noArgs_or_argIsString a (mem_actions a)
      simp only [parseCommand, hne, ne_eq, not_false_eq_true, true_and, and_false, if_false,
        Bool.false_eq_true]
      cases hargs : a.has .noArgs with
      | true => simp [Recordable, hexclusive hargs]
      | false =>
          rw [if_neg (by simp)]
          cases hstring : a.has .argIsString with
          | true =>
              rw [if_neg (by simp), parseArgument_string hstring, Option.some_inj, eq_comm (a := s),
                hunquote]
              simp only [Recordable, hstring, true_and]
              constructor
              · rintro ⟨hc, hs, hempty⟩
                exact ⟨hc, fun hnil => hempty (by rw [hunquote.mpr hs, hnil]), hs⟩
              · rintro ⟨hc, hempty, hs⟩
                exact ⟨hc, hs, fun hnil => hempty (by rw [← hunquote.mpr hs, hnil])⟩
          | false =>
              refine iff_of_false (fun heq => ?_) (by simp [Recordable, hstring])
              split at heq
              · exact absurd heq (by simp)
              · exact absurd (parseArgument_number hstring heq) (by simp)

theorem recordedArgument_head : ∀ x ∈ (recordedArgument c p).head?, isAsciiSpace x = true := by
  unfold recordedArgument
  split
  · rintro x ⟨⟩
    rfl
  · split
    · rintro x ⟨⟩
    · split
      all_goals
        rintro x ⟨⟩
        rfl

theorem recordedArgument_not_mem (hp : ∀ s ∈ p, 0 ∉ s) : 0 ∉ recordedArgument c p := by
  unfold recordedArgument
  split
  · have hdecimal : 0 ∉ decimal c.toNat := fun hmem =>
      absurd (decimal_digit 0 hmem) (by decide)
    simp [hdecimal]
  · cases p with
    | none => simp
    | some s =>
        have hs := hp s rfl
        dsimp only
        split <;> simp [hs]

/-- The line that is recorded for a command is parsed back to the same command
exactly when the command takes that argument and the quoting rules leave it
alone. -/
theorem parse_recordAction (cs : List Byte) (verbose : Bool) (hrecord : a.has .doNotRecord = false)
    (hnop : a ≠ .nopA) (hc : c ≤ int64Max) (hp : ∀ s ∈ p, 0 ∉ s) :
    ∃ line, recordAction cs a c p verbose = cs ++ (line ++ [0]) ∧ 0 ∉ line ∧
      (parseCommandLine line false = .ok ⟨a, c, p⟩ ↔ Recordable a c p) := by
  refine ⟨recordedName a verbose ++ recordedArgument c p, ?_, ?_, ?_⟩
  · simp only [recordAction, hrecord, if_neg hnop, Bool.false_eq_true, if_false]
    rfl
  · have hname := (recordedName_spec a verbose).2.2.2
    rw [List.mem_append, not_or]
    exact ⟨hname, recordedArgument_not_mem hp⟩
  · rw [parseCommandLine_name recordedArgument_head false]
    rcases Int.lt_or_le c 0 with hneg | hnonneg
    · exact parse_recorded_string hneg
    · exact parse_recorded_number hnonneg hc

/-- A search is recorded and parsed back. -/
theorem parse_recordAction_find :
    ∃ line, recordAction [] .findA (-1) (some [32, 120]) false = [] ++ (line ++ [0]) ∧
      0 ∉ line ∧ parseCommandLine line false = .ok ⟨.findA, -1, some [32, 120]⟩ := by
  obtain ⟨line, hline, hzero, hparse⟩ := parse_recordAction (a := .findA) (c := -1)
    (p := some [32, 120]) [] false (by decide) (by decide) (by decide) (by simp)
  exact ⟨line, hline, hzero, hparse.mpr ⟨rfl, by decide, by simp, by simp [Quoted]⟩⟩

/-- When `Open` returns to the previous document, it records a command that has
no arguments with an argument. -/
theorem not_parse_recordAction_prevDoc :
    ¬ ∀ (a : Action) (c : Int) (p : Option (List Byte)) (verbose : Bool), Invocation a c p →
      a.has .doNotRecord = false → a ≠ .nopA →
      ∃ line, recordAction [] a c p verbose = line ++ [0] ∧
        parseCommandLine line false = .ok ⟨a, c, p⟩ := by
  intro hall
  obtain ⟨line, hline, hparse⟩ :=
    hall .prevDocA 1 none false .opened (by decide) (by decide)
  have hrecorded : recordAction [] .prevDocA 1 none false = [80, 68, 32, 49] ++ [0] := by
    decide +kernel
  rw [hrecorded] at hline
  rw [← List.append_cancel_right hline] at hparse
  exact absurd hparse (by decide +kernel)

end NiceEditor.RecordedCommands
