import NiceEditor.Macros
import NiceEditor.RecordedCommands

namespace NiceEditor.OptimizedMacros

open NiceEditor.Pools
open NiceEditor.BufferData
open NiceEditor.Encoding
open NiceEditor.Navigation
open NiceEditor.LineText
open NiceEditor.Commands
open NiceEditor.CommandLine
open NiceEditor.RecordedCommands
open NiceEditor.Streams
open NiceEditor.Macros

/-- A line that is neither an `Undo` nor, possibly, the name of a macro. -/
def safeLine (l : List Byte) : Bool :=
  match parseCommandLine l false with
  | .ok x => x.action != .undoA
  | .error e => e != .noSuchCommand

/-- An `InsertChar` of a printable character, with no `Undo` and no unknown command
from it on. -/
def mergeable (l : List Byte) (after : List (List Byte)) : Bool :=
  decide (insertcharVal l < 0x80) && isPrint (insertcharVal l) && (l :: after).all safeLine

/-- The character that a line inserts. -/
def charOf (l : List Byte) : Byte := .ofNat (insertcharVal l).toNat

/-- The line that inserts a string. -/
def insertStringLine (verbose : Bool) (chars : List Byte) : List Byte :=
  insertStringName verbose ++ (32 :: 34 :: (chars ++ [34]))

/-- The lines that `optimize_macro` merges with others. -/
def mergedLines : List (List Byte) → List (List Byte)
  | [] => []
  | l :: after => if mergeable l after then l :: mergedLines after else mergedLines after

/-- Rows of mergeable lines become lines that insert strings, and all other lines
stay as they are and where they are. -/
inductive Merged (verbose : Bool) : List (List Byte) → List (List Byte) → Prop
  | nil : Merged verbose [] []
  | keep {l : List Byte} {ls ls' : List (List Byte)} (hl : mergeable l ls = false)
      (h : Merged verbose ls ls') : Merged verbose (l :: ls) (l :: ls')
  | merge {run ls ls' : List (List Byte)} (hrun : run ≠ [])
      (hmerge : mergedLines (run ++ ls) = run ++ mergedLines ls) (h : Merged verbose ls ls') :
      Merged verbose (run ++ ls) (insertStringLine verbose (run.map charOf) :: ls')

/-- The commands that a command stands for. -/
def expand (x : Parsed) : List Parsed :=
  match x.action, x.string with
  | .insertStringA, some s => (insertedChars s).map fun c => ⟨.insertCharA, c, none⟩
  | _, _ => [x]

/-- The commands that a line denotes, or the error that ends the macro. -/
def lineMeaning (l : List Byte) : List (Except ParseError Parsed) :=
  match parseCommandLine l false with
  | .ok x => (expand x).map .ok
  | .error e => [.error e]

/-- The commands that a macro denotes. -/
def meaning (lines : List (List Byte)) : List (Except ParseError Parsed) :=
  lines.flatMap lineMeaning

/-- The number of the line begins with a digit and is not larger than an `int`. -/
def PlainNumber (l : List Byte) : Prop :=
  (argumentOf l).head?.any isDigit ∧ (strtoll (argumentOf l)).1 < 2147483648

variable {verbose : Bool} {cs front l s : List Byte} {lines ls run : List (List Byte)}
variable {chars : List Byte} {turns pos : Nat}

theorem vetLoop_spec (hlines : ∀ l ∈ lines, 0 ∉ l) (hturns : lines.length ≤ turns) :
    vetLoop (front ++ textBefore 0 lines) turns front.length = lines.all safeLine := by
  induction lines generalizing front turns with
  | nil =>
      cases turns with
      | zero => rfl
      | succ turns => simp [vetLoop]
  | cons l lines ih =>
      obtain ⟨turns, rfl⟩ : ∃ m, turns = m + 1 := ⟨turns - 1, by simp at hturns; omega⟩
      have hcs : front ++ textBefore 0 (l :: lines) = front ++ (l ++ 0 :: textBefore 0 lines) := by
        simp [textBefore]
      have hnext : front ++ textBefore 0 (l :: lines) =
          (front ++ (l ++ [0])) ++ textBefore 0 lines := by
        simp [textBefore]
      have hlt : front.length < (front ++ textBefore 0 (l :: lines)).length := by
        rw [hcs]
        simp
      have hstring : cString (front ++ textBefore 0 (l :: lines)) front.length = l := by
        rw [hcs, cString_middle (hlines l List.mem_cons_self)]
      have hrest := @ih (front ++ (l ++ [0])) turns
        (fun x hx => hlines x (List.mem_cons_of_mem _ hx)) (by simpa using hturns)
      rw [← hnext] at hrest
      have hpos : (front ++ (l ++ [0])).length = front.length + l.length + 1 := by
        simp [Nat.add_assoc]
      rw [hpos] at hrest
      rw [vetLoop, if_pos hlt, hstring, List.all_cons, safeLine]
      cases parseCommandLine l false with
      | ok x =>
          dsimp only
          by_cases hundo : x.action = .undoA
          · simp [hundo]
          · simp [hundo, hrest]
      | error e => cases e <;> simp [hrest]

/-- The line that is being built; there is none before the first character. -/
def builtLine (verbose : Bool) (chars : List Byte) : List (List Byte) :=
  if chars = [] then [] else [insertStringLine verbose chars]

/-- What the loop of `optimize_macro` makes of the lines, with the characters of
the line that is being built. -/
def mergeLines (verbose : Bool) : List Byte → List (List Byte) → List (List Byte)
  | chars, [] => builtLine verbose chars
  | chars, l :: after =>
      if mergeable l after then mergeLines verbose (chars ++ [charOf l]) after
      else builtLine verbose chars ++ l :: mergeLines verbose [] after

attribute [grind =] mergeLines

/-- The place of the last character of the line that is being built. -/
def buildingPlace (verbose : Bool) (front chars : List Byte) : Nat :=
  if chars = [] then 0
  else front.length + (insertStringName verbose).length + 1 + chars.length

theorem insertStringName_not_mem (verbose : Bool) : 0 ∉ insertStringName verbose := by
  obtain ⟨⟨-, hname⟩, -, hshort⟩ := names_start _ (mem_actions .insertStringA)
  cases verbose with
  | false => exact hshort
  | true => exact hname

theorem charOf_ne_zero (h : isPrint (insertcharVal l) = true) : charOf l ≠ 0 := by
  simp only [isPrint, Bool.and_eq_true, decide_eq_true_eq] at h
  intro hzero
  have hval := congrArg UInt8.toNat hzero
  rw [charOf, UInt8.toNat_ofNat'] at hval
  simp at hval
  omega

theorem mergeable_iff {after : List (List Byte)} : mergeable l after = true ↔
    insertcharVal l < 0x80 ∧ isPrint (insertcharVal l) = true ∧
      (l :: after).all safeLine = true := by
  simp [mergeable, and_assoc]

theorem insert_line (c : Byte) :
    insertInStream (insertInStream (insertInStream (insertInStream (front ++ s) [34, 0]
      front.length) [c] front.length) [32, 34] front.length) (insertStringName verbose)
      front.length = front ++ (insertStringLine verbose [c] ++ 0 :: s) := by
  simp only [insertInStream_middle, insertStringLine, List.append_assoc, List.cons_append,
    List.nil_append]

theorem insert_character (c : Byte) :
    insertInStream (front ++ (insertStringLine verbose chars ++ 0 :: s)) [c]
      (front.length + (insertStringName verbose).length + 2 + chars.length) =
      front ++ (insertStringLine verbose (chars ++ [c]) ++ 0 :: s) := by
  have hsplit : front ++ (insertStringLine verbose chars ++ 0 :: s) =
      (front ++ (insertStringName verbose ++ (32 :: 34 :: chars))) ++ (34 :: 0 :: s) := by
    simp [insertStringLine]
  have hplace : front.length + (insertStringName verbose).length + 2 + chars.length =
      (front ++ (insertStringName verbose ++ (32 :: 34 :: chars))).length := by
    simp only [List.length_append, List.length_cons]
    omega
  rw [hsplit, hplace, insertInStream_middle]
  simp [insertStringLine]

theorem insertStringLine_not_mem (h : 0 ∉ chars) : 0 ∉ insertStringLine verbose chars := by
  simp [insertStringLine, insertStringName_not_mem, h]

theorem insertStringLine_length :
    (insertStringLine verbose chars).length =
      (insertStringName verbose).length + 3 + chars.length := by
  simp only [insertStringLine, List.length_append, List.length_cons, List.length_nil]
  omega

/-- The stream after `front`, with a line of `chars` that is being built and the lines to come. -/
def builtStream (verbose : Bool) (front chars : List Byte) (ls : List (List Byte)) : List Byte :=
  front ++ (textBefore 0 (builtLine verbose chars) ++ textBefore 0 ls)

/-- Where the loop stands in it. -/
def loopPlace (verbose : Bool) (front chars : List Byte) : Nat :=
  (front ++ textBefore 0 (builtLine verbose chars)).length

theorem builtStream_start : builtStream verbose front [] ls = front ++ textBefore 0 ls := by
  simp [builtStream, builtLine]

theorem loopPlace_start : loopPlace verbose front [] = front.length := by
  simp [loopPlace, builtLine]

theorem buildingPlace_start : buildingPlace verbose front [] = 0 := if_pos rfl

theorem builtStream_building (hne : chars ≠ []) : builtStream verbose front chars ls =
    front ++ (insertStringLine verbose chars ++ 0 :: textBefore 0 ls) := by
  simp [builtStream, builtLine, hne, textBefore]

theorem loopPlace_building (hne : chars ≠ []) : loopPlace verbose front chars =
    front.length + (insertStringName verbose).length + 4 + chars.length := by
  rw [loopPlace, builtLine, if_neg hne, List.length_append, textBefore_length]
  simp only [List.map_cons, List.map_nil, List.sum_cons, List.sum_nil, insertStringLine_length]
  omega

theorem buildingPlace_building (hne : chars ≠ []) : buildingPlace verbose front chars + 1 =
    front.length + (insertStringName verbose).length + 2 + chars.length := by
  rw [buildingPlace, if_neg hne]
  omega

theorem builtStream_cons : builtStream verbose front chars (l :: ls) =
    front ++ textBefore 0 (builtLine verbose chars) ++ (l ++ 0 :: textBefore 0 ls) := by
  simp [builtStream, textBefore]

theorem builtStream_line (hlines : ∀ x ∈ l :: ls, 0 ∉ x) :
    loopPlace verbose front chars < (builtStream verbose front chars (l :: ls)).length ∧
      cString (builtStream verbose front chars (l :: ls)) (loopPlace verbose front chars) = l ∧
      vetOptimizeMacroStream (builtStream verbose front chars (l :: ls))
        (loopPlace verbose front chars) = (l :: ls).all safeLine := by
  rw [builtStream_cons, loopPlace]
  refine ⟨?_, cString_middle (hlines l List.mem_cons_self), ?_⟩
  · simp only [List.length_append, List.length_cons]
    omega
  · have hline : l ++ 0 :: textBefore 0 ls = textBefore 0 (l :: ls) := by simp [textBefore]
    rw [vetOptimizeMacroStream, hline]
    refine vetLoop_spec hlines ?_
    have hcount := length_le_textBefore 0 (l :: ls)
    rw [List.length_append]
    omega

theorem deleteFromStream_built :
    deleteFromStream (builtStream verbose front chars (l :: ls)) (loopPlace verbose front chars)
      (l.length + 1) = builtStream verbose front chars ls := by
  have hstream : builtStream verbose front chars (l :: ls) =
      front ++ textBefore 0 (builtLine verbose chars) ++ ((l ++ [0]) ++ textBefore 0 ls) := by
    rw [builtStream_cons]
    simp
  have hlength : l.length + 1 = (l ++ [0]).length := by simp
  rw [hstream, loopPlace, hlength, deleteFromStream_middle, builtStream, List.append_assoc]

theorem optimizeLoop_keeps (hlines : ∀ x ∈ l :: ls, 0 ∉ x) (hmerge : ¬ mergeable l ls = true) :
    optimizeLoop verbose (turns + 1) (builtStream verbose front chars (l :: ls))
        (loopPlace verbose front chars) (buildingPlace verbose front chars) =
      optimizeLoop verbose turns
        (builtStream verbose
          (front ++ (textBefore 0 (builtLine verbose chars) ++ (l ++ [0]))) [] ls)
        (loopPlace verbose (front ++ (textBefore 0 (builtLine verbose chars) ++ (l ++ [0]))) [])
        0 := by
  obtain ⟨hlt, hstring, hvet⟩ := @builtStream_line verbose front l ls chars hlines
  have hstream : builtStream verbose front chars (l :: ls) = builtStream verbose
      (front ++ (textBefore 0 (builtLine verbose chars) ++ (l ++ [0]))) [] ls := by
    rw [builtStream_cons, builtStream_start]
    simp
  have hplace : loopPlace verbose front chars + l.length + 1 = loopPlace verbose
      (front ++ (textBefore 0 (builtLine verbose chars) ++ (l ++ [0]))) [] := by
    rw [loopPlace, loopPlace_start]
    simp only [List.length_append, List.length_singleton]
    omega
  rw [optimizeLoop, if_pos hlt]
  simp only [hstring, hvet, ← mergeable_iff]
  rw [if_neg hmerge, hplace, hstream]

theorem optimizeLoop_begins (hlines : ∀ x ∈ l :: ls, 0 ∉ x) (hmerge : mergeable l ls = true) :
    optimizeLoop verbose (turns + 1) (builtStream verbose front [] (l :: ls))
        (loopPlace verbose front []) (buildingPlace verbose front []) =
      optimizeLoop verbose turns (builtStream verbose front [charOf l] ls)
        (loopPlace verbose front [charOf l]) (buildingPlace verbose front [charOf l]) := by
  obtain ⟨hlt, hstring, hvet⟩ := @builtStream_line verbose front l ls [] hlines
  have hnonzero := charOf_ne_zero (mergeable_iff.mp hmerge).2.1
  have hne : [charOf l] ≠ [] := List.cons_ne_nil _ _
  rw [optimizeLoop, if_pos hlt]
  simp only [hstring, hvet, ← mergeable_iff, if_pos hmerge, deleteFromStream_built,
    buildingPlace_start, ne_eq, not_true_eq_false, if_false]
  have hline : cString (front ++ (insertStringLine verbose [charOf l] ++ 0 :: textBefore 0 ls))
      front.length = insertStringLine verbose [charOf l] :=
    cString_middle (insertStringLine_not_mem (by simpa using hnonzero.symm))
  have hplace := @loopPlace_building verbose front [charOf l] hne
  have hbuilding : front.length + (insertStringName verbose).length + 2 =
      buildingPlace verbose front [charOf l] := by
    rw [buildingPlace, if_neg hne]
    rfl
  simp only [charOf] at hline hplace hbuilding hne ⊢
  rw [builtStream_start, loopPlace_start, insert_line, hline, insertStringLine_length,
    builtStream_building hne, hplace, hbuilding]
  congr 1

theorem optimizeLoop_extends (hlines : ∀ x ∈ l :: ls, 0 ∉ x) (hmerge : mergeable l ls = true)
    (hne : chars ≠ []) :
    optimizeLoop verbose (turns + 1) (builtStream verbose front chars (l :: ls))
        (loopPlace verbose front chars) (buildingPlace verbose front chars) =
      optimizeLoop verbose turns (builtStream verbose front (chars ++ [charOf l]) ls)
        (loopPlace verbose front (chars ++ [charOf l]))
        (buildingPlace verbose front (chars ++ [charOf l])) := by
  obtain ⟨hlt, hstring, hvet⟩ := @builtStream_line verbose front l ls chars hlines
  have hne' : chars ++ [charOf l] ≠ [] := List.append_ne_nil_of_left_ne_nil hne _
  have hlength : (chars ++ [charOf l]).length = chars.length + 1 := List.length_append
  have hzero : buildingPlace verbose front chars ≠ 0 := by
    rw [buildingPlace, if_neg hne]
    omega
  have hplace := @loopPlace_building verbose front chars hne
  have hplace' := @loopPlace_building verbose front (chars ++ [charOf l]) hne'
  have hbuilding := @buildingPlace_building verbose front chars hne
  have hbuilding' := @buildingPlace_building verbose front (chars ++ [charOf l]) hne'
  rw [hlength] at hplace' hbuilding'
  -- The place of the loop is now that of the end of the line that is being built.
  have hline : cString (front ++ (insertStringLine verbose (chars ++ [charOf l]) ++
      0 :: textBefore 0 ls)) (loopPlace verbose front chars) = [] := by
    have hend : loopPlace verbose front chars =
        (front ++ insertStringLine verbose (chars ++ [charOf l])).length := by
      rw [hplace, List.length_append, insertStringLine_length, hlength]
      omega
    rw [← List.append_assoc, hend]
    exact cString_middle (l := []) (by simp)
  rw [optimizeLoop, if_pos hlt]
  simp only [hstring, hvet, ← mergeable_iff, if_pos hmerge, deleteFromStream_built, if_pos hzero]
  have hchars : UInt8.ofNat (insertcharVal l).toNat = charOf l := rfl
  rw [hchars, builtStream_building hne, builtStream_building hne', hbuilding, insert_character,
    hline, List.length_nil]
  congr 1
  · omega
  · omega

theorem optimizeLoop_spec (front chars : List Byte) (turns : Nat) (hlines : ∀ l ∈ ls, 0 ∉ l)
    (hturns : ls.length ≤ turns) :
    optimizeLoop verbose turns (builtStream verbose front chars ls)
        (loopPlace verbose front chars) (buildingPlace verbose front chars) =
      front ++ textBefore 0 (mergeLines verbose chars ls) := by
  induction ls generalizing front chars turns with
  | nil =>
      cases turns with
      | zero => simp [optimizeLoop, mergeLines, builtStream]
      | succ turns => simp [optimizeLoop, mergeLines, builtStream, loopPlace]
  | cons l ls ih =>
      obtain ⟨turns, rfl⟩ : ∃ m, turns = m + 1 := ⟨turns - 1, by simp at hturns; omega⟩
      have hls : ∀ x ∈ ls, 0 ∉ x := fun x hx => hlines x (List.mem_cons_of_mem _ hx)
      have hturns' : ls.length ≤ turns := by simpa using hturns
      by_cases hmerge : mergeable l ls = true
      · rw [mergeLines, if_pos hmerge]
        by_cases hnil : chars = []
        · subst hnil
          rw [optimizeLoop_begins hlines hmerge]
          exact ih front [charOf l] turns hls hturns'
        · rw [optimizeLoop_extends hlines hmerge hnil]
          exact ih front (chars ++ [charOf l]) turns hls hturns'
      · have hkeep := ih (front ++ (textBefore 0 (builtLine verbose chars) ++ (l ++ [0]))) [] turns
          hls hturns'
        rw [buildingPlace_start] at hkeep
        rw [optimizeLoop_keeps hlines hmerge, hkeep, mergeLines, if_neg hmerge, textBefore_append]
        simp [textBefore]

theorem optimizeMacro_spec (h : Terminated cs) :
    optimizeMacro cs verbose = textBefore 0 (mergeLines verbose [] (streamLines cs)) := by
  have hcount := length_le_textBefore 0 (streamLines cs)
  rw [textBefore_streamLines h] at hcount
  have hlines : ∀ l ∈ streamLines cs, 0 ∉ l := fun l hl => mem_streamLines hl
  have hloop : optimizeLoop verbose cs.length _ _ _ = _ :=
    optimizeLoop_spec [] [] cs.length hlines hcount
  rw [builtStream_start, loopPlace_start, buildingPlace_start, textBefore_streamLines h] at hloop
  exact hloop

theorem mergeLines_not_mem (hlines : ∀ l ∈ ls, 0 ∉ l) (hchars : 0 ∉ chars) :
    ∀ l ∈ mergeLines verbose chars ls, 0 ∉ l := by
  have hbuilt : ∀ {chars : List Byte}, 0 ∉ chars → ∀ l ∈ builtLine verbose chars, 0 ∉ l := by
    intro chars hchars l hl
    unfold builtLine at hl
    split at hl
    · simp at hl
    · rw [List.mem_singleton.mp hl]
      exact insertStringLine_not_mem hchars
  induction ls generalizing chars with
  | nil => exact hbuilt hchars
  | cons l ls ih =>
      have hls : ∀ x ∈ ls, 0 ∉ x := fun x hx => hlines x (List.mem_cons_of_mem _ hx)
      rw [mergeLines]
      split
      · rename_i hmerge
        have hnonzero := charOf_ne_zero (mergeable_iff.mp hmerge).2.1
        exact ih hls (by simp [hchars, hnonzero.symm])
      · intro x hx
        rcases List.mem_append.mp hx with hx | hx
        · exact hbuilt hchars x hx
        · rcases List.mem_cons.mp hx with rfl | hx
          · exact hlines x List.mem_cons_self
          · exact ih hls (by simp) x hx

theorem merged_mergeLines (hrun : mergedLines (run ++ ls) = run ++ mergedLines ls) :
    Merged verbose (run ++ ls) (mergeLines verbose (run.map charOf) ls) := by
  induction ls generalizing run with
  | nil =>
      rw [mergeLines, builtLine]
      cases run with
      | nil => exact .nil
      | cons l run => exact .merge (by simp) hrun .nil
  | cons l ls ih =>
      rw [mergeLines]
      split
      · rename_i hmerge
        have hlonger := @ih (run ++ [l]) (by
          rw [List.append_assoc, List.singleton_append, hrun, mergedLines, if_pos hmerge]
          simp)
        simpa using hlonger
      · rename_i hkeep
        have hrest : Merged verbose (l :: ls) (l :: mergeLines verbose [] ls) :=
          .keep (by simpa using hkeep) (@ih [] rfl)
        cases run with
        | nil => exact hrest
        | cons l run => exact .merge (by simp) hrun hrest

theorem insertString_name (verbose : Bool) :
    insertStringName verbose = recordedName .insertStringA verbose := rfl

theorem parse_insertStringLine (hchars : chars ≠ []) :
    parseCommandLine (insertStringLine verbose chars) false =
      .ok ⟨.insertStringA, -1, some chars⟩ := by
  have hhead : ∀ x ∈ (32 :: 34 :: (chars ++ [34])).head?, isAsciiSpace x = true := by
    rintro x ⟨⟩
    rfl
  have hargument : (32 :: 34 :: (chars ++ [34])).dropWhile isAsciiSpace =
      34 :: (chars ++ [34]) := rfl
  rw [insertStringLine, insertString_name, parseCommandLine_name hhead false, hargument]
  have hstring := (parseArgument_string (a := .insertStringA) (s := 34 :: (chars ++ [34]))
    (c := -1) (p := some chars) (by decide)).mpr
    ⟨rfl, by rw [unquote_quotes], by simp [unquote_quotes, hchars]⟩
  have hflag : Action.has .insertStringA .noArgs = false := by decide
  have hflag' : Action.has .insertStringA .argIsString = true := by decide
  simp [parseCommand, hflag, hflag', hstring]

theorem insertChar_of_print (h : isPrint (insertcharVal l) = true) :
    parseCommandLine l false = parseCommand .insertCharA (argumentOf l) false ∧
      (strtoll (argumentOf l)).2 = [] ∧ toInt32 (strtoll (argumentOf l)).1 = insertcharVal l := by
  have hzero : ¬ isPrint 0 = true := by decide
  have hval := h
  rw [insertcharVal] at hval
  dsimp only at hval
  split at hval
  · exact absurd hval hzero
  rename_i halpha
  split at hval
  · rename_i hfind
    split at hval
    · exact absurd hval hzero
    rename_i hnumber
    rw [not_or, not_not] at hnumber
    have hne : l ≠ [] := by
      rintro rfl
      simp at halpha
    refine ⟨?_, hnumber.1, ?_⟩
    · simp only [parseCommandLine, if_neg hne, if_neg halpha, hfind]
      rfl
    · simp only [insertcharVal, if_neg halpha, if_pos hfind]
      rw [if_neg]
      rw [not_or, not_not]
      exact hnumber
  · exact absurd hval hzero

theorem parse_insertChar {p : List Byte} (hrest : (strtoll p).2 = []) :
    parseCommand .insertCharA p false =
      if p ≠ [] ∧ ¬ p.head?.any isXDigit ∧ p.head? ≠ some 120 ∧ p.head? ≠ some 88 then
        .error .hasNumericArgument
      else if p = [] then .ok ⟨.insertCharA, -1, none⟩
      else .ok ⟨.insertCharA, (strtoll p).1, none⟩ := by
  have hflag : Action.has .insertCharA .noArgs = false := by decide
  have hflag' : Action.has .insertCharA .argIsString = false := by decide
  simp [parseCommand, parseArgument, hflag, hflag', hrest]

theorem lineMeaning_insertChar {p : List Byte}
    (h : parseCommandLine l false = parseCommand .insertCharA p false) :
    ∃ x, lineMeaning l = [x] ∧ x = parseCommand .insertCharA p false := by
  rw [lineMeaning, h]
  cases hparse : parseCommand .insertCharA p false with
  | error e => exact ⟨_, rfl, rfl⟩
  | ok x =>
      obtain ⟨action, number, string⟩ := x
      obtain rfl : action = .insertCharA := parseCommand_action hparse
      exact ⟨_, rfl, rfl⟩

theorem isDigitOf_ten : ∀ c : Byte, isDigit c = false → isDigitOf 10 c = false :=
  forall_byte (by decide +kernel)

theorem number_start : ∀ c : Byte, (isXDigit c = true ∨ c = 120 ∨ c = 88) →
    isAsciiSpace c = false ∧ c ≠ 45 ∧ c ≠ 43 := by
  intro c h
  simp only [isDigit, isXDigit, isAsciiSpace, Bool.or_eq_true, Bool.and_eq_true,
    decide_eq_true_eq] at h ⊢
  grind

theorem strtoll_head {c : Byte} (hspace : isAsciiSpace c = false) (hminus : c ≠ 45)
    (hplus : c ≠ 43) :
    (isDigit c = false → (strtoll (c :: s)).1 = 0) ∧ 0 ≤ (strtoll (c :: s)).1 := by
  have hdrop : (c :: s).dropWhile isAsciiSpace = c :: s :=
    List.dropWhile_cons_of_neg (by simp [hspace])
  have hsign : ¬ ((c :: s).head? = some 45 ∨ (c :: s).head? = some 43) := by
    simp [hminus, hplus]
  have hneg : ¬ (c :: s).head? = some 45 := fun h => hsign (Or.inl h)
  refine ⟨fun hdigit => ?_, ?_⟩
  · have hfirst : c ≠ 48 := by
      rintro rfl
      exact absurd hdigit (by decide)
    have hbase : numberBase (c :: s) = (10, c :: s) := by
      unfold numberBase
      split <;> simp_all
    have hten := isDigitOf_ten c hdigit
    have htake : (c :: s).takeWhile (isDigitOf 10) = [] :=
      List.takeWhile_cons_of_neg (by simp [hten])
    simp only [strtoll, hdrop, if_neg hsign, hbase, htake, if_true]
  · simp only [strtoll, hdrop, if_neg hsign, if_neg hneg]
    split
    · exact le_rfl
    · exact le_min (by decide) (Int.natCast_nonneg _)

/-- A line that is merged denotes the character if its number is a plain one, and
something else if it is not. -/
theorem lineMeaning_merged (hprint : isPrint (insertcharVal l) = true) :
    (lineMeaning l).length = 1 ∧
      (lineMeaning l = [.ok ⟨.insertCharA, (charOf l).toNat, none⟩] ↔ PlainNumber l) := by
  obtain ⟨hparse, hrest, hvalue⟩ := insertChar_of_print hprint
  obtain ⟨x, hx, hxparse⟩ := lineMeaning_insertChar hparse
  have hrange : 32 ≤ insertcharVal l ∧ insertcharVal l ≤ 126 := by
    simpa [isPrint] using hprint
  have hchar : ((charOf l).toNat : Int) = insertcharVal l := by
    rw [charOf, UInt8.toNat_ofNat']
    omega
  refine ⟨by rw [hx]; rfl, ?_⟩
  rw [hx, List.singleton_inj, hxparse, parse_insertChar hrest, hchar, PlainNumber]
  cases hp : argumentOf l with
  | nil =>
      have hminus : (-1 : Int) ≠ insertcharVal l := by omega
      simp [hminus]
  | cons c s =>
      rw [hp] at hvalue
      by_cases hstart : isXDigit c = true ∨ c = 120 ∨ c = 88
      · obtain ⟨hspace, hminus, hplus⟩ := number_start c hstart
        obtain ⟨hzero, hnonneg⟩ := @strtoll_head s c hspace hminus hplus
        have htaken : ¬ (c :: s ≠ [] ∧ ¬ (c :: s).head?.any isXDigit ∧
            (c :: s).head? ≠ some 120 ∧ (c :: s).head? ≠ some 88) := by
          rintro ⟨-, hx, hsmall, hlarge⟩
          rcases hstart with h | rfl | rfl
          · exact hx h
          · exact hsmall rfl
          · exact hlarge rfl
        rw [if_neg htaken, if_neg (by simp)]
        simp only [Except.ok.injEq, Parsed.mk.injEq, true_and, and_true, List.head?_cons,
          Option.any_some]
        rw [toInt32] at hvalue
        constructor
        · intro heq
          refine ⟨?_, by omega⟩
          by_contra hdigit
          have hnumber := hzero (by simpa using hdigit)
          omega
        · rintro ⟨-, hlt⟩
          rw [← hvalue, Int.bmod_eq_of_le] <;> omega
      · have hdigit : isDigit c = false := by
          by_contra h
          exact hstart (Or.inl (by simp [isXDigit, h]))
        rw [not_or, not_or] at hstart
        rw [if_pos ⟨by simp, by simpa using hstart.1, by simpa using hstart.2.1,
          by simpa using hstart.2.2⟩]
        simp [hdigit]

theorem insertedChars_ascii (h : ∀ c ∈ s, c < 0x80) :
    insertedChars s = s.map fun c => (c.toNat : Int) := by
  have hloop : ∀ (turns : Nat) (s : List Byte), s.length ≤ turns →
      insertedLoop .ascii turns s = s.map fun c => (c.toNat : Int) := by
    intro turns
    induction turns with
    | zero =>
        intro s hs
        rw [List.length_eq_zero_iff.mp (Nat.le_zero.mp hs)]
        rfl
    | succ turns ih =>
        intro s hs
        cases s with
        | nil => rfl
        | cons c s =>
            have hrest := ih s (by simpa using hs)
            simp only [insertedLoop, charLen, reduceCtorEq, if_false, List.map_cons, getChar]
            rw [show ((1 : Int).toNat) = 1 from rfl, List.drop_one, List.tail_cons, hrest]
            rfl
  rw [insertedChars, (detectEncoding_eq_ascii_iff s).mpr h]
  exact hloop _ s le_rfl

theorem mergedLines_print (h : l ∈ mergedLines ls) : isPrint (insertcharVal l) = true := by
  induction ls with
  | nil => simp [mergedLines] at h
  | cons x ls ih =>
      rw [mergedLines] at h
      split at h
      · rename_i hmerge
        rcases List.mem_cons.mp h with rfl | h
        · exact (mergeable_iff.mp hmerge).2.1
        · exact ih h
      · exact ih h

theorem charOf_lt (h : isPrint (insertcharVal l) = true) : charOf l < 0x80 := by
  simp only [isPrint, Bool.and_eq_true, decide_eq_true_eq] at h
  rw [charOf, UInt8.lt_iff_toNat_lt, UInt8.toNat_ofNat']
  simp
  omega

theorem lineMeaning_insertStringLine (hrun : run ≠ [])
    (hprint : ∀ l ∈ run, isPrint (insertcharVal l) = true) :
    lineMeaning (insertStringLine verbose (run.map charOf)) =
      run.map fun l => .ok ⟨.insertCharA, (charOf l).toNat, none⟩ := by
  have hascii : ∀ c ∈ run.map charOf, c < 0x80 := by
    intro c hc
    obtain ⟨l, hl, rfl⟩ := List.mem_map.mp hc
    exact charOf_lt (hprint l hl)
  rw [lineMeaning, parse_insertStringLine (by simpa using hrun)]
  dsimp only [expand]
  rw [insertedChars_ascii hascii]
  simp

theorem meaning_run (hprint : ∀ l ∈ run, isPrint (insertcharVal l) = true) :
    (meaning run).length = run.length ∧
      ((run.map fun l => .ok ⟨.insertCharA, ((charOf l).toNat : Int), none⟩) = meaning run ↔
        ∀ l ∈ run, PlainNumber l) := by
  induction run with
  | nil => simp [meaning]
  | cons l run ih =>
      obtain ⟨hlength, hiff⟩ := ih fun x hx => hprint x (List.mem_cons_of_mem _ hx)
      obtain ⟨hone, hline⟩ := lineMeaning_merged (hprint l List.mem_cons_self)
      obtain ⟨x, hx⟩ := List.length_eq_one_iff.mp hone
      have hcons : meaning (l :: run) = x :: meaning run := by
        rw [meaning, List.flatMap_cons, hx]
        rfl
      rw [hx, List.singleton_inj] at hline
      rw [hcons, List.map_cons, List.cons_eq_cons, hiff, List.forall_mem_cons, eq_comm (b := x),
        hline]
      exact ⟨by rw [List.length_cons, List.length_cons, hlength], Iff.rfl⟩

theorem meaning_merged (h : Merged verbose lines ls) :
    meaning ls = meaning lines ↔ ∀ l ∈ mergedLines lines, PlainNumber l := by
  induction h with
  | nil => simp [mergedLines]
  | @keep l lines ls hl _ ih =>
      rw [mergedLines, if_neg (by simp [hl]), ← ih, meaning, meaning, List.flatMap_cons,
        List.flatMap_cons, List.append_cancel_left_eq]
      rfl
  | @merge run lines ls hrun hmerge _ ih =>
      have hprint : ∀ l ∈ run, isPrint (insertcharVal l) = true := fun l hl =>
        mergedLines_print (hmerge ▸ List.mem_append_left _ hl)
      obtain ⟨hlength, hiff⟩ := meaning_run hprint
      have hleft : meaning (insertStringLine verbose (run.map charOf) :: ls) =
          (run.map fun l => .ok ⟨.insertCharA, ((charOf l).toNat : Int), none⟩) ++ meaning ls := by
        rw [meaning, List.flatMap_cons, lineMeaning_insertStringLine hrun hprint]
        rfl
      have hright : meaning (run ++ lines) = meaning run ++ meaning lines := List.flatMap_append
      have happend : ∀ {xs ys xs' ys' : List (Except ParseError Parsed)},
          xs.length = xs'.length → (xs ++ ys = xs' ++ ys' ↔ xs = xs' ∧ ys = ys') :=
        fun hxs => ⟨fun heq => List.append_inj heq hxs, fun ⟨hx, hy⟩ => by rw [hx, hy]⟩
      rw [hleft, hright, happend (by rw [List.length_map, hlength]), hiff, ih, hmerge]
      simp [or_imp, forall_and]

theorem all_mergeLines : (mergeLines verbose chars ls).all safeLine = ls.all safeLine := by
  have hbuilt : ∀ chars, (builtLine verbose chars).all safeLine = true := by
    intro chars
    unfold builtLine
    split
    · rfl
    · rename_i hchars
      simp [safeLine, parse_insertStringLine hchars]
  induction ls generalizing chars with
  | nil => exact hbuilt chars
  | cons l ls ih =>
      rw [mergeLines]
      split
      · rename_i hmerge
        have hsafe := (mergeable_iff.mp hmerge).2.2
        rw [ih, hsafe]
        simp only [List.all_cons, Bool.and_eq_true] at hsafe
        exact hsafe.2
      · rw [List.all_append, hbuilt, Bool.true_and, List.all_cons, List.all_cons, ih]

theorem not_mergeable_insertStringLine (hchars : chars ≠ []) :
    mergeable (insertStringLine verbose chars) ls = false := by
  have hval : isPrint (insertcharVal (insertStringLine verbose chars)) = false := by
    by_contra h
    obtain ⟨hparse, -, -⟩ := insertChar_of_print (by simpa using h)
    rw [parse_insertStringLine hchars] at hparse
    have haction := parseCommand_action hparse.symm
    exact absurd haction (by simp)
  simp [mergeable, hval]

theorem mergeLines_mergeLines {verbose' : Bool} :
    mergeLines verbose' [] (mergeLines verbose chars ls) = mergeLines verbose chars ls := by
  have hbuilt : ∀ chars ls, mergeLines verbose' [] (builtLine verbose chars ++ ls) =
      builtLine verbose chars ++ mergeLines verbose' [] ls := by
    intro chars ls
    unfold builtLine
    split
    · rfl
    · rename_i hchars
      rw [List.singleton_append, mergeLines,
        if_neg (by simp [not_mergeable_insertStringLine hchars])]
      rfl
  induction ls generalizing chars with
  | nil =>
      have hnil := hbuilt chars []
      simpa [mergeLines, builtLine] using hnil
  | cons l ls ih =>
      rw [mergeLines]
      split
      · exact ih
      · rename_i hkeep
        have hsame : mergeable l (mergeLines verbose [] ls) = mergeable l ls := by
          simp [mergeable, all_mergeLines]
        rw [hbuilt, mergeLines, hsame, if_neg hkeep, ih]
        rfl

/-- The lines of an optimised macro are those of the macro, but for the rows of
`InsertChar` that have been merged; there is nothing left to optimise, and the
macro denotes the same commands exactly when all numbers in the merged lines are
plain ones. -/
theorem optimizeMacro_meaning (h : Terminated cs) :
    Terminated (optimizeMacro cs verbose) ∧
      Merged verbose (streamLines cs) (streamLines (optimizeMacro cs verbose)) ∧
      (∀ verbose', optimizeMacro (optimizeMacro cs verbose) verbose' = optimizeMacro cs verbose) ∧
      (meaning (streamLines (optimizeMacro cs verbose)) = meaning (streamLines cs) ↔
        ∀ l ∈ mergedLines (streamLines cs), PlainNumber l) := by
  have hlines : ∀ l ∈ mergeLines verbose [] (streamLines cs), 0 ∉ l :=
    mergeLines_not_mem (fun l hl => mem_streamLines hl) (by simp)
  have hmerged : Merged verbose (streamLines cs) (mergeLines verbose [] (streamLines cs)) :=
    @merged_mergeLines verbose (streamLines cs) [] rfl
  have hstream : optimizeMacro cs verbose = _ := optimizeMacro_spec h
  have hterminated : Terminated (optimizeMacro cs verbose) := by
    rw [hstream]
    exact textBefore_terminated _
  have hresult : streamLines (optimizeMacro cs verbose) =
      mergeLines verbose [] (streamLines cs) := by
    rw [hstream, streamLines_textBefore hlines]
  refine ⟨hterminated, ?_, ?_, ?_⟩
  · rw [hresult]
    exact hmerged
  · intro verbose'
    rw [optimizeMacro_spec hterminated, hresult, mergeLines_mergeLines, hstream]
  · rw [hresult]
    exact meaning_merged hmerged

/-- `InsertChar 65` and `InsertChar 66` -/
def typedAB : List Byte := bytes "IC 65" ++ (0 :: bytes "IC 66" ++ [0])

/-- `InsertChar +65` -/
def signedA : List Byte := bytes "IC +65" ++ [0]

/-- Two characters are merged into a string, and the macro denotes the same commands. -/
theorem optimizeMacro_meaning_typedAB :
    optimizeMacro typedAB true = bytes "InsertString \"AB\"" ++ [0] ∧
      meaning (streamLines (optimizeMacro typedAB true)) = meaning (streamLines typedAB) := by
  have hterminated : Terminated typedAB := by decide +kernel
  obtain ⟨-, -, -, hmeaning⟩ := @optimizeMacro_meaning true typedAB hterminated
  have hmerged : mergedLines (streamLines typedAB) = [bytes "IC 65", bytes "IC 66"] := by
    decide +kernel
  refine ⟨by decide +kernel, hmeaning.mpr ?_⟩
  rw [hmerged]
  intro l hl
  rcases List.mem_pair.mp hl with rfl | rfl
  all_goals exact ⟨by decide +kernel, by decide +kernel⟩

/-- A number with a sign is not accepted by `InsertChar`, but the line is merged. -/
theorem not_optimizeMacro_meaning :
    ¬ ∀ (cs : List Byte) (verbose : Bool), Terminated cs →
      meaning (streamLines (optimizeMacro cs verbose)) = meaning (streamLines cs) := by
  intro hall
  have hmeaning := hall signedA false (by decide +kernel)
  have hbefore : meaning (streamLines signedA) = [.error .hasNumericArgument] := by
    rfl
  have hafter : meaning (streamLines (optimizeMacro signedA false)) =
      [.ok ⟨.insertCharA, 65, none⟩] := by
    rfl
  rw [hbefore, hafter] at hmeaning
  exact absurd hmeaning (by simp)

end NiceEditor.OptimizedMacros
