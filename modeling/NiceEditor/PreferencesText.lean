import NiceEditor.Preferences
import NiceEditor.RecordedCommands
import NiceEditor.StreamWalks

namespace NiceEditor.PreferencesText

open NiceEditor.Pools
open NiceEditor.LineText
open NiceEditor.Commands
open NiceEditor.CommandLine
open NiceEditor.Encoding
open NiceEditor.RecordedCommands
open NiceEditor.Streams
open NiceEditor.StreamWalks
open NiceEditor.Sessions
open NiceEditor.Preferences

/-- The line that is recorded for a command. -/
def recordedLine (verbose : Bool) (x : Parsed) : List Byte :=
  recordedName x.action verbose ++ recordedArgument x.number x.string

/-- The lines are executed until one fails or the execution is stopped. -/
def runLines {σ : Type} (stop : σ → Bool) (exec : List Byte → σ → CommandStatus × σ) :
    List (List Byte) → σ → CommandStatus × σ
  | [], s => (.ok, s)
  | l :: lines, s =>
      if stop s then (.ok, s)
      else if (exec l s).1 ≠ .ok then exec l s
      else runLines stop exec lines (exec l s).2

/-- No character of the line is a terminator. -/
def OneLine (l : List Byte) : Prop := 0 ∉ l ∧ 10 ∉ l ∧ 13 ∉ l

attribute [grind =] runLines

variable {l rest cs behind file : List Byte} {lines : List (List Byte)} {crlf verbose : Bool}
variable {a : Action} {c : Int} {p : Option (List Byte)} {x : Parsed}

theorem loadStream_cons {b : Byte} (hb : b ≠ 13) (file : List Byte) :
    loadStream false (b :: file) = loadChar false b :: loadStream false file := by
  cases file with
  | nil => rfl
  | cons d file => rw [loadStream, if_neg (by simp [hb])]

theorem loadStream_append (hl : OneLine l) (rest : List Byte) :
    loadStream false (l ++ rest) = l ++ loadStream false rest := by
  obtain ⟨-, h10, h13⟩ := hl
  induction l with
  | nil => rfl
  | cons b l ih =>
      have hb10 : b ≠ 10 := fun heq => h10 (by simp [heq])
      have hb13 : b ≠ 13 := fun heq => h13 (by simp [heq])
      rw [List.cons_append, loadStream_cons hb13, ih (fun h => h10 (List.mem_cons_of_mem b h))
        fun h => h13 (List.mem_cons_of_mem b h)]
      simp [loadChar, hb10, hb13]

/-- The terminator that `save_stream` writes -/
def lineEnd (crlf : Bool) : List Byte := if crlf then [13, 10] else [10]

theorem loadStream_lineEnd (crlf : Bool) (rest : List Byte) :
    loadStream false (lineEnd crlf ++ rest) = 0 :: loadStream false rest := by
  cases crlf with
  | false => exact loadStream_cons (by decide) rest
  | true => rfl

theorem saveStream_cons (hl : 0 ∉ l) (hlines : ∀ l ∈ lines, 0 ∉ l) :
    saveStream (textBefore 0 (l :: lines)) crlf =
      l ++ (lineEnd crlf ++ saveStream (textBefore 0 lines) crlf) := by
  have hsplit : ∀ ls : List (List Byte), (∀ l ∈ ls, 0 ∉ l) →
      (textBefore 0 ls).splitOn 0 = ls ++ [[]] := by
    intro ls hls
    rw [← text_concat_nil]
    exact List.splitOn_intercalate 0 (by simpa [or_imp, forall_and] using hls) (by simp)
  have hall : ∀ s ∈ l :: lines, 0 ∉ s := by
    intro s hs
    rcases List.mem_cons.mp hs with rfl | hs
    · exact hl
    · exact hlines s hs
  rw [saveStream, saveStream, hsplit _ hall, hsplit _ hlines]
  cases lines with
  | nil => simp [List.intercalate, lineEnd]
  | cons l' lines => simp [List.intercalate, lineEnd]

theorem loadStream_saveStream (hlines : ∀ l ∈ lines, OneLine l) :
    loadStream false (saveStream (textBefore 0 lines) crlf) = textBefore 0 lines := by
  induction lines with
  | nil =>
      cases crlf <;> rfl
  | cons l lines ih =>
      have hl := hlines l List.mem_cons_self
      have hrest := fun s hs => hlines s (List.mem_cons_of_mem l hs)
      rw [saveStream_cons hl.1 fun s hs => (hrest s hs).1, loadStream_append hl,
        loadStream_lineEnd, ih hrest]
      simp [textBefore]

theorem loadStream_not_mem (file : List Byte) :
    10 ∉ loadStream false file ∧ 13 ∉ loadStream false file := by
  have hchar : ∀ b, (10 : Byte) ≠ loadChar false b ∧ (13 : Byte) ≠ loadChar false b := by
    intro b
    by_cases hb : b = 10 ∨ b = 13
    · simp [loadChar, hb]
    · rw [not_or] at hb
      simp [loadChar, hb, Ne.symm hb.1, Ne.symm hb.2]
  induction file using loadStream.induct false with
  | case1 => simp [loadStream]
  | case2 c => simp [loadStream, hchar]
  | case3 c d file h ih =>
      rw [loadStream, if_pos h]
      simp [hchar, ih]
  | case4 c d file h ih =>
      rw [loadStream, if_neg h]
      simp only [List.mem_cons, not_or]
      exact ⟨⟨(hchar c).1, ih.1⟩, (hchar c).2, ih.2⟩

theorem saveStream_ended (hlines : ∀ l ∈ lines, 0 ∉ l) :
    Ended (saveStream (textBefore 0 lines) crlf) := by
  induction lines with
  | nil =>
      rintro c hc
      cases crlf <;> cases hc
  | cons l lines ih =>
      have hrest := ih fun s hs => hlines s (List.mem_cons_of_mem l hs)
      rw [saveStream_cons (hlines l List.mem_cons_self) fun s hs =>
        hlines s (List.mem_cons_of_mem l hs)]
      intro c hc
      rw [List.getLast?_append, List.getLast?_append] at hc
      cases hlast : (saveStream (textBefore 0 lines) crlf).getLast? with
      | some d =>
          rw [hlast] at hc
          cases hc
          exact hrest _ hlast
      | none =>
          rw [hlast] at hc
          cases crlf <;>
            · cases hc
              exact .inr (.inl rfl)

theorem loadStream_front {front back : List (List Byte)} (crlf : Bool)
    (hfront : ∀ l ∈ front, OneLine l)
    (hback : ∀ l ∈ back, 0 ∉ l) :
    ∃ more, loadStream false (saveStream (textBefore 0 (front ++ back)) crlf) =
      textBefore 0 (front ++ more) ∧ ∀ l ∈ more, OneLine l := by
  induction front with
  | nil =>
      obtain ⟨file, hfile⟩ : ∃ file, file = saveStream (textBefore 0 back) crlf := ⟨_, rfl⟩
      have hterminated := (terminated_loadStream_iff file).mpr (hfile ▸ saveStream_ended hback)
      have hbytes := loadStream_not_mem file
      refine ⟨streamLines (loadStream false file), ?_, fun l hl => ?_⟩
      · rw [List.nil_append, List.nil_append, ← hfile, textBefore_streamLines hterminated]
      · have hsubset : ∀ b ∈ l, b ∈ loadStream false file := by
          intro b hb
          rw [← textBefore_streamLines hterminated]
          exact List.mem_flatMap.mpr ⟨l, hl, List.mem_append_left _ hb⟩
        exact ⟨mem_streamLines hl, fun h => hbytes.1 (hsubset 10 h),
          fun h => hbytes.2 (hsubset 13 h)⟩
  | cons l front ih =>
      have hl := hfront l List.mem_cons_self
      obtain ⟨more, hmore, hone⟩ := ih fun s hs => hfront s (List.mem_cons_of_mem l hs)
      refine ⟨more, ?_, hone⟩
      have hzero : ∀ s ∈ front ++ back, 0 ∉ s := by
        intro s hs
        rcases List.mem_append.mp hs with hs | hs
        · exact (hfront s (List.mem_cons_of_mem l hs)).1
        · exact hback s hs
      rw [List.cons_append, saveStream_cons hl.1 hzero, loadStream_append hl, loadStream_lineEnd,
        hmore]
      simp [textBefore]

theorem foldl_recordAction (commands : List Parsed)
    (hcommands : ∀ x ∈ commands, x.action.has .doNotRecord = false ∧ x.action ≠ .nopA)
    (cs : List Byte) :
    commands.foldl (fun cs x => recordAction cs x.action x.number x.string verbose) cs =
      cs ++ textBefore 0 (commands.map (recordedLine verbose)) := by
  induction commands generalizing cs with
  | nil => simp
  | cons x commands ih =>
      obtain ⟨hrecord, hnop⟩ := hcommands x List.mem_cons_self
      have hline : recordAction cs x.action x.number x.string verbose =
          cs ++ (recordedLine verbose x ++ [0]) := by
        simp only [recordAction, hrecord, if_neg hnop, Bool.false_eq_true, if_false]
        rfl
      rw [List.foldl_cons, hline, ih fun y hy => hcommands y (List.mem_cons_of_mem x hy)]
      simp [textBefore]

section Play

variable {σ : Type} {stop : σ → Bool} {exec : List Byte → σ → CommandStatus × σ}

/-- The walk of `play_macro` over lines that NULs end executes them one after the other. -/
theorem playLines_eq (stop : σ → Bool) (exec : List Byte → σ → CommandStatus × σ)
    (front behind : List Byte) (hlines : ∀ l ∈ lines, 0 ∉ l) (turns : Nat)
    (hturns : lines.length ≤ turns) (s : σ) (hcs : cs = front ++ textBefore 0 lines) :
    ∃ places, playLines stop exec (cs ++ behind) cs.length turns front.length s =
      ((runLines stop exec lines s).1, (runLines stop exec lines s).2, places) := by
  induction lines generalizing turns s front with
  | nil =>
      have hend : cs.length ≤ front.length := by simp [hcs]
      cases turns with
      | zero => exact ⟨[], rfl⟩
      | succ turns =>
          refine ⟨[], ?_⟩
          simp only [playLines]
          rw [if_pos (.inr hend)]
          rfl
  | cons l lines ih =>
      obtain ⟨turns, rfl⟩ : ∃ t, turns = t + 1 := ⟨turns - 1, by
        simp only [List.length_cons] at hturns
        omega⟩
      have hl : 0 ∉ l := hlines l List.mem_cons_self
      have hline : cString (cs ++ behind) front.length = l := by
        have hmem : cs ++ behind = front ++ (l ++ 0 :: (textBefore 0 lines ++ behind)) := by
          simp [hcs, textBefore]
        rw [hmem]
        exact cString_middle hl
      have hfront : cs = (front ++ (l ++ [0])) ++ textBefore 0 lines := by
        simp [hcs, textBefore]
      have hplace : (front ++ (l ++ [0])).length = front.length + l.length + 1 := by
        simp [Nat.add_assoc]
      have hlength : ¬ cs.length ≤ front.length := by
        simp [hcs, textBefore]
      obtain ⟨places, hrest⟩ := ih (front ++ (l ++ [0]))
        (fun l hl => hlines l (List.mem_cons_of_mem _ hl)) turns (by simpa using hturns)
        (exec l s).2 hfront
      rw [hplace] at hrest
      simp only [playLines, runLines, hline]
      by_cases hstop : stop s = true
      · exact ⟨[], by rw [if_pos (.inl hstop), if_pos hstop]⟩
      · rw [if_neg (by simp [hstop, hlength]), if_neg hstop]
        by_cases hok : (exec l s).1 ≠ .ok
        · exact ⟨[front.length], by rw [if_pos hok, if_pos hok]⟩
        · exact ⟨front.length :: places, by rw [if_neg hok, if_neg hok, hrest]⟩

theorem runLines_append {ls ls' : List (List Byte)} {s : σ}
    (h : (runLines stop exec ls s).1 = .ok)
    (hstop : stop (runLines stop exec ls s).2 = false) :
    runLines stop exec (ls ++ ls') s = runLines stop exec ls' (runLines stop exec ls s).2 := by
  induction ls generalizing s with
  | nil => rfl
  | cons l ls ih =>
      simp only [List.cons_append, runLines] at h hstop ⊢
      by_cases hs : stop s = true
      · rw [if_pos hs] at hstop
        exact absurd hs (by simp [hstop])
      · rw [if_neg hs] at h hstop ⊢
        rw [if_neg hs]
        by_cases hok : (exec l s).1 ≠ .ok
        · rw [if_pos hok] at h
          exact absurd h hok
        · rw [if_neg hok] at h hstop ⊢
          rw [if_neg hok]
          exact ih h hstop

end Play

theorem playMacro_eq {w : World} {s : Session} (room : Nat) (hgranted : ∀ s n, w.granted s n = true)
    (hlines : ∀ l ∈ lines, 0 ∉ l) (hlength : 2 ≤ (textBefore 0 lines).length) :
    (playMacro w (room + 1) (textBefore 0 lines) 1 s).2 =
      (runLines Session.stop (fun line s => executeCommandLine w
        (fun cs s => playMacro w room cs 1 s) s.curBuffer line s) lines
          { s with stop := false }).2 := by
  have hturns := length_le_textBefore 0 lines
  obtain ⟨places, hplay⟩ := playLines_eq Session.stop (fun line s =>
    executeCommandLine w (fun cs s => playMacro w room cs 1 s) s.curBuffer line s)
    [] w.behind hlines (textBefore 0 lines).length hturns { s with stop := false }
    (List.nil_append _).symm
  simp only [playMacro]
  rw [if_neg (by omega), if_neg (by simp [hgranted])]
  have htimes : Int.toNat 1 = 0 + 1 := rfl
  simp only [htimes, playTimes]
  rw [if_neg (by simp)]
  rw [List.length_nil] at hplay
  rw [hplay]
  split
  · rfl
  · rfl

end NiceEditor.PreferencesText
