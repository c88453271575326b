import NiceEditor.KeyLines
import NiceEditor.Sessions

namespace NiceEditor.StreamWalks

open NiceEditor.Pools
open NiceEditor.LineText
open NiceEditor.Commands
open NiceEditor.CommandLine
open NiceEditor.Streams
open NiceEditor.KeyBindings
open NiceEditor.KeyLines
open NiceEditor.Sessions

/-- A line that no NUL ends. -/
def lastSegment (last : List Byte) : List (List Byte) := if last = [] then [] else [last]

/-- The lines of a stream; the last one may be without a NUL. -/
def segments (cs : List Byte) : List (List Byte) :=
  (cs.splitOn 0).dropLast ++ lastSegment ((cs.splitOn 0).getLastD [])

/-- What the loader makes of a line by itself. -/
def lineResult (source : ConfigSource) (st : KeyState) (l : List Byte) :
    Option (Except KeyError KeyState) :=
  (bindLine source st (l ++ [0])).map Prod.fst

/-- No line that is reached dangles, and if the end of the stream is reached there are no
characters without a NUL. -/
def LinesHold (source : ConfigSource) (last : List Byte) : KeyState → List (List Byte) → Prop
  | _, [] => last = []
  | st, l :: lines => ¬ Dangling l ∧
      ∀ st', lineResult source st l = some (.ok st') → LinesHold source last st' lines

/-- The loader has read no byte behind the stream, and what it has parsed are the lines of
the stream, in order. -/
def LoadsInside (result : KeyOutcome × List (List Byte)) (lines : List (List Byte)) : Prop :=
  result.1 ≠ .overrun ∧ result.2 <+: lines

variable {source : ConfigSource} {st : KeyState} {lines : List (List Byte)}
variable {l last cs behind p q : List Byte} {turns len : Nat}

theorem not_mem_of_suffix (hp : 0 ∉ p) (h : q <:+ p) : 0 ∉ q := fun hmem => hp (h.subset hmem)

theorem next_of_line {l' rest : List Byte} (hl' : 0 ∉ l') :
    ((l' ++ 0 :: rest).dropWhile (· != 0)).tail = rest := by
  have hall : ∀ x ∈ l', (x != 0) = true := fun x hx => by
    simpa using fun heq : x = 0 => hl' (heq ▸ hx)
  rw [List.dropWhile_append_of_pos hall, List.dropWhile_cons_of_neg (by simp), List.tail_cons]

theorem parsed_of_line (l rest : List Byte) :
    (l ++ 0 :: rest).take ((l ++ 0 :: rest).length - rest.length - 1) = l := by
  have hlength : (l ++ 0 :: rest).length - rest.length - 1 = l.length := by
    simp only [List.length_append, List.length_cons]
    omega
  rw [hlength, List.take_left]

theorem zero_mem_parsed {rest : List Byte} (hq : q <:+ rest) (hzero : 0 ∈ q) :
    (0 : Byte) ∈ (l ++ 0 :: rest).take
      ((l ++ 0 :: rest).length - ((q.dropWhile (· != 0)).tail).length - 1) := by
  have hnext : ((q.dropWhile (· != 0)).tail).length < q.length := by
    have hle := (List.dropWhile_suffix (l := q) (· != 0)).length_le
    have hpos := List.length_pos_of_mem hzero
    rw [List.length_tail]
    omega
  have hle := hq.length_le
  have hsplit : l ++ 0 :: rest = (l ++ [0]) ++ rest := by simp
  refine (List.take_prefix_take_left (i := l.length + 1) ?_).subset ?_
  · simp only [List.length_append, List.length_cons]
    omega
  · rw [hsplit, List.take_left' (by simp)]
    simp

/-- The loader stays inside the stream, line by line, exactly if no line that it reaches
makes it leave. -/
theorem bindLines_inside_iff (source : ConfigSource) (hlines : ∀ l ∈ lines, 0 ∉ l)
    (hlast : 0 ∉ last)
    (turns line : Nat) (st : KeyState) (hturns : (textBefore 0 lines ++ last).length ≤ turns) :
    LoadsInside (bindLines source turns line st (textBefore 0 lines ++ last))
      (lines ++ lastSegment last) ↔ LinesHold source last st lines := by
  induction lines generalizing turns line st with
  | nil =>
      rw [textBefore_nil, List.nil_append] at hturns ⊢
      by_cases hnil : last = []
      · subst hnil
        have hrun : bindLines source turns line st [] = (.loaded st, []) := by
          cases turns <;> simp [bindLines]
        simp [hrun, LoadsInside, LinesHold]
      · have hrun : (bindLines source turns line st last).1 = .overrun := by
          cases turns with
          | zero => exact absurd (List.eq_nil_of_length_eq_zero (by omega)) hnil
          | succ turns =>
              rw [bindLines, if_neg hnil]
              split
              · rfl
              · rename_i result q hline
                have hq := not_mem_of_suffix hlast (ahead_bindLine last result q hline)
                rw [if_pos hq]
        simp [hrun, LoadsInside, LinesHold, hnil]
  | cons l lines ih =>
      have hl : 0 ∉ l := hlines l List.mem_cons_self
      obtain ⟨rest, hrest⟩ : ∃ rest, rest = textBefore 0 lines ++ last := ⟨_, rfl⟩
      have hp : textBefore 0 (l :: lines) ++ last = l ++ 0 :: rest := by
        simp [textBefore, hrest]
      rw [hp] at hturns ⊢
      obtain ⟨turns, rfl⟩ : ∃ t, turns = t + 1 := ⟨turns - 1, by
        simp only [List.length_append, List.length_cons] at hturns
        omega⟩
      by_cases hd : Dangling l
      · refine iff_of_false ?_ fun h => h.1 hd
        rintro ⟨hover, hprefix⟩
        rw [bindLines, if_neg (by simp)] at hover hprefix
        cases hline : (bindLine source st).run (l ++ 0 :: rest) with
        | none => simp [hline] at hover
        | some r =>
            obtain ⟨result, q⟩ := r
            have hq : q <:+ rest := crosses_bindLine hl hd rest result q hline
            simp only [hline] at hover hprefix
            by_cases hzero : 0 ∈ q
            · have hparsed := zero_mem_parsed (l := l) hq hzero
              rw [if_neg (not_not_intro hzero)] at hprefix
              have hmem : (l ++ 0 :: rest).take ((l ++ 0 :: rest).length -
                  ((q.dropWhile (· != 0)).tail).length - 1) ∈ l :: lines ++ lastSegment last := by
                refine hprefix.subset ?_
                split <;> simp
              have hnone : ∀ s ∈ l :: lines ++ lastSegment last, 0 ∉ s := by
                intro s hs
                rcases List.mem_append.mp hs with hs | hs
                · exact hlines s hs
                · unfold lastSegment at hs
                  split at hs
                  · cases hs
                  · rwa [List.mem_singleton.mp hs]
              exact hnone _ hmem hparsed
            · rw [if_pos hzero] at hover
              exact hover rfl
      · obtain ⟨result, l', hsuffix, hstays⟩ := stays_bindLine source st hl hd
        have hl' : 0 ∉ l' := not_mem_of_suffix hl hsuffix
        have hresult : lineResult source st l = some result := by
          rw [lineResult, hstays]
          rfl
        have hrun : (bindLine source st).run (l ++ 0 :: rest) = some (result, l' ++ 0 :: rest) :=
          hstays rest
        rw [bindLines, if_neg (by simp), hrun]
        simp only [List.mem_append, List.mem_cons, true_or, or_true, not_true_eq_false, if_false,
          next_of_line hl', parsed_of_line]
        cases result with
        | error e =>
            refine iff_of_true ⟨by simp, by simp⟩ ⟨hd, fun st' h => ?_⟩
            rw [hresult] at h
            cases h
        | ok st' =>
            have hrec := ih (fun l hl => hlines l (List.mem_cons_of_mem _ hl)) turns (line + 1)
              st' (by
                rw [← hrest]
                simp only [List.length_append, List.length_cons] at hturns
                omega)
            rw [← hrest] at hrec
            have hstep : LinesHold source last st (l :: lines) ↔
                LinesHold source last st' lines := by
              refine ⟨fun h => h.2 st' hresult, fun h => ⟨hd, fun st'' h'' => ?_⟩⟩
              rw [hresult] at h''
              cases h''
              exact h
            rw [hstep, ← hrec]
            simp [LoadsInside, List.cons_prefix_cons]

theorem exists_segments (cs : List Byte) : ∃ lines last, cs = textBefore 0 lines ++ last ∧
    (∀ l ∈ lines, 0 ∉ l) ∧ 0 ∉ last ∧ (cs.splitOn 0).dropLast = lines ∧
      (cs.splitOn 0).getLastD [] = last ∧ (Terminated cs ↔ last = []) := by
  have hsplit := text_splitOn 0 cs
  obtain ⟨lines, last, hl⟩ :=
    (List.eq_nil_or_concat (cs.splitOn 0)).resolve_left (List.splitOn_ne_nil 0 cs)
  rw [List.concat_eq_append] at hl
  rw [hl, text_append 0 (by simp), text_singleton] at hsplit
  have hmem : ∀ s ∈ lines ++ [last], 0 ∉ s := fun s hs =>
    not_mem_of_mem_splitOn 0 (hl ▸ hs)
  have hlast : 0 ∉ last := hmem last (by simp)
  refine ⟨lines, last, hsplit.symm, fun s hs => hmem s (List.mem_append_left _ hs), hlast,
    by rw [hl, List.dropLast_concat], by simp [hl], fun hcs => ?_, fun hnil => ?_⟩
  · rcases List.eq_nil_or_concat last with hnil | ⟨s, c, rfl⟩
    · exact hnil
    · have hc : c = 0 := hcs c (by rw [← hsplit]; simp)
      exact absurd (by simp [hc]) hlast
  · rw [← hsplit, hnil, List.append_nil]
    exact textBefore_terminated lines

theorem getKeyBind_inside_iff (source : ConfigSource) (st : KeyState) (cs : List Byte) :
    LoadsInside (getKeyBind source st cs) (segments cs) ↔
      LinesHold source ((cs.splitOn 0).getLastD []) st (cs.splitOn 0).dropLast := by
  obtain ⟨lines, last, hcs, hlines, hlast, hdropLast, hgetLast, -⟩ := exists_segments cs
  have hinside := bindLines_inside_iff source hlines hlast cs.length 1 st
    (by rw [hcs])
  rw [← hcs] at hinside
  rw [segments, hdropLast, hgetLast]
  exact hinside

/-- `play_macro` reads no byte behind the stream, whatever the commands do, and in every
repetition it executes lines of the stream, in order. -/
def PlaysInside (cs : List Byte) : Prop :=
  2 ≤ cs.length → ∀ (behind : List Byte) (σ : Type) (stop : σ → Bool)
    (exec : List Byte → σ → CommandStatus × σ) (c : Nat) (s : σ),
    ∀ places ∈ (playTimes stop exec (cs ++ behind) cs.length c s).2.2,
      (∀ p ∈ places, p + (cString (cs ++ behind) p).length < cs.length) ∧
        places.map (cString (cs ++ behind)) <+: segments cs

section Play

variable {σ : Type} {stop : σ → Bool} {exec : List Byte → σ → CommandStatus × σ}

theorem playLines_cons (mem : List Byte) (turns place : Nat) (s : σ) :
    (playLines stop exec mem len (turns + 1) place s).2.2 = [] ∨
      ∃ places, (playLines stop exec mem len (turns + 1) place s).2.2 = place :: places ∧
        (places = [] ∨ ∃ s', places =
          (playLines stop exec mem len turns (place + (cString mem place).length + 1) s').2.2) := by
  simp only [playLines]
  split
  · exact .inl rfl
  · split
    · exact .inr ⟨[], rfl, .inl rfl⟩
    · exact .inr ⟨_, rfl, .inr ⟨_, rfl⟩⟩

/-- Over lines that NULs end, the walk stays inside. -/
theorem playLines_inside (stop : σ → Bool) (exec : List Byte → σ → CommandStatus × σ)
    (front : List Byte) (hlines : ∀ l ∈ lines, 0 ∉ l) (turns : Nat) (s : σ)
    (behind : List Byte) (hcs : cs = front ++ textBefore 0 lines) :
    let places := (playLines stop exec (cs ++ behind) cs.length turns front.length s).2.2
    (∀ p ∈ places, p + (cString (cs ++ behind) p).length < cs.length) ∧
      places.map (cString (cs ++ behind)) <+: lines := by
  induction lines generalizing turns s front with
  | nil =>
      have hstop :
          (playLines stop exec (cs ++ behind) cs.length turns front.length s).2.2 = [] := by
        cases turns with
        | zero => rfl
        | succ turns =>
            have hend : cs.length ≤ front.length := by simp [hcs]
            simp only [playLines]
            rw [if_pos (.inr hend)]
      simp [hstop]
  | cons l lines ih =>
      have hl : 0 ∉ l := hlines l List.mem_cons_self
      have hmem : cs ++ behind = front ++ (l ++ 0 :: (textBefore 0 lines ++ behind)) := by
        simp [hcs, textBefore]
      have hline : cString (cs ++ behind) front.length = l := by
        rw [hmem]
        exact cString_middle hl
      have hfront : cs = (front ++ (l ++ [0])) ++ textBefore 0 lines := by
        simp [hcs, textBefore]
      have hplace : (front ++ (l ++ [0])).length = front.length + l.length + 1 := by
        simp [Nat.add_assoc]
      have hlength : front.length + l.length < cs.length := by
        have htotal := congrArg List.length hfront
        rw [List.length_append, hplace] at htotal
        omega
      cases turns with
      | zero => simp [playLines]
      | succ turns =>
          rcases playLines_cons (cs ++ behind) turns front.length s with
            hstop | ⟨places, hcons, hrest⟩
          · rw [hstop]
            simp
          rw [hcons]
          rcases hrest with rfl | ⟨s', rfl⟩
          · simpa [hline] using hlength
          · obtain ⟨hinside, hprefix⟩ := ih _ (fun l hl => hlines l (List.mem_cons_of_mem _ hl))
              turns s' hfront
            rw [hplace] at hinside hprefix
            rw [hline]
            refine ⟨fun p hp => ?_, ?_⟩
            · rcases List.mem_cons.mp hp with rfl | hp
              · rwa [hline]
              · exact hinside p hp
            · rw [List.map_cons, hline]
              exact List.cons_prefix_cons.mpr ⟨rfl, hprefix⟩

theorem playTimes_inside (hlines : ∀ l ∈ lines, 0 ∉ l) (hcs : cs = textBefore 0 lines)
    (behind : List Byte) (c : Nat) (s : σ) :
    ∀ places ∈ (playTimes stop exec (cs ++ behind) cs.length c s).2.2,
      (∀ p ∈ places, p + (cString (cs ++ behind) p).length < cs.length) ∧
        places.map (cString (cs ++ behind)) <+: lines := by
  induction c generalizing s with
  | zero => simp [playTimes]
  | succ c ih =>
      have hstep := playLines_inside stop exec [] hlines cs.length s behind hcs
      intro places hplaces
      simp only [playTimes] at hplaces
      split at hplaces
      · cases hplaces
      · split at hplaces
        · rw [List.mem_singleton.mp hplaces]
          exact hstep
        · rcases List.mem_cons.mp hplaces with rfl | hplaces
          · exact hstep
          · exact ih _ places hplaces

end Play

theorem playLines_reaches (front : List Byte) (hlines : ∀ l ∈ lines, 0 ∉ l) (hlast : last ≠ [])
    (hcs : cs = front ++ textBefore 0 lines ++ last) (turns : Nat) (hturns : lines.length < turns) :
    (front ++ textBefore 0 lines).length ∈
      (playLines (fun _ => false) (fun _ s => (.ok, s)) cs cs.length turns front.length ()
        ).2.2 := by
  induction lines generalizing turns front with
  | nil =>
      obtain ⟨turns, rfl⟩ : ∃ t, turns = t + 1 := ⟨turns - 1, by omega⟩
      have hpos := List.length_pos_of_ne_nil hlast
      have hlength : front.length < cs.length := by
        simp only [hcs, List.length_append]
        omega
      simp only [playLines]
      rw [if_neg (by simpa using hlength)]
      simp
  | cons l lines ih =>
      obtain ⟨turns, rfl⟩ : ∃ t, turns = t + 1 := ⟨turns - 1, by omega⟩
      have hmem : cs = front ++ (l ++ 0 :: (textBefore 0 lines ++ last)) := by
        simp [hcs, textBefore]
      have hline : cString cs front.length = l := by
        rw [hmem]
        exact cString_middle (hlines l List.mem_cons_self)
      have hfront : cs = (front ++ (l ++ [0])) ++ textBefore 0 lines ++ last := by
        simp [hcs, textBefore]
      have hplace : (front ++ (l ++ [0])).length = front.length + l.length + 1 := by
        simp [Nat.add_assoc]
      have hlength : front.length < cs.length := by
        rw [hmem]
        simp
      have hrec := ih _ (fun l hl => hlines l (List.mem_cons_of_mem _ hl)) hfront turns
        (by simpa using hturns)
      have hsame : front ++ (l ++ [0]) ++ textBefore 0 lines =
          front ++ textBefore 0 (l :: lines) := by
        simp [textBefore]
      rw [hplace, hsame] at hrec
      simp only [playLines]
      rw [if_neg (by simpa using hlength), hline]
      exact List.mem_cons_of_mem _ hrec

theorem playsInside_iff (cs : List Byte) : PlaysInside cs ↔ cs.length < 2 ∨ Terminated cs := by
  obtain ⟨lines, last, hcs, hlines, hlast, hdropLast, hgetLast, hterminated⟩ := exists_segments cs
  rw [hterminated]
  constructor
  · intro hinside
    by_contra hne
    obtain ⟨hlength, hnil⟩ := not_or.mp hne
    have htextLength := length_le_textBefore 0 lines
    have hpos := List.length_pos_of_ne_nil hnil
    have htotal : cs.length = (textBefore 0 lines).length + last.length := by
      rw [hcs, List.length_append]
    have hreaches := playLines_reaches [] hlines hnil (by simpa using hcs) cs.length
      (by omega)
    have hplay := hinside (by omega) [] Unit (fun _ => false) (fun _ s => (.ok, s)) 1 ()
      (playLines (fun _ => false) (fun _ s => (.ok, s)) cs cs.length cs.length 0 ()).2.2 (by
        simp only [playTimes, List.append_nil]
        rw [if_neg (by simp)]
        split <;> simp)
    have hread := hplay.1 _ hreaches
    have hline : cString cs (textBefore 0 lines).length = last := by
      have hall : ∀ x ∈ last, (x != 0) = true := fun x hx => by
        simpa using fun heq : x = 0 => hlast (heq ▸ hx)
      rw [cString, hcs, List.drop_left]
      exact List.takeWhile_eq_self_iff.mpr hall
    rw [List.append_nil, List.nil_append, hline] at hread
    omega
  · rintro (hlength | hnil) h2 behind σ stop exec c s
    · omega
    · have hsegments : segments cs = lines := by
        rw [segments, hdropLast, hgetLast, hnil]
        simp [lastSegment]
      rw [hsegments]
      rw [hnil, List.append_nil] at hcs
      exact playTimes_inside hlines hcs behind c s

/-- What is added to a macro that is being recorded: a command, or the note that a macro
begins or ends. -/
inductive Recorded
  | command (a : Action) (c : Int) (p : Option (List Byte)) (verbose : Bool)
  | includes (name : List Byte)
  | concludes (name : List Byte)

namespace Recorded

def add (cs : List Byte) : Recorded → List Byte
  | command a c p verbose => recordAction cs a c p verbose
  | includes name => cs ++ (bytes "# include macro " ++ name ++ [0])
  | concludes name => cs ++ (bytes "# conclude macro " ++ name ++ [0])

/-- The command is one that is recorded. -/
def Writes : Recorded → Prop
  | command a _ _ _ => a.has .doNotRecord = false
  | _ => True

end Recorded

theorem terminated_append (cs s : List Byte) : Terminated (cs ++ (s ++ [0])) := by
  intro c hc
  simpa [eq_comm] using hc

theorem recorded_add (cs : List Byte) (e : Recorded) :
    (e.Writes ∧ Terminated (e.add cs)) ∨ (¬ e.Writes ∧ e.add cs = cs) := by
  cases e with
  | command a c p verbose =>
      change (a.has .doNotRecord = false ∧ Terminated (recordAction cs a c p verbose)) ∨
        (¬ a.has .doNotRecord = false ∧ recordAction cs a c p verbose = cs)
      unfold recordAction
      split
      · rename_i h
        exact .inr ⟨by simp [h], rfl⟩
      · rename_i h
        refine .inl ⟨by simpa using h, ?_⟩
        split
        · exact terminated_append _ _
        · exact terminated_append _ _
  | includes name => exact .inl ⟨trivial, terminated_append _ _⟩
  | concludes name => exact .inl ⟨trivial, terminated_append _ _⟩

theorem recorded_terminated (events : List Recorded) (cs : List Byte) :
    (Terminated (events.foldl Recorded.add cs) ↔
        (∃ e ∈ events, e.Writes) ∨ Terminated cs) ∧
      ((∃ e ∈ events, e.Writes) ∨ events.foldl Recorded.add cs = cs) := by
  induction events generalizing cs with
  | nil => simp
  | cons e events ih =>
      obtain ⟨hterminated, hkept⟩ := ih (e.add cs)
      rw [List.foldl_cons, hterminated]
      rcases recorded_add cs e with ⟨hwrites, hend⟩ | ⟨hnot, hsame⟩
      · exact ⟨by simp [hwrites, hend], .inl ⟨e, List.mem_cons_self, hwrites⟩⟩
      · rw [hsame] at hkept ⊢
        simpa [hnot] using hkept

/-- The file ends with a character that is loaded as a NUL. -/
def Ended (file : List Byte) : Prop := ∀ c ∈ file.getLast?, c = 0 ∨ c = 10 ∨ c = 13

instance (file : List Byte) : Decidable (Ended file) :=
  inferInstanceAs (Decidable (∀ c ∈ file.getLast?, c = 0 ∨ c = 10 ∨ c = 13))

theorem loadChar_eq_zero_iff (c : Byte) : loadChar false c = 0 ↔ c = 0 ∨ c = 10 ∨ c = 13 := by
  by_cases h : c = 10 ∨ c = 13
  · simp [loadChar, h]
  · simp [loadChar, h]

theorem loadStream_ne_nil (c : Byte) (file : List Byte) : loadStream false (c :: file) ≠ [] := by
  cases file with
  | nil => simp [loadStream]
  | cons d file =>
      rw [loadStream]
      split <;> simp

theorem terminated_cons {c : Byte} (hcs : cs ≠ []) : Terminated (c :: cs) ↔ Terminated cs := by
  rw [Terminated, Terminated, List.getLast?_cons, List.getLast?_eq_some_getLast hcs]
  simp

theorem terminated_loadStream_iff (file : List Byte) :
    Terminated (loadStream false file) ↔ Ended file := by
  induction file using loadStream.induct false with
  | case1 => simp [loadStream, Terminated, Ended]
  | case2 c => simp [loadStream, Terminated, Ended, loadChar_eq_zero_iff]
  | case3 c d file h ih =>
      rw [loadStream, if_pos h]
      obtain ⟨-, rfl, rfl⟩ := h
      cases file with
      | nil => simp [loadStream, loadChar, Terminated, Ended]
      | cons e file =>
          rw [terminated_cons (loadStream_ne_nil e file), ih]
          simp [Ended]
  | case4 c d file h ih =>
      rw [loadStream, if_neg h, terminated_cons (loadStream_ne_nil d file), ih]
      simp [Ended]

theorem loadStream_length_lt (file : List Byte) :
    (loadStream false file).length < 2 → file.length < 2 ∨ Ended file := by
  intro hlength
  match file with
  | [] => exact .inl (by decide)
  | [c] => exact .inl (by simp)
  | c :: d :: file =>
      have hne := fun e s => List.length_pos_of_ne_nil (loadStream_ne_nil e s)
      refine .inr ?_
      by_cases h : ¬ (false : Bool) = true ∧ c = 13 ∧ d = 10
      · rw [loadStream, if_pos h] at hlength
        cases file with
        | nil => simp [Ended, h.2.2]
        | cons e file =>
            have hpos := hne e file
            simp only [List.length_cons] at hlength
            omega
      · have hpos := hne d file
        rw [loadStream, if_neg h] at hlength
        simp only [List.length_cons] at hlength
        omega

theorem loadStream_length_le (file : List Byte) :
    (loadStream false file).length ≤ file.length := by
  induction file using loadStream.induct false with
  | case1 => rfl
  | case2 c => rfl
  | case3 c d file h ih =>
      rw [loadStream, if_pos h]
      simp only [List.length_cons]
      omega
  | case4 c d file h ih =>
      rw [loadStream, if_neg h]
      simp only [List.length_cons] at ih ⊢
      omega

/-- Where the streams come from: `OpenMacro`, `Macro`, `LoadPrefs`, `Record` (which may
continue the current macro) and the key bindings loader. -/
inductive Producer
  | openMacro (file : List Byte)
  | namedMacro (file : List Byte)
  | loadPrefs (file : List Byte)
  | record (resumed : List Byte) (events : List Recorded)
  | keyBindings (source : ConfigSource) (st : KeyState) (file : List Byte)

/-- The walk over the stream stays inside it, line by line. -/
def WalksInside : Producer → Prop
  | .openMacro file => PlaysInside (loadStream false file)
  | .namedMacro file => PlaysInside (loadStream false file ++ [0])
  | .loadPrefs file => PlaysInside (loadStream false file)
  | .record resumed events => PlaysInside (events.foldl Recorded.add resumed)
  | .keyBindings source st file =>
      LoadsInside (getKeyBind source st (loadStream false file)) (segments (loadStream false file))

/-- The file, or the recording, ends with a NUL or with a character that becomes one; the
lines of key bindings do not dangle, as far as they are reached. -/
def EndsWithNul : Producer → Prop
  | .openMacro file => file.length < 2 ∨ Ended file
  | .namedMacro _ => True
  | .loadPrefs file => file.length < 2 ∨ Ended file
  | .record resumed events =>
      (∃ e ∈ events, e.Writes) ∨ resumed.length < 2 ∨ Terminated resumed
  | .keyBindings source st file =>
      let lines := (loadStream false file).splitOn 0
      LinesHold source (lines.getLastD []) st lines.dropLast

theorem loaded_playsInside_iff (file : List Byte) :
    PlaysInside (loadStream false file) ↔ file.length < 2 ∨ Ended file := by
  rw [playsInside_iff, terminated_loadStream_iff]
  constructor
  · rintro (h | h)
    · exact loadStream_length_lt file h
    · exact .inr h
  · rintro (h | h)
    · exact .inl ((loadStream_length_le file).trans_lt h)
    · exact .inr h

/-- The walkers stay inside a stream exactly if its producer ends it with a NUL, and no
line of key bindings that is reached dangles. -/
theorem walksInside_iff (producer : Producer) :
    WalksInside producer ↔ EndsWithNul producer := by
  cases producer with
  | openMacro file => exact loaded_playsInside_iff file
  | namedMacro file =>
      refine iff_of_true ((playsInside_iff _).mpr (.inr ?_)) trivial
      simpa using terminated_append (loadStream false file) []
  | loadPrefs file => exact loaded_playsInside_iff file
  | record resumed events =>
      obtain ⟨hterminated, hkept⟩ := recorded_terminated events resumed
      change PlaysInside _ ↔ (∃ e ∈ events, e.Writes) ∨ resumed.length < 2 ∨ Terminated resumed
      rw [playsInside_iff, hterminated]
      rcases hkept with hwrites | hsame
      · exact iff_of_true (.inr (.inl hwrites)) (.inl hwrites)
      · rw [hsame]
        exact or_left_comm
  | keyBindings source st file => exact getKeyBind_inside_iff source st _

/-- No keys and no bindings. -/
def noKeys : KeyState := ⟨[], fun _ => none, fun _ => .builtIn⟩

/-- A key bindings file with a sequence that dangles and another one. -/
def danglingFile : List Byte := bytes "SEQ \"a\\\nSEQ \"b\" 5\n"

/-- The last line of a macro file without a terminator is read to whatever NUL comes after
the copy of the stream; a sequence that dangles is continued on the next line. -/
theorem not_walksInside :
    ¬ WalksInside (.openMacro (bytes "Beep")) ∧
      ¬ WalksInside (.keyBindings .userPrefs noKeys danglingFile) := by
  constructor
  · intro hinside
    have hplay := hinside (by decide) [120] Unit (fun _ => false) (fun _ s => (.ok, s)) 1 () [0]
      (by decide)
    exact absurd (hplay.1 0 (by decide)) (by decide)
  · intro hinside
    have hparsed : (getKeyBind .userPrefs noKeys (loadStream false danglingFile)).2 =
        [bytes "SEQ \"a\\" ++ [0] ++ bytes "SEQ \"b\" 5"] := by decide +kernel
    have hprefix := hinside.2
    rw [hparsed] at hprefix
    exact absurd hprefix (by decide +kernel)

end NiceEditor.StreamWalks
