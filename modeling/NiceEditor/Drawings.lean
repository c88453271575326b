import NiceEditor.ShiftedLines

namespace NiceEditor.Drawings

open NiceEditor.CursorMotion
open NiceEditor.TerminalScreen
open NiceEditor.ScreenRuns
open NiceEditor.DrawnScreens
open NiceEditor.ShiftedLines

variable {t : Capabilities} {s : Screen}

/-- The characters that fit in a width, before the first one that does not -/
def clip (width : Int) : List Glyph → List Glyph
  | [] => []
  | g :: gs => if g.width ≤ width then g :: clip (width - g.width) gs else []

theorem fitting_eq_clip {utf8 : Bool} {string : List Nat} (p : Place)
    (hcount : ∀ c ∈ string, outputWidth t (counted utf8 c) = (glyph t c).width) :
    (fitting t utf8 p string).map (glyph t) = clip (room t p) (string.map (glyph t)) := by
  suffices h : ∀ width, (stringOutputWidth t utf8 (room t p) width string).1.map (glyph t) =
      clip (room t p - width) (string.map (glyph t)) by
    rw [fitting, h, Int.sub_zero]
  induction string with
  | nil => exact fun _ => rfl
  | cons c string ih =>
      intro width
      rw [stringOutputWidth, List.map_cons, clip, hcount c List.mem_cons_self]
      dsimp only
      split
      · rw [if_neg (by omega)]
        rfl
      · rw [if_pos (by omega), Int.sub_sub,
          ← ih fun c hc => hcount c (List.mem_cons_of_mem _ hc), List.map_cons]

theorem clip_spaces {width : Int} (hwidth : 0 ≤ width) (n : Nat) :
    clip width (List.replicate n ⟨32, 1⟩) =
      List.replicate (min (n : Int) width).toNat ⟨32, 1⟩ := by
  induction n generalizing width with
  | zero => rw [Nat.cast_zero, min_eq_left hwidth]; rfl
  | succ n ih =>
      rw [List.replicate_succ, clip]
      dsimp only
      split
      · rw [ih (by omega), ← List.replicate_succ]
        congr 1
        omega
      · rw [show (min ((n + 1 : Nat) : Int) width).toNat = 0 by omega]
        rfl

/-- The calls that draw -/
inductive Call
  | moveCursor (row col : Int)
  | outputChars (utf8 : Bool) (string : List Nat)
  | outputSpaces (n : Nat)
  | clearEndOfLine (firstUnusedHpos : Int)
  | clearToEol
  | clearToEnd
  | clearEntireScreen
  | insDelLines (vpos n : Int)

/-- What has been drawn, and the cursor of `cm.c` -/
structure Drawing where
  canvas : Int → Int → Cell
  cur : Place

namespace Drawing

/-- What a call is meant to draw, and what is sent for it -/
def draw (t : Capabilities) (d : Drawing) : Call → Option (Drawing × List Command)
  | .moveCursor row col =>
      (moveCursor t row col d.cur).map fun (cur, out) => (⟨d.canvas, cur⟩, out)
  | .outputChars utf8 string =>
      let (cur, out) := outputChars t utf8 string d.cur
      some (⟨written (clip (room t d.cur) (string.map (glyph t))) d.cur d.canvas, cur⟩, out)
  | .outputSpaces n =>
      let (cur, out) := outputSpaces t n d.cur
      some (⟨written (clip (room t d.cur) (List.replicate n ⟨32, 1⟩)) d.cur d.canvas, cur⟩, out)
  | .clearEndOfLine firstUnusedHpos =>
      let (cur, out) := clearEndOfLine t firstUnusedHpos d.cur
      some (⟨clearedRow d.cur.y d.cur.x d.canvas, cur⟩, out)
  | .clearToEol =>
      let (cur, out) := clearToEol t d.cur
      some (⟨clearedRow d.cur.y d.cur.x d.canvas, cur⟩, out)
  | .clearToEnd =>
      (clearToEnd t d.cur).map fun (cur, out) => (⟨clearedRows d.cur.y d.canvas, cur⟩, out)
  | .clearEntireScreen =>
      (clearEntireScreen t d.cur).map fun (cur, out) => (⟨fun _ _ => blank, cur⟩, out)
  | .insDelLines vpos n =>
      (insDelLines t vpos n d.cur).map fun (happened, cur, out) =>
        (⟨if happened then shifted vpos t.specifiedWindow n d.canvas else d.canvas, cur⟩, out)

/-- What the callers of `term.c` take care of -/
def Permitted (t : Capabilities) (d : Drawing) : Call → Prop
  | .moveCursor row col => OnScreen t row col
  | .outputChars utf8 string =>
      OnScreen t d.cur.y d.cur.x ∧ Legible t utf8 string ∧ Underlines t d.cur.x string
  | .outputSpaces _ => OnScreen t d.cur.y d.cur.x
  | .clearEndOfLine firstUnusedHpos =>
      OnScreen t d.cur.y d.cur.x ∧ firstUnusedHpos ≤ t.neColumns ∧
        ∀ c, firstUnusedHpos ≤ c → c < t.neColumns → d.canvas d.cur.y c = blank
  | .clearToEol => OnScreen t d.cur.y d.cur.x
  | .clearToEnd => OnScreen t d.cur.y d.cur.x ∧ d.cur.x = 0
  | .clearEntireScreen => True
  | .insDelLines vpos n =>
      t.lineInsDelOk ∧ 0 ≤ vpos ∧ n ≠ 0 ∧
        (¬ t.scrollRegionOk → vpos + n.natAbs ≤ t.specifiedWindow)

/-- The calls are made one after the other. -/
def run (t : Capabilities) (d : Drawing) : List Call → Option (Drawing × List Command)
  | [] => some (d, [])
  | call :: calls => do
      let (d, out) ← d.draw t call
      let (d, rest) ← run t d calls
      some (d, out ++ rest)

def PermittedRun (t : Capabilities) (d : Drawing) : List Call → Prop
  | [] => True
  | call :: calls =>
      d.Permitted t call ∧ ∀ d' out, d.draw t call = some (d', out) → PermittedRun t d' calls

/-- The terminal shows what has been drawn, and its cursor is where it is believed to be. -/
structure OnTerminal (t : Capabilities) (d : Drawing) (s : Screen) : Prop where
  shown : Shown t d.cur s
  drawn : Drawn t d.canvas s

variable {d : Drawing}

theorem draw_onTerminal (hd : Drivable t) (hs : d.OnTerminal t s) {call : Call}
    (hcall : d.Permitted t call) :
    ∃ d' out s', d.draw t call = some (d', out) ∧ exec t s out = some s' ∧ d'.OnTerminal t s' := by
  obtain ⟨hshown, hdrawn⟩ := hs
  cases call with
  | moveCursor row col =>
      obtain ⟨out, s', hmove, hexec, hshown', hdrawn'⟩ := moveCursor_draws hd hshown hdrawn hcall
      exact ⟨⟨d.canvas, ⟨row, col⟩⟩, out, s', by rw [draw, hmove]; rfl, hexec, hshown', hdrawn'⟩
  | outputChars utf8 string =>
      obtain ⟨hcur, hlegible, hunder⟩ := hcall
      obtain ⟨s', hexec, hshown', hdrawn'⟩ :=
        outputChars_draws hd hshown hdrawn hcur hlegible hunder
      rw [fitting_eq_clip d.cur fun c hc => outputWidth_counted hd.widths hlegible hc] at hdrawn'
      exact ⟨_, _, s', rfl, hexec, hshown', hdrawn'⟩
  | outputSpaces n =>
      obtain ⟨s', hexec, hshown', hdrawn'⟩ := outputSpaces_draws hd hshown hdrawn hcall n
      rw [← clip_spaces (room_nonneg hcall)] at hdrawn'
      exact ⟨_, _, s', rfl, hexec, hshown', hdrawn'⟩
  | clearEndOfLine firstUnusedHpos =>
      obtain ⟨hcur, hfirst, hclear⟩ := hcall
      obtain ⟨s', hexec, hshown', hdrawn'⟩ :=
        clearEndOfLine_draws hd hshown hdrawn hcur hfirst hclear
      exact ⟨_, _, s', rfl, hexec, hshown', hdrawn'⟩
  | clearToEol =>
      obtain ⟨s', hexec, hshown', hdrawn'⟩ := clearToEol_draws hd hshown hdrawn hcall
      exact ⟨_, _, s', rfl, hexec, hshown', hdrawn'⟩
  | clearToEnd =>
      obtain ⟨hcur, hstart⟩ := hcall
      obtain ⟨res, hres, s', hexec, hshown', hdrawn'⟩ :=
        clearToEnd_draws hd hshown hdrawn hcur hstart
      exact ⟨_, res.2, s', by rw [draw, hres]; rfl, hexec, hshown', hdrawn'⟩
  | clearEntireScreen =>
      obtain ⟨res, hres, s', hexec, hshown', hdrawn'⟩ := clearEntireScreen_draws hd hshown hdrawn
      exact ⟨_, res.2, s', by rw [draw, hres]; rfl, hexec, hshown', hdrawn'⟩
  | insDelLines vpos n =>
      obtain ⟨hok, hrow, hn, hroom⟩ := hcall
      obtain ⟨happened, res, hres, s', hexec, hshown', hdrawn'⟩ :=
        insDelLines_draws hd hok hshown hdrawn hrow hn hroom
      exact ⟨_, res.2, s', by rw [draw, hres]; rfl, hexec, hshown', hdrawn'⟩

/-- Over any row of calls the terminal shows what they are meant to draw, whatever it can do itself
and whatever has to be done the hard way. -/
theorem run_onTerminal (hd : Drivable t) (hs : d.OnTerminal t s) {calls : List Call}
    (hcalls : d.PermittedRun t calls) :
    ∃ d' out s', d.run t calls = some (d', out) ∧ exec t s out = some s' ∧ d'.OnTerminal t s' := by
  induction calls generalizing d s with
  | nil => exact ⟨d, [], s, rfl, rfl, hs⟩
  | cons call calls ih =>
      obtain ⟨hcall, hrest⟩ := hcalls
      obtain ⟨d₁, out, s₁, hdraw, hexec, hs₁⟩ := draw_onTerminal hd hs hcall
      obtain ⟨d₂, rest, s₂, hrun, hexec', hs₂⟩ := ih hs₁ (hrest d₁ out hdraw)
      refine ⟨d₂, out ++ rest, s₂, ?_, exec_trans hexec hexec', hs₂⟩
      rw [run, hdraw]
      simp only [Option.bind_eq_bind, Option.bind_some]
      rw [hrun]
      rfl

theorem onTerminal_losecursor (hregion : s.region = wholeScreen t) :
    OnTerminal t ⟨s.cells, losecursor⟩ s :=
  ⟨shown_losecursor hregion, fun _ _ _ _ _ _ => rfl⟩

/-- The columns of some characters: of the wide ones only those of the main blocks -/
def someWidths (c : Int) : Int :=
  if c < 32 ∨ 127 ≤ c ∧ c < 160 then -1
  else if 4352 ≤ c ∧ c < 4448 ∨ 11904 ≤ c ∧ c < 42192 ∨ 44032 ≤ c ∧ c < 55204 then 2 else 1

theorem widths_someWidths (h : t.wcwidth = someWidths) : Widths t where
  ascii c hlow hhigh := by rw [h, someWidths]; split_ifs <;> omega
  control c hc := by rw [h, someWidths, if_pos hc]; decide
  latin c hlow hhigh := by rw [h, someWidths]; split_ifs <;> omega

/-- The terminal of `setup_ansi_term` -/
def ansi : Capabilities where
  cm := setupAnsiTerm 0 0
  autoWrap := true
  magicWrap := false
  loseWrap := false
  clrEol := true
  clrEos := true
  clearScreen := true
  scrollRegionOk := false
  scrollForward := true
  scrollReverse := true
  insertLine := true
  parmInsertLine := false
  deleteLine := true
  parmDeleteLine := false
  memoryBelow := false
  transparentUnderline := false
  tildeGlitch := false
  specifiedWindow := 24
  ioUtf8 := true
  wcwidth := someWidths

theorem drivable_ansi : Drivable ansi where
  addressable := addressable_setupAnsiTerm
  columns := by decide
  window := by decide
  clears := Or.inl rfl
  scrolls := nofun
  widths := widths_someWidths rfl

/-- A screen is cleared and written on, and its first line is deleted. -/
theorem run_onTerminal_ansi :
    let s : Screen := ⟨fun _ _ => ⟨63, 0⟩, some ⟨3, 4⟩, wholeScreen ansi⟩
    ∃ d' out s', run ansi ⟨s.cells, losecursor⟩ [.clearEntireScreen,
        .outputChars true [110, 20013, 27], .clearEndOfLine 4, .outputSpaces 2,
        .insDelLines 0 (-1)] = some (d', out) ∧
      exec ansi s out = some s' ∧ OnTerminal ansi d' s' := by
  refine run_onTerminal drivable_ansi (onTerminal_losecursor rfl) ⟨trivial, ?_⟩
  rintro d out h
  cases h
  refine ⟨⟨⟨by decide, by decide, by decide, by decide⟩, ⟨fun _ _ => Or.inl rfl, Or.inl rfl⟩,
    nofun⟩, ?_⟩
  rintro d out h
  cases h
  refine ⟨⟨⟨by decide, by decide, by decide, by decide⟩, by decide, fun c hc _ => ?_⟩, ?_⟩
  · change overwritten (fun _ _ => blank) 0 0 (spread [⟨110, 1⟩, ⟨20013, 2⟩, ⟨91, 1⟩]) 0 c = blank
    rw [overwritten, if_pos ⟨rfl, (by decide : (0 : Int) ≤ 4).trans hc⟩,
      List.getD_eq_default _ _ (by rw [spread_length]; change 4 ≤ _; omega)]
  rintro d out h
  cases h
  refine ⟨⟨by decide, by decide, by decide, by decide⟩, ?_⟩
  rintro d out h
  cases h
  exact ⟨⟨rfl, by decide, by decide, fun _ => by decide⟩, fun _ _ _ => trivial⟩

end Drawing

end NiceEditor.Drawings
