import NiceEditor.ScreenRuns

namespace NiceEditor.DrawnScreens

open NiceEditor.PathCosts
open NiceEditor.CursorMotion
open NiceEditor.TerminalScreen
open NiceEditor.ScreenRuns

/-- A terminal that `ne` can draw on. Without `ce` spaces clear its lines, also the last one, so
that the screen may not scroll behind them; one with a scroll region has strings that scroll it. -/
structure Drivable (t : Capabilities) : Prop where
  addressable : Addressable t.cm
  columns : 0 < t.neColumns
  window : 0 < t.specifiedWindow ∧ t.specifiedWindow < t.neLines
  clears : t.clrEol ∨ t.magicWrap ∨ ¬ t.autoWrap
  scrolls : t.scrollRegionOk → t.scrollForward ∧ t.scrollReverse
  widths : Widths t

/-- The screen holds what has been drawn. -/
def Drawn (t : Capabilities) (canvas : Int → Int → Cell) (s : Screen) : Prop :=
  ∀ r c, 0 ≤ r → r < t.neLines → 0 ≤ c → c < t.neColumns → s.cells r c = canvas r c

/-- What is sent makes the terminal show the canvas. -/
def Draws (t : Capabilities) (s : Screen) (canvas : Int → Int → Cell)
    (res : Place × List Command) : Prop :=
  ∃ s', exec t s res.2 = some s' ∧ Shown t res.1 s' ∧ Drawn t canvas s'

variable {t : Capabilities} {s s' : Screen} {cur : Place} {row col x y first : Int}
variable {canvas canvas' : Int → Int → Cell} {out out' : List Command}
variable {utf8 : Bool} {string : List Nat}

section Clears

theorem Drawn.cursor {p : Option Place} (h : Drawn t canvas s) :
    Drawn t canvas { s with cursor := p } := h

theorem Drawn.congr (h : Drawn t canvas s)
    (heq : ∀ r c, 0 ≤ r → r < t.neLines → 0 ≤ c → c < t.neColumns → canvas r c = canvas' r c) :
    Drawn t canvas' s :=
  fun r c hr hr' hc hc' => (h r c hr hr' hc hc').trans (heq r c hr hr' hc hc')

theorem Draws.congr {res : Place × List Command} (h : Draws t s canvas res)
    (heq : ∀ r c, 0 ≤ r → r < t.neLines → 0 ≤ c → c < t.neColumns → canvas r c = canvas' r c) :
    Draws t s canvas' res := by
  obtain ⟨s', hexec, hshown, hdrawn⟩ := h
  exact ⟨s', hexec, hshown, hdrawn.congr heq⟩

theorem draws_nil (hshown : Shown t cur s) (hdrawn : Drawn t canvas s) :
    Draws t s canvas (cur, []) := ⟨s, rfl, hshown, hdrawn⟩

theorem Draws.after {res : Place × List Command} (hexec : exec t s out = some s')
    (h : Draws t s' canvas res) : Draws t s canvas (res.1, out ++ res.2) := by
  obtain ⟨s'', hexec', hshown, hdrawn⟩ := h
  exact ⟨s'', exec_trans hexec hexec', hshown, hdrawn⟩

theorem shown_at (hregion : s.region = wholeScreen t) (hdst : OnScreen t row col) :
    Shown t ⟨row, col⟩ { s with cursor := some ⟨row, col⟩ } :=
  ⟨hregion, fun _ => ⟨rfl, hdst.2.1, hdst.2.2.2.le⟩⟩

theorem shown_mk (cells : Int → Int → Cell) (hdst : OnScreen t row col) :
    Shown t ⟨row, col⟩ ⟨cells, some ⟨row, col⟩, wholeScreen t⟩ :=
  shown_at (s := ⟨cells, none, wholeScreen t⟩) rfl hdst

theorem moveCursor_draws (hd : Drivable t) (hshown : Shown t cur s) (hdrawn : Drawn t canvas s)
    (hdst : OnScreen t row col) :
    ∃ out s', moveCursor t row col cur = some (⟨row, col⟩, out) ∧ exec t s out = some s' ∧
      Shown t ⟨row, col⟩ s' ∧ Drawn t canvas s' := by
  obtain ⟨out, hmove, hexec⟩ := moveCursor_spec hd.addressable hshown hdst
  exact ⟨out, _, hmove, hexec, shown_at hshown.region hdst, hdrawn.cursor⟩

/-- The canvas with characters on it -/
def written (gs : List Glyph) (p : Place) (canvas : Int → Int → Cell) : Int → Int → Cell :=
  overwritten canvas p.y p.x (spread gs)

theorem written_nil (p : Place) : written [] p canvas = canvas := overwritten_nil canvas p.y p.x

theorem shows_draws (hd : Drivable t) (hshown : Shown t cur s) (hdrawn : Drawn t canvas s)
    (hcur : OnScreen t cur.y cur.x) (hunder : Underlines t cur.x string)
    (hroom : string ≠ [] → (total (string.map (glyph t)) : Int) ≤ room t cur) :
    Draws t s (written (string.map (glyph t)) cur canvas)
      (cmplus t (total (string.map (glyph t))) cur, string.flatMap (sends t)) := by
  obtain ⟨hrow, hrow', hcol, hcol'⟩ := onScreen_iff.mp hcur
  have hdrawn' : Drawn t (written (string.map (glyph t)) cur canvas)
      { s with cells := overwritten s.cells cur.y cur.x (spread (string.map (glyph t))) } := by
    intro r c hr hr' hc hc'
    simp only [written, overwritten, hdrawn r c hr hr' hc hc']
  rcases eq_or_ne string [] with rfl | hne
  · have hplus : cmplus t (total (List.map (glyph t) [])) cur = cur := by
      unfold cmplus
      dsimp only
      rw [show (total (List.map (glyph t) []) : Int) = 0 from rfl, Int.add_zero, if_neg (by omega)]
    rw [hplus, List.map_nil, written_nil]
    exact draws_nil hshown hdrawn
  · obtain ⟨hcursor, hy, -⟩ := hshown.cursor ⟨hrow, hcol⟩
    have hle := hroom hne
    have hfits : cur.x + total (string.map (glyph t)) ≤ t.neColumns := by
      unfold room at hle
      split at hle <;> omega
    obtain ⟨q, hq, hplus⟩ := afterPut_cmplus hd.columns hfits hle hy
    refine ⟨_, exec_shows hd.widths hne hshown.region hcol hcursor hunder hfits hq,
      ⟨hshown.region, fun hknown => ?_⟩, hdrawn'⟩
    obtain ⟨rfl, hy', hx'⟩ := hplus hknown
    exact ⟨rfl, hy', hx'⟩

theorem sends_eq : (if ¬ t.transparentUnderline ∧ ¬ t.tildeGlitch then
      string.map fun c : Nat => Command.put (TerminalScreen.out t c)
    else string.flatMap fun c =>
      (if c = 95 ∧ t.transparentUnderline then [.put ⟨32, 1⟩, .motion .left] else []) ++
        [.put (TerminalScreen.out t (if t.tildeGlitch ∧ c = 126 then 96 else c))]) =
    string.flatMap (sends t) := by
  split
  · rename_i hplain
    rw [← List.flatMap_pure_eq_map]
    congr 1
    funext c
    rw [sends, if_neg fun h => hplain.1 h.2, glyph, if_neg fun h => hplain.2 h.1]
    rfl
  · rfl

theorem outputChars_draws (hd : Drivable t) (hshown : Shown t cur s) (hdrawn : Drawn t canvas s)
    (hcur : OnScreen t cur.y cur.x) (hlegible : Legible t utf8 string)
    (hunder : Underlines t cur.x string) :
    Draws t s (written ((fitting t utf8 cur string).map (glyph t)) cur canvas)
      (outputChars t utf8 string cur) := by
  have hcount := fun c hc => outputWidth_counted (c := c) hd.widths hlegible hc
  obtain ⟨hstart, hsum, -⟩ := stringOutputWidth_spec (room t cur) 0 hcount
  rw [Int.zero_add] at hsum
  have hshows := shows_draws hd hshown hdrawn hcur (hunder.initial hstart)
    fun h => fitting_total hcount h
  unfold outputChars
  split
  · rename_i hnil
    subst hnil
    rw [show fitting t utf8 cur [] = [] from rfl, List.map_nil, written_nil]
    exact draws_nil hshown hdrawn
  · dsimp only
    rw [sends_eq]
    rw [← hsum] at hshows
    exact hshows

/-- The canvas with a part of a row cleared -/
def clearedRow (row col : Int) (canvas : Int → Int → Cell) : Int → Int → Cell :=
  fun r c => if r = row ∧ col ≤ c then blank else canvas r c

/-- The canvas with the rows from one on cleared -/
def clearedRows (row : Int) (canvas : Int → Int → Cell) : Int → Int → Cell :=
  fun r c => if row ≤ r then blank else canvas r c

theorem spread_spaces (n : Nat) : spread (List.replicate n ⟨32, 1⟩) = List.replicate n blank := by
  induction n with
  | zero => rfl
  | succ n ih => rw [List.replicate_succ, spread_cons, ih, List.replicate_succ]; rfl

theorem total_spaces (n : Nat) : total (List.replicate n ⟨32, 1⟩) = n := by
  induction n with
  | zero => rfl
  | succ n ih => rw [List.replicate_succ, total_cons, ih, Nat.add_comm]

theorem glyph_space (hw : Widths t) : glyph t 32 = ⟨32, 1⟩ := by
  have hspace := hw.ascii 32 (by decide) (by decide)
  have hprintable : printable t (32 : Nat) = 32 := by
    unfold printable
    simp [hspace]
  rw [glyph, if_neg fun h => absurd h.2 (by decide), TerminalScreen.out]
  simp only [hprintable, hspace]
  split <;> rfl

theorem spaces_draws (hd : Drivable t) (hshown : Shown t cur s) (hdrawn : Drawn t canvas s)
    (hcur : OnScreen t cur.y cur.x) (n : Nat) (hroom : n ≠ 0 → (n : Int) ≤ room t cur) :
    Draws t s (written (List.replicate n ⟨32, 1⟩) cur canvas)
      (cmplus t n cur, List.replicate n (.put ⟨32, 1⟩)) := by
  have hglyphs : (List.replicate n 32).map (glyph t) = List.replicate n ⟨32, 1⟩ := by
    rw [List.map_replicate, glyph_space hd.widths]
  have hsent : (List.replicate n 32).flatMap (sends t) = List.replicate n (.put ⟨32, 1⟩) := by
    rw [List.flatMap_replicate, sends, glyph_space hd.widths]
    simp
  have hunder : Underlines t cur.x (List.replicate n 32) := by
    refine fun _ => ⟨fun h => absurd (List.eq_of_mem_replicate h) (by decide), fun _ _ heq => ?_⟩
    have hmem : 95 ∈ List.replicate n 32 := heq ▸ List.mem_append_right _ List.mem_cons_self
    exact absurd (List.eq_of_mem_replicate hmem) (by decide)
  have hshows := shows_draws hd hshown hdrawn hcur hunder
  rw [hglyphs, hsent, total_spaces] at hshows
  exact hshows fun hne => hroom fun hn => hne (by rw [hn]; rfl)

theorem room_nonneg (hcur : OnScreen t cur.y cur.x) : 0 ≤ room t cur := by
  obtain ⟨-, -, -, hcol'⟩ := onScreen_iff.mp hcur
  unfold room
  split <;> omega

theorem outputSpaces_draws (hd : Drivable t) (hshown : Shown t cur s) (hdrawn : Drawn t canvas s)
    (hcur : OnScreen t cur.y cur.x) (n : Nat) :
    Draws t s (written (List.replicate (min (n : Int) (room t cur)).toNat ⟨32, 1⟩) cur canvas)
      (outputSpaces t n cur) := by
  have hroom := room_nonneg hcur
  unfold outputSpaces
  split
  · rename_i hn
    rw [hn, Nat.cast_zero, min_eq_left hroom, Int.toNat_zero, List.replicate_zero, written_nil]
    exact draws_nil hshown hdrawn
  · have hspaces := spaces_draws hd hshown hdrawn hcur (min (n : Int) (room t cur)).toNat
      fun _ => by omega
    rw [Int.toNat_of_nonneg (le_min (Int.natCast_nonneg n) hroom)] at hspaces
    exact hspaces

/-- `clear_end_of_line` clears the rest of the line, when only columns before `first` are in use. -/
theorem clearEndOfLine_draws (hd : Drivable t) (hshown : Shown t cur s) (hdrawn : Drawn t canvas s)
    (hcur : OnScreen t cur.y cur.x) (hfirst : first ≤ t.neColumns)
    (hclear : ∀ c, first ≤ c → c < t.neColumns → canvas cur.y c = blank) :
    Draws t s (clearedRow cur.y cur.x canvas) (clearEndOfLine t first cur) := by
  obtain ⟨hrow, hrow', hcol, hcol'⟩ := onScreen_iff.mp hcur
  unfold clearEndOfLine
  split
  · refine draws_nil hshown (hdrawn.congr fun r c _ _ _ hc' => ?_)
    rw [clearedRow]
    split
    · rename_i hbehind
      rw [hbehind.1, hclear c (by omega) hc']
    · rfl
  split
  · obtain ⟨hcursor, hy, hx⟩ := hshown.cursor ⟨hrow, hcol⟩
    refine ⟨{ s with cells := clearedRow cur.y cur.x s.cells }, ?_, ⟨hshown.region, fun _ =>
      ⟨hcursor, hy, hx⟩⟩, fun r c hr hr' hc hc' => ?_⟩
    · rw [exec_singleton, apply, hcursor, Option.bind_eq_bind, Option.bind_some,
        if_neg (show ¬ cur.x ≥ t.neColumns from not_le.mpr hcol')]
      rfl
    · simp only [clearedRow, hdrawn r c hr hr' hc hc']
  · rename_i hlt heol
    have hspaces := spaces_draws hd hshown hdrawn hcur (first - cur.x).toNat fun _ => by
      rw [room, if_neg]
      · omega
      · rintro ⟨hauto, hmagic, -⟩
        rcases hd.clears with h | h | h
        · exact heol h
        · exact hmagic h
        · exact h hauto
    rw [Int.toNat_of_nonneg (by omega)] at hspaces
    refine hspaces.congr fun r c _ _ _ hc' => ?_
    rw [written, overwritten, clearedRow, spread_spaces]
    split
    · rename_i hbehind
      rcases lt_or_ge c first with hused | hfree
      · rw [List.getD_eq_getElem _ _ (by rw [List.length_replicate]; omega),
          List.getElem_replicate]
      · rw [List.getD_eq_default _ _ (by rw [List.length_replicate]; omega), hbehind.1,
          hclear c hfree hc']
    · rfl

theorem clearToEol_draws (hd : Drivable t) (hshown : Shown t cur s) (hdrawn : Drawn t canvas s)
    (hcur : OnScreen t cur.y cur.x) :
    Draws t s (clearedRow cur.y cur.x canvas) (clearToEol t cur) :=
  clearEndOfLine_draws hd hshown hdrawn hcur (le_refl t.neColumns)
    fun _ hc hc' => absurd hc' (not_lt.mpr hc)

theorem clearLines_draws (hd : Drivable t) {turns : Nat} {i : Int} (hi : 0 ≤ i)
    (hturns : i + turns = t.neLines) (hshown : Shown t cur s) (hdrawn : Drawn t canvas s) :
    ∃ res, clearLines t turns i cur = some res ∧ Draws t s (clearedRows i canvas) res := by
  induction turns generalizing i cur s canvas with
  | zero =>
      refine ⟨_, rfl, draws_nil hshown (hdrawn.congr fun r c _ hr' _ _ => ?_)⟩
      rw [clearedRows, if_neg (by omega)]
  | succ turns ih =>
      have hdst : OnScreen t i 0 := onScreen_iff.mpr ⟨hi, by omega, le_rfl, hd.columns⟩
      obtain ⟨moves, s₁, hmoves, hexec₁, hshown₁, hdrawn₁⟩ :=
        moveCursor_draws hd hshown hdrawn hdst
      obtain ⟨s₂, hexec₂, hshown₂, hdrawn₂⟩ := clearToEol_draws hd hshown₁ hdrawn₁ hdst
      obtain ⟨res, hres, hdraws⟩ := ih (i := i + 1) (by omega) (by omega) hshown₂ hdrawn₂
      refine ⟨(res.1, moves ++ (clearToEol t ⟨i, 0⟩).2 ++ res.2), ?_, ?_⟩
      · rw [clearLines, hmoves]
        simp only [Option.bind_eq_bind, Option.bind_some]
        rw [hres]
        rfl
      · refine (hdraws.after (exec_trans hexec₁ hexec₂)).congr fun r c _ _ hc _ => ?_
        simp only [clearedRows, clearedRow]
        split_ifs <;> first | rfl | omega

theorem clearToEnd_draws (hd : Drivable t) (hshown : Shown t cur s) (hdrawn : Drawn t canvas s)
    (hcur : OnScreen t cur.y cur.x) (hstart : cur.x = 0) :
    ∃ res, clearToEnd t cur = some res ∧ Draws t s (clearedRows cur.y canvas) res := by
  obtain ⟨hrow, hrow', hcol, hcol'⟩ := onScreen_iff.mp hcur
  unfold clearToEnd
  split
  · obtain ⟨hcursor, hy, hx⟩ := hshown.cursor ⟨hrow, hcol⟩
    refine ⟨_, rfl, { s with cells := fun r c =>
        if r > cur.y ∨ r = cur.y ∧ cur.x ≤ c then blank else s.cells r c },
      ?_, ⟨hshown.region, fun _ => ⟨hcursor, hy, hx⟩⟩, fun r c hr hr' hc hc' => ?_⟩
    · rw [exec_singleton, apply, hcursor, Option.bind_eq_bind, Option.bind_some,
        if_neg (show ¬ cur.x ≥ t.neColumns from not_le.mpr hcol')]
    · simp only [clearedRows, hdrawn r c hr hr' hc hc']
      split_ifs <;> first | rfl | omega
  · exact clearLines_draws hd hrow (by omega) hshown hdrawn

theorem clearEntireScreen_draws (hd : Drivable t) (hshown : Shown t cur s)
    (hdrawn : Drawn t canvas s) :
    ∃ res, clearEntireScreen t cur = some res ∧ Draws t s (fun _ _ => blank) res := by
  have hlines : (0 : Int) < t.neLines := lt_trans hd.window.1 hd.window.2
  unfold clearEntireScreen
  split
  · exact ⟨_, rfl, _, exec_singleton _, ⟨hshown.region, fun _ => ⟨rfl, hlines, hd.columns.le⟩⟩,
      fun _ _ _ _ _ _ => rfl⟩
  · have hdst : OnScreen t 0 0 := ⟨le_rfl, hlines, le_rfl, hd.columns⟩
    obtain ⟨moves, s₁, hmoves, hexec₁, hshown₁, hdrawn₁⟩ :=
      moveCursor_draws hd hshown hdrawn hdst
    obtain ⟨res, hres, hdraws⟩ := clearToEnd_draws hd hshown₁ hdrawn₁ hdst rfl
    refine ⟨(res.1, moves ++ res.2), ?_, (hdraws.after hexec₁).congr fun r c hr _ _ _ => ?_⟩
    · rw [hmoves]
      simp only [Option.bind_eq_bind, Option.bind_some]
      rw [hres]
      rfl
    · exact if_pos hr

end Clears

end NiceEditor.DrawnScreens
