import Mathlib.Data.List.GetD
import NiceEditor.TerminalScreen

namespace NiceEditor.ScreenRuns

open NiceEditor.PathCosts
open NiceEditor.CursorMotion
open NiceEditor.TerminalScreen

/-- The scroll region is the whole screen, and the cursor is where it is believed to be. -/
structure Shown (t : Capabilities) (cur : Place) (s : Screen) : Prop where
  region : s.region = wholeScreen t
  cursor : 0 ≤ cur.y ∧ 0 ≤ cur.x →
    s.cursor = some cur ∧ cur.y < t.neLines ∧ cur.x ≤ t.neColumns

/-- The place is on the screen. -/
def OnScreen (t : Capabilities) (row col : Int) : Prop := t.cm.Shows row col

theorem onScreen_iff {t : Capabilities} {row col : Int} :
    OnScreen t row col ↔ 0 ≤ row ∧ row < t.neLines ∧ 0 ≤ col ∧ col < t.neColumns := Iff.rfl

variable {t : Capabilities} {s s' : Screen} {cur : Place} {row col x y : Int} {n : Nat}
variable {out out' : List Command} {gs : List Glyph}

theorem not_losecursor : ¬ (0 ≤ losecursor.y ∧ 0 ≤ losecursor.x) := by decide

theorem shown_losecursor (h : s.region = wholeScreen t) : Shown t losecursor s :=
  ⟨h, fun hknown => absurd hknown not_losecursor⟩

section Exec

@[simp] theorem exec_nil : exec t s [] = some s := rfl

theorem exec_cons (command : Command) :
    exec t s (command :: out) = (apply t s command).bind fun s => exec t s out := rfl

theorem exec_append : exec t s (out ++ out') = (exec t s out).bind fun s => exec t s out' :=
  List.foldlM_append ..

theorem exec_trans {middle last : Screen} (h : exec t s out = some middle)
    (h' : exec t middle out' = some last) : exec t s (out ++ out') = some last := by
  rw [exec_append, h]
  exact h'

theorem exec_singleton (command : Command) : exec t s [command] = apply t s command := by
  rw [exec_cons]
  cases apply t s command <;> rfl

theorem moved_eq {m : Motion} {p : Place} (hregion : s.region = wholeScreen t)
    (hcursor : s.cursor = some p) : moved t s m = perform t.cm m p := by
  cases m with
  | abs row col => rfl
  | _ => rw [moved, hcursor, Option.bind_eq_bind, Option.bind_some, if_pos hregion]; exact nofun

theorem apply_motion {m : Motion} {p q : Place} (hregion : s.region = wholeScreen t)
    (hcursor : s.cursor = some p) (h : perform t.cm m p = some q) :
    apply t s (.motion m) = some { s with cursor := q } := by
  rw [apply, moved_eq hregion hcursor, h]
  rfl

theorem exec_motions {ms : List Motion} {p q : Place} (hregion : s.region = wholeScreen t)
    (hcursor : s.cursor = some p) (h : run (perform t.cm) ms p = some q) :
    exec t s (ms.map .motion) = some { s with cursor := q } := by
  induction ms generalizing s p with
  | nil =>
      cases h
      rw [← hcursor]
      rfl
  | cons m ms ih =>
      rw [run_cons] at h
      obtain ⟨next, hperform, hrun⟩ := Option.bind_eq_some_iff.mp h
      rw [List.map_cons, exec_cons, apply_motion hregion hcursor hperform, Option.bind_some]
      exact ih hregion rfl hrun

theorem cmgoto_lost {w : Cm} (ha : Addressable w) (hdst : w.Shows row col)
    (hlost : ¬ (w.curY ≥ 0 ∧ w.curX ≥ 0)) :
    cmgoto w row col = some ({ w with curY := row, curX := col }, [.abs row col]) := by
  obtain ⟨f, hf, habs⟩ := ha.abs
  have hshort := habs row col hdst
  have hsize : w.size (.abs row col) = some (f row col) := by rw [Cm.size, hf, Option.map_some]
  obtain ⟨hrow, -, hcol, -⟩ := hdst
  rw [cmgoto, if_neg (fun hthere => hlost ⟨by omega, by omega⟩), if_neg hlost]
  obtain ⟨sent, hsent, hway⟩ := send_spec (100000, .rel) (0, .abs row col) hsize
  rw [hsent]
  rcases hway with ⟨rfl, -⟩ | ⟨-, hless⟩
  · rfl
  · rw [big] at hshort
    dsimp only at hless
    omega

end Exec

section Steps

theorem apply_abs (ha : Addressable t.cm) :
    apply t s (.motion (.abs row col)) = some { s with cursor := some ⟨row, col⟩ } := by
  obtain ⟨f, hf, -⟩ := ha.abs
  have hperform : perform t.cm (.abs row col) ⟨0, 0⟩ = some ⟨row, col⟩ :=
    perform_of_size (n := f row col) (by rw [Cm.size, hf, Option.map_some])
  rw [apply, moved, hperform]
  rfl

theorem addressable_at (ha : Addressable t.cm) (p : Place) :
    Addressable { t.cm with curY := p.y, curX := p.x } :=
  ⟨ha.abs, ha.habs, ha.vabs, ha.tabWidth⟩

theorem moveCursor_lost (ha : Addressable t.cm) (hdst : OnScreen t row col)
    (hlost : ¬ (0 ≤ cur.y ∧ 0 ≤ cur.x)) :
    moveCursor t row col cur = some (⟨row, col⟩, [.motion (.abs row col)]) := by
  obtain ⟨hrow, -, hcol, -⟩ := id hdst
  rw [moveCursor, if_neg fun h => hlost ⟨by omega, by omega⟩,
    cmgoto_lost (addressable_at ha cur) hdst hlost]
  rfl

theorem moveCursor_spec (ha : Addressable t.cm) (hshown : Shown t cur s)
    (hdst : OnScreen t row col) :
    ∃ out, moveCursor t row col cur = some (⟨row, col⟩, out) ∧
      exec t s out = some { s with cursor := some ⟨row, col⟩ } := by
  obtain ⟨hrow, -, hcol, -⟩ := id hdst
  rcases Classical.em (0 ≤ cur.y ∧ 0 ≤ cur.x) with hknown | hlost
  · obtain ⟨hcursor, hy, hx⟩ := hshown.cursor hknown
    unfold moveCursor
    split
    · rename_i hthere
      obtain ⟨rfl, rfl⟩ := hthere
      refine ⟨[], rfl, ?_⟩
      rw [← hcursor]
      rfl
    · obtain ⟨sent, hsent, hrun⟩ := cmgoto_reaches (p := cur)
        (addressable_at ha cur) (fun _ => ⟨rfl, hy, hx⟩) hdst
      rw [hsent]
      exact ⟨_, rfl, exec_motions hshown.region hcursor hrun⟩
  · rw [moveCursor_lost ha hdst hlost]
    exact ⟨_, rfl, (exec_singleton _).trans (apply_abs ha)⟩

/-- The cells of a row of characters -/
def spread (gs : List Glyph) : List Cell :=
  gs.flatMap fun g => (List.range g.width).map fun i : Nat => ⟨g.code, i⟩

/-- Cells written over those of a screen -/
def overwritten (cells : Int → Int → Cell) (y x : Int) (row : List Cell) : Int → Int → Cell :=
  fun r c => if r = y ∧ x ≤ c then row.getD (c - x).toNat (cells r c) else cells r c

/-- The columns of a row of characters -/
def total (gs : List Glyph) : Nat := (gs.map Glyph.width).sum

theorem total_cons (g : Glyph) : total (g :: gs) = g.width + total gs := rfl

theorem spread_cons (g : Glyph) :
    spread (g :: gs) =
      (List.range g.width).map (fun i : Nat => (⟨g.code, i⟩ : Cell)) ++ spread gs := by
  rw [spread, List.flatMap_cons, spread]

theorem spread_length (gs : List Glyph) : (spread gs).length = total gs := by
  induction gs with
  | nil => rfl
  | cons g gs ih => rw [spread_cons, List.length_append, List.length_map, List.length_range, ih,
      total_cons]

theorem overwritten_nil (cells : Int → Int → Cell) (y x : Int) :
    overwritten cells y x [] = cells := by
  funext r c
  rw [overwritten]
  split <;> rfl

theorem overwritten_cons (cells : Int → Int → Cell) (y x : Int) (g : Glyph) (gs : List Glyph) :
    overwritten (overwrite cells y x g) y (x + g.width) (spread gs) =
      overwritten cells y x (spread (g :: gs)) := by
  funext r c
  unfold overwritten
  rcases Classical.em (r = y ∧ x ≤ c) with ⟨rfl, hle⟩ | hout
  · rw [if_pos (show r = r ∧ x ≤ c from ⟨rfl, hle⟩), spread_cons]
    rcases lt_or_ge c (x + g.width) with hlt | hge
    · rw [if_neg (by omega), overwrite, if_pos ⟨rfl, hle, hlt⟩,
        List.getD_append _ _ _ _ (by simp; omega), List.getD_eq_getElem _ _ (by simp; omega)]
      simp
      omega
    · rw [if_pos ⟨rfl, hge⟩, List.getD_append_right _ _ _ _ (by simp; omega), overwrite,
        if_neg (by omega)]
      congr 1
      simp
      omega
  · rw [if_neg hout, if_neg (by omega), overwrite, if_neg (by omega)]

/-- What the C library says about the widths of characters -/
structure Widths (t : Capabilities) : Prop where
  ascii : ∀ c, 32 ≤ c → c < 127 → t.wcwidth c = 1
  control : ∀ c, c < 32 ∨ 127 ≤ c ∧ c < 160 → t.wcwidth c ≤ 0
  latin : ∀ c, 160 ≤ c → c < 256 → t.wcwidth c ≤ 1

/-- What `output_chars` makes appear for a character: a grave accent for a missing tilde, and what
`out` sends for the others -/
def glyph (t : Capabilities) (c : Nat) : Glyph :=
  TerminalScreen.out t (if t.tildeGlitch ∧ c = 126 then 96 else c)

/-- What `output_chars` sends for a character -/
def sends (t : Capabilities) (c : Nat) : List Command :=
  (if c = 95 ∧ t.transparentUnderline then [.put ⟨32, 1⟩, .motion .left] else []) ++
    [.put (glyph t c)]

/-- On a terminal with `ul` the cursor has to go back over the space that is sent before an
underscore, which it cannot do from behind the last column. The underscore that `out` sends for a
control character comes without that space. -/
def Underlines (t : Capabilities) (x : Int) (string : List Nat) : Prop :=
  t.transparentUnderline → 31 ∉ string ∧ ∀ before after, string = before ++ 95 :: after →
    t.cm.left.isSome ∧ x + total (before.map (glyph t)) + 1 ≠ t.neColumns

/-- The characters are counted with the columns that they take: without UTF-8 that is one each. -/
def Legible (t : Capabilities) (utf8 : Bool) (string : List Nat) : Prop :=
  (∀ c ∈ string, utf8 ∨ c < 256) ∧
    (t.ioUtf8 ∨ ∀ c ∈ string, outputWidth t (counted utf8 c) = 1)

variable {utf8 : Bool} {string string' : List Nat} {c : Nat}

theorem printable_spec (hw : Widths t) (c : Nat) :
    32 ≤ printable t c ∧ ¬ (127 ≤ printable t c ∧ printable t c < 160) ∧
      (printable t c = 126 → c = 126) ∧ (printable t c = 95 → c = 95 ∨ c = 31) ∧
      (t.ioUtf8 → 0 < t.wcwidth (printable t c)) := by
  have hmark := hw.ascii 63 (by decide) (by decide)
  unfold printable
  dsimp only
  split_ifs <;> grind

theorem glyph_width (hw : Widths t) (c : Nat) : 0 < (glyph t c).width := by
  unfold glyph TerminalScreen.out
  dsimp only
  split
  · rename_i hutf8
    split
    · have := (printable_spec hw 96).2.2.2.2 hutf8
      exact Int.pos_iff_toNat_pos.mp this
    · exact Int.pos_iff_toNat_pos.mp ((printable_spec hw c).2.2.2.2 hutf8)
  · exact Nat.one_pos

theorem outputWidth_counted (hw : Widths t) (hlegible : Legible t utf8 string) (hc : c ∈ string) :
    outputWidth t (counted utf8 c) = (glyph t c).width := by
  obtain ⟨hbytes, hone⟩ := hlegible
  rcases Classical.em t.ioUtf8 with hutf8 | hutf8
  · have hbyte := hbytes c hc
    have hascii := hw.ascii
    have hcontrol := hw.control
    have hlatin := hw.latin
    unfold glyph TerminalScreen.out outputWidth counted printable
    simp only [hutf8, if_true, true_and, not_true, and_false, if_false]
    grind
  · rw [(hone.resolve_left hutf8) c hc, glyph, TerminalScreen.out]
    exact (if_neg hutf8).symm

theorem Underlines.initial (h : Underlines t x string) (hstart : string' <+: string) :
    Underlines t x string' := by
  intro hul
  obtain ⟨hcontrol, hplace⟩ := h hul
  refine ⟨fun hmem => hcontrol (hstart.mem hmem), fun before after heq => ?_⟩
  obtain ⟨rest, rfl⟩ := hstart
  exact hplace before (after ++ rest) (by rw [heq, List.append_assoc, List.cons_append])

theorem Underlines.tail (h : Underlines t x (c :: string)) :
    Underlines t (x + (glyph t c).width) string := by
  intro hul
  obtain ⟨hcontrol, hplace⟩ := h hul
  refine ⟨fun hmem => hcontrol (List.mem_cons_of_mem _ hmem), fun before after heq => ?_⟩
  obtain ⟨hleft, hcol⟩ := hplace (c :: before) after (by rw [heq, List.cons_append])
  rw [List.map_cons, total_cons, Nat.cast_add, ← Int.add_assoc] at hcol
  exact ⟨hleft, hcol⟩

theorem apply_put {g : Glyph} {p : Place} (hprints : Prints t s ⟨y, x⟩ g)
    (hcursor : s.cursor = some ⟨y, x⟩) (hfits : x + g.width ≤ t.neColumns)
    (hp : afterPut t y (x + g.width) = some p) :
    apply t s (.put g) =
      some { s with cells := overwrite s.cells y x g, cursor := some p } := by
  rw [apply, hcursor, Option.bind_eq_bind, Option.bind_some,
    if_neg (not_or.mpr ⟨not_lt.mpr hfits, not_not.mpr hprints⟩)]
  dsimp only
  rw [hp]
  rfl

theorem overwrite_overwrite (cells : Int → Int → Cell) (y x : Int) {g g' : Glyph}
    (h : g.width = g'.width) :
    overwrite (overwrite cells y x g) y x g' = overwrite cells y x g' := by
  funext r c
  unfold overwrite
  rw [h]
  split_ifs <;> rfl

/-- A character ends where its glyph does, also an underscore under which a space is put first. -/
theorem exec_sends (hw : Widths t) {p : Place} (hregion : s.region = wholeScreen t)
    (hx : 0 ≤ x) (hcursor : s.cursor = some ⟨y, x⟩) (hunder : Underlines t x (c :: string))
    (hfits : x + (glyph t c).width ≤ t.neColumns)
    (hp : afterPut t y (x + (glyph t c).width) = some p) :
    exec t s (sends t c) =
      some { s with cells := overwrite s.cells y x (glyph t c), cursor := some p } := by
  have hcode : 32 ≤ (glyph t c).code ∧ ¬ (127 ≤ (glyph t c).code ∧ (glyph t c).code < 160) ∧
      ¬ (t.tildeGlitch ∧ (glyph t c).code = 126) ∧
      (t.transparentUnderline ∧ (glyph t c).code = 95 → c = 95 ∨ c = 31) := by
    have hcode := printable_spec hw c
    have haccent := printable_spec hw 96
    unfold glyph TerminalScreen.out
    grind
  obtain ⟨hspace, hcontrol, htilde, hscore⟩ := hcode
  unfold sends
  split
  · rename_i hc
    obtain ⟨rfl, hul⟩ := hc
    obtain ⟨hleft, hcol⟩ := (hunder hul).2 [] string rfl
    have hone : (glyph t 95).width = 1 := by
      have hprintable : printable t (95 : Nat) = 95 := by
        unfold printable
        simp [hw.ascii 95 (by decide) (by decide)]
      unfold glyph TerminalScreen.out
      simp only [Nat.reduceEqDiff, and_false, if_false, hprintable,
        hw.ascii 95 (by decide) (by decide)]
      split <;> rfl
    rw [hone] at hfits
    have hinside : x + 1 < t.neColumns := by
      rw [List.map_nil, show total [] = 0 from rfl] at hcol
      push_cast at hfits hcol
      omega
    obtain ⟨n, hn⟩ := Option.isSome_iff_exists.mp hleft
    have hput : apply t s (.put ⟨32, 1⟩) =
        some { s with cells := overwrite s.cells y x ⟨32, 1⟩, cursor := some ⟨y, x + 1⟩ } :=
      apply_put ⟨by decide, by decide, by simp, by simp⟩ hcursor
        hfits (if_pos hinside)
    have hmove : apply t
        { s with cells := overwrite s.cells y x ⟨32, 1⟩, cursor := some ⟨y, x + 1⟩ }
        (.motion .left) =
        some { s with cells := overwrite s.cells y x ⟨32, 1⟩, cursor := some ⟨y, x⟩ } := by
      refine apply_motion (p := ⟨y, x + 1⟩) hregion rfl ?_
      rw [perform_of_size (w := t.cm) (m := .left) hn, move, if_pos ⟨by dsimp only; omega, hinside⟩,
        Int.add_sub_cancel]
    rw [List.cons_append, List.cons_append, List.nil_append, exec_cons, hput, Option.bind_some,
      exec_cons, hmove, Option.bind_some, exec_singleton,
      apply_put (p := p) ⟨hspace, hcontrol, htilde, fun _ => ?_⟩ rfl (by rw [hone]; exact hfits) hp]
    · dsimp only
      rw [overwrite_overwrite s.cells y x hone.symm]
    · dsimp only
      rw [overwrite, if_pos ⟨rfl, le_rfl, by dsimp only; omega⟩, Int.sub_self]
      rfl
  · rename_i hc
    rw [List.nil_append, exec_singleton]
    refine apply_put ⟨hspace, hcontrol, htilde, fun hul => ?_⟩ hcursor hfits hp
    rcases hscore hul with h95 | h31
    · exact absurd ⟨h95, hul.1⟩ hc
    · exact absurd (h31 ▸ List.mem_cons_self) (hunder hul.1).1

theorem exec_shows (hw : Widths t) {q : Place} (hne : string ≠ [])
    (hregion : s.region = wholeScreen t) (hx : 0 ≤ x) (hcursor : s.cursor = some ⟨y, x⟩)
    (hunder : Underlines t x string) (hfits : x + total (string.map (glyph t)) ≤ t.neColumns)
    (hq : afterPut t y (x + total (string.map (glyph t))) = some q) :
    exec t s (string.flatMap (sends t)) =
      some { s with
        cells := overwritten s.cells y x (spread (string.map (glyph t))), cursor := some q } := by
  induction string generalizing s x with
  | nil => exact absurd rfl hne
  | cons c string ih =>
      rw [List.map_cons, total_cons, Nat.cast_add, ← Int.add_assoc] at hq hfits
      rw [List.flatMap_cons, exec_append]
      rcases string with _ | ⟨c', string⟩
      · rw [List.map_nil, show total [] = 0 from rfl, Nat.cast_zero, Int.add_zero] at hq hfits
        rw [exec_sends hw hregion hx hcursor hunder hfits hq, List.map_cons, ← overwritten_cons]
        simp only [Option.bind_some, List.flatMap_nil, List.map_nil, exec_nil]
        rw [show spread [] = [] from rfl, overwritten_nil]
      · have hpos := glyph_width hw c'
        have hinside : x + (glyph t c).width < t.neColumns := by
          rw [List.map_cons, total_cons] at hfits
          omega
        rw [exec_sends hw hregion hx hcursor hunder hinside.le (if_pos hinside), Option.bind_some]
        rw [ih (s := { s with
              cells := overwrite s.cells y x (glyph t c)
              cursor := some ⟨y, x + (glyph t c).width⟩ })
            (by simp) hregion (by omega) rfl hunder.tail hfits hq,
          List.map_cons (a := c), overwritten_cons]

theorem stringOutputWidth_spec (maxWidth width : Int)
    (hcount : ∀ c ∈ string, outputWidth t (counted utf8 c) = (glyph t c).width) :
    (stringOutputWidth t utf8 maxWidth width string).1 <+: string ∧
      (stringOutputWidth t utf8 maxWidth width string).2 =
        width + total ((stringOutputWidth t utf8 maxWidth width string).1.map (glyph t)) ∧
      ((stringOutputWidth t utf8 maxWidth width string).1 ≠ [] →
        (stringOutputWidth t utf8 maxWidth width string).2 ≤ maxWidth) := by
  induction string generalizing width with
  | nil => exact ⟨List.prefix_rfl, (Int.add_zero _).symm, fun h => absurd rfl h⟩
  | cons c string ih =>
      rw [stringOutputWidth, hcount c List.mem_cons_self]
      dsimp only
      split
      · exact ⟨List.nil_prefix, (Int.add_zero _).symm, fun h => absurd rfl h⟩
      · rename_i hfits
        obtain ⟨hstart, hsum, hle⟩ := ih (width + (glyph t c).width)
          fun c hc => hcount c (List.mem_cons_of_mem _ hc)
        refine ⟨List.cons_prefix_cons.mpr ⟨rfl, hstart⟩, ?_, fun _ => ?_⟩
        · rw [hsum, List.map_cons, total_cons, Nat.cast_add, Int.add_assoc]
        · rcases eq_or_ne (stringOutputWidth t utf8 maxWidth (width + (glyph t c).width)
            string).1 [] with hnil | hne
          · rw [hsum, hnil]
            simpa [total] using hfits
          · exact hle hne

/-- The columns that `output_chars` uses from a place on: it does not dare to write in the last
column of the bottom line, where the screen could scroll. -/
def room (t : Capabilities) (p : Place) : Int :=
  t.neColumns - p.x - if t.autoWrap ∧ ¬ t.magicWrap ∧ p.y = t.neLines - 1 then 1 else 0

/-- The characters that are shown -/
def fitting (t : Capabilities) (utf8 : Bool) (p : Place) (string : List Nat) : List Nat :=
  (stringOutputWidth t utf8 (room t p) 0 string).1

theorem fitting_total
    (hcount : ∀ c ∈ string, outputWidth t (counted utf8 c) = (glyph t c).width)
    (h : fitting t utf8 cur string ≠ []) :
    (total ((fitting t utf8 cur string).map (glyph t)) : Int) ≤ room t cur := by
  obtain ⟨-, hsum, hle⟩ := stringOutputWidth_spec (room t cur) 0 hcount
  have := hle h
  rw [hsum] at this
  rwa [Int.zero_add] at this

/-- Behind characters that do not make the screen scroll, the cursor is where `cmplus` puts it. -/
theorem afterPut_cmplus {width : Int} (hcols : 0 < t.neColumns)
    (hx : cur.x + width ≤ t.neColumns)
    (hroom : width ≤ room t cur) (hy : cur.y < t.neLines) :
    ∃ q, afterPut t cur.y (cur.x + width) = some q ∧
      (0 ≤ (cmplus t width cur).y ∧ 0 ≤ (cmplus t width cur).x →
        q = cmplus t width cur ∧ q.y < t.neLines ∧ q.x ≤ t.neColumns) := by
  unfold afterPut cmplus
  unfold room at hroom
  dsimp only
  rcases lt_or_ge (cur.x + width) t.neColumns with hlt | hge
  · rw [if_pos hlt, if_neg (by omega)]
    exact ⟨_, rfl, fun _ => ⟨rfl, hy, by dsimp only; omega⟩⟩
  have heq : cur.x + width = t.neColumns := by omega
  rw [if_neg (by omega)]
  have hnot : ¬ (false = true) := Bool.false_ne_true
  cases hmagic : t.magicWrap with
  | true =>
      rw [if_pos rfl, heq]
      refine ⟨_, rfl, fun _ => ?_⟩
      rw [if_neg fun h => h.2 rfl]
      exact ⟨rfl, hy, le_rfl⟩
  | false =>
      rw [if_neg hnot, if_pos (show cur.x + width ≥ t.neColumns ∧ ¬ false = true from ⟨hge, hnot⟩)]
      cases hauto : t.autoWrap with
      | true =>
          have hbottom : cur.y + 1 < t.neLines := by
            by_contra hbottom
            rw [if_pos ⟨hauto, hmagic ▸ hnot, by omega⟩] at hroom
            omega
          rw [if_pos rfl, if_pos hbottom, if_pos rfl]
          refine ⟨_, rfl, fun hknown => ?_⟩
          cases hlose : t.loseWrap with
          | true =>
              rw [hlose, if_pos rfl] at hknown
              exact absurd hknown not_losecursor
          | false => exact ⟨rfl, hbottom, by dsimp only; omega⟩
      | false =>
          rw [if_neg hnot, if_neg hnot]
          refine ⟨_, rfl, fun hknown => ?_⟩
          cases hlose : t.loseWrap with
          | true =>
              rw [hlose, if_pos rfl] at hknown
              exact absurd hknown not_losecursor
          | false =>
              rw [heq]
              exact ⟨rfl, hy, by dsimp only; omega⟩

end Steps

end NiceEditor.ScreenRuns
