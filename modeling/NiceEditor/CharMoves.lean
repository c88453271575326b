import NiceEditor.Columns
import NiceEditor.WordSearch

namespace NiceEditor.CharMoves

open NiceEditor.Pools
open NiceEditor.BufferData
open NiceEditor.Encoding
open NiceEditor.Navigation
open NiceEditor.Clips
open NiceEditor.Cursor
open NiceEditor.Movement
open NiceEditor.RepeatCounts
open NiceEditor.CharacterRows
open NiceEditor.InputRows
open NiceEditor.Characters
open NiceEditor.WantedColumns
open NiceEditor.Columns
open NiceEditor.WordSearch
open NiceEditor.UndoRuns (plainTerminal)

/-- The end of a line is in the window when `move_to_eol` goes there: the line is not longer than
the window, or the window is wider than a TAB. -/
def EndInReach (t : Terminal) (b : Buffer) (line : List Byte) : Prop :=
  line = [] ∨ calcWidth (display t b) line < t.neColumns ∨ b.opt.tabSize < t.neColumns

/-- The character at the cursor does not fit in the window if the cursor is in column `x` of it. -/
def Hidden (t : Terminal) (b : Buffer) (x : Int) : Prop :=
  let line := lineOf b b.curLineDesc
  t.neColumns ≤ x ∨ (b.curPos < line.length ∧
    t.neColumns < x + getCharWidth t (line.drop b.curPos.toNat) b.encoding)

instance (t : Terminal) (b : Buffer) (x : Int) : Decidable (Hidden t b x) :=
  inferInstanceAs (Decidable (_ ∨ _))

instance (t : Terminal) (b : Buffer) (line : List Byte) : Decidable (EndInReach t b line) :=
  inferInstanceAs (Decidable (_ ∨ _))

/-- The window is wide enough to move by a character and back. -/
structure Roomy (t : Terminal) (b : Buffer) : Prop where
  lineEnd : b.curPos = (lineOf b b.curLineDesc).length → b.curLine + 1 < b.numLines →
    EndInReach t b (lineOf b b.curLineDesc)
  lineStart : b.curPos = 0 → 0 < b.curLine → EndInReach t b (lineAt b (b.curLine - 1))
  inside : 0 < b.curPos →
    let x := if b.curX < widthBefore t b then b.curX + min (2 * b.opt.tabSize) b.winX else b.curX
    Hidden t b x → 2 * b.opt.tabSize ≤ x

/-- The cursor is where it has been, and it is shown there. -/
structure Back (t : Terminal) (b b' : Buffer) : Prop where
  moved : Moved b b'
  curLine : b'.curLine = b.curLine
  curPos : b'.curPos = b.curPos
  curChar : b'.curChar = b.curChar
  invariant : CursorInvariant t b'
  winX_nonneg : 0 ≤ b'.winX

/-- A movement that succeeds is undone by the other one. -/
def Reverses (f g : Buffer → Status × Buffer) (t : Terminal) (b : Buffer) : Prop :=
  (f b).1 = .ok → (g (f b).2).1 = .ok ∧ Back t b (g (f b).2).2

/-- The cursor is on line `y`, behind the characters `a` and before the characters `c`. -/
structure Standing (t : Terminal) (text : List (List (List Byte))) (b : Buffer) (y : Nat)
    (a c : List (List Byte)) : Prop where
  rows : Rows b text
  row : text[y]? = some (a ++ c)
  rowed : Rowed t b
  curLine : b.curLine = y
  curPos : b.curPos = bytes a
  curChar : b.curChar = a.length
  winX_nonneg : 0 ≤ b.winX
  winX : b.opt.tabSize ∣ b.winX
  column : b.winX + b.curX = width (display t b) a
  freeForm : b.opt.freeForm = false

/-- The cursor is put behind the characters `a` of its line. -/
def placed (b : Buffer) (winX curX : Int) (a : List (List Byte)) : Buffer :=
  { b with
    xWanted := false
    yWanted := false
    winX := winX
    curX := curX
    curPos := bytes a
    curChar := a.length }

variable {t : Terminal} {text : List (List (List Byte))} {b b' : Buffer} {y : Nat} {x : Int}
variable {a a' c c' row cs : List (List Byte)} {ch : List Byte} {d : Display} {p : Nat × Nat}

theorem Standing.line_eq (h : Standing t text b y a c) :
    lineOf b b.curLineDesc = (a ++ c).flatten := by
  have hcur := h.rowed.ok.cur
  rw [h.curLine, Int.toNat_natCast] at hcur
  rw [hcur]
  exact h.rows.getD h.row

theorem Standing.chars (h : Standing t text b y a c) :
    ∀ ch ∈ a ++ c, IsCharacter b.encoding ch := h.rows.chars_row h.row

theorem Standing.widthAt_eq (h : Standing t text b y a (ch :: c)) :
    widthAt t b = charWidth (display t b) (width (display t b) a) ch := by
  have hch : IsCharacter (display t b).encoding ch := h.chars ch (by simp)
  have hpos := hch.length_pos
  have hflatten : (a ++ ch :: c).flatten = a.flatten ++ (ch ++ c.flatten) := by simp
  have hscan := @scanLine_row (display t b) a (ch :: c) h.chars
  rw [hflatten] at hscan
  rw [widthAt, h.line_eq, h.curPos, hflatten, hscan, bytes, byteAt_char hch,
    Int.toNat_natCast, List.drop_left]
  rw [if_pos (by simp only [List.length_append]; omega), charWidth]
  by_cases htab : ch = [tab]
  · rw [if_pos ((headD_eq_tab hch).mpr htab), if_pos htab]
    rfl
  · rw [if_neg (mt (headD_eq_tab hch).mp htab), if_neg htab]
    exact getCharWidth_character hch _

theorem Standing.widthBefore_eq (h : Standing t text b y (a ++ [ch]) c) :
    widthBefore t b = charWidth (display t b) (width (display t b) a) ch := by
  have hch : IsCharacter (display t b).encoding ch := h.chars ch (by simp)
  have hpos := hch.length_pos
  have hflatten : (a ++ [ch] ++ c).flatten = a.flatten ++ (ch ++ c.flatten) := by simp
  have hbytes : (bytes (a ++ [ch]) : Int) = (a.flatten.length + ch.length : Nat) := by simp [bytes]
  have hprev := prevPos_character hch a.flatten c.flatten
  rw [widthBefore, h.line_eq, h.curPos, hflatten, hbytes]
  rw [if_pos (by simp only [List.length_append]; push_cast; omega), charWidth]
  by_cases htab : ch = [tab]
  · have hplace : ((a.flatten.length + ch.length : Nat) : Int) - 1 = a.flatten.length := by
      rw [htab]
      simp
    have hscan := @scanLine_row (display t b) a ([ch] ++ c) (by simpa [display] using h.chars)
    have hflatten' : (a ++ ([ch] ++ c)).flatten = a.flatten ++ (ch ++ c.flatten) := by simp
    rw [hflatten', bytes] at hscan
    rw [hplace, byteAt_char hch, if_pos ((headD_eq_tab hch).mpr htab), if_pos htab, hscan]
    rfl
  · have hlast : byteAt (a.flatten ++ (ch ++ c.flatten))
        (((a.flatten.length + ch.length : Nat) : Int) - 1) ≠ tab := by
      have hplace : (((a.flatten.length + ch.length : Nat) : Int) - 1).toNat =
          a.flatten.length + (ch.length - 1) := by omega
      rw [byteAt, hplace, List.getD_append_right _ _ _ _ (by omega), Nat.add_sub_cancel_left,
        List.getD_append _ _ _ _ (by omega), List.getD_eq_getElem _ _ (by omega)]
      intro heq
      exact htab (hch.eq_singleton (heq ▸ List.getElem_mem _) (by decide))
    have hencoding : (display t b).encoding = b.encoding := rfl
    rw [hencoding] at hprev hch
    rw [if_neg hlast, if_neg htab, hprev, Int.toNat_natCast, List.drop_left]
    exact getCharWidth_character hch _

theorem Standing.put (h : Standing t text b y a c) (hrow : a ++ c = a' ++ c') {winX curX : Int}
    (hwin : 0 ≤ winX) (hdvd : b.opt.tabSize ∣ winX)
    (hcolumn : winX + curX = width (display t b) a') :
    Standing t text (placed b winX curX a') y a' c' := by
  obtain ⟨⟨hlines, hchars⟩, htext, ⟨⟨hnum, hnonneg, hle, hlt, hcur, htop⟩, hline, hY, hY'⟩, hy,
    -, -,
    -, -, -, hfree⟩ := h
  exact ⟨⟨hlines, hchars⟩, hrow ▸ htext, ⟨⟨hnum, hnonneg, hle, hlt, hcur, htop⟩, hline, hY, hY'⟩,
    hy, rfl, rfl, hwin, hdvd, hcolumn, hfree⟩

theorem moved_placed (b : Buffer) (winX curX : Int) (a : List (List Byte)) :
    Moved b (placed b winX curX a) := rfl

theorem Standing.length (h : Standing t text b y a c) :
    ((lineOf b b.curLineDesc).length : Int) = bytes a + bytes c := by
  rw [h.line_eq]
  simp [InputRows.bytes]

/-- `char_right`, before the end of the line -/
theorem Standing.right (h : Standing t text b y a (ch :: c)) (htab : 0 < b.opt.tabSize) :
    let x := b.curX + widthAt t b
    ∃ b', charRight t b = (.ok, b') ∧ Moved b b' ∧ Standing t text b' y (a ++ [ch]) c ∧
      ((Hidden t b' x ∧ b'.winX = b.winX + 2 * b.opt.tabSize ∧ b'.curX = x - 2 * b.opt.tabSize) ∨
        (¬ Hidden t b' x ∧ b'.winX = b.winX ∧ b'.curX = x)) := by
  intro x
  have hpos := (h.chars ch (by simp)).length_pos
  have hlength := h.length
  have hwin := h.winX_nonneg
  have hcolumn : b.winX + x = width (display t b) (a ++ [ch]) := by
    rw [width_append_singleton, ← h.widthAt_eq, ← h.column]
    omega
  have hnext := nextPos_character (h.chars ch (by simp)) a.flatten c.flatten
  have hflatten : (a ++ ch :: c).flatten = a.flatten ++ (ch ++ c.flatten) := by simp
  have hbytes : a.flatten.length + ch.length = bytes (a ++ [ch]) := by simp [InputRows.bytes]
  rw [← hflatten, ← h.line_eq, hbytes] at hnext
  rw [bytes_cons] at hlength
  have hinside : ¬ (b.curPos = ((lineOf b b.curLineDesc).length : Int) ∧ ¬ b.opt.freeForm) := by
    rw [h.curPos]
    omega
  have hplace : (if ((lineOf b b.curLineDesc).length : Int) ≤ b.curPos then b.curPos + 1
      else nextPos (lineOf b b.curLineDesc) b.curPos b.encoding) = bytes (a ++ [ch]) := by
    rw [h.curPos, if_neg (by omega)]
    exact hnext
  have hchar : b.curChar + 1 = (a ++ [ch]).length := by
    rw [h.curChar, List.length_append]
    rfl
  have hmoved : charRight t b =
      if Hidden t (placed b b.winX x (a ++ [ch])) x then
        (.ok, placed b (b.winX + 2 * b.opt.tabSize) (x - 2 * b.opt.tabSize) (a ++ [ch]))
      else (.ok, placed b b.winX x (a ++ [ch])) := by
    rw [Int.mul_comm 2]
    refine (if_neg hinside).trans ?_
    dsimp only
    rw [hplace, hchar]
    rfl
  have hrow : a ++ ch :: c = a ++ [ch] ++ c := by simp
  by_cases hhidden : Hidden t (placed b b.winX x (a ++ [ch])) x
  · rw [if_pos hhidden] at hmoved
    refine ⟨_, hmoved, moved_placed _ _ _ _, h.put hrow ?_ ?_ ?_, .inl ⟨hhidden, rfl, rfl⟩⟩
    · omega
    · exact dvd_add h.winX (Dvd.intro_left 2 rfl)
    · omega
  · rw [if_neg hhidden] at hmoved
    exact ⟨_, hmoved, moved_placed _ _ _ _, h.put hrow hwin h.winX hcolumn,
      .inr ⟨hhidden, rfl, rfl⟩⟩

/-- `char_left`, behind the start of the line -/
theorem Standing.left (h : Standing t text b y (a ++ [ch]) c) (htab : 0 < b.opt.tabSize) :
    let n := if b.curX < widthBefore t b then min (2 * b.opt.tabSize) b.winX else 0
    ∃ b', charLeft t b = (.ok, b') ∧ Moved b b' ∧ Standing t text b' y a (ch :: c) ∧
      b'.winX = b.winX - n ∧ b'.curX = b.curX + n - widthBefore t b := by
  intro n
  have hpos := (h.chars ch (by simp)).length_pos
  have hlength := h.length
  have hwin := h.winX_nonneg
  have hcolumn : b.winX - n + (b.curX + n - widthBefore t b) = width (display t b) a := by
    have heq := h.column
    rw [width_append_singleton, ← h.widthBefore_eq] at heq
    omega
  have hprev := prevPos_character (h.chars ch (by simp)) a.flatten c.flatten
  have hflatten : (a ++ [ch] ++ c).flatten = a.flatten ++ (ch ++ c.flatten) := by simp
  have hbytes : a.flatten.length + ch.length = bytes (a ++ [ch]) := by simp [InputRows.bytes]
  rw [← hflatten, ← h.line_eq, hbytes, ← h.curPos] at hprev
  have hplace : (if ((lineOf b b.curLineDesc).length : Int) < b.curPos then b.curPos - 1
      else prevPos (lineOf b b.curLineDesc) b.curPos b.encoding) = bytes a := by
    rw [if_neg (by rw [h.curPos]; omega), hprev]
    rfl
  have hchar : b.curChar - 1 = a.length := by
    rw [h.curChar, List.length_append]
    simp
  have hinside : 0 < b.curPos := by
    rw [h.curPos, bytes_append, bytes_cons]
    omega
  have hmoved : charLeft t b =
      (.ok, placed b (b.winX - n) (b.curX + n - widthBefore t b) a) := by
    refine (if_pos hinside).trans ?_
    dsimp only
    have hwidth : widthBefore t { b with xWanted := false, yWanted := false } =
        widthBefore t b := rfl
    rw [hwidth]
    by_cases hlt : b.curX < widthBefore t b
    · have hn : n = min (2 * b.opt.tabSize) b.winX := if_pos hlt
      have hwinX : max 0 (b.winX - b.opt.tabSize * 2) = b.winX - n := by omega
      rw [if_pos hlt, blockLeft]
      dsimp only
      rw [hplace, hchar, hwinX, sub_sub_cancel]
      rfl
    · have hn : n = 0 := if_neg hlt
      rw [if_neg hlt, hplace, hchar, hn, sub_zero, add_zero]
      rfl
  have hn : 0 ≤ n ∧ n ≤ b.winX := by
    dsimp only [n]
    split <;> omega
  have hdvd : b.opt.tabSize ∣ n := by
    dsimp only [n]
    split
    · rcases min_choice (2 * b.opt.tabSize) b.winX with heq | heq
      · rw [heq]
        exact Dvd.intro_left 2 rfl
      · rw [heq]
        exact h.winX
    · exact dvd_zero _
  have hrow : a ++ [ch] ++ c = a ++ ch :: c := by simp
  exact ⟨_, hmoved, moved_placed _ _ _ _,
    h.put hrow (by omega) (dvd_sub h.winX hdvd) hcolumn, rfl, rfl⟩

theorem width_le (htab : 0 < d.tabSize) (a c : List (List Byte)) :
    width d a ≤ width d (a ++ c) := by
  induction c generalizing a with
  | nil => rw [List.append_nil]
  | cons ch c ih =>
      have hstep := charWidth_pos htab (width d a) ch
      have hrest := ih (a ++ [ch])
      rw [width_append_singleton, List.append_assoc, List.singleton_append] at hrest
      omega

theorem width_nonneg (htab : 0 < d.tabSize) (a : List (List Byte)) : 0 ≤ width d a :=
  width_le htab [] a

theorem calcCharLen_row (h : ∀ ch ∈ row, IsCharacter d.encoding ch) :
    calcCharLen d row.flatten = row.length := by
  rw [calcCharLen, scanLine_end h, passRow_char, zero_add]

theorem eolWindow_char (h : IsCharacter d.encoding ch) (total : Int) (turns : Nat) :
    eolWindow d (a ++ ch :: cs).flatten total (turns + 1) (passRow d ⟨0, 0, 0⟩ a) =
      if total - width d (a ++ [ch]) < d.terminal.neColumns - d.tabSize then
        some (width d (a ++ [ch]))
      else eolWindow d (a ++ ch :: cs).flatten total turns (passRow d ⟨0, 0, 0⟩ (a ++ [ch])) := by
  have hpos := h.length_pos
  have hplace : (passRow d ⟨0, 0, 0⟩ a).pos = a.flatten.length := by
    rw [passRow_pos, zero_add, InputRows.bytes]
  have hflatten : (a ++ ch :: cs).flatten = a.flatten ++ (ch ++ cs.flatten) := by simp
  have hpass : passChar d (passRow d ⟨0, 0, 0⟩ a) ch = passRow d ⟨0, 0, 0⟩ (a ++ [ch]) := by
    rw [passRow_append]
    rfl
  rw [eolWindow, if_pos (by rw [hplace, hflatten]; simp only [List.length_append]; omega), hflatten,
    scanChar_pass h _ _ hplace, hpass]
  rfl

theorem eolWindow_some (h : ∀ ch ∈ a ++ cs, IsCharacter d.encoding ch) (htab : 0 < d.tabSize)
    (hwide : d.tabSize < d.terminal.neColumns) (hne : cs ≠ []) {turns : Nat}
    (hturns : bytes cs ≤ turns) :
    ∃ k, eolWindow d (a ++ cs).flatten (width d (a ++ cs)) turns (passRow d ⟨0, 0, 0⟩ a) = some k ∧
      0 ≤ k ∧ k ≤ width d (a ++ cs) ∧
      width d (a ++ cs) - k < d.terminal.neColumns - d.tabSize := by
  induction cs generalizing a turns with
  | nil => exact absurd rfl hne
  | cons ch cs ih =>
      have hch := h ch (by simp)
      have hpos := hch.length_pos
      rw [bytes_cons] at hturns
      obtain _ | turns := turns
      · omega
      have hsplit : a ++ ch :: cs = a ++ [ch] ++ cs := by simp
      have hle := width_le htab (a ++ [ch]) cs
      rw [eolWindow_char hch]
      split
      case isTrue hfits =>
          exact ⟨_, rfl, width_nonneg htab _, by rw [hsplit]; exact hle, hfits⟩
      case isFalse hfits =>
          have hne' : cs ≠ [] := by
            rintro rfl
            rw [sub_self] at hfits
            omega
          rw [hsplit] at h ⊢
          exact ih h hne' (by omega)

theorem eolWindow_none (h : ∀ ch ∈ a ++ cs, IsCharacter d.encoding ch) (htab : 0 < d.tabSize)
    (hnarrow : d.terminal.neColumns ≤ d.tabSize) (turns : Nat) :
    eolWindow d (a ++ cs).flatten (width d (a ++ cs)) turns (passRow d ⟨0, 0, 0⟩ a) = none := by
  induction turns generalizing a cs with
  | zero => rfl
  | succ turns ih =>
      cases cs with
      | nil =>
          rw [List.append_nil, eolWindow, if_neg]
          rw [passRow_pos, zero_add, InputRows.bytes]
          exact lt_irrefl _
      | cons ch cs =>
          have hsplit : a ++ ch :: cs = a ++ [ch] ++ cs := by simp
          have hle := width_le htab (a ++ [ch]) cs
          rw [eolWindow_char (h ch (by simp)), hsplit, if_neg (by omega)]
          exact ih (hsplit ▸ h)

/-- `move_to_eol` goes to the end of the line if that is in reach, and else it stays. -/
theorem Standing.eol (h : Standing t text b y [] row) (htab : 0 < b.opt.tabSize)
    (hwin : b.winX = 0) :
    Moved b (moveToEol t b) ∧
      (EndInReach t b row.flatten → Standing t text (moveToEol t b) y row [] ∧
        0 ≤ (moveToEol t b).curX ∧ (moveToEol t b).curX < t.neColumns) ∧
      (¬ EndInReach t b row.flatten → Standing t text (moveToEol t b) y [] row) := by
  have hchars : ∀ ch ∈ row, IsCharacter (display t b).encoding ch := by
    simpa [display] using h.chars
  have hline : lineOf b b.curLineDesc = row.flatten := by simpa using h.line_eq
  have hcolumns := t.columns_pos
  have hnonneg := width_nonneg (d := display t b) htab row
  have htotal := calcWidth_row hchars
  have hcurX : b.curX = 0 := by
    have hcolumn := h.column
    have hzero : width (display t b) [] = 0 := rfl
    omega
  have hrow : [] ++ row = row ++ [] := by simp
  by_cases hempty : row.flatten = []
  · obtain rfl : row = [] := bytes_eq_zero hchars (by rw [InputRows.bytes, hempty]; rfl)
    have heol : moveToEol t b = placed b 0 0 [] := by
      rw [moveToEol, hline, if_pos hempty]
      rfl
    rw [heol]
    exact ⟨moved_placed _ _ _ _, fun _ => ⟨h.put hrow le_rfl (dvd_zero _) rfl, le_rfl, hcolumns⟩,
      fun hnot => absurd (.inl hempty) hnot⟩
  -- at the end of the line, wherever the window starts
  have hatEnd : ∀ winX, 0 ≤ winX → b.opt.tabSize ∣ winX →
      Standing t text (placed b winX (width (display t b) row - winX) row) y row [] :=
    fun winX hwinX hdvd => h.put hrow hwinX hdvd (by omega)
  have hlength : (row.flatten.length : Int) = bytes row := rfl
  have hchar := calcCharLen_row hchars
  rw [moveToEol, hline, if_neg hempty]
  dsimp only
  have hdisplay : display t { b with xWanted := false, yWanted := false } = display t b := rfl
  rw [hdisplay, htotal, hchar, hwin]
  by_cases hvisible : width (display t b) row < t.neColumns
  · rw [if_pos ⟨hnonneg, by omega⟩]
    refine ⟨rfl, fun _ => ⟨hwin ▸ hatEnd b.winX (by omega) h.winX, ?_, ?_⟩, fun hnot => ?_⟩
    · dsimp only
      omega
    · dsimp only
      omega
    · exact absurd (.inr (.inl (htotal ▸ hvisible))) hnot
  · rw [if_neg (by omega)]
    have hloop : width (display t b) row = width (display t b) ([] ++ row) := rfl
    by_cases hwide : b.opt.tabSize < t.neColumns
    · obtain ⟨k, hk, hknonneg, hkle, hkfits⟩ := eolWindow_some (d := display t b) (a := []) hchars
        htab hwide (fun heq => hempty (by simp [heq])) (le_refl (bytes row))
      have hk' : eolWindow (display t b) row.flatten (width (display t b) row) row.flatten.length
          ⟨0, 0, 0⟩ = some k := hk
      have hkle : k ≤ width (display t b) row := hkle
      have hkfits : width (display t b) row - k < t.neColumns - b.opt.tabSize := hkfits
      have hmod := Int.tmod_lt_of_pos k htab
      have hmod' := Int.tmod_nonneg b.opt.tabSize hknonneg
      have hmod'' : k.tmod b.opt.tabSize ≤ k := by
        rcases lt_or_ge k b.opt.tabSize with hlt | hge
        · rw [Int.tmod_eq_of_lt hknonneg hlt]
        · omega
      rw [hk']
      refine ⟨rfl, fun _ => ⟨hatEnd _ ?_ Int.dvd_self_sub_tmod, ?_, ?_⟩, fun hnot => ?_⟩
      · omega
      · dsimp only
        omega
      · dsimp only
        omega
      · exact absurd (.inr (.inr hwide)) hnot
    · have hnone := eolWindow_none (d := display t b) (a := []) hchars htab (not_lt.mp hwide)
        row.flatten.length
      have hnone' : eolWindow (display t b) row.flatten (width (display t b) row)
          row.flatten.length ⟨0, 0, 0⟩ = none := hnone
      rw [hnone']
      refine ⟨rfl, fun hreach => ?_, fun _ => ?_⟩
      · rcases hreach with hreach | hreach | hreach
        · exact absurd hreach hempty
        · exact absurd (htotal ▸ hreach) hvisible
        · exact absurd hreach hwide
      · have hstays := h.put (show [] ++ row = [] ++ row from rfl) h.winX_nonneg h.winX h.column
        have hplaced : placed b b.winX b.curX [] =
            { b with xWanted := false, yWanted := false } := by
          rw [placed, ← h.curPos, ← h.curChar]
        rw [hplaced, hwin] at hstays
        exact hstays

theorem rows_of_moved (h : Rows b text) (hmoved : Moved b b') : Rows b' text := by
  rw [hmoved]
  exact ⟨h.lines, h.chars⟩

/-- A movement to another line, at the start of the line -/
theorem Standing.vertical (h : Standing t text b y [] c) (hwin : b.winX = 0)
    (hwanted : b.xWanted = false) (up : Bool) {y' : Nat} (hrow : text[y']? = some row)
    (hy : (y' : Int) = y + if up then -1 else 1) :
    ∃ b', vertical t up b = (.ok, b') ∧ Moved b b' ∧ Standing t text b' y' [] row ∧
      b'.winX = 0 := by
  have hcolumn := h.column
  have hzero : width (display t b) [] = 0 := rfl
  have hlength := h.rows.length
  have hnum := h.rowed.ok.numLines
  have hcurLine := h.curLine
  have hlt : y' < text.length := (List.getElem?_eq_some_iff.mp hrow).1
  have hhas : hasLine up b := by
    rw [hasLine]
    split at hy
    case isTrue hup =>
        rw [if_pos hup]
        omega
    case isFalse hup =>
        rw [if_neg hup]
        omega
  obtain ⟨b', heq, hmoved, hrowed, hline, hsought, -, hwinX, hcurX⟩ := vertical_step h.rowed hhas
  have hsought' : soughtColumn b' = 0 := by
    rw [hsought, soughtColumn, if_neg (by rw [hwanted]; exact Bool.false_ne_true)]
    omega
  rw [resyncPos_eq hsought', if_pos rfl] at heq
  refine ⟨_, heq, moved_trans hmoved rfl, ⟨?_, hrow, ?_, ?_, rfl, rfl, ?_, ?_, ?_, ?_⟩, ?_⟩
  · exact rows_of_moved (rows_of_moved h.rows hmoved) rfl
  · obtain ⟨⟨hnum, hnonneg, hle, hlt, hcur, htop⟩, hline, hY, hY'⟩ := hrowed
    exact ⟨⟨hnum, hnonneg, hle, hlt, hcur, htop⟩, hline, hY, hY'⟩
  · dsimp only
    omega
  · dsimp only
    omega
  · dsimp only
    rw [hwinX, hwin]
    exact dvd_zero _
  · exact (show b'.winX + b'.curX = 0 by omega)
  · rw [hmoved]
    exact h.freeForm
  · dsimp only
    omega

theorem endInReach_of_moved (hmoved : Moved b b') (line : List Byte) :
    EndInReach t b' line ↔ EndInReach t b line := by
  rw [hmoved]
  rfl

theorem Standing.rightLine (h : Standing t text b y a []) (hrow : text[y + 1]? = some row) :
    ∃ b', charRight t b = (.ok, b') ∧ Moved b b' ∧ Standing t text b' (y + 1) [] row ∧
      b'.winX = 0 := by
  have hlt := (List.getElem?_eq_some_iff.mp hrow).1
  have hlength := h.rows.length
  have hcur := h.rowed.ok.cur
  have hend : b.curPos = ((lineOf b b.curLineDesc).length : Int) ∧ ¬ b.opt.freeForm := by
    rw [h.length, h.curPos, h.freeForm]
    simp
  have hnodes : ¬ nodesAfter b b.curLineDesc = 0 := by
    rw [nodesAfter, hcur, h.curLine, Option.getD_some, Int.toNat_natCast]
    omega
  have hstart := h.put (show a ++ [] = [] ++ (a ++ []) from rfl) le_rfl (dvd_zero _)
    (show 0 + 0 = width (display t b) [] from rfl)
  obtain ⟨b', heq, hmoved, hstanding, hwin⟩ := hstart.vertical rfl rfl false hrow (by simp)
  refine ⟨b', ?_, moved_trans (moved_placed _ _ _ _) hmoved, hstanding, hwin⟩
  refine (if_pos hend).trans ((if_neg hnodes).trans ?_)
  exact congrArg (fun r : Status × Buffer => (Status.ok, r.2)) heq

theorem Standing.right_error (h : Standing t text b y a []) (hlast : text.length ≤ y + 1) :
    (charRight t b).1 = .error := by
  have hlength := h.rows.length
  have hcur := h.rowed.ok.cur
  have hend : b.curPos = ((lineOf b b.curLineDesc).length : Int) ∧ ¬ b.opt.freeForm := by
    rw [h.length, h.curPos, h.freeForm]
    simp
  have hnodes : nodesAfter b b.curLineDesc = 0 := by
    rw [nodesAfter, hcur, h.curLine, Option.getD_some, Int.toNat_natCast]
    omega
  exact congrArg Prod.fst ((if_pos hend).trans (if_pos hnodes))

theorem Standing.leftLine (h : Standing t text b (y + 1) [] c) (hwin : b.winX = 0)
    (htab : 0 < b.opt.tabSize) (hrow : text[y]? = some row) :
    ∃ b', charLeft t b = (.ok, b') ∧ Moved b b' ∧
      (EndInReach t b row.flatten →
        Standing t text b' y row [] ∧ 0 ≤ b'.curX ∧ b'.curX < t.neColumns) ∧
      (¬ EndInReach t b row.flatten → Standing t text b' y [] row) := by
  have hpos := h.curPos
  have hline := h.curLine
  rw [bytes_nil] at hpos
  have hstays := h.put (show [] ++ c = [] ++ c from rfl) h.winX_nonneg h.winX h.column
  have hplaced : placed b b.winX b.curX [] = { b with xWanted := false, yWanted := false } := by
    rw [placed, ← h.curPos, ← h.curChar]
  rw [hplaced] at hstays
  obtain ⟨b', heq, hmoved, hstanding, hwin'⟩ := hstays.vertical hwin rfl true hrow (by simp)
  have hmoved' : Moved b b' :=
    moved_trans (show Moved b { b with xWanted := false, yWanted := false } from rfl) hmoved
  have htab' : 0 < b'.opt.tabSize := by
    rw [hmoved']
    exact htab
  obtain ⟨heol, hreach, hnot⟩ := hstanding.eol htab' hwin'
  rw [endInReach_of_moved hmoved'] at hreach hnot
  refine ⟨moveToEol t b', ?_, moved_trans hmoved' heol, hreach, hnot⟩
  refine (if_neg ?_).trans ((if_pos ?_).trans ?_)
  · dsimp only
    omega
  · dsimp only
    omega
  · exact congrArg (fun r : Status × Buffer => (Status.ok, moveToEol t r.2)) heq

theorem Standing.left_error (h : Standing t text b 0 [] c) : (charLeft t b).1 = .error := by
  have hpos := h.curPos
  have hline := h.curLine
  rw [bytes_nil] at hpos
  refine congrArg Prod.fst ((if_neg ?_).trans (if_neg ?_))
  · dsimp only
    omega
  · dsimp only
    omega

theorem standing_of_invariant (h : CursorInvariant t b) (hrows : Rows b text)
    (hrow : text[y]? = some (a ++ c)) (hline : b.curLine = y) (hpos : b.curPos = bytes a)
    (hfree : b.opt.freeForm = false) (hwin : 0 ≤ b.winX) : Standing t text b y a c := by
  have hlineOf : lineOf b b.curLineDesc = (a ++ c).flatten := by
    rw [h.ok.cur, hline, Int.toNat_natCast]
    exact hrows.getD hrow
  have hle : (bytes a : Int) ≤ (a ++ c).flatten.length := by
    rw [List.flatten_append, List.length_append, InputRows.bytes]
    omega
  have hchars : ∀ ch ∈ a ++ c, IsCharacter (display t b).encoding ch := hrows.chars_row hrow
  obtain ⟨hcolumn, hchar⟩ := h.column
  rw [hlineOf, hpos, min_eq_left hle, max_eq_left (by omega), Int.add_zero,
    scanLine_row hchars] at hcolumn hchar
  rw [passRow_char, zero_add] at hchar
  exact ⟨hrows, hrow, ⟨h.ok, h.curLine, h.curY_nonneg, h.curY_le⟩, hline, hpos, hchar, hwin,
    Int.dvd_of_tmod_eq_zero h.winX, hcolumn, hfree⟩

theorem Standing.invariant (h : Standing t text b y a c) (hnonneg : 0 ≤ b.curX)
    (hlt : b.curX < t.neColumns) : CursorInvariant t b := by
  have hlength := h.length
  have hchars : ∀ ch ∈ a ++ c, IsCharacter (display t b).encoding ch := h.chars
  have hpos := h.curPos
  refine ⟨h.rowed.ok, h.rowed.curLine, h.rowed.curY_nonneg, h.rowed.curY_le, hnonneg, hlt,
    Int.tmod_eq_zero_of_dvd h.winX, by omega, fun _ => by omega, ?_⟩
  dsimp only
  rw [min_eq_left (by omega), max_eq_left (by omega), Int.add_zero, Int.add_zero, h.line_eq, hpos,
    scanLine_row hchars, passRow_char, zero_add]
  exact ⟨h.column, h.curChar⟩

theorem Standing.back (h : Standing t text b y a c) (h' : Standing t text b' y a c')
    (hmoved : Moved b b') (hnonneg : 0 ≤ b'.curX) (hlt : b'.curX < t.neColumns) : Back t b b' :=
  ⟨hmoved, h'.curLine.trans h.curLine.symm, h'.curPos.trans h.curPos.symm,
    h'.curChar.trans h.curChar.symm, h'.invariant hnonneg hlt, h'.winX_nonneg⟩

/-- To the right and back: only the end of the line can be out of reach. -/
theorem Standing.reverses_right (h : Standing t text b y a c) (htab : 0 < b.opt.tabSize)
    (hnonneg : 0 ≤ b.curX) (hlt : b.curX < t.neColumns) :
    Reverses (charRight t) (charLeft t) t b ↔
      (c = [] → y + 1 < text.length → EndInReach t b (lineOf b b.curLineDesc)) := by
  cases c with
  | cons ch c =>
      refine iff_of_true (fun _ => ?_) nofun
      obtain ⟨b', heq, hmoved, hstanding, hcases⟩ := h.right htab
      have htab' : 0 < b'.opt.tabSize := by
        rw [hmoved]
        exact htab
      obtain ⟨b'', heq', hmoved', hstanding', hwinX, hcurX⟩ := hstanding.left htab'
      have hwidth : widthBefore t b' = widthAt t b := by
        rw [hstanding.widthBefore_eq, h.widthAt_eq, hmoved]
        rfl
      have hopt : b'.opt.tabSize = b.opt.tabSize := by rw [hmoved]
      have hwin := h.winX_nonneg
      rw [heq, heq']
      refine ⟨rfl, h.back hstanding' (moved_trans hmoved hmoved') ?_ ?_⟩
      · dsimp only
        rcases hcases with ⟨-, hx, hx'⟩ | ⟨-, hx, hx'⟩
        · split at hcurX <;> omega
        · split at hcurX <;> omega
      · dsimp only
        rcases hcases with ⟨-, hx, hx'⟩ | ⟨-, hx, hx'⟩
        · split at hcurX <;> omega
        · split at hcurX <;> omega
  | nil =>
      have hline : lineOf b b.curLineDesc = a.flatten := by simpa using h.line_eq
      rcases lt_or_ge (y + 1) text.length with hnext | hlast
      · obtain ⟨b', heq, hmoved, hstanding, hwin⟩ :=
          h.rightLine (List.getElem?_eq_getElem hnext)
        have htab' : 0 < b'.opt.tabSize := by
          rw [hmoved]
          exact htab
        have hrow : text[y]? = some a := by simpa using h.row
        obtain ⟨b'', heq', hmoved', hreach, hnot⟩ := hstanding.leftLine hwin htab' hrow
        rw [endInReach_of_moved hmoved] at hreach hnot
        rw [Reverses, heq, heq', hline]
        constructor
        · intro hback _ _
          by_contra hfar
          have hstart := hnot hfar
          have hpos : b''.curPos = b.curPos := (hback rfl).2.curPos
          rw [hstart.curPos, h.curPos, bytes_nil, Nat.cast_inj] at hpos
          exact hfar (.inl (List.length_eq_zero_iff.mp hpos.symm))
        · intro hreaches _
          obtain ⟨hstanding', hnonneg', hlt'⟩ := hreach (hreaches rfl hnext)
          exact ⟨rfl, h.back hstanding' (moved_trans hmoved hmoved') hnonneg' hlt'⟩
      · refine iff_of_true (fun hok => ?_) fun _ hnext => absurd hnext (by omega)
        rw [h.right_error hlast] at hok
        exact absurd hok nofun

theorem hidden_of_moved (hmoved : Moved b b') (hline : b'.curLineDesc = b.curLineDesc)
    (hpos : b'.curPos = b.curPos) (x : Int) : Hidden t b' x ↔ Hidden t b x := by
  have hlineOf : lineOf b' b'.curLineDesc = lineOf b b.curLineDesc := by
    rw [hline, hmoved]
    rfl
  have hencoding : b'.encoding = b.encoding := by rw [hmoved]
  rw [Hidden, Hidden, hlineOf, hpos, hencoding]

theorem Standing.same_line (h : Standing t text b y a c) (h' : Standing t text b' y a' c') :
    b'.curLineDesc = b.curLineDesc := by
  rw [h.rowed.ok.cur, h'.rowed.ok.cur, h.curLine, h'.curLine]

/-- To the left and back in a line: the window may be scrolled too far. -/
theorem Standing.reverses_left (h : Standing t text b y (a ++ [ch]) c) (htab : 0 < b.opt.tabSize)
    (hnonneg : 0 ≤ b.curX) (hlt : b.curX < t.neColumns) :
    let x := if b.curX < widthBefore t b then b.curX + min (2 * b.opt.tabSize) b.winX else b.curX
    Reverses (charLeft t) (charRight t) t b ↔ (Hidden t b x → 2 * b.opt.tabSize ≤ x) := by
  intro x
  obtain ⟨b', heq, hmoved, hstanding, hwinX, hcurX⟩ := h.left htab
  have hopt : b'.opt.tabSize = b.opt.tabSize := by rw [hmoved]
  have htab' : 0 < b'.opt.tabSize := hopt ▸ htab
  obtain ⟨b'', heq', hmoved', hstanding', hcases⟩ := hstanding.right htab'
  have hwidth : widthAt t b' = widthBefore t b := by
    rw [hstanding.widthAt_eq, h.widthBefore_eq, hmoved]
    rfl
  have hx : b'.curX + widthAt t b' = x := by
    dsimp only [x]
    rw [hwidth]
    split at hcurX
    case isTrue hless =>
        rw [if_pos hless]
        omega
    case isFalse hless =>
        rw [if_neg hless]
        omega
  have hxlt : x - 2 * b.opt.tabSize < t.neColumns := by
    dsimp only [x]
    split <;> omega
  have hxnonneg : 0 ≤ x := by
    have hwin := h.winX_nonneg
    dsimp only [x]
    split <;> omega
  rw [hx, hidden_of_moved (moved_trans hmoved hmoved') (h.same_line hstanding')
    (hstanding'.curPos.trans h.curPos.symm), hopt] at hcases
  rw [Reverses, heq, heq']
  constructor
  · intro hback hhidden
    have hinvariant := (hback rfl).2.invariant
    rcases hcases with ⟨-, -, hx'⟩ | ⟨hshown, -⟩
    · have := hinvariant.curX_nonneg
      dsimp only at this
      omega
    · exact absurd hhidden hshown
  · intro hroom _
    refine ⟨rfl, h.back hstanding' (moved_trans hmoved hmoved') ?_ ?_⟩
    · dsimp only
      rcases hcases with ⟨hhidden, -, hx'⟩ | ⟨-, -, hx'⟩
      · have := hroom hhidden
        omega
      · omega
    · dsimp only
      rcases hcases with ⟨-, -, hx'⟩ | ⟨hshown, -, hx'⟩
      · omega
      · by_contra hnot
        exact hshown (.inl (by omega))

theorem Standing.reverses_leftLine (h : Standing t text b (y + 1) [] c) (htab : 0 < b.opt.tabSize)
    (hnonneg : 0 ≤ b.curX) (hrow : text[y]? = some row) :
    Reverses (charLeft t) (charRight t) t b ↔ EndInReach t b row.flatten := by
  have hwin : b.winX = 0 := by
    have hcolumn := h.column
    have hwin := h.winX_nonneg
    have hzero : width (display t b) [] = 0 := rfl
    omega
  obtain ⟨b', heq, hmoved, hreach, hnot⟩ := h.leftLine hwin htab hrow
  have htab' : 0 < b'.opt.tabSize := by
    rw [hmoved]
    exact htab
  rw [Reverses, heq]
  constructor
  · intro hback
    by_contra hfar
    have hstanding := hnot hfar
    obtain _ | ⟨ch, row⟩ := row
    · exact hfar (.inl rfl)
    · obtain ⟨b'', heq', -, hstanding', -⟩ := hstanding.right htab'
      have hline := (hback rfl).2.curLine
      rw [heq'] at hline
      dsimp only at hline
      rw [hstanding'.curLine, h.curLine] at hline
      omega
  · intro hreaches _
    obtain ⟨hstanding, -, -⟩ := hreach hreaches
    obtain ⟨b'', heq', hmoved', hstanding', hwin'⟩ := hstanding.rightLine h.row
    have hcolumn := hstanding'.column
    have hzero : width (display t b'') [] = 0 := rfl
    have hcolumns := t.columns_pos
    rw [heq']
    refine ⟨rfl, h.back hstanding' (moved_trans hmoved hmoved') ?_ ?_⟩
    · dsimp only
      omega
    · dsimp only
      omega

theorem getCharWidth_le (hwcwidth : ∀ c, t.wcwidth c ≤ 2) (s : List Byte) (e : EncodingType) :
    getCharWidth t s e ≤ 2 := by
  have houtput : ∀ c, outputWidth t c ≤ 2 := by
    intro c
    have := hwcwidth c
    rw [outputWidth]
    split <;> omega
  rw [getCharWidth]
  split
  · decide
  · split
    · exact houtput _
    · exact houtput _

theorem roomy_of_columns (b : Buffer) (hcolumns : 3 ≤ t.neColumns)
    (hfits : b.opt.tabSize ≤ max (t.neColumns.tdiv 2 - 1) 1) (hwcwidth : ∀ c, t.wcwidth c ≤ 2) :
    Roomy t b := by
  rw [Int.tdiv_eq_ediv_of_nonneg t.columns_pos.le] at hfits
  refine ⟨fun _ _ => .inr (.inr (by omega)), fun _ _ => .inr (.inr (by omega)), fun _ => ?_⟩
  intro x hhidden
  have hwidth := getCharWidth_le hwcwidth ((lineOf b b.curLineDesc).drop b.curPos.toNat) b.encoding
  rcases hhidden with hbeyond | ⟨-, hover⟩
  · omega
  · omega

/-- A movement to the right and one to the left, in both orders, lead to the same place exactly if
the window is wide enough. -/
theorem charMoves_return (t : Terminal) (h : CursorInvariant t b) (hrows : Rows b text)
    (hspot : Spot text p) (hline : b.curLine = p.1) (hpos : b.curPos = p.2)
    (htab : 0 < b.opt.tabSize) (hfree : b.opt.freeForm = false) (hwin : 0 ≤ b.winX) :
    (Reverses (charRight t) (charLeft t) t b ∧ Reverses (charLeft t) (charRight t) t b) ↔
      Roomy t b := by
  obtain ⟨y, place⟩ := p
  obtain ⟨a, c, hrow, rfl⟩ := hspot
  have hstanding := standing_of_invariant h hrows hrow hline hpos hfree hwin
  have hchars := hstanding.chars
  have hlength := hstanding.length
  have hnum := hstanding.rowed.ok.numLines
  have htext := hrows.length
  dsimp only at hline hpos hrow
  have hright := hstanding.reverses_right htab h.curX_nonneg h.curX_lt
  have hlineEnd : (c = [] → y + 1 < text.length → EndInReach t b (lineOf b b.curLineDesc)) ↔
      (b.curPos = (lineOf b b.curLineDesc).length → b.curLine + 1 < b.numLines →
        EndInReach t b (lineOf b b.curLineDesc)) := by
    have hempty : c = [] ↔ b.curPos = (lineOf b b.curLineDesc).length := by
      rw [hlength, hpos]
      refine ⟨fun heq => by simp [heq], fun heq => ?_⟩
      exact bytes_eq_zero (fun ch hch => hchars ch (List.mem_append_right a hch)) (by omega)
    have hnext : y + 1 < text.length ↔ b.curLine + 1 < b.numLines := by omega
    rw [hempty, hnext]
  rw [hlineEnd] at hright
  rcases List.eq_nil_or_concat a with rfl | ⟨a, ch, rfl⟩
  · have hzero : b.curPos = 0 := hpos
    obtain _ | y := y
    · have hleft : Reverses (charLeft t) (charRight t) t b := by
        intro hok
        rw [hstanding.left_error] at hok
        exact absurd hok nofun
      rw [hright]
      exact ⟨fun hreturns => ⟨hreturns.1, fun _ hfirst => by omega, fun hinside => by omega⟩,
        fun hroomy => ⟨hroomy.lineEnd, hleft⟩⟩
    · have hlt := (List.getElem?_eq_some_iff.mp hrow).1
      have hbefore : text[y]? = some text[y] := List.getElem?_eq_getElem (by omega)
      have hleft := hstanding.reverses_leftLine htab h.curX_nonneg hbefore
      have hplace : b.curLine - 1 = y := by omega
      rw [← lineAt_row hrows hbefore, ← hplace] at hleft
      rw [hright, hleft]
      exact ⟨fun hreturns => ⟨hreturns.1, fun _ _ => hreturns.2, fun hinside => by omega⟩,
        fun hroomy => ⟨hroomy.lineEnd, hroomy.lineStart hzero (by omega)⟩⟩
  · rw [List.concat_eq_append] at hstanding hpos hchars
    have hleft := hstanding.reverses_left htab h.curX_nonneg h.curX_lt
    dsimp only at hleft
    have hinside : 0 < b.curPos := by
      have := (hchars ch (by simp)).length_pos
      rw [hpos, bytes_append, bytes_cons]
      omega
    rw [hright, hleft]
    exact ⟨fun hreturns => ⟨hreturns.1, fun hstart => by omega, fun _ => hreturns.2⟩,
      fun hroomy => ⟨hroomy.lineEnd, hroomy.inside hinside⟩⟩

/-- A document of one line, `x` behind a TAB, with the cursor on it. -/
def indented : Buffer :=
  let b := document [9, 120] .ascii 0 1
  { b with curX := 8, curChar := 1, opt := { b.opt with freeForm := false } }

theorem rows_indented : Rows indented [[[9], [120]]] := ⟨rfl, by decide⟩

theorem cursorInvariant_indented : CursorInvariant plainTerminal indented where
  ok := ⟨by decide, by decide, by decide, by decide, rfl,
    by decide⟩
  curLine := by decide
  curY_nonneg := by decide
  curY_le := by decide
  curX_nonneg := by decide
  curX_lt := by decide
  winX := by decide
  curPos_nonneg := by decide
  curPos_le := by decide
  column := by decide

theorem charMoves_return_indented :
    Reverses (charRight plainTerminal) (charLeft plainTerminal) plainTerminal indented ∧
      Reverses (charLeft plainTerminal) (charRight plainTerminal) plainTerminal indented :=
  (charMoves_return (p := (0, 1)) plainTerminal cursorInvariant_indented rows_indented
    ⟨[[9]], [[120]], rfl, rfl⟩ rfl rfl (by decide +kernel) rfl (by decide +kernel)).mpr
    (roomy_of_columns indented (by decide) (by decide +kernel) fun _ => (by decide : (1 : Int) ≤ 2))

/-- A window of a column -/
def narrowTerminal : Terminal := ⟨25, 1, fun _ => 1, twentyFive_pos, by decide⟩

/-- The line `a` and an empty one, with the cursor on the second one. -/
def belowLetter : Buffer :=
  let b := document [97, 0] .ascii 1 0
  { b with curY := 1, opt := { b.opt with tabSize := 1, freeForm := false } }

/-- In a window of a column, the end of the line before is not found: the cursor does not come
back. -/
theorem not_charMoves_return :
    ¬ ∀ (t : Terminal) (b : Buffer) (text : List (List (List Byte))) (p : Nat × Nat),
      CursorInvariant t b → Rows b text → Spot text p → b.curLine = p.1 → b.curPos = p.2 →
      0 < b.opt.tabSize → b.opt.freeForm = false → 0 ≤ b.winX →
      Reverses (charRight t) (charLeft t) t b ∧ Reverses (charLeft t) (charRight t) t b := by
  intro h
  have hinvariant : CursorInvariant narrowTerminal belowLetter :=
    ⟨⟨by decide +kernel, by decide +kernel, by decide +kernel, by decide +kernel, rfl,
      by decide +kernel⟩, by decide +kernel, by decide +kernel, by decide +kernel,
      by decide +kernel, by decide +kernel, by decide +kernel, by decide +kernel,
      by decide +kernel, by decide +kernel⟩
  have hrows : Rows belowLetter [[[97]], []] := ⟨by decide +kernel, by decide⟩
  obtain ⟨-, hleft⟩ := h narrowTerminal belowLetter _ (1, 0) hinvariant hrows ⟨[], [], rfl, rfl⟩
    rfl rfl (by decide) rfl (by decide +kernel)
  have hline := (hleft (by decide +kernel)).2.curLine
  revert hline
  decide +kernel

end NiceEditor.CharMoves
