import NiceEditor.CharacterRows
import NiceEditor.Movement

namespace NiceEditor.RepeatCounts

open NiceEditor.Pools
open NiceEditor.BufferData
open NiceEditor.Navigation
open NiceEditor.Cursor
open NiceEditor.Commands
open NiceEditor.Movement

/-- The cursor is on a character of its line, or beyond it in free form, and is shown
where the character is. -/
structure CursorInvariant (t : Terminal) (b : Buffer) : Prop where
  ok : CursorOk b
  curLine : b.curLine = b.winY + b.curY
  curY_nonneg : 0 ≤ b.curY
  curY_le : b.curY ≤ t.neLines - 2
  curX_nonneg : 0 ≤ b.curX
  curX_lt : b.curX < t.neColumns
  winX : b.winX.tmod b.opt.tabSize = 0
  curPos_nonneg : 0 ≤ b.curPos
  curPos_le : b.opt.freeForm = false → b.curPos ≤ (lineOf b b.curLineDesc).length
  column :
    let line := lineOf b b.curLineDesc
    let s := scanLine (display t b) line (min b.curPos line.length)
    let excess := max 0 (b.curPos - line.length)
    b.winX + b.curX = s.col + excess ∧ b.curChar = s.char + excess

/-- Where the cursor and the window are. -/
structure View where
  curLine : Int
  curPos : Int
  curChar : Int
  winX : Int
  winY : Int
  curX : Int
  curY : Int
deriving DecidableEq

def view (b : Buffer) : View where
  curLine := b.curLine
  curPos := b.curPos
  curChar := b.curChar
  winX := b.winX
  winY := b.winY
  curX := b.curX
  curY := b.curY

/-- An action with a count does what it does when it is invoked so many times. -/
def Iterates (f : Buffer → Status × Buffer) (n : Nat) (b : Buffer) : Prop :=
  (doRepeated f n b).2 = (fun b => (doRepeated f 1 b).2)^[n] b

/-- An invocation that moves the cursor or the window reports no error. -/
def ErrsInPlace (f : Buffer → Status × Buffer) (b : Buffer) : Prop :=
  view (doRepeated f 1 b).2 ≠ view b → (doRepeated f 1 b).1 = .ok

/-- After an error a function has nothing more to do. -/
def Sticks (f : Buffer → Status × Buffer) : Prop :=
  ∀ b, (f b).1 ≠ .ok → view (f b).2 = view b ∧ f (f b).2 = f b

variable {t : Terminal} {b b' : Buffer} {f : Buffer → Status × Buffer} {n : Nat}

theorem doRepeated_one (f : Buffer → Status × Buffer) (b : Buffer) : doRepeated f 1 b = f b := by
  have hone : (Movement.normalize 1).toNat = 1 := rfl
  by_cases hok : (f b).1 = .ok
  · simp only [doRepeated, hone, repeatWhileOk, hok, ne_eq, not_true_eq_false, if_false]
    rw [← hok]
  · simp only [doRepeated, hone, repeatWhileOk, hok, ne_eq, not_false_eq_true, if_true]

theorem doRepeated_natCast (f : Buffer → Status × Buffer) (n : Nat) (b : Buffer) :
    doRepeated f n b = repeatWhileOk f n b := by
  have hn : (Movement.normalize n).toNat = n := by
    rw [Movement.normalize, if_neg (by omega), Int.toNat_natCast]
  rw [doRepeated, hn]

theorem iterates_iff : Iterates f n b ↔ (repeatWhileOk f n b).2 = (fun b => (f b).2)^[n] b := by
  simp only [Iterates, doRepeated_natCast, doRepeated_one]

theorem errsInPlace_iff : ErrsInPlace f b ↔ (view (f b).2 ≠ view b → (f b).1 = .ok) := by
  simp only [ErrsInPlace, doRepeated_one]

theorem repeatWhileOk_succ (h : (f b).1 = .ok) :
    repeatWhileOk f (n + 1) b = repeatWhileOk f n (f b).2 := by
  simp only [repeatWhileOk, h, ne_eq, not_true_eq_false, if_false]

theorem repeatWhileOk_error (h : (f b).1 ≠ .ok) : repeatWhileOk f (n + 1) b = f b := by
  simp only [repeatWhileOk, ne_eq, h, not_false_eq_true, if_true]

theorem iterate_fixed (h : f (f b).2 = f b) (n : Nat) :
    (fun b => (f b).2)^[n + 1] b = (f b).2 := by
  induction n with
  | zero => rfl
  | succ n ih => rw [Function.iterate_succ_apply', ih, h]

theorem Sticks.iterates (h : Sticks f) (n : Nat) (b : Buffer) :
    (repeatWhileOk f n b).2 = (fun b => (f b).2)^[n] b := by
  induction n generalizing b with
  | zero => rfl
  | succ n ih =>
      by_cases hok : (f b).1 = .ok
      · rw [repeatWhileOk_succ hok, ih, Function.iterate_succ_apply]
      · rw [repeatWhileOk_error hok, iterate_fixed (h b hok).2]

theorem Sticks.errsInPlace (h : Sticks f) (b : Buffer) : ErrsInPlace f b := by
  rw [errsInPlace_iff]
  intro hmoved
  by_contra herror
  exact hmoved (h b herror).1

theorem lineUp_sticks : Sticks (lineUp t) := by
  intro b herror
  unfold lineUp at herror ⊢
  dsimp only at herror ⊢
  split at herror
  · exact absurd rfl herror
  split at herror
  · exact absurd rfl herror
  rename_i hrow htop
  simp only [hrow, htop, if_false]
  exact ⟨rfl, trivial⟩

theorem lineDown_sticks : Sticks (lineDown t) := by
  intro b herror
  unfold lineDown at herror ⊢
  dsimp only at herror ⊢
  split at herror
  · exact absurd rfl herror
  split at herror
  · exact absurd rfl herror
  rename_i hrow htop
  simp only [hrow, htop, if_false]
  exact ⟨rfl, trivial⟩

theorem nextPage_sticks : Sticks (nextPage t) := by
  intro b herror
  unfold nextPage at herror ⊢
  dsimp only at herror ⊢
  split at herror
  · exact absurd rfl herror
  split at herror
  · rename_i hrow hend
    simp only [hrow, hend, if_false, if_true]
    exact ⟨rfl, trivial⟩
  · exact absurd rfl herror

theorem charLeft_sticks : Sticks (charLeft t) := by
  intro b herror
  unfold charLeft at herror ⊢
  dsimp only at herror ⊢
  split at herror
  · exact absurd rfl herror
  split at herror
  · exact absurd rfl herror
  rename_i hpos hline
  simp only [hpos, hline, if_false]
  exact ⟨rfl, trivial⟩

theorem charRight_sticks : Sticks (charRight t) := by
  intro b herror
  unfold charRight at herror ⊢
  dsimp only at herror ⊢
  split at herror
  · rename_i hend
    split at herror
    · rename_i hlast
      rw [if_pos hend, if_pos hlast]
      refine ⟨rfl, ?_⟩
      have hend' : b.curPos = ((lineOf { b with xWanted := false, yWanted := false }
        b.curLineDesc).length : Int) ∧ ¬ b.opt.freeForm := hend
      rw [if_pos hend']
      have hlast' : nodesAfter { b with xWanted := false, yWanted := false } b.curLineDesc = 0 :=
        hlast
      simp only [hlast', if_true]
    · exact absurd rfl herror
  · repeat' split at herror
    all_goals exact absurd rfl herror

theorem pageUp_sticks : Sticks (pageUp t) := by
  intro b herror
  unfold pageUp at herror
  split at herror
  · exact absurd rfl herror
  · exact absurd rfl herror

theorem pageDown_sticks : Sticks (pageDown t) := by
  intro b herror
  unfold pageDown at herror
  split at herror
  · exact absurd rfl herror
  · exact absurd rfl herror

/-- The cursor moves in its line only. -/
structure Sideways (b b' : Buffer) : Prop where
  eq : b' = { b with
    winX := b'.winX
    curX := b'.curX
    wantedX := b'.wantedX
    curPos := b'.curPos
    curChar := b'.curChar
    xWanted := b'.xWanted
    yWanted := b'.yWanted }
  yWanted : b.yWanted = false → b'.yWanted = false

theorem moveToEol_sideways (t : Terminal) (b : Buffer) : Sideways b (moveToEol t b) := by
  unfold moveToEol
  dsimp only
  repeat' split
  all_goals exact ⟨rfl, fun _ => rfl⟩

theorem moveToEol_wantedX (t : Terminal) (b : Buffer) : (moveToEol t b).wantedX = b.wantedX := by
  unfold moveToEol
  dsimp only
  repeat' split
  all_goals rfl

theorem moveToEol_again {x : Int} (hview : view (moveToEol t { b with wantedX := x }) = view b) :
    moveToEol t { moveToEol t { b with wantedX := x } with xWanted := true, wantedX := x } =
      moveToEol t { b with wantedX := x } := by
  have hwinX := congrArg View.winX hview
  revert hwinX
  generalize hmoved : moveToEol t { b with wantedX := x } = moved
  intro hwinX
  unfold moveToEol at hmoved
  dsimp only at hmoved
  split at hmoved
  · rename_i hempty
    subst hmoved
    exact if_pos hempty
  rename_i hline
  split at hmoved
  · rename_i hinside
    subst hmoved
    exact (if_neg hline).trans (if_pos hinside)
  rename_i hinside
  split at hmoved
  · rename_i width heol
    subst hmoved
    have hsame : width - width.tmod b.opt.tabSize = b.winX := hwinX
    have hinside' : ¬ (width - width.tmod b.opt.tabSize ≤ _ ∧ _) := hsame ▸ hinside
    refine (if_neg hline).trans ((if_neg hinside').trans ?_)
    split
    · rename_i width' heol'
      obtain rfl : width' = width := Option.some.inj (heol'.symm.trans heol)
      rfl
    · rename_i heol'
      exact absurd (heol'.symm.trans heol) nofun
  · rename_i heol
    subst hmoved
    refine (if_neg hline).trans ((if_neg hinside).trans ?_)
    split
    · rename_i width' heol'
      exact absurd (heol'.symm.trans heol) nofun
    · rfl

attribute [grind =] land

theorem resyncPos_eq {x : Int} (hx : soughtColumn b = x) :
    resyncPos t b = if x = 0 then { b with curPos := 0, curChar := 0 }
      else land t b x (landing t b x) := by
  subst hx
  rfl

theorem land_sideways (t : Terminal) (b : Buffer) (x : Int) (l : Landing) :
    Sideways b (land t b x l) := by
  cases l with
  | exact s =>
      simp only [land]
      repeat' split
      all_goals exact ⟨rfl, id⟩
  | inside s =>
      simp only [land]
      repeat' split
      all_goals exact ⟨rfl, id⟩
  | short s =>
      simp only [land]
      split
      · exact ⟨rfl, id⟩
      · have heol := moveToEol_sideways t { b with wantedX := x }
        refine ⟨?_, heol.yWanted⟩
        conv_lhs => rw [heol.eq]

theorem landing_land {x : Int} (l : Landing) : landing t (land t b x l) x = landing t b x := by
  rw [(land_sideways t b x l).eq]
  rfl

theorem resyncPos_sideways (t : Terminal) (b : Buffer) : Sideways b (resyncPos t b) := by
  rw [resyncPos_eq rfl]
  split
  · exact ⟨rfl, id⟩
  · exact land_sideways t b _ _

/-- Where the loop of `resync_pos` has found its place, it finds it again. -/
theorem land_again {x : Int} (hx : soughtColumn b = x) (l : Landing)
    (hview : view (land t b x l) = view b) :
    soughtColumn (land t b x l) = x ∧ land t (land t b x l) x l = land t b x l := by
  have hwinX := congrArg View.winX hview
  revert hwinX
  cases l with
  | exact s =>
      intro _
      by_cases hwanted : b.xWanted = true
      · simp only [land, hwanted, if_true]
        split
        · exact ⟨by simp [soughtColumn], if_neg nofun⟩
        · exact ⟨by simp [soughtColumn], if_neg nofun⟩
      · have hland : land t b x (.exact s) = { b with curPos := s.pos, curChar := s.char } :=
          if_neg hwanted
        rw [hland]
        exact ⟨hx, if_neg hwanted⟩
  | inside s =>
      generalize hland : land t b x (.inside s) = moved
      intro hwinX
      simp only [land] at hland
      split at hland
      · rename_i hleft
        subst hland
        simp only [view] at hwinX
        exact ⟨rfl, if_pos (by rwa [hwinX])⟩
      rename_i hleft
      split at hland
      · rename_i hinside
        subst hland
        exact ⟨rfl, (if_neg hleft).trans (if_pos hinside)⟩
      · rename_i hinside
        subst hland
        simp only [view] at hwinX
        exact ⟨rfl, (if_neg (by rwa [hwinX])).trans (if_neg (by rwa [hwinX]))⟩
  | short s =>
      intro _
      by_cases hfree : b.opt.freeForm = true
      · have hland : land t b x (.short s) = { b with
            curPos := (lineOf b b.curLineDesc).length + x - s.col
            curChar := s.char + x - s.col
            curX := x - b.winX
            xWanted := false } := if_pos hfree
        rw [hland]
        exact ⟨by simp [soughtColumn], if_pos hfree⟩
      · have hland : land t b x (.short s) =
            { moveToEol t { b with wantedX := x } with xWanted := true } := if_neg hfree
        rw [hland] at hview ⊢
        have hopt := congrArg Buffer.opt (moveToEol_sideways t { b with wantedX := x }).eq
        have hagain := moveToEol_again hview
        have hwanted : (moveToEol t { b with wantedX := x }).wantedX = x :=
          moveToEol_wantedX t { b with wantedX := x }
        have hfree' : ¬ (moveToEol t { b with wantedX := x }).opt.freeForm = true := by rwa [hopt]
        refine ⟨hwanted, (if_neg hfree').trans ?_⟩
        exact congrArg (fun b : Buffer => { b with xWanted := true }) hagain

variable {d : Display} {line : List Byte} {s : Scan} {turns : Nat}

/-- The cursor is at a position, behind so many characters, and in a column. -/
def StandsAt (b : Buffer) (pos char col : Int) : Prop :=
  b.curPos = pos ∧ b.curChar = char ∧ b.winX + b.curX = col

/-- The end of a line is not in the window, nor does the end of a character bring it there. -/
def OutOfReach (t : Terminal) (b : Buffer) : Prop :=
  let width := calcWidth (display t b) (lineOf b b.curLineDesc)
  ¬ (b.winX ≤ width ∧ width < b.winX + t.neColumns) ∧ t.neColumns ≤ b.opt.tabSize

/-- The cursor is where its column, or the column that is wanted, is in its line. -/
def RestsAt (t : Terminal) (b : Buffer) (x : Int) : Landing → Prop
  | .exact s => StandsAt b s.pos s.char x
  | .inside s => StandsAt b s.pos s.char s.col
  | .short s =>
      let line := lineOf b b.curLineDesc
      if b.opt.freeForm then StandsAt b (line.length + x - s.col) (s.char + x - s.col) x
      else if line = [] then b.winX = 0
      else b.curPos = line.length ∨ OutOfReach t b

def Rests (t : Terminal) (b : Buffer) : Prop :=
  if soughtColumn b = 0 then b.curPos = 0
  else RestsAt t b (soughtColumn b) (landing t b (soughtColumn b))

theorem scanChar_col_lt (line : List Byte) (htab : 0 < d.tabSize) :
    s.col < (scanChar d line s).col := by
  have hmod := Int.tmod_lt_of_pos s.col htab
  have hwidth := CharacterRows.getCharWidth_pos d.terminal (line.drop s.pos.toNat) d.encoding
  rw [scanChar]
  dsimp only
  split <;> omega

theorem scanTo_eq_or_lt (htab : 0 < d.tabSize) (m : Int) (turns : Nat) (hcol : 0 ≤ s.col) :
    scanTo d line m turns s = s ∨ s.col < (scanTo d line m turns s).col := by
  induction turns generalizing s with
  | zero => exact .inl rfl
  | succ turns ih =>
      rw [scanTo]
      split
      case isFalse => exact .inl rfl
      case isTrue =>
          have hnext := scanChar_col_lt (s := s) line htab
          right
          rcases ih (s := scanChar d line s) (hcol.trans hnext.le) with heq | hlt
          · rwa [heq]
          · exact hnext.trans hlt

theorem scanTo_col_le (htab : 0 < d.tabSize) (m : Int) (turns : Nat) (hcol : 0 ≤ s.col) :
    s.col ≤ (scanTo d line m turns s).col := by
  rcases @scanTo_eq_or_lt d line s htab m turns hcol with heq | hlt
  · rw [heq]
  · exact hlt.le

theorem eolWindow_none_iff (hmore : s.pos < line.length)
    (hcol : d.terminal.neColumns ≤ d.tabSize → 0 ≤ s.col) :
    eolWindow d line (scanTo d line line.length (turns + 1) s).col (turns + 1) s = none ↔
      d.terminal.neColumns ≤ d.tabSize := by
  have htab : d.terminal.neColumns ≤ d.tabSize → 0 < d.tabSize :=
    d.terminal.columns_pos.trans_le
  induction turns generalizing s with
  | zero =>
      rw [eolWindow, if_pos hmore, scanTo, if_pos hmore, scanTo]
      dsimp only
      rw [sub_self, eolWindow]
      split
      · exact iff_of_false nofun (by omega)
      · exact iff_of_true rfl (by omega)
  | succ turns ih =>
      rw [eolWindow, if_pos hmore, scanTo, if_pos hmore]
      dsimp only
      have hcol' : d.terminal.neColumns ≤ d.tabSize → 0 ≤ (scanChar d line s).col := fun hle =>
        (hcol hle).trans (scanChar_col_lt line (htab hle)).le
      by_cases hmore' : (scanChar d line s).pos < line.length
      · split
        · rename_i hfits
          refine iff_of_false nofun fun hle => ?_
          have hend : (scanChar d line s).col ≤
              (scanTo d line line.length (turns + 1) (scanChar d line s)).col :=
            scanTo_col_le (htab hle) line.length (turns + 1) (hcol' hle)
          omega
        · exact ih hmore' hcol'
      · rw [scanTo, if_neg hmore', sub_self, eolWindow, if_neg hmore']
        split
        · exact iff_of_false nofun (by omega)
        · exact iff_of_true rfl (by omega)

theorem eolWindow_eq_none_iff (hline : line ≠ []) :
    eolWindow d line (calcWidth d line) line.length ⟨0, 0, 0⟩ = none ↔
      d.terminal.neColumns ≤ d.tabSize := by
  obtain ⟨turns, hturns⟩ := Nat.exists_eq_add_one.mpr (List.length_pos_iff.mpr hline)
  have hnone := @eolWindow_none_iff d line ⟨0, 0, 0⟩ turns (by simp [hturns]) fun _ => le_rfl
  rwa [← hturns] at hnone

theorem view_eq_iff (hside : Sideways b b') : view b' = view b ↔
    StandsAt b b'.curPos b'.curChar (b'.winX + b'.curX) ∧ b.winX = b'.winX := by
  rw [hside.eq]
  simp only [view, View.mk.injEq, StandsAt]
  constructor
  · rintro ⟨-, hpos, hchar, hwinX, -, hcurX, -⟩
    exact ⟨⟨hpos.symm, hchar.symm, by rw [hwinX, hcurX]⟩, hwinX.symm⟩
  · rintro ⟨⟨hpos, hchar, hcolumn⟩, hwinX⟩
    exact ⟨trivial, hpos.symm, hchar.symm, hwinX.symm, trivial, by omega, trivial⟩

theorem stands_scrolled_iff (h : CursorInvariant t b) {pos char col winX : Int}
    (hout : ¬ (0 ≤ col - b.winX ∧ col - b.winX < t.neColumns)) :
    StandsAt b pos char (winX + (col - winX)) ∧ b.winX = winX ↔ StandsAt b pos char col := by
  have hlt := h.curX_lt
  have hnonneg := h.curX_nonneg
  rw [StandsAt, StandsAt, add_sub_cancel]
  exact iff_of_false (fun ⟨⟨_, _, hcolumn⟩, _⟩ => hout (by omega))
    fun ⟨_, _, hcolumn⟩ => hout (by omega)

theorem view_exact_iff {x : Int} (h : CursorInvariant t b) (hx : soughtColumn b = x) :
    view (land t b x (.exact s)) = view b ↔ RestsAt t b x (.exact s) := by
  rw [view_eq_iff (land_sideways t b x _), RestsAt, land]
  by_cases hwanted : b.xWanted = true
  · simp only [if_pos hwanted]
    split
    · rw [add_sub_cancel]
      exact and_iff_left rfl
    · exact stands_scrolled_iff h (by omega)
  · rw [soughtColumn, if_neg hwanted] at hx
    rw [if_neg hwanted, hx]
    exact and_iff_left rfl

theorem view_inside_iff (h : CursorInvariant t b) :
    view (land t b x (.inside s)) = view b ↔ RestsAt t b x (.inside s) := by
  rw [view_eq_iff (land_sideways t b x _), RestsAt, land]
  dsimp only
  split
  · exact stands_scrolled_iff h (by omega)
  · split
    · rw [add_sub_cancel]
      exact and_iff_left rfl
    · exact stands_scrolled_iff h (by omega)

theorem stands_start (h : CursorInvariant t b) (hzero : b.curPos = 0) : StandsAt b 0 0 0 := by
  obtain ⟨hcolumn, hchar⟩ := h.column
  have hscan : scanLine (display t b) (lineOf b b.curLineDesc) 0 = ⟨0, 0, 0⟩ := rfl
  rw [hzero, min_eq_left (by omega), hscan] at hcolumn hchar
  dsimp only at hcolumn hchar
  exact ⟨hzero, by omega, by omega⟩

theorem stands_end (h : CursorInvariant t b)
    (hend : b.curPos = (lineOf b b.curLineDesc).length) :
    StandsAt b (lineOf b b.curLineDesc).length
      (calcCharLen (display t b) (lineOf b b.curLineDesc))
      (calcWidth (display t b) (lineOf b b.curLineDesc)) := by
  obtain ⟨hcolumn, hchar⟩ := h.column
  rw [hend, min_self, sub_self, max_self, add_zero] at hcolumn hchar
  exact ⟨hend, hchar, hcolumn⟩

/-- `move_to_eol` leaves the cursor at the end of its line, and elsewhere in a window that is too
narrow. -/
theorem view_moveToEol_iff (h : CursorInvariant t b) (hfree : ¬ b.opt.freeForm = true) :
    view { moveToEol t { b with wantedX := x } with xWanted := true } = view b ↔
      if lineOf b b.curLineDesc = [] then b.winX = 0
      else b.curPos = (lineOf b b.curLineDesc).length ∨ OutOfReach t b := by
  have hlt := h.curX_lt
  have hnonneg := h.curX_nonneg
  have hside := moveToEol_sideways t { b with wantedX := x }
  have hside' : Sideways b { moveToEol t { b with wantedX := x } with xWanted := true } :=
    ⟨by conv_lhs => rw [hside.eq], hside.yWanted⟩
  rw [view_eq_iff hside']
  dsimp only
  generalize hmoved : moveToEol t { b with wantedX := x } = moved
  unfold moveToEol at hmoved
  dsimp only at hmoved
  split at hmoved
  · rename_i hempty
    have hempty : lineOf b b.curLineDesc = [] := hempty
    subst hmoved
    have hpos := h.curPos_nonneg
    have hle := h.curPos_le (Bool.eq_false_of_not_eq_true hfree)
    rw [hempty] at hle
    rw [if_pos hempty]
    exact and_iff_right (stands_start h (le_antisymm hle hpos))
  · rename_i hline
    have hline : lineOf b b.curLineDesc ≠ [] := hline
    rw [if_neg hline]
    split at hmoved
    · rename_i hinside
      subst hmoved
      dsimp only
      rw [add_sub_cancel, and_iff_left rfl]
      exact ⟨fun hstands => .inl hstands.1,
        fun hrests => stands_end h (hrests.resolve_right fun hout => hout.1 hinside)⟩
    · rename_i hout
      split at hmoved
      · rename_i width heol
        subst hmoved
        have hout' : ¬ (0 ≤ calcWidth (display t b) (lineOf b b.curLineDesc) - b.winX ∧
            calcWidth (display t b) (lineOf b b.curLineDesc) - b.winX < t.neColumns) :=
          fun hinside => hout ⟨sub_nonneg.mp hinside.1, sub_lt_iff_lt_add'.mp hinside.2⟩
        refine (stands_scrolled_iff h hout').trans ⟨fun hstands => .inl hstands.1, ?_⟩
        rintro (hend | ⟨-, hnarrow⟩)
        · exact stands_end h hend
        · have hnone := (eolWindow_eq_none_iff (d := display t b) hline).mpr hnarrow
          exact absurd (heol.symm.trans hnone) nofun
      · rename_i heol
        subst hmoved
        exact iff_of_true ⟨⟨rfl, rfl, rfl⟩, rfl⟩
          (.inr ⟨hout, (eolWindow_eq_none_iff (d := display t b) hline).mp heol⟩)

theorem view_short_iff (h : CursorInvariant t b) :
    view (land t b x (.short s)) = view b ↔ RestsAt t b x (.short s) := by
  by_cases hfree : b.opt.freeForm = true
  · rw [view_eq_iff (land_sideways t b x _), RestsAt, land, if_pos hfree, if_pos hfree]
    dsimp only
    rw [add_sub_cancel]
    exact and_iff_left rfl
  · rw [RestsAt, land, if_neg hfree, if_neg hfree]
    exact view_moveToEol_iff h hfree

theorem view_resyncPos_iff (h : CursorInvariant t b) :
    view (resyncPos t b) = view b ↔ Rests t b := by
  by_cases hzero : soughtColumn b = 0
  · rw [resyncPos_eq rfl, if_pos hzero, Rests, if_pos hzero]
    have hside : Sideways b { b with curPos := 0, curChar := 0 } := ⟨rfl, id⟩
    refine (view_eq_iff hside).trans ⟨fun hstands => hstands.1.1, fun hpos => ?_⟩
    exact ⟨⟨hpos, (stands_start h hpos).2.1, rfl⟩, rfl⟩
  · rw [resyncPos_eq rfl, if_neg hzero, Rests, if_neg hzero]
    cases landing t b (soughtColumn b) with
    | exact s => exact view_exact_iff h rfl
    | inside s => exact view_inside_iff h
    | short s => exact view_short_iff h

theorem view_resyncPos_yWanted (h : CursorInvariant t b) :
    view (resyncPos t { b with yWanted := false }) = view b ↔ Rests t b :=
  view_resyncPos_iff (b := { b with yWanted := false }) { h with ok := { h.ok with } }

theorem resyncPos_again (hview : view (resyncPos t b) = view b) :
    resyncPos t (resyncPos t b) = resyncPos t b := by
  by_cases hzero : soughtColumn b = 0
  · have hfirst := (resyncPos_eq (t := t) rfl).trans (if_pos hzero)
    rw [hfirst]
    exact (resyncPos_eq (t := t) rfl).trans (if_pos hzero)
  · have hfirst := (resyncPos_eq (t := t) rfl).trans (if_neg hzero)
    rw [hfirst] at hview ⊢
    obtain ⟨hx, hagain⟩ := land_again rfl _ hview
    rw [resyncPos_eq hx, if_neg hzero, landing_land, hagain]

/-- What `prev_page` does at the top of the window, before `resync_pos`. -/
def scrollBack (t : Terminal) (b : Buffer) : Buffer :=
  let turns := min (t.neLines - 2).toNat (nodesBefore b.topLineDesc)
  { b with
    yWanted := false
    winY := max 0 (b.winY - (t.neLines - 2))
    curLine := b.curLine - turns
    topLineDesc := nodeAway b.topLineDesc (-turns)
    curLineDesc := nodeAway b.curLineDesc (-turns) }

theorem prevPage_below (hrow : 0 < b.curY) :
    prevPage t b = (.ok, resyncPos t { b with
      yWanted := false
      curLine := b.curLine - b.curY
      curY := 0
      curLineDesc := b.topLineDesc }) := if_pos hrow

theorem prevPage_top (hrow : ¬ 0 < b.curY) (htop : b.winY = 0) :
    prevPage t b = (.error, { b with yWanted := false }) := (if_neg hrow).trans (if_pos htop)

theorem prevPage_scrolls (hrow : ¬ 0 < b.curY) (htop : b.winY ≠ 0) :
    prevPage t b = (.error, resyncPos t (scrollBack t b)) := (if_neg hrow).trans (if_neg htop)

theorem resyncPos_winY (t : Terminal) (b : Buffer) : (resyncPos t b).winY = b.winY := by
  rw [(resyncPos_sideways t b).eq]

theorem resyncPos_curY (t : Terminal) (b : Buffer) : (resyncPos t b).curY = b.curY := by
  rw [(resyncPos_sideways t b).eq]

theorem prevPage_stays (hrow : ¬ 0 < b.curY) (htop : b.winY = 0) (hwanted : b.yWanted = false) :
    prevPage t b = (.error, b) := by
  rw [prevPage_top hrow htop, ← hwanted]

theorem prevPage_again_of_top (hrow : ¬ 0 < b.curY) (htop : b.winY ≤ t.neLines - 2) :
    prevPage t (prevPage t b).2 = prevPage t b := by
  by_cases hzero : b.winY = 0
  · rw [prevPage_top hrow hzero]
    exact prevPage_stays hrow hzero rfl
  · rw [prevPage_scrolls hrow hzero]
    have hwinY : (scrollBack t b).winY = 0 := max_eq_left (by omega)
    refine prevPage_stays ?_ ?_ ((resyncPos_sideways t _).yWanted rfl)
    · rw [resyncPos_curY]
      exact hrow
    · rw [resyncPos_winY, hwinY]

theorem scrollBack_two (htwo : t.neLines = 2) (hnonneg : 0 ≤ b.winY) :
    scrollBack t b = { b with yWanted := false } := by
  have hzero : ∀ ld : Option Nat, nodeAway ld 0 = ld := by
    intro ld
    cases ld with
    | none => rfl
    | some k => simp [nodeAway]
  simp only [scrollBack, htwo]
  simp [hzero, hnonneg]

theorem prevPage_descends (hrow : ¬ 0 < b.curY) (hlines : 0 ≤ t.neLines - 2)
    (hnonneg : 0 ≤ b.winY) :
    (prevPage t b).2.winY ≤ b.winY ∧ 0 ≤ (prevPage t b).2.winY ∧ ¬ 0 < (prevPage t b).2.curY := by
  by_cases hzero : b.winY = 0
  · rw [prevPage_top hrow hzero]
    exact ⟨le_refl _, hnonneg, hrow⟩
  · rw [prevPage_scrolls hrow hzero]
    simp only [resyncPos_winY, resyncPos_curY]
    exact ⟨max_le hnonneg (by omega), le_max_left _ _, hrow⟩

theorem iterate_prevPage_le (hlines : 0 ≤ t.neLines - 2) (n : Nat) (hrow : ¬ 0 < b.curY)
    (hnonneg : 0 ≤ b.winY) : ((fun b => (prevPage t b).2)^[n] b).winY ≤ b.winY := by
  induction n generalizing b with
  | zero => exact le_refl _
  | succ n ih =>
      obtain ⟨hle, hnonneg', hrow'⟩ := prevPage_descends hrow hlines hnonneg
      rw [Function.iterate_succ_apply]
      exact (ih hrow' hnonneg').trans hle

/-- The counts with which `PrevPage` does what it should, and the places where it does: on
the first row of a window that may still be moved up it moves the window and reports an
error, unless the screen has one line of text and the cursor rests. -/
structure PageFits (t : Terminal) (b : Buffer) (n : Nat) : Prop where
  top : b.curY = 0 →
    b.winY = 0 ∨ t.neLines = 2 ∧ Rests t b
  below : 0 < b.curY → n ≤ 2 ∨ b.winY ≤ t.neLines - 2

theorem repeatWhileOk_of_again (h : (f b).1 ≠ .ok) (hagain : f (f b).2 = f b) (n : Nat) :
    (repeatWhileOk f n b).2 = (fun b => (f b).2)^[n] b := by
  cases n with
  | zero => rfl
  | succ n => rw [repeatWhileOk_error h, iterate_fixed hagain]

theorem prevPage_iterates (h : CursorInvariant t b) (hfits : PageFits t b n) :
    Iterates (prevPage t) n b ∧ ErrsInPlace (prevPage t) b := by
  have hnonneg := h.ok.winY_nonneg
  have hlines : 0 ≤ t.neLines - 2 := h.curY_nonneg.trans h.curY_le
  rw [iterates_iff, errsInPlace_iff]
  by_cases hrow : 0 < b.curY
  · have hfirst := prevPage_below (t := t) hrow
    have hok : (prevPage t b).1 = .ok := by rw [hfirst]
    refine ⟨?_, fun _ => hok⟩
    have hrow' : ¬ 0 < (prevPage t b).2.curY := by
      rw [hfirst, resyncPos_curY]
      exact lt_irrefl 0
    have hwinY : (prevPage t b).2.winY = b.winY := by
      rw [hfirst, resyncPos_winY]
    rcases n with _ | n
    · rfl
    rw [repeatWhileOk_succ hok, Function.iterate_succ_apply]
    have herror : (prevPage t (prevPage t b).2).1 ≠ .ok := by
      by_cases hzero : (prevPage t b).2.winY = 0
      · rw [prevPage_top hrow' hzero]
        nofun
      · rw [prevPage_scrolls hrow' hzero]
        nofun
    rcases hfits.below hrow with hsmall | htop
    · rcases n with _ | n
      · rfl
      · obtain rfl : n = 0 := by omega
        exact congrArg Prod.snd (repeatWhileOk_error herror)
    · exact repeatWhileOk_of_again herror
        (prevPage_again_of_top hrow' (hwinY ▸ htop)) n
  · have hzero : b.curY = 0 := le_antisymm (not_lt.mp hrow) h.curY_nonneg
    by_cases htop : b.winY = 0
    · have hfirst := prevPage_top (t := t) hrow htop
      refine ⟨repeatWhileOk_of_again (by rw [hfirst]; nofun)
        (prevPage_again_of_top hrow (by omega)) n, fun hmoved => absurd ?_ hmoved⟩
      rw [hfirst]
      rfl
    · obtain ⟨htwo, hrests⟩ := (hfits.top hzero).resolve_left htop
      have hview := (view_resyncPos_yWanted h).mpr hrests
      have hfirst := prevPage_scrolls (t := t) hrow htop
      rw [scrollBack_two htwo hnonneg] at hfirst
      refine ⟨repeatWhileOk_of_again (by rw [hfirst]; nofun) ?_ n,
        fun hmoved => absurd (by rw [hfirst, hview]) hmoved⟩
      have hagain := resyncPos_again (t := t) (b := { b with yWanted := false }) hview
      have hwanted := (resyncPos_sideways t { b with yWanted := false }).yWanted rfl
      have hwinY := resyncPos_winY t { b with yWanted := false }
      have hcurY := resyncPos_curY t { b with yWanted := false }
      rw [hfirst]
      revert hagain hwanted hwinY hcurY
      generalize resyncPos t { b with yWanted := false } = moved
      intro hagain hwanted hwinY hcurY
      have hsame : { moved with yWanted := false } = moved := by rw [← hwanted]
      rw [prevPage_scrolls (by rwa [hcurY]) (by rwa [hwinY]),
        scrollBack_two htwo (by rwa [hwinY]), hsame, hagain]

theorem prevPage_fits (h : CursorInvariant t b)
    (hiterates : Iterates (prevPage t) n b) (herrs : ErrsInPlace (prevPage t) b) :
    PageFits t b n := by
  have hnonneg := h.ok.winY_nonneg
  have hlines : 0 ≤ t.neLines - 2 := h.curY_nonneg.trans h.curY_le
  rw [iterates_iff] at hiterates
  rw [errsInPlace_iff] at herrs
  refine ⟨fun hzero => ?_, fun hrow => ?_⟩
  · by_contra hnot
    obtain ⟨htop, hmoves⟩ := not_or.mp hnot
    have hrow : ¬ 0 < b.curY := by omega
    have hfirst := prevPage_scrolls (t := t) hrow htop
    have hview : view (prevPage t b).2 = view b := by
      by_contra hmoved
      have hok := herrs hmoved
      rw [hfirst] at hok
      exact absurd hok nofun
    have hwinY : max 0 (b.winY - (t.neLines - 2)) = b.winY := by
      have hsame := congrArg View.winY hview
      rw [hfirst] at hsame
      simpa only [view, resyncPos_winY, scrollBack] using hsame
    have htwo : t.neLines = 2 := by
      rcases max_choice 0 (b.winY - (t.neLines - 2)) with hmax | hmax
      · rw [hmax] at hwinY
        exact absurd hwinY.symm htop
      · rw [hmax] at hwinY
        omega
    rw [hfirst, scrollBack_two htwo hnonneg] at hview
    exact hmoves ⟨htwo, (view_resyncPos_yWanted h).mp hview⟩
  · by_contra hnot
    obtain ⟨hlarge, hbelow⟩ := not_or.mp hnot
    obtain ⟨k, rfl⟩ : ∃ k, n = k + 3 := ⟨n - 3, by omega⟩
    have hpage : 0 < t.neLines - 2 := hrow.trans_le h.curY_le
    -- The second page ends the loop, and a third one would go on.
    have hfirst := prevPage_below (t := t) hrow
    have hok : (prevPage t b).1 = .ok := by rw [hfirst]
    have hrow₁ : ¬ 0 < (prevPage t b).2.curY := by
      rw [hfirst, resyncPos_curY]
      exact lt_irrefl 0
    have hwinY₁ : (prevPage t b).2.winY = b.winY := by
      rw [hfirst, resyncPos_winY]
    have hsecond := prevPage_scrolls (t := t) hrow₁ (by omega)
    have hwinY₂ : (prevPage t (prevPage t b).2).2.winY = b.winY - (t.neLines - 2) := by
      rw [hsecond, resyncPos_winY, scrollBack, hwinY₁]
      exact max_eq_right (by omega)
    have hrow₂ : ¬ 0 < (prevPage t (prevPage t b).2).2.curY := by
      rw [hsecond, resyncPos_curY]
      exact hrow₁
    rw [repeatWhileOk_succ hok, repeatWhileOk_error (by rw [hsecond]; nofun),
      Function.iterate_succ_apply, Function.iterate_succ_apply, Function.iterate_succ_apply]
      at hiterates
    have hthird := prevPage_scrolls (t := t) hrow₂ (by omega)
    obtain ⟨-, hnonneg₃, hrow₃⟩ := prevPage_descends hrow₂ hlines (by omega)
    have hle := iterate_prevPage_le hlines k hrow₃ hnonneg₃
    rw [← hiterates, hthird, resyncPos_winY, scrollBack, hwinY₂] at hle
    rcases max_choice 0 (b.winY - (t.neLines - 2) - (t.neLines - 2)) with hmax | hmax
    all_goals
      simp only [hmax] at hle
      omega

theorem repeated_sticks {a : Action} (hf : repeated t a = some f) (ha : a ≠ .prevPageA) :
    Sticks f := by
  unfold repeated at hf
  split at hf
  · exact Option.some.inj hf ▸ lineUp_sticks
  · exact Option.some.inj hf ▸ lineDown_sticks
  · exact absurd rfl ha
  · exact Option.some.inj hf ▸ nextPage_sticks
  · exact Option.some.inj hf ▸ charLeft_sticks
  · exact Option.some.inj hf ▸ charRight_sticks
  · exact Option.some.inj hf ▸ pageUp_sticks
  · exact Option.some.inj hf ▸ pageDown_sticks
  · exact absurd hf nofun

/-- The counts of the movements are repetitions, and no movement reports an error, if and
only if it is not `PrevPage` or `PrevPage` fits. -/
theorem iterates_iff_pageFits {a : Action} (h : CursorInvariant t b)
    (hf : repeated t a = some f) :
    (Iterates f n b ∧ ErrsInPlace f b) ↔ (a = .prevPageA → PageFits t b n) := by
  by_cases ha : a = .prevPageA
  · subst ha
    obtain rfl : prevPage t = f := Option.some.inj hf
    exact ⟨fun hboth _ => prevPage_fits h hboth.1 hboth.2,
      fun hfits => prevPage_iterates h (hfits rfl)⟩
  · have hsticks := repeated_sticks hf ha
    refine ⟨fun _ hprev => absurd hprev ha, fun _ => ⟨?_, hsticks.errsInPlace b⟩⟩
    exact iterates_iff.mpr (hsticks.iterates n b)

def smallScreen : Terminal := ⟨4, 80, fun _ => 1, by decide, eighty_pos⟩

/-- A document of ten empty lines, with the cursor on the first row of the window. -/
def paged : Buffer :=
  { allocBuffer false none fun _ => true with
    lineDescList := List.replicate 10 ⟨none, 0⟩
    numLines := 10
    winY := 6
    curLine := 6
    curLineDesc := some 6
    topLineDesc := some 6 }

theorem cursorInvariant_paged : CursorInvariant smallScreen paged where
  ok := ⟨rfl, by decide, by decide, by decide, rfl, rfl⟩
  curLine := rfl
  curY_nonneg := by decide
  curY_le := by decide
  curX_nonneg := by decide
  curX_lt := by decide
  winX := rfl
  curPos_nonneg := by decide
  curPos_le := by decide
  column := by decide

/-- From the second row of the window, two pages up -/
theorem iterates_iff_pageFits_secondRow :
    Iterates (prevPage smallScreen) 2
        { paged with curY := 1, curLine := 7, curLineDesc := some 7 } ∧
      ErrsInPlace (prevPage smallScreen)
        { paged with curY := 1, curLine := 7, curLineDesc := some 7 } := by
  have h : CursorInvariant smallScreen
      { paged with curY := 1, curLine := 7, curLineDesc := some 7 } :=
    { cursorInvariant_paged with
      ok := ⟨rfl, by decide, by decide, by decide, rfl, rfl⟩
      curLine := rfl
      curY_nonneg := by decide
      curY_le := by decide
      curPos_le := by decide
      column := by decide }
  exact (iterates_iff_pageFits (a := .prevPageA) h rfl).mpr fun _ =>
    ⟨nofun, fun _ => Or.inl le_rfl⟩

/-- `PrevPage 2` stops after the first page, with an error. -/
theorem not_iterates :
    ¬ ∀ (t : Terminal) (b : Buffer) (a : Action) (f : Buffer → Status × Buffer) (n : Nat),
      CursorInvariant t b → repeated t a = some f → 1 ≤ n → Iterates f n b ∧ ErrsInPlace f b := by
  intro h
  obtain ⟨hiterates, -⟩ := h smallScreen paged .prevPageA _ 2 cursorInvariant_paged rfl (by decide)
  have hwinY := congrArg Buffer.winY hiterates
  revert hwinY
  decide +kernel

end NiceEditor.RepeatCounts
