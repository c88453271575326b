import NiceEditor.Characters
import NiceEditor.RepeatCounts

namespace NiceEditor.WantedColumns

open NiceEditor.Pools
open NiceEditor.BufferData
open NiceEditor.Encoding
open NiceEditor.Navigation
open NiceEditor.Cursor
open NiceEditor.Movement
open NiceEditor.RepeatCounts

/-- `line_up` or `line_down` -/
def vertical (t : Terminal) (up : Bool) (b : Buffer) : Status × Buffer :=
  if up then lineUp t b else lineDown t b

/-- The cursor after so many movements. -/
def moves (t : Terminal) (up : Bool) (n : Nat) (b : Buffer) : Buffer :=
  (fun b => (vertical t up b).2)^[n] b

/-- So many movements succeed. -/
def Succeeds (t : Terminal) (up : Bool) (n : Nat) (b : Buffer) : Prop :=
  ∀ i < n, (vertical t up (moves t up i b)).1 = .ok

/-- The cursor is on its line and in its row of the window. -/
structure Rowed (t : Terminal) (b : Buffer) : Prop where
  ok : CursorOk b
  curLine : b.curLine = b.winY + b.curY
  curY_nonneg : 0 ≤ b.curY
  curY_le : b.curY ≤ t.neLines - 2

/-- What holds of a buffer `b'` on the way from `b`: only the cursor has moved, and the column
that is looked for is `x`. -/
structure Tracks (t : Terminal) (b : Buffer) (x : Int) (b' : Buffer) : Prop where
  moved : Moved b b'
  rowed : Rowed t b'
  sought : soughtColumn b' = x
  zero : x = 0 → b'.xWanted = false

variable {t : Terminal} {b b' b'' : Buffer} {up : Bool} {x : Int} {n : Nat} {d : Display}
variable {line : List Byte} {s : Scan}

theorem moved_refl (b : Buffer) : Moved b b := rfl

theorem moved_trans (h : Moved b b') (h' : Moved b' b'') : Moved b b'' := by
  rw [Moved] at *
  rw [h', h]

theorem soughtColumn_land (hx : soughtColumn b = x) (l : Landing) :
    soughtColumn (land t b x l) = x := by
  cases l with
  | exact s =>
      by_cases hwanted : b.xWanted = true
      · simp only [land, hwanted, if_true]
        split
        · simp [soughtColumn]
        · simp [soughtColumn]
      · have hland : land t b x (.exact s) = { b with curPos := s.pos, curChar := s.char } :=
          if_neg hwanted
        rw [hland]
        exact hx
  | inside s =>
      simp only [land]
      repeat' split
      all_goals rfl
  | short s =>
      rw [land]
      split
      · simp [soughtColumn]
      · exact moveToEol_wantedX t { b with wantedX := x }

theorem soughtColumn_resyncPos (t : Terminal) (b : Buffer) :
    soughtColumn (resyncPos t b) = soughtColumn b := by
  rw [resyncPos_eq rfl]
  split
  · rfl
  · exact soughtColumn_land rfl _

theorem moved_resyncPos (t : Terminal) (b : Buffer) : Moved b (resyncPos t b) := by
  have heq := (resyncPos_sideways t b).eq
  rw [Moved, heq]

theorem Rowed.resyncPos (h : Rowed t b) : Rowed t (resyncPos t b) := by
  have hsideways := (resyncPos_sideways t b).eq
  obtain ⟨⟨hnum, hnonneg, hle, hlt, hcur, htop⟩, hline, hrow, hrow'⟩ := h
  rw [hsideways]
  exact ⟨⟨hnum, hnonneg, hle, hlt, hcur, htop⟩, hline, hrow, hrow'⟩

/-- The lines to move to. -/
def hasLine (up : Bool) (b : Buffer) : Prop :=
  if up then 0 < b.curLine else b.curLine + 1 < b.numLines

/-- A vertical movement succeeds if there is a line to move to: it goes there and looks for its
column. -/
theorem vertical_step (h : Rowed t b) (hhas : hasLine up b) :
    ∃ b', vertical t up b = (.ok, resyncPos t b') ∧ Moved b b' ∧ Rowed t b' ∧
      b'.curLine = b.curLine + (if up then -1 else 1) ∧ soughtColumn b' = soughtColumn b ∧
      b'.xWanted = b.xWanted ∧ b'.winX = b.winX ∧ b'.curX = b.curX := by
  obtain ⟨⟨hnum, hnonneg, hle, hlt, hcur, htop⟩, hline, hrow, hrow'⟩ := h
  have hdesc : ∀ i : Int, 0 ≤ b.curLine + i →
      nodeAway b.curLineDesc i = some (b.curLine + i).toNat := by
    intro i hi
    rw [hcur, nodeAway, Option.map_some]
    congr 1
    omega
  have htopDesc : ∀ i : Int, 0 ≤ b.winY + i →
      nodeAway b.topLineDesc i = some (b.winY + i).toNat := by
    intro i hi
    rw [htop, nodeAway, Option.map_some]
    congr 1
    omega
  cases up with
  | true =>
      have hhas : 0 < b.curLine := by simpa [hasLine] using hhas
      rw [vertical, if_pos rfl, lineUp]
      dsimp only
      split
      case isTrue hinside =>
          refine ⟨_, rfl, rfl, ⟨⟨hnum, hnonneg, ?_, ?_, ?_, htop⟩, ?_, ?_, ?_⟩,
            rfl, rfl, rfl, rfl, rfl⟩
          · dsimp only
            omega
          · dsimp only
            omega
          · exact hdesc (-1) (by omega)
          · dsimp only
            omega
          · dsimp only
            omega
          · dsimp only
            omega
      case isFalse hinside =>
          rw [if_pos (by omega)]
          refine ⟨_, rfl, rfl, ⟨⟨hnum, ?_, ?_, ?_, ?_, ?_⟩, ?_, hrow, hrow'⟩,
            rfl, rfl, rfl, rfl, rfl⟩
          · dsimp only
            omega
          · dsimp only
            omega
          · dsimp only
            omega
          · exact hdesc (-1) (by omega)
          · exact htopDesc (-1) (by omega)
          · dsimp only
            omega
  | false =>
      have hhas : b.curLine + 1 < b.numLines := by simpa [hasLine] using hhas
      rw [vertical, if_neg Bool.false_ne_true, lineDown]
      dsimp only
      split
      case isTrue hinside =>
          refine ⟨_, rfl, rfl, ⟨⟨hnum, hnonneg, ?_, ?_, ?_, htop⟩, ?_, ?_, ?_⟩,
            rfl, rfl, rfl, rfl, rfl⟩
          · dsimp only
            omega
          · dsimp only
            omega
          · exact hdesc 1 (by omega)
          · dsimp only
            omega
          · dsimp only
            omega
          · dsimp only
            omega
      case isFalse hinside =>
          rw [if_pos (by omega)]
          refine ⟨_, rfl, rfl, ⟨⟨hnum, ?_, ?_, ?_, ?_, ?_⟩, ?_, hrow, hrow'⟩,
            rfl, rfl, rfl, rfl, rfl⟩
          · dsimp only
            omega
          · dsimp only
            omega
          · dsimp only
            omega
          · exact hdesc 1 (by omega)
          · exact htopDesc 1 (by omega)
          · dsimp only
            omega

theorem vertical_error (h : Rowed t b) (hnone : ¬ hasLine up b) : (vertical t up b).1 = .error := by
  obtain ⟨⟨hnum, hnonneg, hle, hlt, -, -⟩, hline, hrow, hrow'⟩ := h
  cases up with
  | true =>
      have hnone : ¬ 0 < b.curLine := by simpa [hasLine] using hnone
      rw [vertical, if_pos rfl, lineUp, if_neg (by dsimp only; omega),
        if_neg (by dsimp only; omega)]
  | false =>
      have hnone : ¬ b.curLine + 1 < b.numLines := by simpa [hasLine] using hnone
      rw [vertical, if_neg Bool.false_ne_true, lineDown, if_neg (by dsimp only; omega),
        if_neg (by dsimp only; omega)]

theorem scanLine_col_nonneg (htab : 0 < d.tabSize) (m : Int) : 0 ≤ (scanLine d line m).col :=
  scanTo_col_le (s := ⟨0, 0, 0⟩) htab m m.toNat le_rfl

theorem scanLine_col_pos (htab : 0 < d.tabSize) {m : Int} (hm : 0 < m) :
    0 < (scanLine d line m).col := by
  obtain ⟨turns, hturns⟩ : ∃ turns, m.toNat = turns + 1 := ⟨m.toNat - 1, by omega⟩
  have hnext := scanChar_col_lt (d := d) (s := ⟨0, 0, 0⟩) line htab
  rw [scanLine, hturns, scanTo, if_pos hm]
  exact hnext.trans_le (scanTo_col_le htab m turns hnext.le)

theorem resyncLoop_exact (htab : 0 < d.tabSize) {m : Int} (hm : m ≤ line.length) {turns : Nat}
    (turns' : Nat) (hturns : turns ≤ turns') (hcol : 0 ≤ s.col)
    (hlt : s.col < (scanTo d line m turns s).col) :
    resyncLoop d line (scanTo d line m turns s).col turns' s =
      .exact (scanTo d line m turns s) := by
  induction turns generalizing s turns' with
  | zero => exact absurd hlt (lt_irrefl _)
  | succ turns ih =>
      obtain _ | turns' := turns'
      · omega
      rw [scanTo] at hlt ⊢
      split at hlt
      case isFalse => exact absurd hlt (lt_irrefl _)
      case isTrue hmore =>
          have hnext := scanChar_col_lt (s := s) line htab
          rw [if_pos hmore, resyncLoop, if_pos (by omega)]
          dsimp only
          rcases @scanTo_eq_or_lt d line (scanChar d line s) htab m turns
            (hcol.trans hnext.le) with heq | hfurther
          · rw [heq, if_pos rfl]
          · rw [if_neg (by omega), if_neg (by omega)]
            exact ih turns' (by omega) (hcol.trans hnext.le) hfurther

theorem resyncLoop_short (htab : 0 < d.tabSize) (turns : Nat) (hcol : 0 ≤ s.col)
    (hlt : (scanTo d line line.length turns s).col < x) :
    resyncLoop d line x turns s = .short (scanTo d line line.length turns s) := by
  induction turns generalizing s with
  | zero => rfl
  | succ turns ih =>
      rw [scanTo] at hlt ⊢
      rw [resyncLoop]
      split at hlt
      case isFalse hend => rw [if_neg hend, if_neg hend]
      case isTrue hmore =>
          have hnext := scanChar_col_lt (s := s) line htab
          have hle : (scanChar d line s).col ≤
              (scanTo d line line.length turns (scanChar d line s)).col :=
            scanTo_col_le htab line.length turns (hcol.trans hnext.le)
          rw [if_pos hmore, if_pos hmore]
          dsimp only
          rw [if_neg (by omega), if_neg (by omega)]
          exact ih (hcol.trans hnext.le) hlt

theorem Tracks.resync (h : Tracks t b x b') : Tracks t b x (resyncPos t b') := by
  obtain ⟨hmoved, hrowed, hsought, hzero⟩ := h
  refine ⟨moved_trans hmoved (moved_resyncPos t b'), hrowed.resyncPos,
    (soughtColumn_resyncPos t b').trans hsought, fun hx => ?_⟩
  rw [resyncPos_eq hsought, if_pos hx]
  exact hzero hx

theorem Tracks.step (h : Tracks t b x b') (hok : (vertical t up b').1 = .ok) :
    ∃ b'', (vertical t up b').2 = resyncPos t b'' ∧ Tracks t b x b'' ∧
      b''.curLine = b'.curLine + (if up then -1 else 1) := by
  obtain ⟨hmoved, hrowed, hsought, hzero⟩ := h
  have hhas : hasLine up b' := by
    by_contra hnone
    rw [vertical_error hrowed hnone] at hok
    exact absurd hok nofun
  obtain ⟨b'', heq, hmoved', hrowed', hline, hsought', hwanted, -⟩ := vertical_step hrowed hhas
  exact ⟨b'', by rw [heq], ⟨moved_trans hmoved hmoved', hrowed', hsought'.trans hsought,
    fun hx => hwanted.trans (hzero hx)⟩, hline⟩

theorem moves_succ (t : Terminal) (up : Bool) (n : Nat) (b : Buffer) :
    moves t up (n + 1) b = (vertical t up (moves t up n b)).2 :=
  Function.iterate_succ_apply' _ n b

theorem Tracks.run (h : Tracks t b x b') (n : Nat) (hn : Succeeds t up n b') :
    Tracks t b x (moves t up n b') ∧
      (moves t up n b').curLine = b'.curLine + n * (if up then -1 else 1) := by
  induction n with
  | zero => exact ⟨h, by simp [moves]⟩
  | succ n ih =>
      obtain ⟨htracks, hline⟩ := ih fun i hi => hn i (by omega)
      obtain ⟨b'', heq, htracks', hline'⟩ := htracks.step (hn n (Nat.lt_succ_self n))
      rw [moves_succ, heq]
      refine ⟨htracks'.resync, ?_⟩
      have hsame := congrArg Buffer.curLine (resyncPos_sideways t b'').eq
      dsimp only at hsame
      rw [hsame, hline', hline]
      push_cast
      cases up <;> simp <;> ring

/-- The cursor is where it has been. -/
structure Returned (b b' : Buffer) : Prop where
  moved : Moved b b'
  curLine : b'.curLine = b.curLine
  column : b'.winX + b'.curX = b.winX + b.curX
  xWanted : b'.xWanted = false
  curPos : WholeChars b.encoding ((lineOf b b.curLineDesc).take b.curPos.toNat) →
    b'.curPos = b.curPos

theorem Tracks.lineOf_eq (h : Tracks t b x b') (hok : CursorOk b) (hline : b'.curLine = b.curLine) :
    lineOf b' b'.curLineDesc = lineOf b b.curLineDesc := by
  rw [h.rowed.ok.cur, hok.cur, hline]
  rw [h.moved]
  rfl

theorem Tracks.display_eq (h : Tracks t b x b') : display t b' = display t b := by
  rw [h.moved]
  rfl

theorem Tracks.freeForm (h : Tracks t b x b') : b'.opt.freeForm = b.opt.freeForm := by
  rw [h.moved]

theorem curPos_of_column_zero (h : CursorInvariant t b) (htab : 0 < b.opt.tabSize)
    (hzero : b.winX + b.curX = 0) : b.curPos = 0 := by
  have hnonneg := h.curPos_nonneg
  obtain ⟨hcolumn, -⟩ := h.column
  generalize lineOf b b.curLineDesc = line at hcolumn
  have hcol := @scanLine_col_nonneg (display t b) line htab (min b.curPos line.length)
  rcases lt_or_ge 0 (min b.curPos (line.length : Int)) with hpos | hle
  · have := @scanLine_col_pos (display t b) line htab _ hpos
    omega
  · omega

theorem land_exact (t : Terminal) (b : Buffer) (x : Int) (s : Scan) :
    (land t b x (.exact s)).xWanted = false ∧ (land t b x (.exact s)).curPos = s.pos := by
  by_cases hwanted : b.xWanted = true
  · simp only [land, hwanted, if_true]
    split <;> exact ⟨rfl, rfl⟩
  · have hland : land t b x (.exact s) = { b with curPos := s.pos, curChar := s.char } :=
      if_neg hwanted
    rw [hland]
    exact ⟨by simpa using hwanted, rfl⟩

/-- On its line the column is found again. -/
theorem Tracks.returned (h : CursorInvariant t b) (htab : 0 < b.opt.tabSize)
    (htracks : Tracks t b (b.winX + b.curX) b') (hline : b'.curLine = b.curLine) :
    Returned b (resyncPos t b') := by
  have hresync := htracks.resync
  have hsame := congrArg Buffer.curLine (resyncPos_sideways t b').eq
  dsimp only at hsame
  -- what is found has to be the column itself
  have hfound : (resyncPos t b').xWanted = false →
      (WholeChars b.encoding ((lineOf b b.curLineDesc).take b.curPos.toNat) →
        (resyncPos t b').curPos = b.curPos) → Returned b (resyncPos t b') := by
    intro hwanted hpos
    refine ⟨hresync.moved, hsame.trans hline, ?_, hwanted, hpos⟩
    have hsought := hresync.sought
    rwa [soughtColumn, if_neg (by rw [hwanted]; exact Bool.false_ne_true)] at hsought
  by_cases hzero : b.winX + b.curX = 0
  · refine hfound (hresync.zero hzero) fun _ => ?_
    rw [resyncPos_eq htracks.sought, if_pos hzero, curPos_of_column_zero h htab hzero]
  · have hlineOf := htracks.lineOf_eq h.ok hline
    have hdisplay := htracks.display_eq
    have hnonneg := h.curPos_nonneg
    obtain ⟨hcolumn, -⟩ := h.column
    have hresyncPos := resyncPos_eq (t := t) htracks.sought
    rw [if_neg hzero, landing, hlineOf, hdisplay] at hresyncPos
    generalize hl : lineOf b b.curLineDesc = line at *
    rcases le_or_gt b.curPos line.length with hle | hgt
    · -- in the line
      have hpos : 0 < b.curPos := by
        by_contra hnot
        have hzero' : b.curPos = 0 := by omega
        rw [hzero', min_eq_left (by omega), max_eq_left (by omega)] at hcolumn
        exact hzero (by simpa [scanLine, scanTo] using hcolumn)
      rw [min_eq_left hle, max_eq_left (by omega), Int.add_zero] at hcolumn
      have hexact := @resyncLoop_exact (display t b) line ⟨0, 0, 0⟩ htab _ hle _
        line.length (show b.curPos.toNat ≤ line.length by omega) le_rfl
        (@scanLine_col_pos (display t b) line htab _ hpos)
      have hcolumn' : b.winX + b.curX =
          (scanTo (display t b) line b.curPos b.curPos.toNat ⟨0, 0, 0⟩).col := hcolumn
      rw [← hcolumn'] at hexact
      rw [hexact] at hresyncPos
      obtain ⟨hwanted, hcurPos⟩ := land_exact t b' (b.winX + b.curX)
        (scanTo (display t b) line b.curPos b.curPos.toNat ⟨0, 0, 0⟩)
      rw [← hresyncPos] at hwanted hcurPos
      refine hfound hwanted fun hwhole => hcurPos.trans ?_
      have hplace : b.curPos = (b.curPos.toNat : Int) := by omega
      have hscan := scanLine_pos (d := display t b) (show b.curPos.toNat ≤ line.length by omega)
        hwhole
      rw [← hplace] at hscan
      exact hscan
    · -- behind its end, in free form
      have hfree : b'.opt.freeForm = true := by
        rw [htracks.freeForm]
        by_contra hnot
        have := h.curPos_le (by simpa using hnot)
        rw [hl] at this
        omega
      rw [min_eq_right hgt.le, max_eq_right (by omega)] at hcolumn
      have hcolumn' : b.winX + b.curX =
          (scanTo (display t b) line line.length line.length ⟨0, 0, 0⟩).col +
            (b.curPos - line.length) := hcolumn
      have hshort := @resyncLoop_short (b.winX + b.curX) (display t b) line
        ⟨0, 0, 0⟩ htab line.length le_rfl (by omega)
      rw [hshort, land, if_pos hfree] at hresyncPos
      rw [hresyncPos] at hfound ⊢
      refine hfound rfl fun _ => ?_
      dsimp only
      rw [hlineOf]
      omega

/-- Vertical movements and as many movements back lead to the same place: they succeed, and the
line, the column and the position are as before. -/
theorem vertical_returns (t : Terminal) (up : Bool) (n : Nat) (h : CursorInvariant t b)
    (htab : 0 < b.opt.tabSize) (hwanted : b.xWanted = false) (hn : Succeeds t up n b) :
    Succeeds t (!up) n (moves t up n b) ∧ Returned b (moves t (!up) n (moves t up n b)) := by
  have hsought : soughtColumn b = b.winX + b.curX := by
    rw [soughtColumn, if_neg (by rw [hwanted]; exact Bool.false_ne_true)]
  have htracks : Tracks t b (b.winX + b.curX) b :=
    ⟨moved_refl b, ⟨h.ok, h.curLine, h.curY_nonneg, h.curY_le⟩, hsought, fun _ => hwanted⟩
  obtain ⟨hthere, hline⟩ := htracks.run n hn
  have hsucceeds : Succeeds t (!up) n (moves t up n b) := by
    intro i hi
    induction i using Nat.strong_induction_on with
    | _ i ih =>
        obtain ⟨hback, hline'⟩ := hthere.run i fun j hj => ih j hj (hj.trans hi)
        have hhas : hasLine (!up) (moves t (!up) i (moves t up n b)) := by
          have hnum : (moves t (!up) i (moves t up n b)).numLines = b.numLines := by
            rw [hback.moved]
          have hlt := h.ok.curLine_lt
          have hnonneg := h.ok.winY_nonneg
          have hle := h.ok.winY_le
          rw [hline] at hline'
          generalize moves t (!up) i (moves t up n b) = b' at hline' hnum ⊢
          cases up with
          | true =>
              simp only [hasLine, Bool.not_true, Bool.false_eq_true, if_false, if_true] at hline' ⊢
              omega
          | false =>
              simp only [hasLine, Bool.not_false, Bool.false_eq_true, if_false, if_true] at hline' ⊢
              omega
        obtain ⟨b'', heq, -⟩ := vertical_step hback.rowed hhas
        rw [heq]
  refine ⟨hsucceeds, ?_⟩
  obtain _ | n := n
  · exact ⟨moved_refl b, rfl, rfl, hwanted, fun _ => rfl⟩
  · obtain ⟨hback, hline'⟩ := hthere.run n fun i hi => hsucceeds i (by omega)
    obtain ⟨b'', heq, hlast, hline''⟩ := hback.step (hsucceeds n (Nat.lt_succ_self n))
    rw [moves_succ, heq]
    refine Tracks.returned h htab hlast ?_
    rw [hline'', hline', hline]
    push_cast
    cases up <;> simp <;> ring

/-- A terminal on which the characters from U+2E80 on take two columns -/
def wideScreen : Terminal :=
  ⟨24, 80, fun c => if c < 0x2E80 then 1 else 2, twentyFour_pos, eighty_pos⟩

/-- Two letters behind a TAB, an empty line, and eight letters before a wide one: the cursor is on
the second letter of the first line, in column 9, where the wide letter is, too. -/
def columns : Buffer :=
  let b := Characters.document
    ([9, 97, 98, 0, 0] ++ List.replicate 8 97 ++ [0xE4, 0xB8, 0xAD, 98]) .utf8 0 2
  { b with curX := 9, curChar := 2 }

theorem cursorInvariant_columns : CursorInvariant wideScreen columns where
  ok := ⟨by decide, by decide, by decide, by decide, rfl, by decide⟩
  curLine := by decide
  curY_nonneg := by decide
  curY_le := by decide
  curX_nonneg := by decide
  curX_lt := by decide
  winX := by decide
  curPos_nonneg := by decide
  curPos_le := by decide
  column := by decide +kernel

theorem vertical_returns_columns :
    Succeeds wideScreen true 2 (moves wideScreen false 2 columns) ∧
      Returned columns (moves wideScreen true 2 (moves wideScreen false 2 columns)) := by
  have hdown : Succeeds wideScreen false 2 columns := by
    unfold Succeeds
    decide +kernel
  exact vertical_returns wideScreen false 2 cursorInvariant_columns (by decide) rfl hdown

/-- On the way the cursor is at the start of the wide letter. -/
example : (moves wideScreen false 2 columns).curPos = 8 := by decide +kernel

end NiceEditor.WantedColumns
