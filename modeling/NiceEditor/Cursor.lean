import NiceEditor.Navigation

namespace NiceEditor.Cursor

open NiceEditor.Pools
open NiceEditor.BufferData
open NiceEditor.Encoding
open NiceEditor.Navigation

/-- Bytes that are the bytes of whole characters. -/
inductive WholeChars (encoding : EncodingType) : List Byte → Prop
  | nil : WholeChars encoding []
  | cons {c : Byte} {tail rest : List Byte} (hlen : charLen encoding c = tail.length + 1)
      (h : WholeChars encoding rest) : WholeChars encoding (c :: (tail ++ rest))

/-- The cursor and the top of the window are on lines of the document. -/
structure CursorOk (b : Buffer) : Prop where
  numLines : b.numLines = b.lineDescList.length
  winY_nonneg : 0 ≤ b.winY
  winY_le : b.winY ≤ b.curLine
  curLine_lt : b.curLine < b.numLines
  cur : b.curLineDesc = some b.curLine.toNat
  top : b.topLineDesc = some b.winY.toNat

/-- Only the cursor and the window have moved. -/
def Moved (b b' : Buffer) : Prop :=
  b' = { b with
    curLineDesc := b'.curLineDesc
    topLineDesc := b'.topLineDesc
    winX := b'.winX
    winY := b'.winY
    curX := b'.curX
    curY := b'.curY
    wantedX := b'.wantedX
    curLine := b'.curLine
    curPos := b'.curPos
    curChar := b'.curChar
    xWanted := b'.xWanted
    yWanted := b'.yWanted }

variable {b b' : Buffer} {t : Terminal} {d : Display} {line l s : List Byte} {n k pos turns : Nat}

theorem wholeChars_of_ne_utf8 {encoding : EncodingType} (h : encoding ≠ .utf8) (s : List Byte) :
    WholeChars encoding s := by
  induction s with
  | nil => exact .nil
  | cons c s ih =>
      exact @WholeChars.cons encoding c [] s (by simp [charLen, h]) ih

theorem scanChar_pos {c : Byte} {tail rest : List Byte} {at_ : Scan}
    (hs : line.drop k = c :: (tail ++ rest)) (hlen : charLen d.encoding c = tail.length + 1)
    (hat : at_.pos = k) :
    (scanChar d line at_).pos = (k + (tail.length + 1) : Nat) ∧
      line.drop (k + (tail.length + 1)) = rest := by
  have hbyte : byteAt line at_.pos = c := by
    have hget : (line.drop k)[0]? = some c := by rw [hs]; rfl
    rw [List.getElem?_drop, Nat.add_zero] at hget
    rw [hat, byteAt, Int.toNat_natCast, List.getD_eq_getElem?_getD, hget]
    rfl
  constructor
  · rw [scanChar, nextPos, hbyte, hlen, hat]
    simp
  · rw [← List.drop_drop, hs, List.drop_succ_cons, List.drop_left]

theorem scanTo_pos (h : WholeChars d.encoding s) (hs : (line.take n).drop k = s) (hkn : k ≤ n)
    (hn : n ≤ line.length) (hturns : n - k ≤ turns) (at_ : Scan) (hat : at_.pos = k) :
    (scanTo d line n turns at_).pos = n := by
  have hlength : s.length = n - k := by
    rw [← hs, List.length_drop, List.length_take, Nat.min_eq_left hn]
  induction h generalizing k turns at_ with
  | nil =>
      simp only [List.length_nil] at hlength
      have hk : k = n := by omega
      cases turns with
      | zero => exact hat.trans (by rw [hk])
      | succ turns =>
          rw [scanTo, if_neg (by omega)]
          exact hat.trans (by rw [hk])
  | @cons c tail rest hlen hrest ih =>
      simp only [List.length_cons, List.length_append] at hlength
      obtain ⟨turns, rfl⟩ : ∃ m, turns = m + 1 := ⟨turns - 1, by omega⟩
      have hwhole : line.drop k = c :: (tail ++ (rest ++ line.drop n)) := by
        rw [← List.take_append_drop n line, List.drop_append_of_le_length
          (by rw [List.length_take]; omega), hs, List.take_append_drop]
        simp
      have hnext := (scanChar_pos hwhole hlen hat).1
      have hdrop : (line.take n).drop (k + (tail.length + 1)) = rest := by
        rw [← List.drop_drop, hs, List.drop_succ_cons, List.drop_left]
      rw [scanTo, if_pos (by omega)]
      exact ih hdrop (by omega) (by omega) _ hnext (by omega)

theorem scanLine_pos (hn : n ≤ line.length) (h : WholeChars d.encoding (line.take n)) :
    (scanLine d line n).pos = n := by
  refine scanTo_pos h (k := 0) rfl (Nat.zero_le n) hn ?_ _ rfl
  simp

theorem scanTo_range (h : WholeChars d.encoding s) (hs : line.drop k = s) (hkn : k ≤ n)
    (hn : n ≤ line.length) (hturns : n - k ≤ turns) (at_ : Scan) (hat : at_.pos = k) :
    ∃ m : Nat, n ≤ m ∧ m ≤ line.length ∧ (scanTo d line n turns at_).pos = m := by
  have hlength : s.length = line.length - k := by rw [← hs, List.length_drop]
  -- A place at `n` or behind it, where the loop stops at once.
  have hstop : ∀ (turns m : Nat) (at_ : Scan), at_.pos = m → n ≤ m → m ≤ line.length →
      ∃ m : Nat, n ≤ m ∧ m ≤ line.length ∧ (scanTo d line n turns at_).pos = m := by
    intro turns m at_ hat hnm hm
    refine ⟨m, hnm, hm, ?_⟩
    cases turns with
    | zero => exact hat
    | succ turns => rw [scanTo, if_neg (by omega), hat]
  induction h generalizing k turns at_ with
  | nil =>
      simp only [List.length_nil] at hlength
      exact hstop turns k at_ hat (by omega) (by omega)
  | @cons c tail rest hlen hrest ih =>
      simp only [List.length_cons, List.length_append] at hlength
      rcases Nat.lt_or_ge k n with hlt | hge
      · obtain ⟨turns, rfl⟩ : ∃ m, turns = m + 1 := ⟨turns - 1, by omega⟩
        obtain ⟨hnext, hdrop⟩ := scanChar_pos hs hlen hat
        rw [scanTo, if_pos (by omega)]
        rcases Nat.lt_or_ge n (k + (tail.length + 1)) with hover | hinner
        · exact hstop turns _ _ hnext hover.le (by omega)
        · exact ih hdrop hinner (by omega) _ hnext (by omega)
      · exact hstop turns k at_ hat hge (by omega)

theorem scanLine_range (h : WholeChars d.encoding line) (hn : n ≤ line.length) :
    ∃ m : Nat, n ≤ m ∧ m ≤ line.length ∧ (scanLine d line n).pos = m := by
  exact scanTo_range (k := 0) h rfl (Nat.zero_le n) hn (by simp) ⟨0, 0, 0⟩ rfl

theorem gotoPos_lands (hline : lineOf b b.curLineDesc = l) (hpos : pos ≤ l.length) :
    gotoPos t b pos =
      { b with
        winX := (gotoPos t b pos).winX
        curX := (gotoPos t b pos).curX
        curPos := (scanLine (display t b) l pos).pos
        curChar := (gotoPos t b pos).curChar
        xWanted := false } := by
  have hmin : min (pos : Int) l.length = pos := min_eq_left (by omega)
  have hnot : ¬ (l.length : Int) < pos := by omega
  simp only [gotoPos, hline, if_neg hnot, hmin]
  split
  · rfl
  split
  · rfl
  · rfl

theorem nthLineDesc_spec (h : CursorOk b) (hn : n < b.lineDescList.length) :
    nthLineDesc b n = some n := by
  have hnum := h.numLines
  have hlt := h.curLine_lt
  have htop := h.winY_nonneg
  have hle := h.winY_le
  have hnear : nodeAway b.curLineDesc (n - b.curLine) = some n := by
    rw [h.cur, nodeAway, Option.map_some]
    congr 1
    omega
  have hfromTail : (b.lineDescList.length - 1 - (b.numLines - 1 - n)).toNat = n := by omega
  simp only [nthLineDesc, hnear, hfromTail, Int.toNat_natCast, ite_self]
  exact if_neg (by omega)

theorem lineOf_some (hline : (lines b)[n]? = some l) : lineOf b (some n) = l := by
  rw [lineOf, List.getD_eq_getElem?_getD, hline]
  rfl

/-- `goto_line_pos`, to a place where the cursor is not yet, lands at the first character
that starts at the position or behind it. -/
theorem gotoLinePos_lands (t : Terminal) (h : CursorOk b) (hline : (lines b)[n]? = some l)
    (hpos : pos ≤ l.length) (haway : ¬ ((n : Int) = b.curLine ∧ (pos : Int) = b.curPos)) :
    Moved b (gotoLinePos t b n pos) ∧ CursorOk (gotoLinePos t b n pos) ∧
      (gotoLinePos t b n pos).curLine = n ∧
      (gotoLinePos t b n pos).curPos = (scanLine (display t b) l pos).pos := by
  have hn : n < b.lineDescList.length := by
    have hlt := (List.getElem?_eq_some_iff.mp hline).1
    rwa [lines, List.length_map] at hlt
  have hnum := h.numLines
  -- What the move to a line does before `goto_pos` settles the position.
  have hsettle : ∀ b₁ : Buffer, Moved b b₁ → CursorOk b₁ → b₁.curLine = n →
      Moved b (gotoPos t b₁ pos) ∧ CursorOk (gotoPos t b₁ pos) ∧
        (gotoPos t b₁ pos).curLine = n ∧
        (gotoPos t b₁ pos).curPos = (scanLine (display t b) l pos).pos := by
    intro b₁ hmoved hok hcurLine
    have hdesc : b₁.curLineDesc = some n := by
      rw [hok.cur, hcurLine]
      simp
    have hlines : lines b₁ = lines b := by rw [hmoved, lines, lines]
    have hdisplay : display t b₁ = display t b := by rw [hmoved, display, display]
    have hspec := gotoPos_lands (t := t) (b := b₁)
      (by rw [hdesc, lineOf_some (hlines ▸ hline)]) hpos
    refine ⟨?_, ?_, ?_, ?_⟩
    · rw [Moved, hspec, hmoved]
    · rw [hspec]
      exact ⟨hok.numLines, hok.winY_nonneg, hok.winY_le, hok.curLine_lt, hok.cur, hok.top⟩
    · rw [hspec]
      exact hcurLine
    · rw [hspec, hdisplay]
  have hpos1 : (pos : Int) ≠ -1 := by omega
  simp only [gotoLinePos, if_pos hpos1]
  split
  · rename_i hstay
    exact absurd (hstay.resolve_left (by omega)) haway
  rw [if_neg (fun hminus => hpos1 hminus.2)]
  split
  · rename_i hvisible
    refine hsettle _ rfl ⟨hnum, h.winY_nonneg, hvisible.1, ?_, ?_, h.top⟩ rfl
    · simp only
      omega
    · simp only [h.top, nodeAway, Option.map_some]
      have := h.winY_nonneg
      congr 1
      omega
  · have hlines := t.lines_pos
    set limit := b.numLines - (t.neLines - 1) with hlimit
    set winY := max 0 (min ((n : Int) - (t.neLines - 1).tdiv 2) limit) with hwinY
    have hhalf : 0 ≤ (t.neLines - 1).tdiv 2 := Int.tdiv_nonneg (by omega) (by omega)
    have hnonneg : 0 ≤ winY := le_max_left _ _
    have hle : winY ≤ n := by
      refine max_le (by omega) ((min_le_left _ _).trans ?_)
      omega
    have hnth := nthLineDesc_spec h hn
    refine hsettle _ rfl ⟨hnum, hnonneg, hle, ?_, ?_, ?_⟩ rfl
    · simp only
      omega
    · exact hnth
    · simp only
      rw [show nthLineDesc { b with yWanted := false } (n : Int) = some n from hnth, nodeAway,
        Option.map_some]
      congr 1
      omega

theorem gotoLinePos_spec (t : Terminal) (h : CursorOk b) (hline : (lines b)[n]? = some l)
    (hpos : pos ≤ l.length) (hwhole : WholeChars b.encoding (l.take pos)) :
    Moved b (gotoLinePos t b n pos) ∧ CursorOk (gotoLinePos t b n pos) ∧
      (gotoLinePos t b n pos).curLine = n ∧ (gotoLinePos t b n pos).curPos = pos := by
  by_cases hstay : (n : Int) = b.curLine ∧ (pos : Int) = b.curPos
  · simp only [gotoLinePos, if_pos (show _ ∨ _ from Or.inr hstay)]
    exact ⟨rfl, ⟨h.numLines, h.winY_nonneg, h.winY_le, h.curLine_lt, h.cur, h.top⟩,
      hstay.1.symm, hstay.2.symm⟩
  · obtain ⟨hmoved, hok, hcurLine, hcurPos⟩ := gotoLinePos_lands t h hline hpos hstay
    refine ⟨hmoved, hok, hcurLine, hcurPos.trans ?_⟩
    exact scanLine_pos hpos hwhole

end NiceEditor.Cursor
