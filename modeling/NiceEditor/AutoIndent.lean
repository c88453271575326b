import Mathlib.Order.Bounds.Basic
import NiceEditor.ClipRoundTrip
import NiceEditor.ColumnPositions
import NiceEditor.RepeatCounts
import NiceEditor.WordSearch

namespace NiceEditor.AutoIndent

open NiceEditor.Pools
open NiceEditor.BufferData
open NiceEditor.Encoding
open NiceEditor.EditStream
open NiceEditor.LineText
open NiceEditor.InsertRefinement
open NiceEditor.Navigation
open NiceEditor.Cursor
open NiceEditor.EditFrames
open NiceEditor.EditSteps
open NiceEditor.Clips
open NiceEditor.ClipBlocks
open NiceEditor.ClipRoundTrip
open NiceEditor.Movement
open NiceEditor.CharacterRows
open NiceEditor.InputRows
open NiceEditor.Characters
open NiceEditor.InputLine
open NiceEditor.WordSearch
open NiceEditor.Columns
open NiceEditor.CharSteps
open NiceEditor.ColumnPositions
open NiceEditor.RepeatCounts

/-- The loop of `auto_indent_line`.  A character has a byte at least. -/
def indentLoop (k : Classes) (encoding : EncodingType) (tabSize : Int) (line : List Byte)
    (upToCol : Int) : Nat → Int → Int → Int
  | 0, _, pos => pos
  | turns + 1, col, pos =>
      let c := getChar (line.drop pos.toNat) encoding
      if pos < line.length ∧ k.neIsspace c encoding then
        let col := col + if c = tab.toNat then tabSize - col.tmod tabSize else 1
        if upToCol < col then pos
        else indentLoop k encoding tabSize line upToCol turns col (nextPos line pos encoding)
      else pos

/-- `auto_indent_line`, for the line of descriptor `ld` -/
def autoIndentLine (k : Classes) (b : Buffer) (line : Int) (ld : Option Nat) (upToCol : Int) :
    Int × Buffer :=
  match ld with
  | none => (0, b)
  | some i =>
      let prev := if i = 0 then [] else lineOf b (prevNode ld)
      let pos := indentLoop k b.encoding b.opt.tabSize prev upToCol prev.length 0 0
      if pos ≠ 0 then (pos, (insertStream b i line 0 (prev.take pos.toNat)).2) else (pos, b)

/-- White space -/
def isSpaceChar (k : Classes) (e : EncodingType) (ch : List Byte) : Bool :=
  k.neIsspace (getChar ch e) e

/-- The lengths up to `n` that fit under a bound, by some measure. Nothing always fits. -/
def fitting (f : Nat → Int) (n : Nat) (upTo : Int) : Set Nat :=
  {m | m ≤ n ∧ (m = 0 ∨ f m ≤ upTo)}

/-- The characters of white space that a row starts with -/
def spaces (k : Classes) (e : EncodingType) (cs : List (List Byte)) : Nat :=
  (cs.takeWhile (isSpaceChar k e)).length

/-- The column that `auto_indent_line` counts behind a character -/
def countChar (d : Display) (col : Int) (ch : List Byte) : Int :=
  col + if getChar ch d.encoding = tab.toNat then d.tabSize - col.tmod d.tabSize else 1

def countRow (d : Display) (col : Int) (cs : List (List Byte)) : Int := cs.foldl (countChar d) col

/-- The columns that `auto_indent_line` counts for the first characters of a row -/
def counted (d : Display) (cs : List (List Byte)) (m : Nat) : Int := countRow d 0 (cs.take m)

/-- The columns that the first characters of a row take -/
def shown (d : Display) (cs : List (List Byte)) (m : Nat) : Int := width d (cs.take m)

/-- The row above row `y` -/
def rowAbove (text : List (List (List Byte))) (y : Nat) : List (List Byte) :=
  if y = 0 then [] else text.getD (y - 1) []

/-- `auto_indent_line` inserts the longest prefix of the line above that is white space of at most
`upTo` columns, and returns its length. -/
def Indents (t : Terminal) (k : Classes) (b : Buffer) (text : List (List (List Byte))) (y : Nat)
    (upTo : Int) : Prop :=
  let (len, b') := autoIndentLine k b y (some y) upTo
  let above := rowAbove text y
  ∃ n, IsGreatest (fitting (shown (display t b) above) (spaces k b.encoding above) upTo) n ∧
    len = bytes (above.take n) ∧
    lines b' = (lines b).set y ((above.take n).flatten ++ (lines b).getD y [])

/-- `do_action` for `DeleteChar` behind the end of a line: the number of spaces up to the cursor,
and the padded line. On the last line nothing happens. -/
def padLine (t : Terminal) (k : Classes) (b : Buffer) : Option (Int × Buffer) :=
  let col := b.winX + b.curX
  if nodesAfter b b.curLineDesc = 0 then none
  else
    let b :=
      if lineOf b b.curLineDesc = [] then
        resyncPos t (autoIndentLine k b b.curLine b.curLineDesc col).2
      else b
    let line := lineOf b b.curLineDesc
    let n := col - calcWidth (display t b) line
    some (n, (insertSpaces b b.curLineDesc b.curLine line.length n).2)

/-- The number of spaces is not negative, and the line ends in the column of the cursor. -/
def PadsTo (t : Terminal) (k : Classes) (b : Buffer) : Prop :=
  ∃ n b', padLine t k b = some (n, b') ∧ 0 ≤ n ∧
    calcWidth (display t b') (lineOf b' b'.curLineDesc) = b.winX + b.curX

/-- The lines of a document are others after an edit; the cursor is where it has been. -/
structure Edited (b : Buffer) (ls : List (List Byte)) (b' : Buffer) : Prop where
  ready : Ready b'
  view : SameView b b'
  lines : lines b' = ls

variable {f g : Nat → Int} {n N : Nat} {upTo col : Int}
variable {d : Display} {t : Terminal} {k : Classes} {b b' : Buffer}
variable {text : List (List (List Byte))} {a c cs : List (List Byte)} {ch : List Byte}
variable {e : EncodingType} {y turns : Nat}

theorem greatest_iff (hf : Monotone f) (hg : Monotone g) (hn : IsGreatest (fitting f N upTo) n) :
    IsGreatest (fitting g N upTo) n ↔ ∀ m ≤ N, m ≠ 0 → (f m ≤ upTo ↔ g m ≤ upTo) := by
  constructor
  · intro hn' m hm hne
    constructor
    · intro hle
      have hmn : m ≤ n := hn.2 ⟨hm, .inr hle⟩
      have hfit := hn'.1.2.resolve_left (by omega)
      exact (hg hmn).trans hfit
    · intro hle
      have hmn : m ≤ n := hn'.2 ⟨hm, .inr hle⟩
      have hfit := hn.1.2.resolve_left (by omega)
      exact (hf hmn).trans hfit
  · intro hsame
    have hset : fitting g N upTo = fitting f N upTo := by
      ext m
      constructor
      · rintro ⟨hm, rfl | hle⟩
        · exact ⟨hm, .inl rfl⟩
        · by_cases hne : m = 0
          · exact ⟨hm, .inl hne⟩
          · exact ⟨hm, .inr ((hsame m hm hne).mpr hle)⟩
      · rintro ⟨hm, rfl | hle⟩
        · exact ⟨hm, .inl rfl⟩
        · by_cases hne : m = 0
          · exact ⟨hm, .inl hne⟩
          · exact ⟨hm, .inr ((hsame m hm hne).mp hle)⟩
    rw [hset]
    exact hn

theorem greatest_fits_iff (hg : Monotone g) (hzero : g 0 ≤ upTo)
    (hn : IsGreatest (fitting f N upTo) n) :
    g n ≤ upTo ↔ ∀ m ≤ N, f m ≤ upTo → g m ≤ upTo := by
  constructor
  · intro hfit m hm hle
    exact (hg (hn.2 ⟨hm, .inr hle⟩)).trans hfit
  · intro hall
    obtain ⟨hle, rfl | hfit⟩ := hn.1
    · exact hzero
    · exact hall n hle hfit

theorem le_countChar (htab : 0 < d.tabSize) (col : Int) (ch : List Byte) :
    col ≤ countChar d col ch := by
  rw [countChar]
  split
  · have := Int.tmod_lt_of_pos col htab
    omega
  · omega

theorem le_countRow (htab : 0 < d.tabSize) (col : Int) (cs : List (List Byte)) :
    col ≤ countRow d col cs := by
  induction cs generalizing col with
  | nil => exact le_rfl
  | cons ch cs ih => exact (le_countChar htab col ch).trans (ih _)

theorem counted_mono (htab : 0 < d.tabSize) (cs : List (List Byte)) : Monotone (counted d cs) := by
  refine monotone_nat_of_le_succ fun m => ?_
  rw [counted, counted, countRow, countRow, List.take_add, List.foldl_append]
  exact le_countRow htab _ _

theorem shown_mono (htab : 0 < d.tabSize) (cs : List (List Byte)) : Monotone (shown d cs) := by
  refine monotone_nat_of_le_succ fun m => ?_
  rw [shown, shown]
  obtain hlt | hle := Nat.lt_or_ge m cs.length
  · have hpos := charWidth_pos htab (width d (cs.take m)) cs[m]
    rw [width_succ hlt]
    omega
  · rw [List.take_of_length_le hle, List.take_of_length_le (by omega)]

theorem spaces_cons : spaces k e (ch :: cs) =
    if isSpaceChar k e ch then spaces k e cs + 1 else 0 := by
  rw [spaces, List.takeWhile_cons]
  split
  · rfl
  · rfl

/-- The loop of `auto_indent_line` behind the characters `a` of a line -/
theorem indentLoop_row (h : ∀ ch ∈ a ++ c, IsCharacter d.encoding ch) (htab : 0 < d.tabSize)
    (hturns : bytes c ≤ turns) (col : Int) :
    ∃ n, IsGreatest
        (fitting (fun m => countRow d col (c.take m)) (spaces k d.encoding c) upTo) n ∧
      indentLoop k d.encoding d.tabSize (a ++ c).flatten upTo turns col (bytes a) =
        bytes (a ++ c.take n) := by
  induction c generalizing a turns col with
  | nil =>
      refine ⟨0, ⟨⟨le_rfl, .inl rfl⟩, fun m hm => hm.1⟩, ?_⟩
      rw [List.append_nil] at h ⊢
      rw [List.take_nil, List.append_nil]
      cases turns with
      | zero => rfl
      | succ turns =>
          rw [indentLoop]
          exact if_neg fun hcond => absurd hcond.1 (lt_irrefl _)
  | cons ch c ih =>
      have hch := h ch (by simp)
      have hpos := hch.length_pos
      rw [bytes_cons] at hturns
      obtain _ | turns := turns
      · omega
      have hbefore : (bytes a : Int) < (a ++ ch :: c).flatten.length := by
        rw [List.flatten_append, List.flatten_cons, List.length_append, List.length_append,
          InputRows.bytes]
        omega
      have hchar : getChar ((a ++ ch :: c).flatten.drop (bytes a)) d.encoding =
          getChar ch d.encoding := by
        rw [drop_bytes, List.flatten_cons, getChar_character hch]
      have hnext : nextPos (a ++ ch :: c).flatten (bytes a) d.encoding = bytes (a ++ [ch]) := by
        have hstep := nextPos_character hch a.flatten c.flatten
        rw [List.flatten_append, List.flatten_cons, bytes_append, bytes_cons, bytes_nil]
        exact hstep
      have hcol : col + (if getChar ch d.encoding = tab.toNat then d.tabSize - col.tmod d.tabSize
          else 1) = countChar d col ch := rfl
      rw [indentLoop, Int.toNat_natCast, hchar, hnext]
      dsimp only
      rw [hcol, spaces_cons]
      by_cases hspace : isSpaceChar k d.encoding ch = true
      · rw [if_pos hspace, if_pos ⟨hbefore, hspace⟩]
        by_cases hlt : upTo < countChar d col ch
        · rw [if_pos hlt]
          refine ⟨0, ⟨⟨Nat.zero_le _, .inl rfl⟩, ?_⟩, by simp⟩
          rintro (_ | m) ⟨hm, hzero | hle⟩
          · exact le_rfl
          · exact le_rfl
          · exact absurd hzero (Nat.succ_ne_zero m)
          · have hge := le_countRow htab (countChar d col ch) (c.take m)
            have hle' : countRow d (countChar d col ch) (c.take m) ≤ upTo := hle
            exact absurd (hge.trans hle') (not_le.mpr hlt)
        · rw [if_neg hlt]
          obtain ⟨n, hn, hloop⟩ := @ih (a ++ [ch]) turns (by simpa using h) (by omega)
            (countChar d col ch)
          rw [List.append_assoc, List.singleton_append] at hloop
          refine ⟨n + 1, ⟨⟨Nat.succ_le_succ hn.1.1, .inr ?_⟩, ?_⟩, ?_⟩
          · obtain ⟨-, rfl | hle⟩ := hn.1
            · exact not_lt.mp hlt
            · exact hle
          · rintro (_ | m) ⟨hm, hzero | hle⟩
            · exact Nat.zero_le _
            · exact Nat.zero_le _
            · exact absurd hzero (Nat.succ_ne_zero m)
            · exact Nat.succ_le_succ (hn.2 ⟨Nat.le_of_succ_le_succ hm, .inr hle⟩)
          · rw [hloop, List.take_succ_cons, List.append_assoc, List.singleton_append]
      · rw [if_neg hspace, if_neg fun hcond => hspace hcond.2]
        exact ⟨0, ⟨⟨le_rfl, .inl rfl⟩, fun m hm => hm.1⟩, by simp⟩

theorem rowAbove_cases (text : List (List (List Byte))) (y : Nat) :
    rowAbove text y = [] ∨ rowAbove text y ∈ text := by
  rw [rowAbove]
  split
  · exact .inl rfl
  · obtain hlt | hge := Nat.lt_or_ge (y - 1) text.length
    · rw [List.getD_eq_getElem _ _ hlt]
      exact .inr (List.getElem_mem hlt)
    · exact .inl (List.getD_eq_default _ _ hge)

theorem rowAbove_chars (hrows : Rows b text) (y : Nat) :
    ∀ ch ∈ rowAbove text y, IsCharacter b.encoding ch := by
  obtain hnil | hmem := rowAbove_cases text y
  · rw [hnil]
    exact fun ch hch => absurd hch List.not_mem_nil
  · exact hrows.chars _ hmem

theorem zero_not_mem_above (h : Ready b) (hrows : Rows b text) (y : Nat) :
    0 ∉ (rowAbove text y).flatten := by
  obtain hnil | hmem := rowAbove_cases text y
  · rw [hnil]
    exact List.not_mem_nil
  · refine lines_not_mem h.wellFormed _ ?_
    rw [hrows.lines]
    exact List.mem_map_of_mem hmem

theorem lineAbove (hrows : Rows b text) (y : Nat) :
    (if y = 0 then [] else lineOf b (prevNode (some y))) = (rowAbove text y).flatten := by
  rw [rowAbove]
  split
  · rfl
  · case _ hne =>
    have hnode : prevNode (some y) = some (y - 1) := by
      rw [prevNode, nodeAway, Option.map_some]
      congr 1
      omega
    rw [hnode, lineOf_eq, hrows.lines, List.getD_eq_getElem?_getD, List.getD_eq_getElem?_getD,
      List.getElem?_map]
    cases text[y - 1]? <;> rfl

theorem insertStream_line {ld : Nat} {p q s : List Byte} (h : Ready b)
    (hline : (lines b)[ld]? = some (p ++ q)) (hs : s ≠ [])
    (hzero : 0 ∉ s) :
    ∃ b', insertStream b ld ld p.length s = (.ok, b') ∧
      Edited b ((lines b).set ld (p ++ (s ++ q))) b' := by
  obtain ⟨b', hrun, hready, hview, -⟩ := insertStream_step h hline
    (show p.length ≤ (p ++ q).length by simp) hs (.inr hzero)
  obtain ⟨-, -, before, after, rfl, hlines, hlines'⟩ := insertStream_lines h.wellFormed hline hrun
  refine ⟨b', hrun, hready, hview, ?_⟩
  rw [hlines', hlines, splitOn_of_not_mem hzero, List.set_append_right _ _ le_rfl, Nat.sub_self,
    List.set_cons_zero]
  simp [spliceLines]

/-- `auto_indent_line` inserts the longest prefix of white space that fits as the code counts. -/
theorem autoIndentLine_row (h : Ready b) (hrows : Rows b text) (hy : y < text.length)
    (htab : 0 < b.opt.tabSize) (t : Terminal) (k : Classes) (upTo : Int) :
    ∃ n b', IsGreatest (fitting (counted (display t b) (rowAbove text y))
        (spaces k b.encoding (rowAbove text y)) upTo) n ∧
      autoIndentLine k b y (some y) upTo = (((bytes ((rowAbove text y).take n) : Nat) : Int), b') ∧
      Edited b ((lines b).set y (((rowAbove text y).take n).flatten ++ (lines b).getD y []))
      b' := by
  set above := rowAbove text y
  obtain ⟨n, hn, hloop⟩ := @indentLoop_row upTo (display t b) k [] above above.flatten.length
    (rowAbove_chars hrows y) htab le_rfl 0
  rw [List.nil_append, List.nil_append] at hloop
  have hylen : y < (lines b).length := by
    rw [hrows.lines, List.length_map]
    exact hy
  have hsplit : above.flatten = (above.take n).flatten ++ (above.drop n).flatten := by
    rw [← List.flatten_append, List.take_append_drop]
  have htake : above.flatten.take (bytes (above.take n)) = (above.take n).flatten := by
    rw [hsplit, InputRows.bytes, List.take_left]
  have hpos : indentLoop k b.encoding b.opt.tabSize above.flatten upTo above.flatten.length 0 0 =
      bytes (above.take n) := hloop
  unfold autoIndentLine
  dsimp only
  rw [lineAbove hrows, hpos, Int.toNat_natCast, htake]
  by_cases hzero : (bytes (above.take n) : Int) = 0
  · have hnil : (above.take n).flatten = [] := List.length_eq_zero_iff.mp (by exact_mod_cast hzero)
    rw [if_neg (not_not.mpr hzero)]
    refine ⟨n, b, hn, rfl, h, rfl, ?_⟩
    rw [hnil, List.nil_append, List.getD_eq_getElem _ _ hylen, List.set_getElem_self]
  · have hne : (above.take n).flatten ≠ [] := by
      intro hnil
      rw [InputRows.bytes, hnil] at hzero
      exact hzero rfl
    have hfree : 0 ∉ (above.take n).flatten := by
      intro hmem
      refine zero_not_mem_above h hrows y ?_
      change 0 ∈ above.flatten
      rw [hsplit]
      exact List.mem_append_left _ hmem
    obtain ⟨b', hrun, hedited⟩ := insertStream_line (p := []) h (getD_of_lt hylen) hne hfree
    have hrun' : insertStream b y y 0 (above.take n).flatten = (.ok, b') := hrun
    rw [if_pos hzero, hrun']
    exact ⟨n, b', hn, rfl, hedited⟩

theorem ready_sideways (h : Sideways b b') (hready : Ready b) : Ready b' := by
  rw [h.eq]
  exact ⟨hready.wellFormed, hready.granting, ⟨hready.cursor.numLines, hready.cursor.winY_nonneg,
    hready.cursor.winY_le, hready.cursor.curLine_lt, hready.cursor.cur, hready.cursor.top⟩⟩

theorem isCharacter_space (e : EncodingType) : IsCharacter e [space] := by
  cases e <;> decide

theorem width_spaces (cs : List (List Byte)) (m : Nat) :
    width d (cs ++ List.replicate m [space]) = width d cs + m := by
  induction m with
  | zero => simp
  | succ m ih =>
      rw [List.replicate_succ', ← List.append_assoc, width_append_singleton, ih]
      have hone : charWidth d (width d cs + m) [space] = 1 := rfl
      rw [hone]
      push_cast
      omega

theorem replicate_space (m : Nat) :
    (List.replicate m [space]).flatten = List.replicate m space := by
  induction m with
  | zero => rfl
  | succ m ih => rw [List.replicate_succ, List.flatten_cons, ih, List.replicate_succ]; rfl

theorem bytes_lt (h : ∀ ch ∈ cs, IsCharacter e ch) (hn : n < N) (hN : N ≤ cs.length) :
    bytes (cs.take n) < bytes (cs.take N) := by
  have hlt := boundary_lt (k := n) ⟨h, rfl⟩ (by omega) hn
  rw [boundary, boundary] at hlt
  exact_mod_cast hlt

theorem spaces_le (k : Classes) (e : EncodingType) (cs : List (List Byte)) :
    spaces k e cs ≤ cs.length :=
  (List.takeWhile_prefix _).length_le

theorem indents_iff (h : Ready b) (hrows : Rows b text) (hy : y < text.length)
    (htab : 0 < b.opt.tabSize) (t : Terminal) (k : Classes) (upTo : Int) :
    Indents t k b text y upTo ↔ ∀ m ≤ spaces k b.encoding (rowAbove text y), m ≠ 0 →
      (counted (display t b) (rowAbove text y) m ≤ upTo ↔
        shown (display t b) (rowAbove text y) m ≤ upTo) := by
  obtain ⟨n, b', hn, hrun, hedited⟩ := autoIndentLine_row h hrows hy htab t k upTo
  set above := rowAbove text y
  have hcode := greatest_iff (counted_mono (d := display t b) htab above)
    (shown_mono (d := display t b) htab above) hn
  have hspaces := spaces_le k b.encoding above
  rw [← hcode, Indents, hrun]
  constructor
  · rintro ⟨n', hn', hlen, -⟩
    have hlen' : bytes (above.take n) = bytes (above.take n') := by exact_mod_cast hlen
    have hsame : n' = n := by
      have hle := hn.1.1
      have hle' := hn'.1.1
      by_contra hne
      obtain hlt | hlt := Nat.lt_or_gt_of_ne hne
      · have := bytes_lt (rowAbove_chars hrows y) hlt (hle.trans hspaces)
        change bytes (above.take n') < bytes (above.take n) at this
        omega
      · have := bytes_lt (rowAbove_chars hrows y) hlt (hle'.trans hspaces)
        change bytes (above.take n) < bytes (above.take n') at this
        omega
    rw [hsame] at hn'
    exact hn'
  · intro hn'
    exact ⟨n, hn', rfl, hedited.lines⟩

/-- `DeleteChar` pads an empty line up to the cursor exactly when no white space that fits as
`auto_indent_line` counts reaches behind the cursor. -/
theorem padsTo_iff (h : Ready b) (hrows : Rows b text) (hrow : text[y]? = some [])
    (hline : b.curLine = y) (hlast : y + 1 < text.length) (htab : 0 < b.opt.tabSize)
    (hcol : 0 ≤ b.winX + b.curX) (t : Terminal) (k : Classes) :
    PadsTo t k b ↔ ∀ m ≤ spaces k b.encoding (rowAbove text y),
      counted (display t b) (rowAbove text y) m ≤ b.winX + b.curX →
        shown (display t b) (rowAbove text y) m ≤ b.winX + b.curX := by
  have hcur : b.curLineDesc = some y := by
    rw [h.cursor.cur, hline, Int.toNat_natCast]
  have hempty : lineOf b b.curLineDesc = [] := by
    rw [hcur]
    exact hrows.getD hrow
  have hy : y < text.length := by omega
  have hnodes : nodesAfter b b.curLineDesc ≠ 0 := by
    rw [hcur, nodesAfter, ← hrows.length, Option.getD_some]
    omega
  obtain ⟨n, b₁, hn, hrun, hedited⟩ := autoIndentLine_row h hrows hy htab t k (b.winX + b.curX)
  set above := rowAbove text y
  have hchars : ∀ ch ∈ above.take n, IsCharacter b.encoding ch := fun ch hch =>
    rowAbove_chars hrows y ch (List.mem_of_mem_take hch)
  have hfits := greatest_fits_iff (shown_mono (d := display t b) htab above) hcol hn
  rw [← hfits]
  have hline₁ : b₁.curLine = y := by
    rw [hedited.view]
    exact hline
  have hside := resyncPos_sideways t b₁
  have hready₂ := ready_sideways hside hedited.ready
  set b₂ := resyncPos t b₁ with hb₂
  have hlines₂ : lines b₂ = (lines b).set y (above.take n).flatten := by
    have hsame : lines b₂ = lines b₁ := by
      rw [hside.eq]
      rfl
    rw [hsame, hedited.lines, hrows.getD hrow, List.flatten_nil, List.append_nil]
  have hylen : y < (lines b).length := by
    rw [hrows.lines, List.length_map]
    exact hy
  have hget₂ : (lines b₂).getD y [] = (above.take n).flatten := by
    rw [hlines₂, List.getD_eq_getElem?_getD, List.getElem?_set_self hylen]
    rfl
  have hcurLine₂ : b₂.curLine = y := by
    rw [hside.eq]
    exact hline₁
  have hcur₂ : b₂.curLineDesc = some y := by
    rw [hready₂.cursor.cur, hcurLine₂, Int.toNat_natCast]
  have hshown : display t b₂ = display t b := by
    rw [hside.eq, hedited.view]
    rfl
  have hwidth : calcWidth (display t b) (above.take n).flatten =
      shown (display t b) above n := calcWidth_row hchars
  have hpad : padLine t k b = some (b.winX + b.curX - shown (display t b) above n,
      (insertSpaces b₂ (some y) y ((lines b₂).getD y []).length
        (b.winX + b.curX - shown (display t b) above n)).2) := by
    rw [padLine, if_neg hnodes, if_pos hempty, hcur, hline, hrun]
    dsimp only
    rw [← hb₂, hcur₂, hcurLine₂, hshown, lineOf_eq, hget₂, hwidth]
  constructor
  · rintro ⟨m, b', hrun', hnonneg, -⟩
    rw [hpad, Option.some.injEq, Prod.mk.injEq] at hrun'
    omega
  · intro hfit
    obtain ⟨m, hm⟩ := Int.le.dest hfit
    have hcount : b.winX + b.curX - shown (display t b) above n = (m : Int) := by omega
    have hylen₂ : y < (lines b₂).length := by
      rw [hlines₂, List.length_set]
      exact hylen
    obtain ⟨b', hspaces, hpadded⟩ := insertSpaces_spec hready₂ hylen₂ m
    refine ⟨_, _, hpad, by omega, ?_⟩
    rw [hcount, hspaces]
    dsimp only
    have hcurLine' : b'.curLine = y := by
      rw [hpadded.view]
      exact hcurLine₂
    have hcur' : b'.curLineDesc = some y := by
      rw [hpadded.ready.cursor.cur, hcurLine', Int.toNat_natCast]
    have hshown' : display t b' = display t b := by
      rw [hpadded.view, ← hshown]
      rfl
    have hline' : lineOf b' (some y) = (above.take n ++ List.replicate m [space]).flatten := by
      rw [lineOf_eq, hpadded.padded, hget₂, List.getD_eq_getElem?_getD,
        List.getElem?_set_self hylen₂, List.flatten_append, replicate_space]
      rfl
    have hchars' : ∀ ch ∈ above.take n ++ List.replicate m [space], IsCharacter b.encoding ch := by
      intro ch hch
      obtain hch | hch := List.mem_append.mp hch
      · exact hchars ch hch
      · rw [List.eq_of_mem_replicate hch]
        exact isCharacter_space _
    have hwidth' : calcWidth (display t b) (above.take n ++ List.replicate m [space]).flatten =
        shown (display t b) above n + m :=
      (calcWidth_row hchars').trans (width_spaces _ _)
    rw [hcur', hshown', hline', hwidth']
    omega

/-- `auto_indent_line` counts one column for every character of white space but a TAB: it inserts
what it should, and `DeleteChar` pads what it should, exactly when that makes no difference. -/
theorem autoIndent_iff (h : Ready b) (hrows : Rows b text) (hy : y < text.length)
    (htab : 0 < b.opt.tabSize) (t : Terminal) (k : Classes) :
    (∀ upTo, Indents t k b text y upTo ↔
      ∀ m ≤ spaces k b.encoding (rowAbove text y), m ≠ 0 →
        (counted (display t b) (rowAbove text y) m ≤ upTo ↔
          shown (display t b) (rowAbove text y) m ≤ upTo)) ∧
    (text[y]? = some [] → b.curLine = y → y + 1 < text.length → 0 ≤ b.winX + b.curX →
      (PadsTo t k b ↔ ∀ m ≤ spaces k b.encoding (rowAbove text y),
        counted (display t b) (rowAbove text y) m ≤ b.winX + b.curX →
          shown (display t b) (rowAbove text y) m ≤ b.winX + b.curX)) :=
  ⟨indents_iff h hrows hy htab t k, fun hrow hline hlast hcol =>
    padsTo_iff h hrows hrow hline hlast htab hcol t k⟩

/-- Three lines, the last two of them empty, with the cursor in a column of the second one -/
def behindLine (s : List Byte) (x : Int) : Buffer :=
  { typed (s ++ [0, 0]) .utf8 0 0 1 1 with curX := x }

theorem ready_behindLine {s : List Byte} {x : Int}
    (hlines : 1 < (lines (typed (s ++ [0, 0]) .utf8 0 0 1 1)).length) :
    Ready (behindLine s x) := by
  have hblock := (@block_typed (s ++ [0, 0]) .utf8 0 0 1 1) (by simp) le_rfl le_rfl (by decide)
    (by decide) (by omega) (by exact_mod_cast hlines)
  exact ready_sideways ⟨rfl, id⟩ hblock.ready

/-- The space, the TAB and the ideographic space -/
def spaceClasses : Classes where
  neIsspace c _ := c == 32 || c == 9 || c == 0x3000
  neIspunct _ _ := false

/-- The ideographic space takes two columns. -/
def wideTerminal : Terminal :=
  ⟨25, 80, fun c => if c = 0x3000 then 2 else 1, twentyFive_pos, eighty_pos⟩

/-- Below the line of a space, a TAB and an `x`, with the cursor in column 10 -/
theorem autoIndent_tab :
    Indents wideTerminal spaceClasses (behindLine [32, 9, 120] 10)
        [[[32], [9], [120]], [], []] 1 5 ∧
      PadsTo wideTerminal spaceClasses (behindLine [32, 9, 120] 10) := by
  have hready : Ready (behindLine [32, 9, 120] 10) := ready_behindLine (by decide +kernel)
  have hrows : Rows (behindLine [32, 9, 120] 10) [[[32], [9], [120]], [], []] :=
    ⟨by decide +kernel, by decide⟩
  have hboth := autoIndent_iff (y := 1) hready hrows (by decide) (by decide +kernel) wideTerminal
    spaceClasses
  exact ⟨(hboth.1 5).mpr (by decide +kernel),
    (hboth.2 rfl rfl (by decide) (by decide +kernel)).mpr (by decide +kernel)⟩

/-- Below an ideographic space, with the cursor in column 1: the line is indented by two columns,
and lacks minus one space. -/
theorem not_autoIndent :
    ¬ ∀ (t : Terminal) (k : Classes) (b : Buffer) (text : List (List (List Byte))) (y : Nat)
      (upTo : Int), Ready b → Rows b text → y < text.length → 0 < b.opt.tabSize →
        Indents t k b text y upTo ∧
          (text[y]? = some [] → b.curLine = y → y + 1 < text.length → 0 ≤ b.winX + b.curX →
            PadsTo t k b) := by
  intro h
  have hready : Ready (behindLine [0xE3, 0x80, 0x80] 1) := ready_behindLine (by decide +kernel)
  have hrows : Rows (behindLine [0xE3, 0x80, 0x80] 1) [[[0xE3, 0x80, 0x80]], [], []] :=
    ⟨by decide +kernel, by decide⟩
  obtain ⟨-, hpads⟩ := h wideTerminal spaceClasses _ _ 1 1 hready hrows (by decide)
    (by decide +kernel)
  have hfits := (padsTo_iff hready hrows rfl rfl (by decide) (by decide +kernel)
    (by decide +kernel) _ _).mp (hpads rfl rfl (by decide) (by decide +kernel)) 1
  revert hfits
  decide +kernel

end NiceEditor.AutoIndent
