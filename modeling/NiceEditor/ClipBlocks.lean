import NiceEditor.Clips
import NiceEditor.UndoCalls

namespace NiceEditor.ClipBlocks

open NiceEditor.Cells
open NiceEditor.Pools
open NiceEditor.BufferData
open NiceEditor.UndoSteps
open NiceEditor.EditStream
open NiceEditor.LineText
open NiceEditor.InsertRefinement
open NiceEditor.Navigation
open NiceEditor.Cursor
open NiceEditor.EditFrames
open NiceEditor.EditSteps
open NiceEditor.UndoCalls
open NiceEditor.Clips

/-- The place of the text that a line and a position stand for: a position behind the
end of the line stands for the end. -/
def placeIn (lines : List (List Byte)) (line pos : Nat) : Nat :=
  offset lines line (min pos (lines.getD line []).length)

def markPlace (b : Buffer) : Nat := placeIn (lines b) b.blockStartLine.toNat b.blockStartPos.toNat

def cursorPlace (b : Buffer) : Nat := placeIn (lines b) b.curLine.toNat b.curPos.toNat

/-- The text between the mark and the cursor. -/
def blockText (b : Buffer) : List Byte :=
  between (bufferText b) (min (markPlace b) (cursorPlace b)) (max (markPlace b) (cursorPlace b))

/-- The mark and the cursor are on lines of the document. -/
structure Block (b : Buffer) : Prop where
  ready : Ready b
  marking : b.marking = true
  startLine_nonneg : 0 ≤ b.blockStartLine
  startLine_lt : b.blockStartLine < b.numLines
  startPos_nonneg : 0 ≤ b.blockStartPos
  curPos_nonneg : 0 ≤ b.curPos

/-- The line and the position of the mark, and those of the cursor. -/
structure Marks (b : Buffer) (k q y c : Nat) : Prop where
  startLine : b.blockStartLine = k
  startPos : b.blockStartPos = q
  curLine : b.curLine = y
  curPos : b.curPos = c
  cur : b.curLineDesc = some y
  startLine_lt : k < (lines b).length
  curLine_lt : y < (lines b).length

/-- The line of the mark or the cursor, whichever is first, and the position there. -/
def firstLine (b : Buffer) : Nat := if markFirst b then b.blockStartLine.toNat else b.curLine.toNat

def firstPos (b : Buffer) : Nat := if markFirst b then b.blockStartPos.toNat else b.curPos.toNat

/-- The spaces between the end of the line and the first of mark and cursor; there are
none when the block is empty. -/
def padding (b : Buffer) : Nat :=
  if emptyBlock b then 0 else firstPos b - ((lines b).getD (firstLine b) []).length

/-- The line of the first of mark and cursor, long enough for it. -/
def paddedLine (b : Buffer) : List Byte :=
  (lines b).getD (firstLine b) [] ++ List.replicate (padding b) space

/-- The text, with spaces up to a position behind the end of a line. -/
def paddedText (b : Buffer) : List Byte := text 0 ((lines b).set (firstLine b) (paddedLine b))

/-- Position `fp` of line `f` is before position `gp` of line `g`, and something is
between them. -/
structure Ends (L : List (List Byte)) (f fp g gp : Nat) : Prop where
  first_lt : f < L.length
  last_lt : g < L.length
  before : f < g ∨ (f = g ∧ fp < gp ∧ fp < (L.getD f []).length)

variable {b b' : Buffer} {ld pos n k q y c i : Nat} {line : Int} {l stream : List Byte}
variable {status : Status}

theorem lines_length (b : Buffer) : (lines b).length = b.lineDescList.length := by
  rw [lines, List.length_map]

theorem offset_eq (L : List (List Byte)) (n j : Nat) : offset L n j = offset L n 0 + j := rfl

theorem lineOf_eq (b : Buffer) (i : Nat) : lineOf b (some i) = (lines b).getD i [] := rfl

theorem Block.marks (h : Block b) :
    Marks b b.blockStartLine.toNat b.blockStartPos.toNat b.curLine.toNat b.curPos.toNat := by
  have hcursor := h.ready.cursor
  have hline := h.startLine_nonneg
  have hlt := h.startLine_lt
  have hnum := hcursor.numLines
  have hnonneg := hcursor.winY_nonneg
  have hle := hcursor.winY_le
  have hcur := hcursor.curLine_lt
  refine ⟨by omega, by have := h.startPos_nonneg; omega, by omega,
    by have := h.curPos_nonneg; omega, hcursor.cur, ?_, ?_⟩
  · rw [lines_length]
    omega
  · rw [lines_length]
    omega

theorem Marks.markPlace (h : Marks b k q y c) : markPlace b = placeIn (lines b) k q := by
  simp only [ClipBlocks.markPlace, h.startLine, h.startPos, Int.toNat_natCast]

theorem Marks.cursorPlace (h : Marks b k q y c) : cursorPlace b = placeIn (lines b) y c := by
  simp only [ClipBlocks.cursorPlace, h.curLine, h.curPos, Int.toNat_natCast]

theorem getD_of_lt {lines : List (List Byte)} (h : n < lines.length) :
    lines[n]? = some (lines.getD n []) := by
  rw [List.getElem?_eq_getElem h, List.getD_eq_getElem?_getD, List.getElem?_eq_getElem h]
  rfl

/-- An insertion without a line break leaves the mark on its line, and where it is when it
is not behind the insertion. -/
theorem insertStream_mark (hzero : 0 ∉ stream)
    (h : insertStream b ld line pos stream = (status, b')) :
    b'.blockStartLine = b.blockStartLine ∧
      (b.blockStartLine ≠ line ∨ b.blockStartPos ≤ pos → b'.blockStartPos = b.blockStartPos) := by
  have hline : (placeAfterChars line pos stream.length b.blockStartLine b.blockStartPos).1 =
      b.blockStartLine := by
    unfold placeAfterChars
    split
    · rfl
    · rfl
  have hpos : b.blockStartLine ≠ line ∨ b.blockStartPos ≤ pos →
      (placeAfterChars line pos stream.length b.blockStartLine b.blockStartPos).2 =
        b.blockStartPos := by
    intro hmark
    rw [placeAfterChars, if_neg]
    rintro ⟨hsame, hbehind⟩
    rcases hmark with hother | hle
    · exact hother hsame
    · omega
  have hsegment : ∀ {b₁ : Buffer}, b₁.blockStartLine = b.blockStartLine →
      b₁.blockStartPos = b.blockStartPos → insertSegment b₁ ld line pos stream = (status, b') →
      b'.blockStartLine = b.blockStartLine ∧
        (b.blockStartLine ≠ line ∨ b.blockStartPos ≤ pos →
          b'.blockStartPos = b.blockStartPos) := by
    intro b₁ hline₁ hpos₁ hrun
    unfold insertSegment at hrun
    split at hrun
    · obtain ⟨-, rfl⟩ := Prod.mk.inj hrun
      exact ⟨hline₁, fun _ => hpos₁⟩
    split at hrun
    · obtain ⟨-, rfl⟩ := Prod.mk.inj hrun
      exact ⟨hline₁, fun _ => hpos₁⟩
    split at hrun
    · obtain ⟨-, rfl⟩ := Prod.mk.inj hrun
      exact ⟨hline₁, fun _ => hpos₁⟩
    · obtain ⟨-, rfl⟩ := Prod.mk.inj hrun
      simp only [movePlaces, setLine, hline₁, hpos₁, hline, ite_self, true_and]
      intro hmark
      rw [hpos hmark, ite_self]
  have hnothing : b'.blockStartLine = b.blockStartLine → b'.blockStartPos = b.blockStartPos →
      b'.blockStartLine = b.blockStartLine ∧
        (b.blockStartLine ≠ line ∨ b.blockStartPos ≤ pos →
          b'.blockStartPos = b.blockStartPos) := fun hline hpos => ⟨hline, fun _ => hpos⟩
  have hundo : ∀ {l p k : Int} {st : Status} {b₁ : Buffer}, addUndoStep b l p k = (st, b₁) →
      b₁.blockStartLine = b.blockStartLine ∧ b₁.blockStartPos = b.blockStartPos := by
    intro l p k st b₁ hrun
    obtain ⟨-, rfl⟩ := Prod.mk.inj hrun
    exact ⟨rfl, rfl⟩
  unfold insertStream at h
  split at h
  · obtain ⟨-, rfl⟩ := Prod.mk.inj h
    exact hnothing rfl rfl
  split at h
  · obtain ⟨-, rfl⟩ := Prod.mk.inj h
    exact hnothing rfl rfl
  rw [splitOn_of_not_mem hzero] at h
  split at h
  · split at h
    · rename_i b₁ hstep
      obtain ⟨hline₁, hpos₁⟩ := hundo hstep
      exact hsegment hline₁ hpos₁ h
    · obtain ⟨hline₁, hpos₁⟩ := hundo h
      exact hnothing hline₁ hpos₁
  · exact hsegment rfl rfl h

/-- Line `ld` of a document has been padded with `n` spaces. -/
structure Padded (b : Buffer) (ld n : Nat) (b' : Buffer) : Prop where
  ready : Ready b'
  view : SameView b b'
  padded : lines b' = (lines b).set ld ((lines b).getD ld [] ++ List.replicate n space)
  startLine : b'.blockStartLine = b.blockStartLine
  startPos : b.blockStartLine ≠ ld ∨ b.blockStartPos ≤ ((lines b).getD ld []).length →
    b'.blockStartPos = b.blockStartPos

theorem space_not_mem (n : Nat) : (0 : Byte) ∉ List.replicate n space := by
  intro hmem
  exact absurd (List.eq_of_mem_replicate hmem) (by decide)

theorem Padded.refl (h : Ready b) (hld : ld < (lines b).length) : Padded b ld 0 b := by
  refine ⟨h, rfl, ?_, rfl, fun _ => rfl⟩
  rw [List.replicate_zero, List.append_nil, List.getD_eq_getElem?_getD,
    List.getElem?_eq_getElem hld, Option.getD_some, List.set_getElem_self]

theorem Padded.insert {m : Nat} (h : Padded b ld n b') (hld : ld < (lines b).length)
    (hm : m ≠ 0) :
    ∃ b'', insertStream b' ld ld ((lines b).getD ld []).length (List.replicate m space) =
      (.ok, b'') ∧ Padded b ld (n + m) b'' := by
  set l := (lines b).getD ld [] with hl
  have hline : (lines b')[ld]? = some (l ++ List.replicate n space) := by
    rw [h.padded, List.getElem?_set_self hld]
  obtain ⟨b'', hrun, hready, hview, -⟩ := (@insertStream_step _ _ (l.length)) h.ready hline
    (by simp) (by simpa using hm) (Or.inr (space_not_mem m))
  obtain ⟨-, -, before, after, hbefore, hlines, hlines'⟩ :=
    insertStream_lines h.ready.wellFormed hline hrun
  refine ⟨b'', hrun, hready, h.view.trans hview, ?_, ?_, fun hmark => ?_⟩
  · have hset : lines b'' = (lines b').set ld (l ++ List.replicate (n + m) space) := by
      rw [hlines', hlines, splitOn_of_not_mem (space_not_mem m), ← hbefore,
        List.set_append_right _ _ le_rfl, Nat.sub_self, List.set_cons_zero]
      simp only [spliceLines, List.take_left, List.drop_left, List.singleton_append,
        List.append_assoc, List.replicate_append_replicate, Nat.add_comm m n]
    rw [hset, h.padded, List.set_set]
  · rw [(insertStream_mark (space_not_mem m) hrun).1, h.startLine]
  · have hkept := h.startPos hmark
    rw [(insertStream_mark (space_not_mem m) hrun).2 (by rw [h.startLine, hkept]; exact hmark),
      hkept]

theorem insertSpaces_spec (h : Ready b) (hld : ld < (lines b).length) (n : Nat) :
    ∃ b', insertSpaces b (some ld) ld ((lines b).getD ld []).length n = (.ok, b') ∧
      Padded b ld n b' := by
  have hloop : ∀ (turns m done : Nat) (b₁ : Buffer), m ≤ turns → Padded b ld done b₁ →
      ∃ b', insertSpacesLoop ld ld ((lines b).getD ld []).length turns m b₁ = (.ok, b') ∧
        Padded b ld (done + m) b' := by
    intro turns
    induction turns with
    | zero =>
        intro m done b₁ hm hpadded
        obtain rfl : m = 0 := by omega
        exact ⟨b₁, rfl, hpadded⟩
    | succ turns ih =>
        intro m done b₁ hm hpadded
        unfold insertSpacesLoop
        split
        · rename_i hzero
          exact ⟨b₁, rfl, by rwa [hzero]⟩
        · rename_i hne
          have hchunk : min m maxStackSpaces ≠ 0 := by
            simp only [maxStackSpaces]
            omega
          obtain ⟨b₂, hrun, hpadded₂⟩ := hpadded.insert hld hchunk
          obtain ⟨b', hrest, hpadded'⟩ :=
            ih (m - min m maxStackSpaces) (done + min m maxStackSpaces) b₂ (by omega) hpadded₂
          refine ⟨b', ?_, ?_⟩
          · simp only [hrun]
            exact hrest
          · rwa [Nat.add_assoc, Nat.add_sub_cancel' (min_le_left _ _)] at hpadded'
  obtain ⟨b', hrun, hpadded⟩ := hloop n n 0 b le_rfl (Padded.refl h hld)
  refine ⟨b', ?_, by rwa [Nat.zero_add] at hpadded⟩
  simpa only [insertSpaces, Int.toNat_natCast] using hrun

/-- A line has been padded in an undo chain, and the mark is where it was. -/
structure Pads (b : Buffer) (ld n : Nat) (b' : Buffer) : Prop where
  ready : Ready b'
  padded : lines b' = (lines b).set ld ((lines b).getD ld [] ++ List.replicate n space)
  startLine : b'.blockStartLine = b.blockStartLine
  startPos : b'.blockStartPos = b.blockStartPos
  curLine : b'.curLine = b.curLine
  curPos : b'.curPos = b.curPos
  encoding : b'.encoding = b.encoding
  opt : b'.opt = b.opt

theorem Pads.refl (h : Ready b) (hld : ld < (lines b).length) : Pads b ld 0 b where
  ready := h
  padded := (Padded.refl h hld).padded
  startLine := rfl
  startPos := rfl
  curLine := rfl
  curPos := rfl
  encoding := rfl
  opt := rfl

theorem Pads.marks (h : Pads b ld n b') (hm : Marks b k q y c) : Marks b' k q y c := by
  have hlength : (lines b').length = (lines b).length := by rw [h.padded, List.length_set]
  refine ⟨h.startLine.trans hm.startLine, h.startPos.trans hm.startPos, h.curLine.trans hm.curLine,
    h.curPos.trans hm.curPos, ?_, hlength ▸ hm.startLine_lt, hlength ▸ hm.curLine_lt⟩
  rw [h.ready.cursor.cur, h.curLine, hm.curLine, Int.toNat_natCast]

theorem pads_of_padded {b₁ : Buffer} (h : Padded (startUndoChain b) ld n b')
    (hpos : b₁.blockStartPos = b.blockStartPos)
    (hb₁ : b₁ = { b' with blockStartPos := b₁.blockStartPos }) : Pads b ld n b₁ := by
  have hview := h.view
  have hready := h.ready
  refine ⟨?_, ?_, ?_, hpos, ?_, ?_, ?_, ?_⟩
  · rw [hb₁]
    exact ⟨hready.wellFormed, hready.granting, ⟨hready.cursor.numLines, hready.cursor.winY_nonneg,
      hready.cursor.winY_le, hready.cursor.curLine_lt, hready.cursor.cur, hready.cursor.top⟩⟩
  · rw [hb₁]
    exact h.padded
  · rw [hb₁]
    exact h.startLine
  all_goals rw [hb₁]; simp only; rw [hview]; rfl

theorem ready_startUndoChain (h : Ready b) : Ready (startUndoChain b) :=
  ⟨h.wellFormed, h.granting, ⟨h.cursor.numLines, h.cursor.winY_nonneg, h.cursor.winY_le,
    h.cursor.curLine_lt, h.cursor.cur, h.cursor.top⟩⟩

theorem padMark_spec (h : Ready b) (hm : Marks b k q y c) :
    ∃ b' chaining, Pads b k (q - ((lines b).getD k []).length) b' ∧
      ∀ len p stream, padMark ⟨b, false, len, p, stream⟩ (some k) k =
        ⟨b', chaining, len, p, stream⟩ := by
  set l := (lines b).getD k [] with hl
  have hline : lineOf b (some k) = l := rfl
  rcases Nat.lt_or_ge l.length q with hlt | hge
  · obtain ⟨b', hrun, hpadded⟩ :=
      (@insertSpaces_spec _ k) (ready_startUndoChain h) hm.startLine_lt (q - l.length)
    refine ⟨{ b' with blockStartPos := b.blockStartPos }, true, pads_of_padded hpadded rfl rfl, ?_⟩
    intro len p stream
    have hshort : (l.length : Int) < b.blockStartPos := by
      rw [hm.startPos]
      omega
    have hcount : b.blockStartPos - (l.length : Int) = (q - l.length : Nat) := by
      rw [hm.startPos]
      omega
    have hinsert : insertSpaces (startUndoChain b) (some k) k l.length (q - l.length : Nat) =
        (.ok, b') := hrun
    simp only [padMark, padLine, hline, if_pos hshort, hcount, Bool.false_eq_true, if_false,
      hinsert]
  · rw [Nat.sub_eq_zero_of_le hge]
    refine ⟨b, false, Pads.refl h hm.startLine_lt, ?_⟩
    intro len p stream
    rw [padMark, hline, if_neg (by rw [hm.startPos]; omega)]

theorem padCursor_spec (h : Ready b) (hm : Marks b k q y c)
    (hmark : k = y → c ≤ ((lines b).getD y []).length) :
    ∃ b' chaining, Pads b y (c - ((lines b).getD y []).length) b' ∧
      ∀ len p stream, padCursor ⟨b, false, len, p, stream⟩ (some y) y =
        ⟨b', chaining, len, p, stream⟩ := by
  set l := (lines b).getD y [] with hl
  have hline : lineOf b (some y) = l := rfl
  rcases Nat.lt_or_ge l.length c with hlt | hge
  · obtain ⟨b', hrun, hpadded⟩ :=
      (@insertSpaces_spec _ y) (ready_startUndoChain h) hm.curLine_lt (c - l.length)
    have hstay : b'.blockStartPos = b.blockStartPos := by
      refine hpadded.startPos (Or.inl ?_)
      show b.blockStartLine ≠ y
      rw [hm.startLine]
      omega
    refine ⟨b', true, pads_of_padded hpadded hstay rfl, ?_⟩
    intro len p stream
    have hshort : (l.length : Int) < b.curPos := by
      rw [hm.curPos]
      omega
    have hcount : b.curPos - (l.length : Int) = (c - l.length : Nat) := by
      rw [hm.curPos]
      omega
    have hinsert : insertSpaces (startUndoChain b) (some y) y l.length (c - l.length : Nat) =
        (.ok, b') := hrun
    simp only [padCursor, padLine, hline, if_pos hshort, hcount, Bool.false_eq_true, if_false,
      hinsert]
  · rw [Nat.sub_eq_zero_of_le hge]
    refine ⟨b, false, Pads.refl h hm.curLine_lt, ?_⟩
    intro len p stream
    rw [padCursor, hline, if_neg (by rw [hm.curPos]; omega)]

variable {L : List (List Byte)} {f fp g gp s : Nat}

theorem Ends.lt (h : Ends L f fp g gp) : placeIn L f fp < placeIn L g gp := by
  rcases h.before with hlt | ⟨rfl, hpos, hinside⟩
  · exact offset_lt_of_lt (getD_of_lt h.first_lt) (min_le_right _ _) hlt
  · rw [placeIn, placeIn, offset_eq, offset_eq L f (min gp _)]
    omega

theorem placeIn_le_length {i pos : Nat} (hi : i < L.length) :
    placeIn L i pos ≤ (text 0 L).length :=
  offset_le_length 0 (getD_of_lt hi) (min_le_right _ _)

theorem getD_set_self (hf : f < L.length) (l : List Byte) : (L.set f l).getD f [] = l := by
  rw [List.getD_eq_getElem?_getD, List.getElem?_set_self hf, Option.getD_some]

theorem getD_set_of_ne (hne : f ≠ g) (l : List Byte) :
    (L.set f l).getD g [] = L.getD g [] := by
  rw [List.getD_eq_getElem?_getD, List.getElem?_set_ne hne, List.getD_eq_getElem?_getD]

theorem Ends.padded (h : Ends L f fp g gp) (hs : s = fp - (L.getD f []).length) :
    placeIn (L.set f (L.getD f [] ++ List.replicate s space)) f fp = placeIn L f fp + s ∧
      placeIn (L.set f (L.getD f [] ++ List.replicate s space)) g gp = placeIn L g gp + s ∧
      between (text 0 (L.set f (L.getD f [] ++ List.replicate s space)))
        (placeIn L f fp + s) (placeIn L g gp + s) =
          between (text 0 L) (placeIn L f fp) (placeIn L g gp) := by
  have hline := getD_of_lt h.first_lt
  have hshift := offset_set hline (List.replicate s space)
  have htext := text_set_append 0 hline (List.replicate s space)
  set L' := L.set f (L.getD f [] ++ List.replicate s space) with hL'
  have hself : L'.getD f [] = L.getD f [] ++ List.replicate s space := getD_set_self h.first_lt _
  have hfirst : placeIn L' f fp = placeIn L f fp + s := by
    rw [placeIn, placeIn, hshift, if_neg (Nat.lt_irrefl f), hself, offset_eq,
      offset_eq L f (min fp _)]
    simp only [List.length_append, List.length_replicate]
    omega
  have hlast : placeIn L' g gp = placeIn L g gp + s := by
    rcases h.before with hlt | ⟨rfl, -, hinside⟩
    · rw [placeIn, placeIn, hshift, if_pos hlt, getD_set_of_ne (Nat.ne_of_lt hlt)]
      simp
    · obtain rfl : s = 0 := by omega
      rw [placeIn, placeIn, hshift, if_neg (Nat.lt_irrefl f), hself]
      simp
  refine ⟨hfirst, hlast, ?_⟩
  -- What stands behind the spaces is what stood there before.
  have hdrop : (text 0 L').drop (placeIn L f fp + s) = (text 0 L).drop (placeIn L f fp) := by
    rcases Nat.eq_zero_or_pos s with rfl | hpos
    · rw [htext]
      simp
    · have hplace : placeIn L f fp = offset L f (L.getD f []).length := by
        rw [placeIn, min_eq_right (by omega)]
      have hle : offset L f (L.getD f []).length ≤ (text 0 L).length :=
        offset_le_length 0 hline le_rfl
      rw [htext, hplace, ← List.drop_drop, List.append_assoc,
        List.drop_left' (by rw [List.length_take]; omega), List.drop_left' (by simp)]
  rw [between, hdrop, between]
  congr 1
  omega

theorem Ends.of_pads {L' : List (List Byte)} (h : Ends L f fp g gp)
    (hpads : L' = L.set f (L.getD f [] ++ List.replicate s space))
    (hs : s = fp - (L.getD f []).length ∨ L' = L) :
    placeIn L' g gp - placeIn L' f fp = placeIn L g gp - placeIn L f fp ∧
      between (text 0 L') (placeIn L' f fp) (placeIn L' g gp) =
        between (text 0 L) (placeIn L f fp) (placeIn L g gp) := by
  rcases hs with hs | hsame
  · obtain ⟨hfirst, hlast, hbetween⟩ := h.padded hs
    rw [hpads, hfirst, hlast]
    exact ⟨by omega, hbetween⟩
  · rw [hsame]
    exact ⟨rfl, rfl⟩

theorem Block.ends (h : Block b) (hne : emptyBlock b = false) :
    if markFirst b then
      Ends (lines b) b.blockStartLine.toNat b.blockStartPos.toNat b.curLine.toNat b.curPos.toNat
    else
      Ends (lines b) b.curLine.toNat b.curPos.toNat b.blockStartLine.toNat
        b.blockStartPos.toNat := by
  have hm := h.marks
  have hline := hm.startLine
  have hpos := hm.startPos
  have hcurLine := hm.curLine
  have hcurPos := hm.curPos
  have hlength : lineOf b b.curLineDesc = (lines b).getD b.curLine.toNat [] := by
    rw [hm.cur, lineOf_eq]
  simp only [emptyBlock, hlength, Bool.and_eq_false_iff, Bool.or_eq_false_iff, beq_eq_false_iff_ne,
    decide_eq_false_iff_not] at hne
  split
  · rename_i hup
    simp only [markFirst, Bool.or_eq_true, Bool.and_eq_true, decide_eq_true_eq, beq_iff_eq] at hup
    refine ⟨hm.startLine_lt, hm.curLine_lt, ?_⟩
    rcases hup with hlt | ⟨hsame, hlt⟩
    · exact Or.inl (by omega)
    · refine Or.inr ⟨by omega, by omega, ?_⟩
      rw [← hsame]
      have := hne.resolve_left (by omega)
      omega
  · rename_i hup
    simp only [markFirst, Bool.or_eq_true, Bool.and_eq_true, decide_eq_true_eq, beq_iff_eq] at hup
    refine ⟨hm.curLine_lt, hm.startLine_lt, ?_⟩
    rcases Int.lt_or_le b.curLine b.blockStartLine with hlt | hge
    · exact Or.inl (by omega)
    · have hsame : b.curLine = b.blockStartLine := by omega
      have := hne.resolve_left (by omega)
      exact Or.inr ⟨by omega, by omega, by omega⟩

theorem Block.places (h : Block b) (hne : emptyBlock b = false) :
    (if markFirst b then markPlace b < cursorPlace b else cursorPlace b < markPlace b) ∧
      markPlace b ≤ (bufferText b).length ∧ cursorPlace b ≤ (bufferText b).length := by
  have hm := h.marks
  have hends := h.ends hne
  refine ⟨?_, ?_, ?_⟩
  · split
    · rename_i hup
      rw [if_pos hup] at hends
      exact hends.lt
    · rename_i hup
      rw [if_neg hup] at hends
      exact hends.lt
  · exact placeIn_le_length hm.startLine_lt
  · exact placeIn_le_length hm.curLine_lt

theorem Block.blockText_eq (h : Block b) (hne : emptyBlock b = false) :
    blockText b = if markFirst b then between (bufferText b) (markPlace b) (cursorPlace b)
      else between (bufferText b) (cursorPlace b) (markPlace b) := by
  obtain ⟨hlt, -, -⟩ := h.places hne
  split
  · rename_i hup
    rw [if_pos hup] at hlt
    rw [blockText, min_eq_left hlt.le, max_eq_right hlt.le]
  · rename_i hup
    rw [if_neg hup] at hlt
    rw [blockText, min_eq_right hlt.le, max_eq_left hlt.le]

theorem Block.blockText_length (h : Block b) (hne : emptyBlock b = false) :
    ((blockText b).length : Int) =
      if markFirst b then (cursorPlace b : Int) - markPlace b
      else (markPlace b : Int) - cursorPlace b := by
  obtain ⟨hlt, hmark, hcursor⟩ := h.places hne
  have hlength : (blockText b).length =
      max (markPlace b) (cursorPlace b) - min (markPlace b) (cursorPlace b) :=
    between_length (max_le hmark hcursor)
  rw [hlength]
  split
  · rename_i hup
    rw [if_pos hup] at hlt
    omega
  · rename_i hup
    rw [if_neg hup] at hlt
    omega

end NiceEditor.ClipBlocks
