import NiceEditor.ClipPasses
import NiceEditor.UndoRuns

namespace NiceEditor.ClipRoundTrip

open NiceEditor.Cells
open NiceEditor.Pools
open NiceEditor.LineEdits
open NiceEditor.BufferData
open NiceEditor.Load
open NiceEditor.Encoding
open NiceEditor.UndoSteps
open NiceEditor.EditStream
open NiceEditor.LineText
open NiceEditor.InsertRefinement
open NiceEditor.Navigation
open NiceEditor.Cursor
open NiceEditor.EditFrames
open NiceEditor.EditLog
open NiceEditor.EditSteps
open NiceEditor.Undo
open NiceEditor.UndoCalls
open NiceEditor.UndoRuns
open NiceEditor.Clips
open NiceEditor.ClipBlocks
open NiceEditor.ClipPasses

/-- The bytes of the `n`th clip. -/
def clipText (clips : List ClipDesc) (n : Int) : Option (List Byte) :=
  (getNthClip clips n).map fun cd => streamBytes cd.cs

/-- The place from which on a block is deleted. -/
def cutPlace (t : Terminal) (b : Buffer) : Nat :=
  offset (lines b) (firstLine b)
    (if markFirst b then (scanLine (display t b) (paddedLine b) b.blockStartPos).pos.toNat
      else firstPos b)

/-- The block is what stands at the place where it is deleted, and may be pasted; or
nothing is deleted, and nothing is pasted. -/
def Restores (t : Terminal) (b : Buffer) : Prop :=
  blockText b = [] ∨
    if compatible (guessEncoding (blockText b) b.encoding) b.encoding then
      ((paddedText b).drop (cutPlace t b)).take (blockText b).length = blockText b
    else (paddedText b).drop (cutPlace t b) = []

instance (t : Terminal) (b : Buffer) : Decidable (Restores t b) :=
  inferInstanceAs (Decidable (_ ∨ _))

/-- All memory behind the pools is zero. -/
def zeros : Nat → Nat → Byte := fun _ _ => 0

/-- Copying stores the text between mark and cursor, and both passes agree about its
length; cutting and pasting gives back the text; erasing is cutting. -/
structure RoundTrips (t : Terminal) (b : Buffer) (clips : List ClipDesc) (n : Int) : Prop where
  copies : ∃ clips', copyToClip t true b clips n false = (.ok, b, clips') ∧
    clipText clips' n = some (blockText b)
  agrees : emptyBlock b = false → ∀ cut stream,
    let first := pass (markFirst b) cut (copyMeasure b.curLine) (BlockState.start b)
    let second := secondPass (markFirst b) first stream
    first.len = (blockText b).length ∧ second.p = if markFirst b then 0 else first.len
  restores : ∃ b' clips', copyToClip t true b clips n true = (.ok, b', clips') ∧
    clipText clips' n = some (blockText b) ∧ eraseBlock t b = (.ok, b') ∧
    ∀ behind, bufferText (pasteToBuffer behind t b' clips' n).2 = paddedText b

variable {t : Terminal} {b b' : Buffer} {clips : List ClipDesc} {k q y c f fp g gp m : Nat}
variable {n : Int}
variable {L : List (List Byte)} {front rest : List Byte}

theorem blockLines_eq (hm : Marks b k q y c) : y - k < blockLines b ∧ k - y < blockLines b := by
  rw [blockLines, hm.curLine, hm.startLine]
  omega

/-- What the two passes over a block do: `b'` is the buffer after the first one. -/
structure Passes (b : Buffer) (pad : Bool) (b' : Buffer) (ch : Bool) : Prop where
  pads : Pads b (firstLine b) (if pad then padding b else 0) b'
  plain : pad = false → b' = b ∧ ch = false
  counts : ∀ extra : Int → Int, (∀ j, j ≠ b.curLine → extra j = 1) →
    pass (markFirst b) pad (count extra) (BlockState.start b) =
      ⟨b', ch, (blockText b).length + extra b.curLine, 0, fun _ => 0⟩
  stores : ∀ stream, secondPass (markFirst b) ⟨b', ch, (blockText b).length, 0, fun _ => 0⟩ stream =
    ⟨b', ch, (blockText b).length, if markFirst b then 0 else (blockText b).length,
      writeCells stream 0 (blockText b)⟩

/-- The passes upwards. -/
theorem passes_up (h : Block b) (hne : emptyBlock b = false) (hup : markFirst b = true)
    (pad : Bool) : ∃ b' ch, Passes b pad b' ch := by
  have hm := h.marks
  have hfirst : firstLine b = b.blockStartLine.toNat := by rw [firstLine, if_pos hup]
  have hpadding : padding b = b.blockStartPos.toNat -
      ((lines b).getD b.blockStartLine.toNat []).length := by
    rw [padding, if_neg (by rw [hne]; decide), firstPos, if_pos hup, hfirst]
  have hends := h.ends hne
  have hlength := h.blockText_length hne
  have hblock := h.blockText_eq hne
  rw [if_pos hup] at hends hlength hblock
  rw [hm.markPlace, hm.cursorPlace] at hlength hblock
  set k := b.blockStartLine.toNat with hk
  set q := b.blockStartPos.toNat with hq
  set y := b.curLine.toNat with hy
  set c := b.curPos.toNat with hc
  -- What the loops do, for a line of the mark that has been padded or not.
  have hloops : ∀ (b₁ : Buffer) (ch : Bool) (s : Nat), Pads b k s b₁ →
      (s = q - ((lines b).getD k []).length ∨ lines b₁ = lines b) →
      (∀ len p stream,
        (if pad then padMark ⟨b, false, len, p, stream⟩ (some k) k
          else ⟨b, false, len, p, stream⟩) = ⟨b₁, ch, len, p, stream⟩) →
      (∀ extra : Int → Int, (∀ j, j ≠ b.curLine → extra j = 1) →
        pass true pad (count extra) (BlockState.start b) =
          ⟨b₁, ch, (blockText b).length + extra b.curLine, 0, fun _ => 0⟩) ∧
      ∀ stream, secondPass true ⟨b₁, ch, (blockText b).length, 0, fun _ => 0⟩ stream =
        ⟨b₁, ch, (blockText b).length, 0, writeCells stream 0 (blockText b)⟩ := by
    intro b₁ ch s hpads hs hstart
    have hm₁ := hpads.marks hm
    have hyk : k ≤ y := by
      have := hends.before
      omega
    constructor
    · intro extra hextra
      have hpart : (partEnd (lines b₁) y c k : Int) - partStart (lines b₁) k q k =
          partEnd (lines b) y c k - partStart (lines b) k q k := by
        rcases hs with hs | hsame
        · have hself : (lines b₁).getD k [] = (lines b).getD k [] ++ List.replicate s space := by
            rw [hpads.padded, getD_set_self hm.startLine_lt]
          simp only [partEnd, partStart, if_true, hself, List.length_append, List.length_replicate]
          have hbefore := hends.before
          split
          · omega
          · omega
        · rw [hsame]
      have hrun := (@upLoop_count _ _ _ _ _ _ _ extra pad) hm
        (fun j hj => hextra j (by rw [hm.curLine]; omega)) hstart hm₁ hpart
        (blockLines b) hyk le_rfl (blockLines_eq hm).1 0 0 (fun _ => 0)
      rw [if_pos rfl, endPlace_self, ← hlength, Int.zero_add, ← hm.curLine] at hrun
      rw [← hrun, Clips.pass, if_pos rfl, BlockState.start, hm.cur]
    · intro stream
      obtain ⟨hdiff, hbetween⟩ := hends.of_pads hpads.padded hs
      have hrun := (@upLoop_store _ _ _ _ _ _ ch) hm₁ (fun hsame => by
          have := hends.before
          omega)
        (blockLines b₁) hyk le_rfl (blockLines_eq hm₁).1 (blockText b).length 0 stream
      have hp : ((0 + (placeIn (lines b₁) y c - placeIn (lines b₁) k q) : Nat) : Int) =
          (blockText b).length := by
        rw [hdiff, hlength]
        have := hends.lt
        omega
      rw [endPlace_self, hp, bufferText, hbetween, ← bufferText, ← hblock] at hrun
      simp only [secondPass, if_true, Clips.pass, hm₁.curLine, hm₁.cur]
      exact hrun
  cases pad with
  | true =>
      obtain ⟨b', ch, hpads, hpad⟩ := padMark_spec h.ready hm
      obtain ⟨hcounts, hstores⟩ := hloops b' ch _ hpads (Or.inl rfl) hpad
      refine ⟨b', ch, ?_, fun hfalse => absurd hfalse (by decide), ?_, ?_⟩
      · rwa [if_pos rfl, hfirst, hpadding]
      · rwa [hup]
      · rw [hup]
        exact hstores
  | false =>
      have hpads := Pads.refl h.ready hm.startLine_lt
      obtain ⟨hcounts, hstores⟩ := hloops b false 0 hpads (Or.inr rfl) fun _ _ _ => rfl
      refine ⟨b, false, ?_, fun _ => ⟨rfl, rfl⟩, ?_, ?_⟩
      · rwa [if_neg (by decide), hfirst]
      · rwa [hup]
      · rw [hup]
        exact hstores

/-- The passes downwards. -/
theorem passes_down (h : Block b) (hne : emptyBlock b = false) (hup : markFirst b = false)
    (pad : Bool) : ∃ b' ch, Passes b pad b' ch := by
  have hm := h.marks
  have hnot : ¬ markFirst b = true := by rw [hup]; decide
  have hfirst : firstLine b = b.curLine.toNat := by rw [firstLine, if_neg hnot]
  have hpadding : padding b = b.curPos.toNat -
      ((lines b).getD b.curLine.toNat []).length := by
    rw [padding, if_neg (by rw [hne]; decide), firstPos, if_neg hnot, hfirst]
  have hends := h.ends hne
  have hlength := h.blockText_length hne
  have hblock := h.blockText_eq hne
  rw [if_neg hnot] at hends hlength hblock
  rw [hm.markPlace, hm.cursorPlace] at hlength hblock
  set k := b.blockStartLine.toNat with hk
  set q := b.blockStartPos.toNat with hq
  set y := b.curLine.toNat with hy
  set c := b.curPos.toNat with hc
  have hloops : ∀ (b₁ : Buffer) (ch : Bool) (s : Nat), Pads b y s b₁ →
      (s = c - ((lines b).getD y []).length ∨ lines b₁ = lines b) →
      (∀ len p stream,
        (if pad then padCursor ⟨b, false, len, p, stream⟩ (some y) y
          else ⟨b, false, len, p, stream⟩) = ⟨b₁, ch, len, p, stream⟩) →
      (∀ extra : Int → Int, (∀ j, j ≠ b.curLine → extra j = 1) →
        pass false pad (count extra) (BlockState.start b) =
          ⟨b₁, ch, (blockText b).length + extra b.curLine, 0, fun _ => 0⟩) ∧
      ∀ stream, secondPass false ⟨b₁, ch, (blockText b).length, 0, fun _ => 0⟩ stream =
        ⟨b₁, ch, (blockText b).length, (blockText b).length,
          writeCells stream 0 (blockText b)⟩ := by
    intro b₁ ch s hpads hs hstart
    have hm₁ := hpads.marks hm
    obtain ⟨hdiff, hbetween⟩ := hends.of_pads hpads.padded hs
    have hyk : y ≤ k := by
      have := hends.before
      omega
    have hlt₁ : placeIn (lines b₁) y c < placeIn (lines b₁) k q := by
      have := hends.lt
      omega
    constructor
    · intro extra hextra
      have hsame : (placeIn (lines b₁) k q : Int) - placeIn (lines b₁) y c =
          placeIn (lines b) k q - placeIn (lines b) y c := by
        have := hends.lt
        omega
      have hrun := (@downLoop_count _ _ _ _ _ _ extra pad) hm
        (fun j hj => hextra j (by rw [hm.curLine]; omega)) hstart hm₁
        (blockLines b) hyk (blockLines_eq hm).2 0 0 (fun _ => 0)
      rw [hsame, ← hlength, Int.zero_add, ← hm.curLine] at hrun
      rw [← hrun, Clips.pass, if_neg (by decide), BlockState.start, hm.cur]
    · intro stream
      have hrun := (@downLoop_store _ _ _ _ _ _ ch) hm₁ (fun hsame => by
          have := hends.before
          omega)
        (blockLines b₁) le_rfl hyk (blockLines_eq hm₁).2 (blockText b).length 0 stream
      have hp : ((0 + (placeIn (lines b₁) k q - placeIn (lines b₁) y c) : Nat) : Int) =
          (blockText b).length := by
        rw [hdiff, hlength]
        have := hends.lt
        omega
      rw [startPlace_self, hp, bufferText, hbetween, ← bufferText, ← hblock] at hrun
      simp only [secondPass, Bool.false_eq_true, if_false, Clips.pass, hm₁.curLine, hm₁.cur]
      exact hrun
  cases pad with
  | true =>
      obtain ⟨b', ch, hpads, hpad⟩ := padCursor_spec h.ready hm fun hsame => by
        have hbefore := hends.before
        omega
      obtain ⟨hcounts, hstores⟩ := hloops b' ch _ hpads (Or.inl rfl) hpad
      refine ⟨b', ch, ?_, fun hfalse => absurd hfalse (by decide), ?_, ?_⟩
      · rwa [if_pos rfl, hfirst, hpadding]
      · rwa [hup]
      · rw [hup]
        exact hstores
  | false =>
      have hpads := Pads.refl h.ready hm.curLine_lt
      obtain ⟨hcounts, hstores⟩ := hloops b false 0 hpads (Or.inr rfl) fun _ _ _ => rfl
      refine ⟨b, false, ?_, fun _ => ⟨rfl, rfl⟩, ?_, ?_⟩
      · rwa [if_neg (by decide), hfirst]
      · rwa [hup]
      · rw [hup]
        exact hstores

theorem exists_passes (h : Block b) (hne : emptyBlock b = false) (pad : Bool) :
    ∃ b' ch, Passes b pad b' ch := by
  cases hup : markFirst b with
  | true => exact passes_up h hne hup pad
  | false => exact passes_down h hne hup pad

theorem wholeChars_append {encoding : EncodingType} {r s : List Byte} (hr : WholeChars encoding r)
    (hs : WholeChars encoding s) : WholeChars encoding (r ++ s) := by
  induction hr with
  | nil => exact hs
  | cons hlen _ ih =>
      rw [List.cons_append, List.append_assoc]
      exact .cons hlen ih

theorem wholeChars_spaces (encoding : EncodingType) (m : Nat) :
    WholeChars encoding (List.replicate m space) := by
  induction m with
  | zero => exact .nil
  | succ m ih =>
      have hlen : charLen encoding space = 1 := by cases encoding <;> rfl
      exact @WholeChars.cons encoding space [] _ hlen ih

theorem at_of_line {ld pos : Nat} {l : List Byte} (h : Ready b) (hline : (lines b)[ld]? = some l)
    (hpos : pos ≤ l.length) (hcurLine : b.curLine = ld) (hcurPos : b.curPos = pos) :
    At b (frontOf b ld pos) (backOf b ld pos) := by
  obtain ⟨hcount, hlast, -, -⟩ := front_spec h.wellFormed hline hpos
  refine ⟨h, ?_, ?_, ?_, (front_append_back b ld pos).symm⟩
  · rw [h.cursor.cur, hcurLine, hcount, Int.toNat_natCast]
  · rw [hcurLine, hcount]
  · rw [hcurPos, hlast, List.length_take, Nat.min_eq_left hpos]

theorem at_of_sameView {rest' : List Byte} (h : At b front rest) (hready : Ready b')
    (hview : SameView b b') (htext : bufferText b' = front ++ rest') : At b' front rest' := by
  have hcurLine : b'.curLine = b.curLine := by rw [hview]
  have hcurPos : b'.curPos = b.curPos := by rw [hview]
  refine ⟨hready, ?_, hcurLine.trans h.curLine, hcurPos.trans h.curPos, htext⟩
  rw [hready.cursor.cur, hcurLine, h.curLine, Int.toNat_natCast]

theorem at_erase {len : Nat} (h : At b front rest) (hlen : 1 ≤ len) :
    At (deleteAtCursor b len) front (rest.drop len) ∧ SameView b (deleteAtCursor b len) := by
  obtain ⟨l, hline, hpos, -, hfront, hback⟩ :=
    exists_line h.ready.wellFormed (ne_nil_of_ready h.ready) h.text
  have hcall : deleteAtCursor b len =
      (deleteStream b (front.count 0) (front.count 0 : Nat) (lastLine 0 front).length len).2 := by
    rw [deleteAtCursor, h.cur]
    simp only [h.curLine, h.curPos, Int.toNat_natCast]
  by_cases hrest : rest = []
  · -- The place is in no man's land.
    obtain ⟨-, -, -, after, hlength, hbackLine⟩ := front_spec h.ready.wellFormed hline hpos
    rw [hback, hrest] at hbackLine
    obtain ⟨hend, hafter⟩ := List.append_eq_nil_iff.mp hbackLine.symm
    obtain rfl : after = [] := by
      cases after with
      | nil => rfl
      | cons next after => simp at hafter
    obtain ⟨hlt, hget⟩ := List.getElem?_eq_some_iff.mp hline
    simp only [lines, List.length_map, List.getElem_map, List.length_nil] at hlt hget hlength
    have hlineLen : l.length = b.lineDescList[front.count 0].lineLen := by
      rw [← hget]
      exact lineBytes_length (h.ready.wellFormed.null _ (List.getElem_mem hlt))
    have hnothing : deleteStream b (front.count 0) (front.count 0 : Nat)
        (lastLine 0 front).length len = (.error, b) := by
      have hdrop := List.drop_eq_nil_iff.mp hend
      rw [deleteStream, List.getElem?_eq_getElem hlt]
      exact if_pos (Or.inr (Or.inr ⟨by omega, by omega⟩))
    rw [hcall, hnothing, hrest, List.drop_nil]
    exact ⟨hrest ▸ h, rfl⟩
  · obtain ⟨b', hrun, hready, hview, ⟨after, happlies⟩, -⟩ :=
      deleteStream_step h.ready hline hpos hlen (by rw [hback]; exact hrest) (Or.inl h.curLine.le)
    rw [hcall, hrun]
    rw [if_neg (by simp), hfront, hback] at happlies
    refine ⟨at_of_sameView h hready hview ?_, hview⟩
    have htext := h.text.symm.trans happlies.1
    rw [List.append_assoc, List.append_cancel_left_eq] at htext
    conv at htext => lhs; rw [← List.take_append_drop len rest]
    rw [happlies.2, List.append_cancel_left htext]

theorem at_startUndoChain (h : At b front rest) : At (startUndoChain b) front rest :=
  ⟨ready_startUndoChain h.ready, h.cur, h.curLine, h.curPos, h.text⟩

theorem at_endUndoChain (h : At b front rest) : At (endUndoChain b) front rest := by
  have hclosed : At { b with linkUndos := b.linkUndos - 1 } front rest :=
    ⟨⟨h.ready.wellFormed, h.ready.granting, ⟨h.ready.cursor.numLines, h.ready.cursor.winY_nonneg,
      h.ready.cursor.winY_le, h.ready.cursor.curLine_lt, h.ready.cursor.cur, h.ready.cursor.top⟩⟩,
      h.cur, h.curLine, h.curPos, h.text⟩
  unfold endUndoChain
  dsimp only
  split
  · exact hclosed
  split
  · exact hclosed.setUndo _
  · exact hclosed

theorem endUndoChain_encoding (b : Buffer) : (endUndoChain b).encoding = b.encoding := by
  unfold endUndoChain
  dsimp only
  split
  · rfl
  split
  · rfl
  · rfl

theorem finishChain_at {s : BlockState} (h : At b front rest) :
    At (finishChain s b) front rest ∧ (finishChain s b).encoding = b.encoding := by
  unfold finishChain
  split
  · exact ⟨at_endUndoChain h, endUndoChain_encoding b⟩
  · exact ⟨h, rfl⟩

/-- Where the block is deleted from, and what stands there. -/
theorem Passes.lands {ch : Bool} (h : Block b) (hne : emptyBlock b = false)
    (hwhole : ∀ l ∈ lines b, WholeChars b.encoding l) (hp : Passes b true b' ch) {len : Int}
    (hlen : 1 ≤ len) :
    At (deleteBlock t (markFirst b) b' len) ((paddedText b).take (cutPlace t b))
        (((paddedText b).drop (cutPlace t b)).drop len.toNat) ∧
      (deleteBlock t (markFirst b) b' len).encoding = b.encoding := by
  have hpads := hp.pads
  rw [if_pos rfl] at hpads
  have hm := h.marks
  have hm' := hpads.marks hm
  have hends := h.ends hne
  have hfirst_lt : firstLine b < (lines b).length := by
    unfold firstLine
    split
    · exact hm.startLine_lt
    · exact hm.curLine_lt
  have htext : bufferText b' = paddedText b := by rw [bufferText, hpads.padded]; rfl
  have hline : (lines b')[firstLine b]? = some (paddedLine b) := by
    rw [hpads.padded, List.getElem?_set_self hfirst_lt]
    rfl
  have hlong : firstPos b ≤ (paddedLine b).length := by
    rw [paddedLine, List.length_append, List.length_replicate, padding,
      if_neg (by rw [hne]; decide)]
    omega
  have hoffset : ∀ pos, offset (lines b') (firstLine b) pos =
      offset (lines b) (firstLine b) pos := by
    intro pos
    rw [hpads.padded, offset_set (getD_of_lt hfirst_lt), if_neg (Nat.lt_irrefl _), Nat.add_zero]
  have hdeleted : ∀ {b₁ : Buffer} {pos : Nat}, Ready b₁ → lines b₁ = lines b' →
      b₁.encoding = b'.encoding → pos ≤ (paddedLine b).length →
      b₁.curLine = firstLine b → b₁.curPos = pos →
      offset (lines b) (firstLine b) pos = cutPlace t b →
      At (deleteAtCursor b₁ len.toNat) ((paddedText b).take (cutPlace t b))
          (((paddedText b).drop (cutPlace t b)).drop len.toNat) ∧
        (deleteAtCursor b₁ len.toNat).encoding = b.encoding := by
    intro b₁ pos hready hlines hencoding hpos hcurLine hcurPos hplace
    have hat := at_of_line hready (hlines ▸ hline) hpos hcurLine hcurPos
    obtain ⟨herased, hview⟩ := at_erase hat (show 1 ≤ len.toNat by omega)
    have htext₁ : bufferText b₁ = paddedText b := by rw [bufferText, hlines, ← htext, bufferText]
    rw [frontOf, backOf, htext₁, hlines, hoffset, hplace] at herased
    refine ⟨herased, ?_⟩
    rw [hview]
    exact hencoding.trans hpads.encoding
  unfold deleteBlock
  cases hup : markFirst b with
  | true =>
      have hfirst : firstLine b = b.blockStartLine.toNat := by rw [firstLine, if_pos hup]
      have hpos : firstPos b = b.blockStartPos.toNat := by rw [firstPos, if_pos hup]
      rw [if_pos hup] at hends
      have hbefore := hends.before
      have hwhole' : WholeChars (display t b').encoding (paddedLine b) := by
        rw [show (display t b').encoding = b.encoding from hpads.encoding, paddedLine]
        refine wholeChars_append (hwhole _ ?_) (wholeChars_spaces _ _)
        exact List.mem_of_getElem? (getD_of_lt hfirst_lt)
      obtain ⟨pos, -, hle, hscan⟩ := scanLine_range hwhole' hlong
      have hdisplay : display t b' = display t b := by
        rw [display, display, hpads.opt, hpads.encoding]
      obtain ⟨hmoved, hcursor, hcurLine, hcurPos⟩ :=
        gotoLinePos_lands t hpads.ready.cursor hline hlong (by
          rw [hm'.curLine, hm'.curPos, hfirst, hpos]
          rintro ⟨hsameLine, hsamePos⟩
          omega)
      have hgoto : gotoLinePos t b' b'.blockStartLine b'.blockStartPos =
          gotoLinePos t b' (firstLine b) (firstPos b) := by
        rw [hm'.startLine, hm'.startPos, hfirst, hpos]
      rw [if_pos rfl, hgoto]
      refine hdeleted ⟨?_, ?_, hcursor⟩ ?_ ?_ hle hcurLine (hcurPos.trans hscan) ?_
      · rw [hmoved]
        exact hpads.ready.wellFormed
      · rw [hmoved]
        exact hpads.ready.granting
      · rw [hmoved]
        rfl
      · rw [hmoved]
      · have hscan' : (scanLine (display t b) (paddedLine b) b.blockStartPos).pos = pos := by
          rw [← hscan, hdisplay, hpos, ← hm.startPos]
        rw [cutPlace, if_pos hup, hscan', Int.toNat_natCast]
  | false =>
      have hnot : ¬ markFirst b = true := by rw [hup]; decide
      have hfirst : firstLine b = b.curLine.toNat := by rw [firstLine, if_neg hnot]
      have hpos : firstPos b = b.curPos.toNat := by rw [firstPos, if_neg hnot]
      rw [if_neg (by decide)]
      refine hdeleted hpads.ready rfl rfl hlong ?_ ?_ ?_
      · rw [hfirst, hm'.curLine]
      · rw [hpos, hm'.curPos]
      · rw [cutPlace, if_neg hnot]

theorem getNthClip_setClip (h : (getNthClip clips n).isSome) (cs : CharStream) :
    getNthClip (setClip clips n cs) n = some ⟨n, cs⟩ := by
  induction clips with
  | nil => simp [getNthClip] at h
  | cons cd clips ih =>
      unfold setClip
      by_cases hn : cd.n = n
      · rw [if_pos hn]
        simp [getNthClip]
      · rw [if_neg hn, getNthClip, List.find?_cons_of_neg (by simpa using hn)]
        rw [getNthClip, List.find?_cons_of_neg (by simpa using hn)] at h
        exact ih h

theorem reallocClip_granted (clips : List ClipDesc) (n : Int) (size : Nat) :
    ∃ cs clips', reallocClip true clips n size = (some cs, clips') ∧
      (cs.stream = none ↔ size = 0) ∧ getNthClip clips' n = some ⟨n, cs⟩ ∧
      (size = 0 → cs.len = 0) := by
  unfold reallocClip
  cases hclip : getNthClip clips n with
  | none =>
      refine ⟨_, _, rfl, ?_, by simp [getNthClip], fun _ => rfl⟩
      unfold allocCharStream
      split
      · rename_i hsize
        exact ⟨fun _ => hsize, fun _ => rfl⟩
      · rename_i hsize
        exact ⟨fun hnone => absurd hnone (by simp), fun hzero => absurd hzero hsize⟩
  | some cd =>
      have hsome : (getNthClip clips n).isSome := by rw [hclip]; rfl
      unfold reallocCharStream
      by_cases hsize : size = 0
      · simp only [hsize, if_true]
        exact ⟨_, _, rfl, by simp, getNthClip_setClip hsome _, fun _ => rfl⟩
      · simp only [if_neg hsize, if_true]
        exact ⟨_, _, rfl, by simp [hsize], getNthClip_setClip hsome _,
          fun hzero => absurd hzero hsize⟩

/-- What a paste does to the text. -/
theorem pasteToBuffer_text {cd : ClipDesc} (behind : Nat → Nat → Byte) (h : At b front rest)
    (hclip : getNthClip clips n = some cd) (hbytes : streamBytes cd.cs ≠ [])
    (hlen : cd.cs.len ≠ 0) :
    bufferText (pasteToBuffer behind t b clips n).2 =
      if compatible cd.cs.encoding b.encoding then front ++ streamBytes cd.cs ++ rest
      else front ++ rest := by
  simp only [pasteToBuffer, hclip, if_neg hlen]
  split
  · -- The cursor is not behind the end of its line, so no spaces are put in.
    generalize hb₁ : (if b.encoding = .ascii then { b with encoding := cd.cs.encoding } else b) = b₁
    have hat₁ : At b₁ front rest := by
      rw [← hb₁]
      split
      · exact ⟨⟨h.ready.wellFormed, h.ready.granting, ⟨h.ready.cursor.numLines,
          h.ready.cursor.winY_nonneg, h.ready.cursor.winY_le, h.ready.cursor.curLine_lt,
          h.ready.cursor.cur, h.ready.cursor.top⟩⟩, h.cur, h.curLine, h.curPos, h.text⟩
      · exact h
    have hat₂ : At (startPaste behind b₁) front rest :=
      ⟨⟨hat₁.ready.wellFormed, hat₁.ready.granting, ⟨hat₁.ready.cursor.numLines,
        hat₁.ready.cursor.winY_nonneg, hat₁.ready.cursor.winY_le, hat₁.ready.cursor.curLine_lt,
        hat₁.ready.cursor.cur, hat₁.ready.cursor.top⟩⟩, hat₁.cur, hat₁.curLine, hat₁.curPos,
        hat₁.text⟩
    have hat := at_startUndoChain hat₂
    generalize startUndoChain (startPaste behind b₁) = b₂ at hat ⊢
    obtain ⟨l, hline, hpos, -, -, -⟩ :=
      exists_line hat.ready.wellFormed (ne_nil_of_ready hat.ready) hat.text
    have hlineOf : lineOf b₂ b₂.curLineDesc = l := by rw [hat.cur, lineOf_some hline]
    have hinside : ¬ ((lineOf b₂ b₂.curLineDesc).length : Int) < b₂.curPos := by
      rw [hlineOf, hat.curPos]
      omega
    rw [if_neg hinside]
    obtain ⟨hready, hview, ⟨after, happlies⟩, -⟩ := hat.insert hbytes
    rw [if_pos rfl] at happlies
    have hafter : after = rest := List.append_cancel_left (happlies.1.symm.trans hat.text)
    have hinserted : At (insertAtCursor b₂ (streamBytes cd.cs)) front
        (streamBytes cd.cs ++ rest) := by
      refine at_of_sameView hat hready hview ?_
      rw [happlies.2, hafter, List.append_assoc]
    have hfinished := at_endUndoChain hinserted
    refine Eq.trans ?_ (hfinished.text.trans (List.append_assoc _ _ _).symm)
    rfl
  · exact h.text

theorem Block.blockText_empty (h : Block b) (hempty : emptyBlock b = true) : blockText b = [] := by
  have hm := h.marks
  have hlength : lineOf b b.curLineDesc = (lines b).getD b.curLine.toNat [] := by
    rw [hm.cur, lineOf_eq]
  simp only [emptyBlock, hlength, Bool.and_eq_true, Bool.or_eq_true, beq_iff_eq,
    decide_eq_true_eq] at hempty
  obtain ⟨hline, hpos⟩ := hempty
  have hsame : markPlace b = cursorPlace b := by
    rw [markPlace, cursorPlace, ← hline, placeIn, placeIn]
    rcases hpos with hpos | hpos
    · rw [hpos]
    · congr 1
      omega
  rw [blockText, hsame, min_self, max_self, between_self]

theorem paddedText_empty (hempty : emptyBlock b = true) (h : firstLine b < (lines b).length) :
    paddedText b = bufferText b := by
  have hsame : paddedLine b = (lines b)[firstLine b] := by
    rw [paddedLine, padding, if_pos hempty, List.replicate_zero, List.append_nil,
      List.getD_eq_getElem?_getD, List.getElem?_eq_getElem h]
    rfl
  rw [paddedText, hsame, List.set_getElem_self, bufferText]

theorem blockText_ne_nil (h : Block b) (hne : emptyBlock b = false) : blockText b ≠ [] := by
  have hlength := h.blockText_length hne
  obtain ⟨hlt, -, -⟩ := h.places hne
  intro hnil
  rw [hnil] at hlength
  simp only [List.length_nil] at hlength
  split at hlength
  · rename_i hup
    rw [if_pos hup] at hlt
    omega
  · rename_i hup
    rw [if_neg hup] at hlt
    omega

theorem copyToClip_spec (t : Terminal) (clips : List ClipDesc) (n : Int) (h : Block b)
    (hne : emptyBlock b = false) {cut ch : Bool} (hp : Passes b cut b' ch) :
    ∃ cs clips' s, s.chaining = ch ∧
      copyToClip t true b clips n cut =
        (.ok, finishChain s
          (if cut then deleteBlock t (markFirst b) b' (blockText b).length else b'), clips') ∧
      getNthClip clips' n = some ⟨n, cs⟩ ∧ streamBytes cs = blockText b ∧
      cs.len = (blockText b).length ∧ cs.encoding = guessEncoding (blockText b) b'.encoding := by
  have hpos : (blockText b).length ≠ 0 := fun hzero =>
    blockText_ne_nil h hne (List.length_eq_zero_iff.mp hzero)
  have hmark : ¬ ¬ b.marking = true := not_not_intro h.marking
  have hin : ¬ b.numLines ≤ b.blockStartLine := Int.not_le.mpr h.startLine_lt
  have hfirst : pass (markFirst b) cut (copyMeasure b.curLine) (BlockState.start b) =
      ⟨b', ch, (blockText b).length, 0, fun _ => 0⟩ := by
    have hcounts := hp.counts (fun i => if i ≠ b.curLine then 1 else 0)
      (fun j hj => if_pos hj)
    rwa [if_neg (not_not_intro rfl), Int.add_zero] at hcounts
  obtain ⟨cs, clips', hrealloc, hnone, hclip, -⟩ :=
    reallocClip_granted clips n (blockText b).length
  obtain ⟨m, hstream⟩ : ∃ m, cs.stream = some m :=
    Option.ne_none_iff_exists'.mp fun heq => hpos (hnone.mp heq)
  have hsecond := hp.stores m
  refine ⟨setStreamEncoding { cs with
      stream := some (writeCells m 0 (blockText b))
      len := (blockText b).length } b'.encoding,
    _, ⟨b', ch, (blockText b).length, 0, fun _ => 0⟩, rfl, ?_,
    (@getNthClip_setClip clips') (by rw [hclip]; rfl) _, ?_, rfl, ?_⟩
  · simp only [copyToClip, if_neg hmark, if_neg hin, hne, Bool.false_eq_true, if_false, hfirst,
      Int.toNat_natCast, hrealloc, hstream, Option.getD_some, hsecond, Option.map_some]
  · exact readCells_writeCells m 0 (blockText b)
  · exact congrArg (guessEncoding · b'.encoding) (readCells_writeCells m 0 (blockText b))

theorem eraseBlock_spec (t : Terminal) (h : Block b) (hne : emptyBlock b = false) {ch : Bool}
    (hp : Passes b true b' ch) :
    ∃ s : BlockState, s.chaining = ch ∧ eraseBlock t b =
      (.ok, finishChain s (deleteBlock t (markFirst b) b' (blockText b).length)) := by
  have hmark : ¬ ¬ b.marking = true := not_not_intro h.marking
  have hin : ¬ b.numLines ≤ b.blockStartLine := Int.not_le.mpr h.startLine_lt
  have hfirst : pass (markFirst b) true eraseMeasure (BlockState.start b) =
      ⟨b', ch, (blockText b).length + 1, 0, fun _ => 0⟩ :=
    hp.counts (fun _ => 1) fun _ _ => rfl
  refine ⟨⟨b', ch, (blockText b).length + 1, 0, fun _ => 0⟩, rfl, ?_⟩
  simp only [eraseBlock, if_neg hmark, if_neg hin, hne, Bool.false_eq_true, if_false, hfirst,
    Int.add_sub_cancel]

theorem finishChain_congr {s s' : BlockState} (h : s.chaining = s'.chaining) :
    finishChain s b = finishChain s' b := by
  rw [finishChain, finishChain, h]

theorem restored_iff {s : List Byte} (hs : s ≠ []) (paste : Bool) :
    (if paste then front ++ s ++ rest.drop s.length else front ++ rest.drop s.length) =
        front ++ rest ↔
      if paste then rest.take s.length = s else rest = [] := by
  cases paste with
  | true =>
      rw [if_pos rfl, if_pos rfl, List.append_assoc, List.append_cancel_left_eq]
      constructor
      · intro heq
        rw [← heq, List.take_left]
      · intro htake
        conv_rhs => rw [← List.take_append_drop s.length rest, htake]
  | false =>
      rw [if_neg (by decide), if_neg (by decide), List.append_cancel_left_eq]
      constructor
      · intro heq
        have hlength := congrArg List.length heq
        rw [List.length_drop] at hlength
        have hpositive := List.length_pos_iff.mpr hs
        exact List.length_eq_zero_iff.mp (by omega)
      · rintro rfl
        exact List.drop_nil

/-- A document with a text, the mark and the cursor. -/
def typed (s : List Byte) (encoding : EncodingType) (startLine startPos line pos : Int) : Buffer :=
  { (insertStream (newBuffer false none fun _ => true) 0 0 0 s).2 with
    encoding := encoding
    marking := true
    blockStartLine := startLine
    blockStartPos := startPos
    curLine := line
    curPos := pos
    curLineDesc := some line.toNat }

theorem ready_newBuffer : Ready (newBuffer false none fun _ => true) where
  wellFormed := (owns_clearBuffer _).weaken
  granting := fun _ => rfl
  cursor := ⟨rfl, by decide, by decide, by decide, rfl, rfl⟩

theorem block_typed {s : List Byte} {encoding : EncodingType} {startLine startPos line pos : Int}
    (hs : s ≠ []) (hstart : 0 ≤ startLine) (hstartPos : 0 ≤ startPos) (hline : 0 ≤ line)
    (hpos : 0 ≤ pos)
    (hlines : startLine < (lines (typed s encoding startLine startPos line pos)).length)
    (hcur : line < (lines (typed s encoding startLine startPos line pos)).length) :
    Block (typed s encoding startLine startPos line pos) := by
  obtain ⟨b', hrun, hready, hview, -⟩ := (@insertStream_step _ 0 0) (l := [])
    ready_newBuffer rfl le_rfl hs (Or.inl (by decide))
  have htyped : (insertStream (newBuffer false none fun _ => true) 0 0 0 s).2 = b' := by
    have hrun' : insertStream (newBuffer false none fun _ => true) 0 0 0 s = (.ok, b') := hrun
    rw [hrun']
  have hwinY : b'.winY = 0 := by rw [hview]; rfl
  have hnum := hready.cursor.numLines
  rw [lines_length] at hlines hcur
  unfold typed at hlines hcur ⊢
  rw [htyped] at hlines hcur ⊢
  have htop := hready.cursor.top
  refine ⟨⟨hready.wellFormed, hready.granting, ⟨hnum, ?_, ?_, ?_, rfl, htop⟩⟩, rfl, hstart, ?_,
    hstartPos, hpos⟩
  · exact hwinY.ge
  · exact hwinY.le.trans hline
  · exact hcur.trans_eq hnum.symm
  · exact hlines.trans_eq hnum.symm

/-- A block is cut and pasted, and the text is as it was, exactly when the block stands
where it is deleted. -/
theorem cutAndPaste_iff (t : Terminal) (b : Buffer) (clips : List ClipDesc) (n : Int) (h : Block b)
    (hwhole : ∀ l ∈ lines b, WholeChars b.encoding l) :
    RoundTrips t b clips n ↔ Restores t b := by
  have hmark : ¬ ¬ b.marking = true := not_not_intro h.marking
  have hin : ¬ b.numLines ≤ b.blockStartLine := Int.not_le.mpr h.startLine_lt
  cases hne : emptyBlock b with
  | true =>
      have hblock := Block.blockText_empty h hne
      have hline : firstLine b < (lines b).length := by
        unfold firstLine
        split
        · exact h.marks.startLine_lt
        · exact h.marks.curLine_lt
      obtain ⟨cs, clips', hrealloc, hnone, hclip, hlen⟩ := reallocClip_granted clips n 0
      have hcopy : ∀ cut, copyToClip t true b clips n cut = (.ok, b, clips') := by
        intro cut
        simp only [copyToClip, if_neg hmark, if_neg hin, hne, if_true, hrealloc]
      have htext : clipText clips' n = some (blockText b) := by
        rw [clipText, hclip, hblock, Option.map_some, streamBytes, hnone.mpr rfl]
      refine ⟨fun _ => Or.inl hblock, fun _ => ⟨⟨clips', hcopy false, htext⟩, ?_,
        ⟨b, clips', hcopy true, htext, ?_, ?_⟩⟩⟩
      · intro hfalse
        rw [hne] at hfalse
        exact absurd hfalse (by decide)
      · simp only [eraseBlock, if_neg hmark, if_neg hin, hne, if_true]
      · simp only [pasteToBuffer, hclip, hlen rfl, if_true]
        exact fun _ => (paddedText_empty hne hline).symm
  | false =>
      obtain ⟨b₀, ch₀, hp₀⟩ := exists_passes h hne false
      obtain ⟨b₁, ch₁, hp₁⟩ := exists_passes h hne true
      obtain ⟨rfl, rfl⟩ := hp₀.plain rfl
      obtain ⟨cs₀, clips₀, s₀, hs₀, hcopy, hclip₀, hbytes₀, -, -⟩ :=
        copyToClip_spec t clips n h hne hp₀
      obtain ⟨cs₁, clips₁, s₁, hs₁, hcut, hclip₁, hbytes₁, hlen₁, hencoding₁⟩ :=
        copyToClip_spec t clips n h hne hp₁
      obtain ⟨s₂, hs₂, herase⟩ := eraseBlock_spec t h hne hp₁
      have hblock := blockText_ne_nil h hne
      have hpositive := List.length_pos_iff.mpr hblock
      rw [if_pos rfl] at hcut
      obtain ⟨hlands, hencoding⟩ :=
        @Passes.lands t b₀ b₁ ch₁ h hne hwhole hp₁ (blockText b₀).length (by omega)
      obtain ⟨hat, hchained⟩ := finishChain_at (s := s₁) hlands
      -- The text after the paste, whether the clip is accepted or not.
      have hpaste := fun behind => pasteToBuffer_text (t := t) behind hat hclip₁
        (by rw [hbytes₁]; exact hblock) (by rw [hlen₁]; omega)
      simp only [hbytes₁, hencoding₁, hchained, hencoding, hp₁.pads.encoding, Int.toNat_natCast]
        at hpaste
      have hrestored := (@restored_iff ((paddedText b₀).take (cutPlace t b₀))
        ((paddedText b₀).drop (cutPlace t b₀))) hblock
        (compatible (guessEncoding (blockText b₀) b₀.encoding) b₀.encoding)
      rw [List.take_append_drop] at hrestored
      constructor
      · intro hround
        obtain ⟨b', clips', hcut', -, -, htext⟩ := hround.restores
        rw [hcut] at hcut'
        obtain ⟨-, hrest⟩ := Prod.mk.inj hcut'
        obtain ⟨rfl, rfl⟩ := Prod.mk.inj hrest
        exact Or.inr (hrestored.mp ((hpaste zeros).symm.trans (htext zeros)))
      · intro hcond
        have hcond := hcond.resolve_left hblock
        refine ⟨⟨clips₀, ?_, ?_⟩, ?_, ⟨_, clips₁, hcut, ?_, ?_, ?_⟩⟩
        · rw [hcopy, if_neg (by decide), finishChain, hs₀, if_neg (by decide)]
        · rw [clipText, hclip₀, Option.map_some, hbytes₀]
        · intro _ cut stream
          obtain ⟨b', ch, hp⟩ := exists_passes h hne cut
          have hcounts := hp.counts (fun i => if i ≠ b₀.curLine then 1 else 0)
            (fun j hj => if_pos hj)
          rw [if_neg (not_not_intro rfl), Int.add_zero] at hcounts
          have hstores := hp.stores stream
          dsimp only [copyMeasure]
          rw [hcounts, hstores]
          exact ⟨rfl, rfl⟩
        · rw [clipText, hclip₁, Option.map_some, hbytes₁]
        · rw [herase, finishChain_congr (hs₂.trans hs₁.symm)]
        · intro behind
          rw [hpaste]
          exact hrestored.mpr hcond

/-- The text between two lines is cut and pasted; the mark is behind the end of its
line. -/
theorem cutAndPaste_iff_twoLines :
    RoundTrips plainTerminal (typed [97, 98, 0, 99, 100] .ascii 0 4 1 1) [] 0 := by
  have hblock : Block (typed [97, 98, 0, 99, 100] .ascii 0 4 1 1) :=
    block_typed (by decide) (by decide) (by decide) (by decide) (by decide) (by decide +kernel)
      (by decide +kernel)
  exact (cutAndPaste_iff plainTerminal _ [] 0 hblock fun l _ =>
    wholeChars_of_ne_utf8 (by decide) l).mpr (by decide +kernel)

/-- In UTF-8 the cut begins at the character behind the mark, and the paste refuses
what is not UTF-8: the mark is inside a character. -/
theorem not_cutAndPaste :
    ¬ ∀ (t : Terminal) (b : Buffer) (clips : List ClipDesc) (n : Int), Block b →
      (∀ l ∈ lines b, WholeChars b.encoding l) → RoundTrips t b clips n := by
  intro hall
  have hblock : Block (typed [0xC3, 0xA9, 97] .utf8 0 1 0 3) :=
    block_typed (by decide) (by decide) (by decide) (by decide) (by decide) (by decide +kernel)
      (by decide +kernel)
  have hlines : lines (typed [0xC3, 0xA9, 97] .utf8 0 1 0 3) = [[0xC3, 0xA9, 97]] := by
    decide +kernel
  have hwhole : ∀ l ∈ lines (typed [0xC3, 0xA9, 97] .utf8 0 1 0 3), WholeChars .utf8 l := by
    intro l hl
    rw [hlines, List.mem_singleton] at hl
    rw [hl]
    exact @WholeChars.cons .utf8 0xC3 [0xA9] [97] (by decide)
      (@WholeChars.cons .utf8 97 [] [] (by decide) .nil)
  obtain ⟨b', clips', hcut, -, -, htext⟩ := (hall plainTerminal _ [] 0 hblock hwhole).restores
  have hlost : bufferText (pasteToBuffer zeros plainTerminal
      (copyToClip plainTerminal true (typed [0xC3, 0xA9, 97] .utf8 0 1 0 3) [] 0 true).2.1
      (copyToClip plainTerminal true (typed [0xC3, 0xA9, 97] .utf8 0 1 0 3) [] 0 true).2.2 0).2 =
        [0xC3, 0xA9] := by
    decide +kernel
  rw [hcut, htext zeros] at hlost
  exact absurd hlost (by decide +kernel)

end NiceEditor.ClipRoundTrip
