import NiceEditor.Cursor
import NiceEditor.EditFrames
import NiceEditor.EditLog

namespace NiceEditor.EditSteps

open NiceEditor.Pools
open NiceEditor.PoolOwnership
open NiceEditor.PoolSegments
open NiceEditor.LineEdits
open NiceEditor.BufferData
open NiceEditor.UndoSteps
open NiceEditor.EditStream
open NiceEditor.LineText
open NiceEditor.InsertRefinement
open NiceEditor.DeleteRefinement
open NiceEditor.Cursor
open NiceEditor.EditFrames
open NiceEditor.EditLog

/-- A buffer that can be edited. -/
structure Ready (b : Buffer) : Prop where
  wellFormed : WellFormed b
  granting : Granting b.chars.answers
  cursor : CursorOk b

/-- What stands before a place of the text. -/
def frontOf (b : Buffer) (ld pos : Nat) : List Byte :=
  (bufferText b).take (offset (lines b) ld pos)

/-- What stands behind a place of the text. -/
def backOf (b : Buffer) (ld pos : Nat) : List Byte :=
  (bufferText b).drop (offset (lines b) ld pos)

/-- A step and the bytes that have been deleted are recorded, the redo stream is
reset. -/
structure Records (ub : UndoBuffer) (step : UndoStep) (s : List Byte) (ub' : UndoBuffer) :
    Prop where
  steps : ub'.steps = Function.update ub.steps ub.curStep step
  curStep : ub'.curStep = ub.curStep + 1
  lastStep : ub'.lastStep = ub.curStep + 1
  bytes : undoBytes ub' = undoBytes ub ++ s
  curStream : ub'.curStream = ub.curStream + s.length
  redo : ub'.redo = resetStream ub.redo
  lastSaveStep : ub'.lastSaveStep =
    if ub.curStep < ub.lastSaveStep then -1 else ub.lastSaveStep

/-- Bytes deleted while undoing are put on the redo stream. -/
structure Saves (ub : UndoBuffer) (s : List Byte) (ub' : UndoBuffer) : Prop where
  steps : ub'.steps = ub.steps
  curStep : ub'.curStep = ub.curStep
  lastStep : ub'.lastStep = ub.lastStep
  lastSaveStep : ub'.lastSaveStep = ub.lastSaveStep
  streams : ub'.streams = ub.streams
  curStream : ub'.curStream = ub.curStream
  redoOk : StreamOk ub'.redo
  redo : streamBytes ub'.redo = streamBytes ub.redo ++ s

/-- The position that is recorded: it tells whether the step is linked to the
following one. -/
def markedPos (linked : Bool) (pos : Int) : Int := if linked then -pos - 1 else pos

variable {b b' : Buffer} {ld pos len : Nat} {l stream front rest : List Byte}

theorem lines_not_mem (h : WellFormed b) : ∀ l ∈ lines b, 0 ∉ l := by
  intro l hl hzero
  obtain ⟨d, hd, rfl⟩ := List.mem_map.mp hl
  obtain ⟨before, after, hlist⟩ := List.append_of_mem hd
  have hown : Owns False b.chars [d] := by
    rw [WellFormed, hlist] at h
    have hperm : (before ++ d :: after).Perm ([d] ++ (before ++ after)) := List.perm_middle
    exact Owns.left (h.perm hperm)
  rcases Owns.cases_line hown with rfl | ⟨p, k, -, rfl⟩
  · simp [lineBytes] at hzero
  · exact load_ne_zero hown 0 hzero rfl

theorem front_append_back (b : Buffer) (ld pos : Nat) :
    frontOf b ld pos ++ backOf b ld pos = bufferText b :=
  List.take_append_drop _ _

theorem front_spec (hwf : WellFormed b) (hline : (lines b)[ld]? = some l)
    (hpos : pos ≤ l.length) :
    (frontOf b ld pos).count 0 = ld ∧ lastLine 0 (frontOf b ld pos) = l.take pos ∧
      offset (lines b) ld pos = (frontOf b ld pos).length ∧
      ∃ after, (lines b).length = ld + 1 + after.length ∧
        backOf b ld pos = l.drop pos ++ textAfter 0 after := by
  have hzero := lines_not_mem hwf
  obtain ⟨hlt, hget⟩ := List.getElem?_eq_some_iff.mp hline
  obtain ⟨before, after, hlines, hld⟩ : ∃ before after, lines b = before ++ l :: after ∧
      before.length = ld := by
    refine ⟨(lines b).take ld, (lines b).drop (ld + 1), ?_, ?_⟩
    · rw [← hget, List.getElem_cons_drop, List.take_append_drop]
    · rw [List.length_take, Nat.min_eq_left (Nat.le_of_lt hlt)]
  have hfront : frontOf b ld pos = textBefore 0 before ++ l.take pos := by
    rw [frontOf, bufferText, hlines, ← hld]
    exact text_take_offset 0 before after hpos
  have hback : backOf b ld pos = l.drop pos ++ textAfter 0 after := by
    rw [backOf, bufferText, hlines, ← hld]
    exact text_drop_offset 0 before after hpos
  have hbefore : ∀ x ∈ before, 0 ∉ x := fun x hx => hzero x (by simp [hlines, hx])
  have htake : 0 ∉ l.take pos := fun hmem => hzero l (by simp [hlines]) (List.mem_of_mem_take hmem)
  refine ⟨?_, ?_, ?_, after, ?_, hback⟩
  · rw [hfront, front_count 0 hbefore htake, hld]
  · rw [hfront, lastLine_front 0 before htake]
  · rw [hfront, List.length_append, textBefore_length, List.length_take, Nat.min_eq_left hpos,
      offset, hlines, ← hld, List.take_left]
  · rw [hlines, List.length_append, List.length_cons, hld]
    omega

theorem exists_line (hwf : WellFormed b) (hne : b.lineDescList ≠ [])
    (htext : bufferText b = front ++ rest) :
    ∃ l, (lines b)[front.count 0]? = some l ∧ (lastLine 0 front).length ≤ l.length ∧
      l.take (lastLine 0 front).length = lastLine 0 front ∧
      frontOf b (front.count 0) (lastLine 0 front).length = front ∧
      backOf b (front.count 0) (lastLine 0 front).length = rest := by
  have hzero := lines_not_mem hwf
  obtain ⟨before, l, after, pos, hlines, hpos, hfront, hrest⟩ :=
    exists_place 0 (by simpa [lines] using hne) htext
  have hbefore : ∀ x ∈ before, 0 ∉ x := fun x hx => hzero x (by simp [hlines, hx])
  have htake : 0 ∉ l.take pos := fun hmem => hzero l (by simp [hlines]) (List.mem_of_mem_take hmem)
  have hcount : front.count 0 = before.length := by rw [hfront, front_count 0 hbefore htake]
  have hlast : lastLine 0 front = l.take pos := by rw [hfront, lastLine_front 0 before htake]
  have hlength : (lastLine 0 front).length = pos := by
    rw [hlast, List.length_take, Nat.min_eq_left hpos]
  refine ⟨l, ?_, by rw [hlength]; exact hpos, by rw [hlength, hlast], ?_, ?_⟩
  · rw [hcount, hlines, List.getElem?_append_right le_rfl, Nat.sub_self]
    rfl
  · rw [frontOf, bufferText, hcount, hlength, hlines, text_take_offset 0 before after hpos, hfront]
  · rw [backOf, bufferText, hcount, hlength, hlines, text_drop_offset 0 before after hpos, hrest]

theorem insertSegment_granting (line : Int) (pos : Nat) (stream : List Byte)
    (hgrant : Granting b.chars.answers)
    (hlt : ld < b.lineDescList.length) :
    ∃ b', insertSegment b ld line pos stream = (.ok, b') ∧ Granting b'.chars.answers ∧
      b'.undo = b.undo ∧ b'.lineDescList.length = b.lineDescList.length := by
  unfold insertSegment
  split
  · exact ⟨b, rfl, hgrant, rfl, rfl⟩
  rename_i hs
  obtain ⟨d', chars, hinsert, hgrant'⟩ := insertInLine_granting b.lineDescList[ld] pos hgrant hs
  rw [List.getElem?_eq_getElem hlt]
  simp only [hinsert]
  refine ⟨_, rfl, hgrant', rfl, ?_⟩
  simp [movePlaces, setLine]

theorem insertBreak_granting (line : Int) (pos len : Nat) (hgrant : Granting b.chars.answers)
    (hlt : ld < b.lineDescList.length) :
    ∃ b', insertBreak b ld line pos len = (.ok, b') ∧ Granting b'.chars.answers ∧
      b'.undo = b.undo ∧ ld + 1 < b'.lineDescList.length := by
  simp only [insertBreak, List.getElem?_eq_getElem hlt, if_pos (hgrant 0)]
  refine ⟨_, rfl, granting_rest hgrant, rfl, ?_⟩
  simp only [movePlaces, addLine, setLine, setAnswers]
  rw [List.length_insertIdx_of_le_length (by simp; omega), List.length_set]
  omega

theorem insertSegments_granting (line : Int) (pos : Nat) (segs : List (List Byte))
    (hgrant : Granting b.chars.answers) (hlt : ld < b.lineDescList.length) :
    ∃ b', insertSegments b ld line pos segs = (.ok, b') ∧ Granting b'.chars.answers ∧
      b'.undo = b.undo := by
  induction segs generalizing b ld pos line with
  | nil => exact ⟨b, rfl, hgrant, rfl⟩
  | cons s rest ih =>
      obtain ⟨b₁, hseg, hgrant₁, hundo₁, hlength₁⟩ :=
        insertSegment_granting line pos s hgrant hlt
      cases rest with
      | nil => exact ⟨b₁, hseg, hgrant₁, hundo₁⟩
      | cons next rest =>
          obtain ⟨b₂, hbreak, hgrant₂, hundo₂, hlength₂⟩ :=
            insertBreak_granting line pos s.length hgrant₁ (hlength₁ ▸ hlt)
          obtain ⟨b', hrun, hgrant', hundo'⟩ := ih (line + 1) 0 hgrant₂ hlength₂
          refine ⟨b', ?_, hgrant', hundo'.trans (hundo₂.trans hundo₁)⟩
          simp only [insertSegments, hseg, hbreak]
          exact hrun

/-- An insertion succeeds when memory is granted. -/
theorem insertStream_granting (hgrant : Granting b.chars.answers)
    (hwf : WellFormed b) (hline : (lines b)[ld]? = some l) (hpos : pos ≤ l.length)
    (hs : stream ≠ []) :
    ∃ b', insertStream b ld ld pos stream = (.ok, b') ∧ Granting b'.chars.answers ∧
      (recording b = true → Records b.undo
        ⟨ld, markedPos (decide (b.linkUndos ≠ 0)) pos, -stream.length⟩ [] b'.undo) ∧
      (recording b = false → b'.undo = b.undo) := by
  obtain ⟨before, d, after, hlist, hld, rfl⟩ := exists_middle hline
  have hlt : ld < b.lineDescList.length := by
    rw [hlist, ← hld]
    simp
  have hlength : (lineBytes b.chars d).length = d.lineLen := by
    refine lineBytes_length (hwf.null d ?_)
    rw [hlist]
    simp
  have hvalid : ¬ (stream.length < 1 ∨ d.lineLen < pos) := by
    have hpositive := List.length_pos_iff.mpr hs
    omega
  simp only [insertStream, hlist, getElem?_middle hld, if_neg hvalid]
  cases hrec : recording b with
  | false =>
      obtain ⟨b', hrun, hgrant', hundo⟩ := insertSegments_granting ld pos
        (stream.splitOn 0) hgrant hlt
      exact ⟨b', hrun, hgrant', by simp, fun _ => hundo⟩
  | true =>
      obtain ⟨ub, answers, hcat, hgrant₁, hsteps, hcur, hlast, hstreams, hcurStream, -, hredo,
        hsave⟩ := catUndoStep_granting b.undo ld
          (if b.linkUndos ≠ 0 then -(pos : Int) - 1 else pos) (-stream.length) hgrant
      obtain ⟨b', hrun, hgrant', hundo⟩ := insertSegments_granting ld pos (stream.splitOn 0)
        (b := setAnswers { b with undo := ub } answers) hgrant₁ hlt
      have hstep : addUndoStep b ld pos (-stream.length) =
          (.ok, setAnswers { b with undo := ub } answers) := by
        simp only [addUndoStep]
        rw [hcat]
      rw [if_pos rfl, hstep]
      refine ⟨b', hrun, hgrant', fun _ => ?_, by simp⟩
      rw [hundo]
      refine ⟨?_, hcur, hlast, ?_, hcurStream, hredo, hsave⟩
      · refine hsteps.trans ?_
        simp only [markedPos, decide_eq_true_eq]
      · rw [List.append_nil, undoBytes, undoBytes]
        exact congrArg₂ (fun m n => NiceEditor.Cells.readCells m 0 n) hstreams hcurStream

theorem cursorOk_of_edit (h : CursorOk b) (hframe : EditFrame ld b b')
    (hclear : b.curLine ≤ ld ∨ Fixed b b') (hnum : b'.numLines = b'.lineDescList.length)
    (hlt : b.curLine < b'.numLines) : CursorOk b' := by
  have hwinY : b'.winY = b.winY := by rw [hframe.view]
  have hcurLine : b'.curLine = b.curLine := by rw [hframe.view]
  have hnonneg := h.winY_nonneg
  have hle := h.winY_le
  refine ⟨hnum, by omega, by omega, by omega, ?_, ?_⟩
  · rw [hcurLine]
    rcases hclear with habove | hfixed
    · exact hframe.cur _ (by omega) h.cur
    · exact hfixed.cur.trans h.cur
  · rw [hwinY]
    rcases hclear with habove | hfixed
    · exact hframe.top _ (by omega) h.top
    · exact hfixed.top.trans h.top

theorem insertStream_step (h : Ready b) (hline : (lines b)[ld]? = some l) (hpos : pos ≤ l.length)
    (hs : stream ≠ []) (hclear : b.curLine ≤ ld ∨ 0 ∉ stream) :
    ∃ b', insertStream b ld ld pos stream = (.ok, b') ∧ Ready b' ∧ SameView b b' ∧
      Edit.Applies ⟨true, frontOf b ld pos, stream⟩ (bufferText b) (bufferText b') ∧
      (recording b = true → Records b.undo
        ⟨ld, markedPos (decide (b.linkUndos ≠ 0)) pos, -stream.length⟩ [] b'.undo) ∧
      (recording b = false → b'.undo = b.undo) := by
  obtain ⟨b', hrun, hgrant, hrecords, hkept⟩ :=
    insertStream_granting h.granting h.wellFormed hline hpos hs
  obtain ⟨hwf, hnum, before, after, -, hlines, hlines'⟩ :=
    insertStream_lines h.wellFormed hline hrun
  obtain ⟨hframe, hfixed⟩ := insertStream_frame hrun
  have htext := insertStream_text h.wellFormed hline hpos hrun
  have hlength : b'.lineDescList.length = b.lineDescList.length + stream.count 0 := by
    have hcount := congrArg List.length hlines'
    have hcount₀ := congrArg List.length hlines
    simp only [lines, List.length_map, List.length_append, List.length_cons,
      spliceLines_length _ _ (List.splitOn_ne_nil 0 stream), splitOn_length] at hcount hcount₀
    omega
  have hnumLines := h.cursor.numLines
  have hcurLine := h.cursor.curLine_lt
  refine ⟨b', hrun, ⟨hwf, hgrant, ?_⟩, hframe.view, ?_, hrecords, hkept⟩
  · exact cursorOk_of_edit h.cursor hframe (hclear.imp_right hfixed) (by omega) (by omega)
  · refine ⟨backOf b ld pos, ?_⟩
    rw [if_pos rfl]
    exact ⟨(front_append_back b ld pos).symm, htext⟩

/-- A deletion leaves the line that it begins in. -/
theorem deleted_lines_lt (h : Ready b) (hline : (lines b)[ld]? = some l) (hpos : pos ≤ l.length) :
    ld + ((backOf b ld pos).take len).count 0 < b.lineDescList.length := by
  obtain ⟨hcount, -⟩ := front_spec h.wellFormed hline hpos
  have hall := text_count 0 (lines_not_mem h.wellFormed) (fun hnil => by
    rw [hnil] at hline
    simp at hline)
  have htaken : ((backOf b ld pos).take len).count 0 ≤ (backOf b ld pos).count 0 :=
    (List.take_sublist len (backOf b ld pos)).count_le 0
  have hsplit : (bufferText b).count 0 = ld + (backOf b ld pos).count 0 := by
    rw [← hcount, ← List.count_append, hcount, front_append_back]
  rw [lines, List.length_map] at hall
  unfold bufferText at hsplit
  unfold lines at hsplit
  omega

/-- Above the last line, a deletion without line breaks stays in its line. -/
theorem deleted_in_line (h : Ready b) (hline : (lines b)[ld]? = some l) (hpos : pos ≤ l.length)
    (hbelow : ld < b.curLine) (hzero : 0 ∉ (backOf b ld pos).take len) : pos + len ≤ l.length := by
  obtain ⟨-, -, -, after, hlength, hrest⟩ := front_spec h.wellFormed hline hpos
  cases after with
  | nil =>
      have hcurLine := h.cursor.curLine_lt
      have hnumLines := h.cursor.numLines
      simp only [lines, List.length_map, List.length_nil] at hlength
      omega
  | cons next after =>
      rw [hrest, textAfter_cons] at hzero
      by_contra hlong
      refine hzero ?_
      rw [List.take_append, List.mem_append]
      obtain ⟨m, hm⟩ : ∃ m, len - (l.drop pos).length = m + 1 :=
        ⟨len - (l.drop pos).length - 1, by rw [List.length_drop]; omega⟩
      rw [hm, List.take_succ_cons]
      exact Or.inr List.mem_cons_self

/-- A deletion, when memory is granted. -/
theorem deleteStream_step (h : Ready b) (hline : (lines b)[ld]? = some l) (hpos : pos ≤ l.length)
    (hlen : 1 ≤ len) (hback : backOf b ld pos ≠ [])
    (hclear : b.curLine ≤ ld ∨ 0 ∉ (backOf b ld pos).take len) :
    ∃ b', deleteStream b ld ld pos len = (.ok, b') ∧ Ready b' ∧ SameView b b' ∧
      Edit.Applies ⟨false, frontOf b ld pos, (backOf b ld pos).take len⟩
        (bufferText b) (bufferText b') ∧
      (recording b = true → Records b.undo
        ⟨ld, markedPos (decide (b.linkUndos ≠ 0)) pos, ((backOf b ld pos).take len).length⟩
        ((backOf b ld pos).take len) b'.undo) ∧
      (b.redoing = true → b'.undo = b.undo) ∧
      (b.redoing = false → b.undoing = true → StreamOk b.undo.redo →
        Saves b.undo ((backOf b ld pos).take len) b'.undo) := by
  have hend : offset (lines b) ld pos < (bufferText b).length := by
    have hpositive := List.length_pos_iff.mpr hback
    rw [backOf, List.length_drop] at hpositive
    omega
  obtain ⟨left, b₁, hrun, hgrant, hwf, htext, hdescs, hnum, hrecorded, hleft⟩ :=
    deleteStream_text ld h.wellFormed h.granting hline hpos hend hlen
  obtain ⟨hchars, hlist, hnumLines⟩ := recording_frame (b := b) b₁ (-left)
  obtain ⟨hframe, hfixed⟩ := deleteStream_frame hrun
  set s := ((bufferText b).drop (offset (lines b) ld pos)).take len with hs
  have hstill : ld + s.count 0 < b.lineDescList.length := deleted_lines_lt h hline hpos
  have hclear' : b.curLine ≤ ld ∨
      Fixed b (if recording b then fixLastUndoStep b₁ (-left) else b₁) := by
    rcases Int.lt_or_le ld b.curLine with hbelow | habove
    · -- Nothing but characters of the line is deleted.
      have hshort := deleted_in_line h hline hpos hbelow (hclear.resolve_left (by omega))
      obtain ⟨hlt, hget⟩ := List.getElem?_eq_some_iff.mp hline
      simp only [lines, List.getElem_map, List.length_map] at hget hlt
      refine Or.inr (hfixed _ (List.getElem?_eq_getElem hlt) ?_)
      have hlineLen : l.length = b.lineDescList[ld].lineLen := by
        rw [← hget]
        exact lineBytes_length (h.wellFormed.null _ (List.getElem_mem hlt))
      omega
    · exact Or.inl habove
  have hcurLine := h.cursor.curLine_lt
  have hnumLines₀ := h.cursor.numLines
  refine ⟨_, hrun, ⟨?_, ?_, ?_⟩, hframe.view, ?_, fun hrec => ?_, fun hredo => ?_,
    fun hredo hundo hok => ?_⟩
  · rw [WellFormed, hchars, hlist]
    exact hwf
  · rw [hchars]
    exact hgrant
  · refine cursorOk_of_edit h.cursor hframe hclear' ?_ ?_
    · rw [hnumLines, hlist]
      omega
    · rw [hnumLines, hnum]
      rcases hclear with habove | hzero
      · omega
      · have hnone : s.count 0 = 0 := List.count_eq_zero.mpr hzero
        omega
  · refine ⟨(backOf b ld pos).drop len, ?_⟩
    rw [if_neg (by simp)]
    refine ⟨?_, ?_⟩
    · simp only [List.append_assoc, List.take_append_drop, front_append_back]
    · rw [backOf, List.drop_drop]
      refine Eq.trans ?_ htext
      rw [bufferText, lines, hchars, hlist]
      rfl
  · obtain ⟨hcur, hlast, hsteps, hbytes, hcurStream, hredo, hsave⟩ :=
      recorded_step h.granting hrec hrecorded hleft
    rw [if_pos hrec]
    refine ⟨?_, hcur, hlast, hbytes, hcurStream, hredo, hsave⟩
    rw [hsteps]
    simp only [markedPos, decide_eq_true_eq]
    rfl
  · have hrec : recording b = false := by simp [recording, hredo]
    rw [if_neg (by simp [hrec])]
    rw [afterRecord, if_neg (by simp [hrec])] at hrecorded
    exact hrecorded.redone hredo
  · have hrec : recording b = false := by simp [recording, hundo]
    rw [if_neg (by simp [hrec])]
    rw [afterRecord, if_neg (by simp [hrec])] at hrecorded
    obtain ⟨hok', -, hbytes, hstreams, hcurStream⟩ := hrecorded.undone hredo hundo hok
    exact ⟨hrecorded.steps, hrecorded.curStep, hrecorded.lastStep, hrecorded.lastSaveStep,
      hstreams, hcurStream, hok', hbytes⟩

end NiceEditor.EditSteps
