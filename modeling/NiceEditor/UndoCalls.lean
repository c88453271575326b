import NiceEditor.UndoLog

namespace NiceEditor.UndoCalls

open NiceEditor.Cells
open NiceEditor.Pools
open NiceEditor.BufferData
open NiceEditor.UndoSteps
open NiceEditor.EditStream
open NiceEditor.LineText
open NiceEditor.InsertRefinement
open NiceEditor.Navigation
open NiceEditor.Cursor
open NiceEditor.EditFrames
open NiceEditor.EditLog
open NiceEditor.EditSteps
open NiceEditor.Undo
open NiceEditor.UndoLog

/-- What moves of the cursor, edits, undos and redos leave as it is. -/
structure Kept (b b' : Buffer) : Prop where
  encoding : b'.encoding = b.encoding
  opt : b'.opt = b.opt
  linkUndos : b'.linkUndos = b.linkUndos
  undoing : b'.undoing = b.undoing
  redoing : b'.redoing = b.redoing

/-- The cursor stands right behind `front`. -/
structure At (b : Buffer) (front rest : List Byte) : Prop where
  ready : Ready b
  cur : b.curLineDesc = some (front.count 0)
  curLine : b.curLine = front.count 0
  curPos : b.curPos = (lastLine 0 front).length
  text : bufferText b = front ++ rest

variable {t : Terminal} {b b' b'' : Buffer} {front rest body stream p : List Byte} {x : Entry}
variable {done undone : List Entry} {es : List (Edit Byte)} {e : Edit Byte} {c : Chain Byte}

theorem Kept.trans (first : Kept b b') (second : Kept b' b'') : Kept b b'' where
  encoding := second.encoding.trans first.encoding
  opt := second.opt.trans first.opt
  linkUndos := second.linkUndos.trans first.linkUndos
  undoing := second.undoing.trans first.undoing
  redoing := second.redoing.trans first.redoing

theorem kept_of_moved (h : Moved b b') : Kept b b' := by
  rw [h]
  exact ⟨rfl, rfl, rfl, rfl, rfl⟩

theorem kept_of_sameView (h : SameView b b') : Kept b b' := by
  rw [h]
  exact ⟨rfl, rfl, rfl, rfl, rfl⟩

theorem ready_setUndo (h : Ready b) (ub : UndoBuffer) : Ready { b with undo := ub } where
  wellFormed := h.wellFormed
  granting := h.granting
  cursor := ⟨h.cursor.numLines, h.cursor.winY_nonneg, h.cursor.winY_le, h.cursor.curLine_lt,
    h.cursor.cur, h.cursor.top⟩

theorem At.setUndo (h : At b front rest) (ub : UndoBuffer) :
    At { b with undo := ub } front rest :=
  ⟨ready_setUndo h.ready ub, h.cur, h.curLine, h.curPos, h.text⟩

theorem ne_nil_of_ready (h : Ready b) : b.lineDescList ≠ [] := by
  intro hnil
  have hnum := h.cursor.numLines
  have hlt := h.cursor.curLine_lt
  have hle := h.cursor.winY_le
  have hnonneg := h.cursor.winY_nonneg
  rw [hnil] at hnum
  simp only [List.length_nil] at hnum
  omega

theorem gotoStep_spec (h : Ready b) (hwhole : WholeChars b.encoding (lastLine 0 x.1.front))
    (htext : bufferText b = x.1.front ++ rest) :
    Moved b (gotoStep t b (stepOf x)) ∧ At (gotoStep t b (stepOf x)) x.1.front rest := by
  obtain ⟨l, hline, hpos, htake, -, -⟩ := exists_line h.wellFormed (ne_nil_of_ready h) htext
  obtain ⟨hmoved, hcursor, hcurLine, hcurPos⟩ :=
    gotoLinePos_spec t h.cursor hline hpos (htake.symm ▸ hwhole)
  have hgoto : gotoStep t b (stepOf x) =
      gotoLinePos t b (x.1.front.count 0 : Nat) ((lastLine 0 x.1.front).length : Nat) := by
    rw [gotoStep, stepPos_stepOf]
    rfl
  rw [hgoto]
  refine ⟨hmoved, ⟨⟨?_, ?_, hcursor⟩, ?_, hcurLine, hcurPos, ?_⟩⟩
  · rw [hmoved]
    exact h.wellFormed
  · rw [hmoved]
    exact h.granting
  · rw [hcursor.cur, hcurLine, Int.toNat_natCast]
  · rw [← htext, hmoved]
    rfl

theorem At.insert (h : At b front rest) (hs : stream ≠ []) :
    Ready (insertAtCursor b stream) ∧ SameView b (insertAtCursor b stream) ∧
      Edit.Applies ⟨true, front, stream⟩ (bufferText b) (bufferText (insertAtCursor b stream)) ∧
      (recording b = false → (insertAtCursor b stream).undo = b.undo) := by
  obtain ⟨l, hline, hpos, -, hfront, -⟩ :=
    exists_line h.ready.wellFormed (ne_nil_of_ready h.ready) h.text
  obtain ⟨b', hrun, hready, hview, happlies, -, hundo⟩ :=
    insertStream_step h.ready hline hpos hs (Or.inl h.curLine.le)
  have hcall : insertAtCursor b stream = b' := by
    rw [insertAtCursor, h.cur]
    simp only [h.curLine, h.curPos, Int.toNat_natCast, hrun]
  rw [hcall]
  rw [hfront] at happlies
  exact ⟨hready, hview, happlies, hundo⟩

theorem At.delete (h : At b front (body ++ rest)) (hbody : body ≠ []) :
    Ready (deleteAtCursor b body.length) ∧ SameView b (deleteAtCursor b body.length) ∧
      Edit.Applies ⟨false, front, body⟩ (bufferText b)
        (bufferText (deleteAtCursor b body.length)) ∧
      (b.redoing = true → (deleteAtCursor b body.length).undo = b.undo) ∧
      (b.redoing = false → b.undoing = true → StreamOk b.undo.redo →
        Saves b.undo body (deleteAtCursor b body.length).undo) := by
  obtain ⟨l, hline, hpos, -, hfront, hback⟩ :=
    exists_line h.ready.wellFormed (ne_nil_of_ready h.ready) h.text
  obtain ⟨b', hrun, hready, hview, happlies, -, hredo, hundo⟩ :=
    deleteStream_step h.ready hline hpos (List.length_pos_iff.mpr hbody)
      (by rw [hback]; simp [hbody]) (Or.inl h.curLine.le)
  have hcall : deleteAtCursor b body.length = b' := by
    rw [deleteAtCursor, h.cur]
    simp only [h.curLine, h.curPos, Int.toNat_natCast, hrun]
  rw [hfront, hback, List.take_left] at happlies
  rw [hback, List.take_left] at hundo
  rw [hcall]
  exact ⟨hready, hview, happlies, hredo, hundo⟩

theorem ready_stepAhead (h : Ready b) : Ready (stepAhead b) := ready_setUndo h _

theorem ready_forwardStream (h : Ready b) (n : Nat) : Ready (forwardStream b n) :=
  ready_setUndo h _

@[simp] theorem bufferText_stepAhead (b : Buffer) :
    bufferText (stepAhead b) = bufferText b := rfl

@[simp] theorem bufferText_forwardStream (b : Buffer) (n : Nat) :
    bufferText (forwardStream b n) = bufferText b := rfl

theorem Kept.stepAhead (h : Kept b b') : Kept b (stepAhead b') :=
  h.trans ⟨rfl, rfl, rfl, rfl, rfl⟩

theorem Kept.forwardStream (h : Kept b b') (n : Nat) : Kept b (forwardStream b' n) :=
  h.trans ⟨rfl, rfl, rfl, rfl, rfl⟩

theorem Kept.rewindStream (h : Kept b b') (n : Nat) : Kept b (rewindStream b' n) :=
  h.trans ⟨rfl, rfl, rfl, rfl, rfl⟩

theorem Kept.rewindRedo (h : Kept b b') (n : Nat) : Kept b (rewindRedo b' n) :=
  h.trans ⟨rfl, rfl, rfl, rfl, rfl⟩

theorem At.rewindStream (h : At b front rest) (n : Nat) : At (rewindStream b n) front rest :=
  h.setUndo _

theorem At.rewindRedo (h : At b front rest) (n : Nat) : At (rewindRedo b n) front rest :=
  h.setUndo _

theorem recording_of_undoing (h : b.undoing = true) : recording b = false := by
  simp [recording, h]

theorem recording_of_redoing (h : b.redoing = true) : recording b = false := by
  simp [recording, h]

/-- The latest edit is taken back. -/
theorem undoStep_spec (h : Ready b) (hundoing : b.undoing = true) (hredoing : b.redoing = false)
    (hlog : Represents b.undo (x :: done) undone) (hsound : Sound b.encoding x.1)
    (happlies : x.1.Applies p (bufferText b)) :
    Ready (undoStep t b) ∧ Kept b (undoStep t b) ∧
      Represents (undoStep t b).undo done (x :: undone) ∧ bufferText (undoStep t b) = p := by
  obtain ⟨hbody, hwhole⟩ := hsound
  have hlength := List.length_pos_iff.mpr hbody
  have hready₀ : Ready (stepBack b) := ready_setUndo h _
  have hkept₀ : Kept b (stepBack b) := ⟨rfl, rfl, rfl, rfl, rfl⟩
  have hstep : (stepBack b).undo.steps (stepBack b).undo.curStep = stepOf x := hlog.step_done
  obtain ⟨rest, hrest⟩ := happlies
  rw [undoStep]
  simp only [hstep, undoEdit]
  cases hins : x.1.inserts with
  | true =>
      rw [if_pos hins] at hrest
      have hlen : (stepOf x).len = -x.1.body.length := by rw [stepOf, if_pos hins]
      rw [if_neg (by omega), if_pos (by omega), hlen, Int.natAbs_neg, Int.natAbs_natCast]
      have htext : bufferText (stepBack b) = x.1.front ++ (x.1.body ++ rest) := by
        rw [← List.append_assoc, ← hrest.2]
        rfl
      obtain ⟨hmoved, hat⟩ := gotoStep_spec (t := t) hready₀ hwhole htext
      obtain ⟨hready', hview, happlies', -, hsaves⟩ := hat.delete hbody
      have hkept := hkept₀.trans (kept_of_moved hmoved)
      have hundo₁ : (gotoStep t (stepBack b) (stepOf x)).undo = (stepBack b).undo := by
        rw [hmoved]
      rw [hundo₁] at hsaves
      have hsaved := hsaves (hkept.redoing.trans hredoing) (hkept.undoing.trans hundoing)
        hlog.redoOk
      refine ⟨hready', hkept.trans (kept_of_sameView hview), ?_, ?_⟩
      · refine hlog.undo hsaved.steps hsaved.curStep hsaved.lastStep hsaved.streams ?_
          hsaved.redoOk ?_
        · rw [hsaved.curStream]
          refine hlog.curStream.trans ?_
          rw [List.reverse_cons, deleted_append, deleted_singleton, if_pos hins, List.append_nil]
        · rw [hsaved.redo, inserted_singleton, if_pos hins]
          rfl
      · refine happlies'.unique ⟨rest, ?_⟩
        rw [if_neg (by simp), hat.text]
        exact ⟨(List.append_assoc _ _ _).symm, hrest.1⟩
  | false =>
      rw [if_neg (by simp [hins])] at hrest
      have hlen : (stepOf x).len = x.1.body.length := by rw [stepOf, if_neg (by simp [hins])]
      rw [if_neg (by omega), if_neg (by omega), hlen, Int.natAbs_natCast]
      obtain ⟨hmoved, hat⟩ := gotoStep_spec (t := t) hready₀ hwhole hrest.2
      obtain ⟨hstart, hread⟩ := hlog.body_done hins
      have hkept := hkept₀.trans (kept_of_moved hmoved)
      have hundo₁ : (gotoStep t (stepBack b) (stepOf x)).undo = (stepBack b).undo := by
        rw [hmoved]
      set b₁ := rewindStream (gotoStep t (stepBack b) (stepOf x)) x.1.body.length with hb₁
      have hundo₂ : b₁.undo = { (stepBack b).undo with
          curStream := b.undo.curStream - x.1.body.length } := by
        rw [hb₁, rewindStream, hundo₁]
        rfl
      rw [show readCells b₁.undo.streams b₁.undo.curStream x.1.body.length = x.1.body by
        rw [hundo₂]; exact hread]
      have hat₁ : At b₁ x.1.front rest := hat.rewindStream _
      obtain ⟨hready', hview, happlies', hundo'⟩ := hat₁.insert hbody
      have hundo' := hundo' (recording_of_undoing (hkept.undoing.trans hundoing))
      have hkept₁ : Kept b b₁ := hkept.rewindStream _
      refine ⟨hready', hkept₁.trans (kept_of_sameView hview), ?_, ?_⟩
      · rw [hundo', hundo₂]
        refine hlog.undo rfl rfl rfl rfl hstart hlog.redoOk ?_
        rw [inserted_singleton, if_neg (by simp [hins]), List.append_nil]
        rfl
      · refine happlies'.unique ⟨rest, ?_⟩
        rw [if_pos rfl]
        exact ⟨hat₁.text, hrest.1⟩

/-- The edit undone latest is done again. -/
theorem redoStep_spec (h : Ready b) (hredoing : b.redoing = true)
    (hlog : Represents b.undo done (x :: undone)) (hsound : Sound b.encoding x.1)
    (happlies : x.1.Applies (bufferText b) p) :
    Ready (redoStep t b) ∧ Kept b (redoStep t b) ∧
      Represents (redoStep t b).undo (x :: done) undone ∧ bufferText (redoStep t b) = p := by
  obtain ⟨hbody, hwhole⟩ := hsound
  have hlength := List.length_pos_iff.mpr hbody
  obtain ⟨rest, hrest⟩ := happlies
  rw [redoStep, hlog.step_undone]
  simp only [redoEdit]
  cases hins : x.1.inserts with
  | true =>
      rw [if_pos hins] at hrest
      have hlen : (stepOf x).len = -x.1.body.length := by rw [stepOf, if_pos hins]
      rw [if_neg (by omega), if_pos (by omega), hlen, Int.natAbs_neg, Int.natAbs_natCast]
      obtain ⟨hmoved, hat⟩ := gotoStep_spec (t := t) h hwhole hrest.1
      obtain ⟨m, hstream, hstart, hkeep, hread⟩ := hlog.body_undone hins hbody
      have hkept := kept_of_moved hmoved
      have hundo₁ : (gotoStep t b (stepOf x)).undo = b.undo := by rw [hmoved]
      set b₁ := rewindRedo (gotoStep t b (stepOf x)) x.1.body.length with hb₁
      have hundo₂ : b₁.undo = { b.undo with
          redo := { b.undo.redo with len := b.undo.redo.len - x.1.body.length } } := by
        rw [hb₁, rewindRedo, hundo₁]
      rw [show bytesBehind b₁.undo.redo x.1.body.length = x.1.body by
        rw [hundo₂, bytesBehind, hstream]; exact hread]
      have hat₁ : At b₁ x.1.front rest := hat.rewindRedo _
      obtain ⟨hready', hview, happlies', hundo'⟩ := hat₁.insert hbody
      have hundo' := hundo' (recording_of_redoing (hkept.redoing.trans hredoing))
      have hkept₁ : Kept b b₁ := hkept.rewindRedo _
      have hkept' := hkept₁.trans (kept_of_sameView hview)
      refine ⟨ready_stepAhead hready', hkept'.stepAhead, ?_, ?_⟩
      · rw [stepAhead, hundo', hundo₂]
        refine hlog.redone rfl rfl rfl rfl ?_ ⟨?_, hlog.redoOk.null⟩ ?_
        · rw [deleted_singleton, if_pos hins]
          rfl
        · exact (Nat.sub_le _ _).trans hlog.redoOk.len_le
        · simp only [streamBytes, hstream]
          rw [hstart, hkeep]
      · rw [bufferText_stepAhead]
        refine happlies'.unique ⟨rest, ?_⟩
        rw [if_pos rfl]
        exact ⟨hat₁.text, hrest.2⟩
  | false =>
      rw [if_neg (by simp [hins])] at hrest
      have hlen : (stepOf x).len = x.1.body.length := by rw [stepOf, if_neg (by simp [hins])]
      rw [if_neg (by omega), if_neg (by omega), hlen, Int.natAbs_natCast]
      have htext : bufferText b = x.1.front ++ (x.1.body ++ rest) := by
        rw [← List.append_assoc, ← hrest.1]
      obtain ⟨hmoved, hat⟩ := gotoStep_spec (t := t) h hwhole htext
      obtain ⟨hready', hview, happlies', hundo', -⟩ := hat.delete hbody
      have hkept := kept_of_moved hmoved
      have hundo₁ : (gotoStep t b (stepOf x)).undo = b.undo := by rw [hmoved]
      have hkept' := hkept.trans (kept_of_sameView hview)
      refine ⟨ready_stepAhead (ready_forwardStream hready' _), (hkept'.forwardStream _).stepAhead,
        ?_, ?_⟩
      · rw [stepAhead, forwardStream, hundo' (hkept.redoing.trans hredoing), hundo₁]
        refine hlog.redone rfl rfl rfl rfl ?_ hlog.redoOk ?_
        · rw [deleted_singleton, if_neg (by simp [hins])]
        · rw [hlog.redo, List.reverse_cons, inserted_append, inserted_singleton,
            if_neg (by simp [hins]), List.append_nil]
      · rw [bufferText_stepAhead, bufferText_forwardStream]
        refine happlies'.unique ⟨rest, ?_⟩
        rw [if_neg (by simp), hat.text]
        exact ⟨(List.append_assoc _ _ _).symm, hrest.2⟩

/-- The loop of `undo` takes back an edit and the ones linked to it. -/
theorem undoLoop_spec {x : Entry} (es : List (Edit Byte)) (turns : Nat) (hturns : es.length < turns)
    (h : Ready b)
    (hundoing : b.undoing = true) (hredoing : b.redoing = false)
    (hlog : Represents b.undo (x :: (es.map (fun e => (e, true)) ++ done)) undone)
    (hstop : ∀ y ∈ done.head?, y.2 = false) (hx : Sound b.encoding x.1)
    (hsound : ∀ e ∈ es, Sound b.encoding e) (hpath : Path (es.reverse ++ [x.1]) p (bufferText b)) :
    Ready (undoLoop t turns b) ∧ Kept b (undoLoop t turns b) ∧
      Represents (undoLoop t turns b).undo done
        ((es.map fun e => (e, true)).reverse ++ x :: undone) ∧
      bufferText (undoLoop t turns b) = p := by
  induction es generalizing turns b x undone with
  | nil =>
      obtain ⟨turns, rfl⟩ : ∃ m, turns = m + 1 := ⟨turns - 1, by simp at hturns; omega⟩
      obtain ⟨hready', hkept, hlog', htext⟩ :=
        undoStep_spec (t := t) h hundoing hredoing hlog hx (path_singleton.mp hpath)
      have hlast : ¬ ((undoStep t b).undo.curStep ≠ 0 ∧
          ((undoStep t b).undo.steps ((undoStep t b).undo.curStep - 1)).pos < 0) := by
        rintro ⟨hne, hneg⟩
        cases done with
        | nil => exact hne hlog'.curStep
        | cons y done =>
            rw [hlog'.step_done, stepOf_pos_neg, hstop y rfl] at hneg
            simp at hneg
      simp only [undoLoop, if_neg hlast]
      exact ⟨hready', hkept, hlog', htext⟩
  | cons e es ih =>
      obtain ⟨turns, rfl⟩ : ∃ m, turns = m + 1 := ⟨turns - 1, by simp at hturns; omega⟩
      obtain ⟨middle, hbefore, hlast⟩ := hpath.exists_of_append
      obtain ⟨hready', hkept, hlog', htext⟩ :=
        undoStep_spec (t := t) h hundoing hredoing hlog hx (path_singleton.mp hlast)
      have hlinked : (undoStep t b).undo.curStep ≠ 0 ∧
          ((undoStep t b).undo.steps ((undoStep t b).undo.curStep - 1)).pos < 0 := by
        refine ⟨?_, ?_⟩
        · rw [hlog'.curStep]
          simp
        · rw [List.map_cons, List.cons_append] at hlog'
          rw [hlog'.step_done, stepOf_pos_neg]
      simp only [undoLoop, if_pos hlinked]
      have hbefore' : Path (es.reverse ++ [e]) p (bufferText (undoStep t b)) := by
        rw [htext, ← List.reverse_cons]
        exact hbefore
      obtain ⟨hready, hkept', hlogged, hreached⟩ := @ih (undoStep t b) _ (e, true) turns
        (by simpa using hturns) hready' (hkept.undoing.trans hundoing)
        (hkept.redoing.trans hredoing) hlog' (hkept.encoding ▸ hsound e List.mem_cons_self)
        (fun e' he' => hkept.encoding ▸ hsound e' (List.mem_cons_of_mem _ he')) hbefore'
      refine ⟨hready, hkept.trans hkept', ?_, hreached⟩
      simpa using hlogged

/-- The loop of `redo` does an edit again and the ones it is linked to. -/
theorem redoLoop_spec (es : List (Edit Byte)) (turns : Nat) (hturns : es.length < turns)
    (h : Ready b)
    (hredoing : b.redoing = true)
    (hlog : Represents b.undo done (es.map (fun e => (e, true)) ++ (e, false) :: undone))
    (he : Sound b.encoding e) (hsound : ∀ e ∈ es, Sound b.encoding e)
    (hpath : Path (es ++ [e]) (bufferText b) p) :
    Ready (redoLoop t turns b) ∧ Kept b (redoLoop t turns b) ∧
      Represents (redoLoop t turns b).undo
        ((e, false) :: ((es.map fun e => (e, true)).reverse ++ done)) undone ∧
      bufferText (redoLoop t turns b) = p := by
  induction es generalizing turns b done with
  | nil =>
      obtain ⟨turns, rfl⟩ : ∃ m, turns = m + 1 := ⟨turns - 1, by simp at hturns; omega⟩
      obtain ⟨hready', hkept, hlog', htext⟩ :=
        redoStep_spec (t := t) h hredoing hlog he (path_singleton.mp hpath)
      have hlast : ¬ ((redoStep t b).undo.curStep < (redoStep t b).undo.lastStep ∧
          ((redoStep t b).undo.steps ((redoStep t b).undo.curStep - 1)).pos < 0) := by
        rintro ⟨-, hneg⟩
        rw [hlog'.step_done, stepOf_pos_neg] at hneg
        simp at hneg
      simp only [redoLoop, if_neg hlast]
      exact ⟨hready', hkept, hlog', htext⟩
  | cons e' es ih =>
      obtain ⟨turns, rfl⟩ : ∃ m, turns = m + 1 := ⟨turns - 1, by simp at hturns; omega⟩
      cases hpath with
      | cons hfirst hrest =>
          obtain ⟨hready', hkept, hlog', htext⟩ := redoStep_spec (t := t) h hredoing hlog
            (hsound e' List.mem_cons_self) hfirst
          have hlinked : (redoStep t b).undo.curStep < (redoStep t b).undo.lastStep ∧
              ((redoStep t b).undo.steps ((redoStep t b).undo.curStep - 1)).pos < 0 := by
            refine ⟨?_, ?_⟩
            · rw [hlog'.curStep, hlog'.lastStep]
              simp
            · rw [hlog'.step_done, stepOf_pos_neg]
          simp only [redoLoop, if_pos hlinked]
          rw [← htext] at hrest
          obtain ⟨hready, hkept', hlogged, hreached⟩ := ih turns
            (by simpa using hturns) hready' (hkept.redoing.trans hredoing) hlog'
            (hkept.encoding ▸ he)
            (fun e'' he'' => hkept.encoding ▸ hsound e'' (List.mem_cons_of_mem _ he'')) hrest
          refine ⟨hready, hkept.trans hkept', ?_, hreached⟩
          simpa using hlogged

theorem reverse_entries (c : Chain Byte) :
    (c.entries false).reverse =
      (c.last, false) :: c.init.reverse.map fun e => (e, true) := by
  rw [Chain.entries, List.reverse_append, List.map_reverse]
  rfl

theorem undo_spec (h : Ready b) (hundoing : b.undoing = false) (hredoing : b.redoing = false)
    (hlog : Represents b.undo ((c.entries false).reverse ++ done) undone)
    (hstop : ∀ y ∈ done.head?, y.2 = false) (hsound : ∀ e ∈ c.edits, Sound b.encoding e)
    (hpath : Path c.edits p (bufferText b)) :
    ∃ b', undo t b = (.ok, b') ∧ Ready b' ∧ Kept b b' ∧
      Represents b'.undo done (c.entries false ++ undone) ∧ bufferText b' = p := by
  rw [reverse_entries, List.cons_append] at hlog
  have hcurStep := hlog.curStep
  simp only [List.length_cons, List.length_append, List.length_map, List.length_reverse] at hcurStep
  set b₀ := { b with undoing := true } with hb₀
  have hready₀ : Ready b₀ := ⟨h.wellFormed, h.granting, h.cursor.numLines, h.cursor.winY_nonneg,
    h.cursor.winY_le, h.cursor.curLine_lt, h.cursor.cur, h.cursor.top⟩
  have hinit : ∀ e ∈ c.init, Sound b.encoding e := fun e he => hsound e (by simp [Chain.edits, he])
  obtain ⟨hready, hkept, hlog', htext⟩ := undoLoop_spec (t := t) c.init.reverse b.undo.curStep
    (by rw [List.length_reverse]; omega) hready₀ rfl hredoing hlog hstop
    (hsound c.last (by simp [Chain.edits])) (fun e he => hinit e (List.mem_reverse.mp he))
    (by rw [List.reverse_reverse]; exact hpath)
  refine ⟨{ undoLoop t b.undo.curStep b₀ with undoing := false }, ?_, ?_, ?_, ?_, htext⟩
  · rw [undo, if_neg (by omega)]
  · exact ⟨hready.wellFormed, hready.granting, hready.cursor.numLines, hready.cursor.winY_nonneg,
      hready.cursor.winY_le, hready.cursor.curLine_lt, hready.cursor.cur, hready.cursor.top⟩
  · exact ⟨hkept.encoding, hkept.opt, hkept.linkUndos, hundoing.symm, hkept.redoing⟩
  · rw [List.map_reverse, List.reverse_reverse] at hlog'
    rw [Chain.entries, List.append_assoc]
    exact hlog'

theorem redo_spec (h : Ready b) (hredoing : b.redoing = false)
    (hlog : Represents b.undo done (c.entries false ++ undone))
    (hsound : ∀ e ∈ c.edits, Sound b.encoding e) (hpath : Path c.edits (bufferText b) p) :
    ∃ b', redo t b = (.ok, b') ∧ Ready b' ∧ Kept b b' ∧
      Represents b'.undo ((c.entries false).reverse ++ done) undone ∧ bufferText b' = p := by
  rw [Chain.entries, List.append_assoc] at hlog
  have hcurStep := hlog.curStep
  have hlastStep := hlog.lastStep
  simp only [List.length_append, List.length_map, List.length_singleton] at hlastStep
  set b₀ := { b with redoing := true } with hb₀
  have hready₀ : Ready b₀ := ⟨h.wellFormed, h.granting, h.cursor.numLines, h.cursor.winY_nonneg,
    h.cursor.winY_le, h.cursor.curLine_lt, h.cursor.cur, h.cursor.top⟩
  obtain ⟨hready, hkept, hlog', htext⟩ := redoLoop_spec (t := t) c.init
    (b.undo.lastStep - b.undo.curStep) (by omega) hready₀ rfl hlog
    (hsound c.last (by simp [Chain.edits])) (fun e he => hsound e (by simp [Chain.edits, he])) hpath
  refine ⟨{ redoLoop t (b.undo.lastStep - b.undo.curStep) b₀ with redoing := false },
    ?_, ?_, ?_, ?_, htext⟩
  · rw [redo, if_neg (by omega)]
  · exact ⟨hready.wellFormed, hready.granting, hready.cursor.numLines, hready.cursor.winY_nonneg,
      hready.cursor.winY_le, hready.cursor.curLine_lt, hready.cursor.cur, hready.cursor.top⟩
  · exact ⟨hkept.encoding, hkept.opt, hkept.linkUndos, hkept.undoing, hredoing.symm⟩
  · rw [reverse_entries, List.cons_append, List.map_reverse]
    exact hlog'

end NiceEditor.UndoCalls
