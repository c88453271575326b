import NiceEditor.Undo
import NiceEditor.UndoCalls

namespace NiceEditor.UndoChains

open NiceEditor.Pools
open NiceEditor.BufferData
open NiceEditor.UndoSteps
open NiceEditor.EditStream
open NiceEditor.Navigation
open NiceEditor.Cursor
open NiceEditor.EditFrames
open NiceEditor.Undo
open NiceEditor.UndoCalls

/-- The step in front of `i` is marked as chained to the following one. -/
def Linked (ub : UndoBuffer) (i : Nat) : Prop := i ≠ 0 ∧ (ub.steps (i - 1)).pos < 0

/-- The recorded steps are the same, but for their lengths. -/
structure SameSteps (ub ub' : UndoBuffer) : Prop where
  curStep : ub'.curStep = ub.curStep
  lastStep : ub'.lastStep = ub.lastStep
  pos : ∀ i, (ub'.steps i).pos = (ub.steps i).pos

variable {b b' b'' : Buffer} {ub ub' ub'' : UndoBuffer} {t : Terminal} {i ld pos len : Nat}
variable {line : Int} {stream s : List Byte}

theorem SameSteps.refl (ub : UndoBuffer) : SameSteps ub ub := ⟨rfl, rfl, fun _ => rfl⟩

theorem SameSteps.trans (first : SameSteps ub ub') (second : SameSteps ub' ub'') :
    SameSteps ub ub'' where
  curStep := second.curStep.trans first.curStep
  lastStep := second.lastStep.trans first.lastStep
  pos := fun i => (second.pos i).trans (first.pos i)

theorem SameSteps.linked (h : SameSteps ub ub') : Linked ub' i ↔ Linked ub i := by
  rw [Linked, Linked, h.pos]

/-- What a call of `insert_stream` or `delete_stream` does to the undo buffer: nothing that
matters to the links, or a step is recorded, which is linked while a chain is open. -/
structure Edited (b b' : Buffer) : Prop where
  linkUndos : b'.linkUndos = b.linkUndos
  undoing : b'.undoing = b.undoing
  redoing : b'.redoing = b.redoing
  steps : SameSteps b.undo b'.undo ∨ recording b = true ∧
    b'.undo.curStep = b.undo.curStep + 1 ∧ b'.undo.lastStep = b.undo.curStep + 1 ∧
      (Linked b'.undo b'.undo.curStep ↔ b.linkUndos ≠ 0)

theorem edited_of_sameView (h : SameView b b') (hsteps : SameSteps b.undo b'.undo ∨
    recording b = true ∧ b'.undo.curStep = b.undo.curStep + 1 ∧
      b'.undo.lastStep = b.undo.curStep + 1 ∧
        (Linked b'.undo b'.undo.curStep ↔ b.linkUndos ≠ 0)) : Edited b b' := by
  have hkept := kept_of_sameView h
  exact ⟨hkept.linkUndos, hkept.undoing, hkept.redoing, hsteps⟩

theorem insertSegment_undo (b : Buffer) (ld : Nat) (line : Int) (pos : Nat) (s : List Byte) :
    (insertSegment b ld line pos s).2.undo = b.undo := by
  unfold insertSegment
  split
  · rfl
  split
  · rfl
  split
  · rfl
  · rfl

theorem insertBreak_undo (b : Buffer) (ld : Nat) (line : Int) (pos len : Nat) :
    (insertBreak b ld line pos len).2.undo = b.undo := by
  unfold insertBreak
  split
  · rfl
  · dsimp only
    split
    · rfl
    · rfl

theorem insertSegments_undo (segs : List (List Byte)) :
    (insertSegments b ld line pos segs).2.undo = b.undo := by
  induction segs generalizing b ld line pos with
  | nil => rfl
  | cons s rest ih =>
      cases rest with
      | nil => exact insertSegment_undo _ _ _ _ _
      | cons next rest =>
          have hseg := insertSegment_undo b ld line pos s
          simp only [insertSegments]
          split
          · rename_i b₁ hrun
            rw [hrun] at hseg
            have hbreak := insertBreak_undo b₁ ld line pos s.length
            split
            · rename_i b₂ hrun₂
              rw [hrun₂] at hbreak
              exact (ih (b := b₂)).trans (hbreak.trans hseg)
            · exact hbreak.trans hseg
          · exact hseg

theorem recordDeleted_steps (b : Buffer) (s : List Byte) :
    SameSteps b.undo (recordDeleted b s).undo := by
  unfold recordDeleted
  split
  · exact .refl _
  split
  · exact ⟨rfl, rfl, fun _ => rfl⟩
  split
  · obtain ⟨hsteps, hcur, hlast, -⟩ := addToUndoStream_frame b.chars.answers b.undo s
    exact ⟨hcur, hlast, fun i => congrArg (fun f => (f i).pos) hsteps⟩
  · exact .refl _

theorem deleteLoop_steps (turns left : Nat) :
    SameSteps b.undo (deleteLoop ld line pos turns left b).2.2.undo := by
  induction turns generalizing b left with
  | zero => exact .refl _
  | succ turns ih =>
      simp only [deleteLoop]
      split
      · exact .refl _
      split
      · exact .refl _
      rename_i d hd
      split
      · split
        · exact .refl _
        · rename_i next hnext
          have hbreak : SameSteps b.undo (deleteBreak b ld line d next).2.undo := by
            unfold deleteBreak
            dsimp only
            split
            · exact .refl _
            · rename_i d' chars' _
              exact recordDeleted_steps
                (mergeNext (movePlaces b (placeAfterJoin line d.lineLen)) ld d' chars') [0]
          split
          · rename_i b₁ hrun
            rw [hrun] at hbreak
            exact hbreak.trans (ih _)
          · rename_i hrun
            rw [hrun] at hbreak
            exact hbreak
      · have hchars : SameSteps b.undo
            (deleteChars b ld line pos d (min left (d.lineLen - pos))).undo :=
          recordDeleted_steps (movePlaces b _) _
        exact hchars.trans (ih _)

theorem addUndoStep_steps (b : Buffer) (line : Int) (pos : Nat) (len : Int) :
    (addUndoStep b line pos len).1 ≠ .ok ∧ (addUndoStep b line pos len).2.undo = b.undo ∨
      (addUndoStep b line pos len).2.undo.curStep = b.undo.curStep + 1 ∧
        (addUndoStep b line pos len).2.undo.lastStep = b.undo.curStep + 1 ∧
          (Linked (addUndoStep b line pos len).2.undo (b.undo.curStep + 1) ↔ b.linkUndos ≠ 0) := by
  have hmark : (if b.linkUndos ≠ 0 then -(pos : Int) - 1 else pos) < 0 ↔ b.linkUndos ≠ 0 := by
    split
    · rename_i hlink
      exact ⟨fun _ => hlink, fun _ => by omega⟩
    · rename_i hlink
      exact ⟨fun h => absurd h (by omega), fun h => absurd h hlink⟩
  have hlinked : ∀ steps : Nat → UndoStep, ∀ ub : UndoBuffer,
      ub.steps = Function.update steps b.undo.curStep
        ⟨line, if b.linkUndos ≠ 0 then -(pos : Int) - 1 else pos, len⟩ →
      (Linked ub (b.undo.curStep + 1) ↔ b.linkUndos ≠ 0) := by
    intro steps ub hub
    rw [Linked, hub, Nat.add_sub_cancel, Function.update_self]
    exact ⟨fun h => hmark.mp h.2, fun h => ⟨Nat.succ_ne_zero _, hmark.mpr h⟩⟩
  simp only [addUndoStep, catUndoStep]
  split
  · split
    · exact .inr ⟨rfl, rfl, hlinked _ _ rfl⟩
    · exact .inl ⟨by simp, rfl⟩
  · exact .inr ⟨rfl, rfl, hlinked _ _ rfl⟩

theorem fixLastUndoStep_steps (b : Buffer) (delta : Int) :
    SameSteps b.undo (fixLastUndoStep b delta).undo := by
  refine ⟨rfl, rfl, fun i => ?_⟩
  simp only [fixLastUndoStep]
  by_cases hi : i = b.undo.curStep - 1
  · rw [hi, Function.update_self]
  · rw [Function.update_of_ne hi]

theorem recorded_trans {line len : Int} (h : SameSteps (addUndoStep b line pos len).2.undo ub')
    (hok : (addUndoStep b line pos len).1 = .ok) :
    ub'.curStep = b.undo.curStep + 1 ∧ ub'.lastStep = b.undo.curStep + 1 ∧
      (Linked ub' ub'.curStep ↔ b.linkUndos ≠ 0) := by
  rcases addUndoStep_steps b line pos len with ⟨hfailed, -⟩ | ⟨hcur, hlast, hlinked⟩
  · exact absurd hok hfailed
  · refine ⟨h.curStep.trans hcur, h.lastStep.trans hlast, ?_⟩
    rw [h.linked, h.curStep, hcur, hlinked]

theorem insertStream_edited (b : Buffer) (ld : Nat) (line : Int) (pos : Nat)
    (stream : List Byte) : Edited b (insertStream b ld line pos stream).2 := by
  refine edited_of_sameView (insertStream_frame rfl).1.view ?_
  unfold insertStream
  split
  · exact .inl (.refl _)
  split
  · exact .inl (.refl _)
  split
  · rename_i hrec
    split
    · rename_i b₁ hstep
      have hsegs := (@insertSegments_undo b₁ ld pos line)
        (stream.splitOn 0)
      have hsame : SameSteps (addUndoStep b line pos (-stream.length)).2.undo
          (insertSegments b₁ ld line pos (stream.splitOn 0)).2.undo := by
        rw [hsegs, hstep]
        exact .refl _
      exact .inr ⟨hrec, recorded_trans hsame (by rw [hstep])⟩
    · rcases addUndoStep_steps b line pos (-stream.length) with ⟨-, hsame⟩ | ⟨hcur, hlast, hlinked⟩
      · exact .inl (by rw [hsame]; exact .refl _)
      · exact .inr ⟨hrec, hcur, hlast, by rw [hcur]; exact hlinked⟩
  · exact .inl (by rw [insertSegments_undo]; exact .refl _)

theorem deleteStream_edited (b : Buffer) (ld : Nat) (line : Int) (pos len : Nat) :
    Edited b (deleteStream b ld line pos len).2 := by
  refine edited_of_sameView (deleteStream_frame rfl).1.view ?_
  unfold deleteStream
  split
  · exact .inl (.refl _)
  split
  · exact .inl (.refl _)
  split
  · rename_i hrec
    split
    · rename_i b₁ hstep
      have hloop : SameSteps (addUndoStep b line pos len).2.undo
          (deleteLoop ld line pos len len b₁).2.2.undo := by
        rw [hstep]
        exact deleteLoop_steps len len
      exact .inr ⟨hrec, recorded_trans (hloop.trans (fixLastUndoStep_steps _ _)) (by rw [hstep])⟩
    · rcases addUndoStep_steps b line pos len with ⟨-, hsame⟩ | ⟨hcur, hlast, hlinked⟩
      · exact .inl (by rw [hsame]; exact .refl _)
      · exact .inr ⟨hrec, hcur, hlast, by rw [hcur]; exact hlinked⟩
  · exact .inl (deleteLoop_steps len len)

/-- Nothing has changed that recording looks at, but for the options. -/
structure Steady (b b' : Buffer) : Prop where
  undo : b'.undo = b.undo
  linkUndos : b'.linkUndos = b.linkUndos
  undoing : b'.undoing = b.undoing
  redoing : b'.redoing = b.redoing

theorem Steady.refl (b : Buffer) : Steady b b := ⟨rfl, rfl, rfl, rfl⟩

theorem Steady.trans (first : Steady b b') (second : Steady b' b'') : Steady b b'' where
  undo := second.undo.trans first.undo
  linkUndos := second.linkUndos.trans first.linkUndos
  undoing := second.undoing.trans first.undoing
  redoing := second.redoing.trans first.redoing

theorem moveToEol_steady (t : Terminal) (b : Buffer) : Steady b (moveToEol t b) := by
  unfold moveToEol
  dsimp only
  repeat' split
  all_goals exact ⟨rfl, rfl, rfl, rfl⟩

theorem resyncPos_steady (t : Terminal) (b : Buffer) : Steady b (resyncPos t b) := by
  unfold resyncPos
  dsimp only
  generalize soughtColumn b = x
  split
  · exact ⟨rfl, rfl, rfl, rfl⟩
  unfold land
  split
  case h_3 =>
    split
    · exact ⟨rfl, rfl, rfl, rfl⟩
    · have hmoved := moveToEol_steady t { b with wantedX := x }
      exact ⟨hmoved.undo, hmoved.linkUndos, hmoved.undoing, hmoved.redoing⟩
  all_goals
    dsimp only
    repeat' split
    all_goals exact ⟨rfl, rfl, rfl, rfl⟩

theorem gotoPos_steady (t : Terminal) (b : Buffer) (pos : Int) : Steady b (gotoPos t b pos) := by
  unfold gotoPos
  dsimp only
  repeat' split
  all_goals exact ⟨rfl, rfl, rfl, rfl⟩

theorem gotoLinePos_steady (t : Terminal) (b : Buffer) (n pos : Int) :
    Steady b (gotoLinePos t b n pos) := by
  have hsettle : ∀ {b' : Buffer}, Steady b b' →
      Steady b (if pos ≠ -1 then gotoPos t b' pos else resyncPos t b') := by
    intro b' hb'
    split
    · exact hb'.trans (gotoPos_steady t b' pos)
    · exact hb'.trans (resyncPos_steady t b')
  unfold gotoLinePos
  dsimp only
  split
  · exact ⟨rfl, rfl, rfl, rfl⟩
  split
  · have hstart : Steady b { b with yWanted := false } := ⟨rfl, rfl, rfl, rfl⟩
    exact hstart.trans (resyncPos_steady t _)
  split
  · exact hsettle ⟨rfl, rfl, rfl, rfl⟩
  · exact hsettle ⟨rfl, rfl, rfl, rfl⟩

theorem insertAtCursor_edited (b : Buffer) (stream : List Byte) :
    Edited b (insertAtCursor b stream) := by
  unfold insertAtCursor
  split
  · exact ⟨rfl, rfl, rfl, .inl (.refl _)⟩
  · exact insertStream_edited b _ _ _ stream

theorem deleteAtCursor_edited (b : Buffer) (len : Nat) : Edited b (deleteAtCursor b len) := by
  unfold deleteAtCursor
  split
  · exact ⟨rfl, rfl, rfl, .inl (.refl _)⟩
  · exact deleteStream_edited b _ _ _ len

/-- What a step of `undo` or `redo` leaves as it is. -/
structure Replayed (b b' : Buffer) : Prop where
  linkUndos : b'.linkUndos = b.linkUndos
  undoing : b'.undoing = b.undoing
  redoing : b'.redoing = b.redoing
  steps : SameSteps b.undo b'.undo

theorem Replayed.trans (first : Replayed b b') (second : Replayed b' b'') : Replayed b b'' where
  linkUndos := second.linkUndos.trans first.linkUndos
  undoing := second.undoing.trans first.undoing
  redoing := second.redoing.trans first.redoing
  steps := first.steps.trans second.steps

theorem Steady.replayed (h : Steady b b') : Replayed b b' where
  linkUndos := h.linkUndos
  undoing := h.undoing
  redoing := h.redoing
  steps := by rw [h.undo]; exact .refl _

theorem Edited.replayed (h : Edited b b') (hrec : recording b = false) : Replayed b b' where
  linkUndos := h.linkUndos
  undoing := h.undoing
  redoing := h.redoing
  steps := h.steps.resolve_right fun hrecorded => by
    rw [hrec] at hrecorded
    cases hrecorded.1

theorem recording_eq_false (h : b.undoing = true ∨ b.redoing = true) : recording b = false := by
  rcases h with h | h <;> simp [recording, h]

theorem undoEdit_replayed (t : Terminal) (step : UndoStep) (h : b.undoing = true) :
    Replayed b (undoEdit t b step) := by
  unfold undoEdit
  split
  · exact (Steady.refl b).replayed
  have hgoto : Steady b (gotoStep t b step) := gotoLinePos_steady t b _ _
  have hundoing : (gotoStep t b step).undoing = true := hgoto.undoing.trans h
  dsimp only
  split
  · exact hgoto.replayed.trans
      ((deleteAtCursor_edited _ _).replayed (recording_eq_false (.inl hundoing)))
  · have hrewind : Replayed (gotoStep t b step)
        (rewindStream (gotoStep t b step) step.len.natAbs) :=
      ⟨rfl, rfl, rfl, ⟨rfl, rfl, fun _ => rfl⟩⟩
    exact hgoto.replayed.trans (hrewind.trans
      ((insertAtCursor_edited _ _).replayed (recording_eq_false (.inl hundoing))))

theorem redoEdit_replayed (t : Terminal) (step : UndoStep) (h : b.redoing = true) :
    Replayed b (redoEdit t b step) := by
  unfold redoEdit
  split
  · exact (Steady.refl b).replayed
  have hgoto : Steady b (gotoStep t b step) := gotoLinePos_steady t b _ _
  have hredoing : (gotoStep t b step).redoing = true := hgoto.redoing.trans h
  dsimp only
  split
  · have hrewind : Replayed (gotoStep t b step) (rewindRedo (gotoStep t b step) step.len.natAbs) :=
      ⟨rfl, rfl, rfl, ⟨rfl, rfl, fun _ => rfl⟩⟩
    exact hgoto.replayed.trans (hrewind.trans
      ((insertAtCursor_edited _ _).replayed (recording_eq_false (.inr hredoing))))
  · have hdelete := (deleteAtCursor_edited (gotoStep t b step) step.len.natAbs).replayed
      (recording_eq_false (.inr hredoing))
    have hforward : ∀ b' : Buffer, Replayed b' (forwardStream b' step.len.natAbs) := fun b' =>
      ⟨rfl, rfl, rfl, ⟨rfl, rfl, fun _ => rfl⟩⟩
    exact hgoto.replayed.trans (hdelete.trans (hforward _))

/-- What `undo` and `redo` do: they move to a place between steps. -/
structure Travelled (b b' : Buffer) : Prop where
  linkUndos : b'.linkUndos = b.linkUndos
  lastStep : b'.undo.lastStep = b.undo.lastStep
  pos : ∀ i, (b'.undo.steps i).pos = (b.undo.steps i).pos

theorem Travelled.linked (h : Travelled b b') : Linked b'.undo i ↔ Linked b.undo i := by
  rw [Linked, Linked, h.pos]

theorem undoLoop_spec (turns : Nat) (hundoing : b.undoing = true) (hcur : b.undo.curStep ≠ 0)
    (hturns : b.undo.curStep ≤ turns) :
    Travelled b (undoLoop t turns b) ∧ (undoLoop t turns b).undoing = true ∧
      (undoLoop t turns b).redoing = b.redoing ∧
      (undoLoop t turns b).undo.curStep < b.undo.curStep ∧
        ¬ Linked (undoLoop t turns b).undo (undoLoop t turns b).undo.curStep := by
  induction turns generalizing b with
  | zero => omega
  | succ turns ih =>
      have hreplayed : Replayed (stepBack b) (undoStep t b) :=
        undoEdit_replayed t _ (b := stepBack b) hundoing
      have hback : (undoStep t b).undo.curStep = b.undo.curStep - 1 := hreplayed.steps.curStep
      have htravelled : Travelled b (undoStep t b) :=
        ⟨hreplayed.linkUndos, hreplayed.steps.lastStep, hreplayed.steps.pos⟩
      have hundoing' : (undoStep t b).undoing = true := hreplayed.undoing.trans hundoing
      simp only [undoLoop]
      split
      · rename_i hmore
        obtain ⟨hrest, hrestUndoing, hrestRedoing, hlt, hlinked⟩ :=
          ih hundoing' hmore.1 (by omega)
        exact ⟨⟨hrest.linkUndos.trans htravelled.linkUndos,
          hrest.lastStep.trans htravelled.lastStep,
          fun i => (hrest.pos i).trans (htravelled.pos i)⟩, hrestUndoing,
          hrestRedoing.trans hreplayed.redoing, by omega, hlinked⟩
      · rename_i hdone
        exact ⟨htravelled, hundoing', hreplayed.redoing, by omega, hdone⟩

theorem undo_spec (t : Terminal) (b : Buffer) (hundoing : b.undoing = false) :
    Travelled b (undo t b).2 ∧ (undo t b).2.undoing = false ∧
      (undo t b).2.redoing = b.redoing ∧ (undo t b).2.undo.curStep ≤ b.undo.curStep ∧
        ¬ Linked (undo t b).2.undo (undo t b).2.undo.curStep := by
  unfold undo
  split
  · rename_i hzero
    exact ⟨⟨rfl, rfl, fun _ => rfl⟩, hundoing, rfl, le_rfl, fun h => h.1 hzero⟩
  · rename_i hcur
    obtain ⟨htravelled, -, hredoing, hlt, hlinked⟩ := undoLoop_spec (t := t)
      (b := { b with undoing := true }) b.undo.curStep rfl hcur le_rfl
    exact ⟨⟨htravelled.linkUndos, htravelled.lastStep, htravelled.pos⟩, rfl, hredoing, hlt.le,
      hlinked⟩

theorem redoLoop_spec (turns : Nat) (hredoing : b.redoing = true)
    (hcur : b.undo.curStep < b.undo.lastStep)
    (hturns : b.undo.lastStep - b.undo.curStep ≤ turns) :
    Travelled b (redoLoop t turns b) ∧ (redoLoop t turns b).redoing = true ∧
      (redoLoop t turns b).undoing = b.undoing ∧
      (redoLoop t turns b).undo.curStep ≤ b.undo.lastStep ∧
        ((redoLoop t turns b).undo.curStep = b.undo.lastStep ∨
          ¬ Linked (redoLoop t turns b).undo (redoLoop t turns b).undo.curStep) := by
  induction turns generalizing b with
  | zero => omega
  | succ turns ih =>
      have hreplayed : Replayed b (redoEdit t b (b.undo.steps b.undo.curStep)) :=
        redoEdit_replayed t _ hredoing
      have hahead : (redoStep t b).undo.curStep = b.undo.curStep + 1 :=
        congrArg (· + 1) hreplayed.steps.curStep
      have htravelled : Travelled b (redoStep t b) :=
        ⟨hreplayed.linkUndos, hreplayed.steps.lastStep, hreplayed.steps.pos⟩
      have hredoing' : (redoStep t b).redoing = true := hreplayed.redoing.trans hredoing
      have hundoing' : (redoStep t b).undoing = b.undoing := hreplayed.undoing
      have hlast := htravelled.lastStep
      simp only [redoLoop]
      split
      · rename_i hmore
        obtain ⟨hrest, hrestRedoing, hrestUndoing, hle, hend⟩ :=
          ih hredoing' hmore.1 (by omega)
        rw [hlast] at hle hend
        exact ⟨⟨hrest.linkUndos.trans htravelled.linkUndos,
          hrest.lastStep.trans hlast, fun i => (hrest.pos i).trans (htravelled.pos i)⟩,
          hrestRedoing, hrestUndoing.trans hundoing', hle, hend⟩
      · rename_i hdone
        refine ⟨htravelled, hredoing', hundoing', by omega, ?_⟩
        by_cases hlt : (redoStep t b).undo.curStep < b.undo.lastStep
        · exact .inr fun hlinked => hdone ⟨by omega, hlinked.2⟩
        · exact .inl (by omega)

theorem redo_spec (t : Terminal) (b : Buffer) (hredoing : b.redoing = false)
    (hle : b.undo.curStep ≤ b.undo.lastStep) :
    Travelled b (redo t b).2 ∧ (redo t b).2.redoing = false ∧
      (redo t b).2.undoing = b.undoing ∧ (redo t b).2.undo.curStep ≤ b.undo.lastStep ∧
        ((redo t b).2.undo.curStep = b.undo.lastStep ∨
          ¬ Linked (redo t b).2.undo (redo t b).2.undo.curStep) := by
  unfold redo
  split
  · rename_i hlast
    exact ⟨⟨rfl, rfl, fun _ => rfl⟩, hredoing, rfl, hle, .inl hlast⟩
  · rename_i hcur
    obtain ⟨htravelled, -, hundoing, hend⟩ := redoLoop_spec (t := t)
      (b := { b with redoing := true }) (b.undo.lastStep - b.undo.curStep) rfl (by
        simp only
        omega) le_rfl
    exact ⟨⟨htravelled.linkUndos, htravelled.lastStep, htravelled.pos⟩, rfl, hundoing, hend⟩

end NiceEditor.UndoChains
