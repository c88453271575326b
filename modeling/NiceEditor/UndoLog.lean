import NiceEditor.EditSteps
import NiceEditor.Undo

namespace NiceEditor.UndoLog

open NiceEditor.Cells
open NiceEditor.Pools
open NiceEditor.BufferData
open NiceEditor.UndoSteps
open NiceEditor.LineText
open NiceEditor.Cursor
open NiceEditor.EditLog
open NiceEditor.EditSteps
open NiceEditor.Undo

/-- An edit, and whether it is linked to the following one. -/
abbrev Entry := Edit Byte × Bool

/-- The bytes that the edits have deleted. -/
def deleted (log : List Entry) : List Byte :=
  log.flatMap fun x => if x.1.inserts then [] else x.1.body

/-- The bytes that the edits have inserted. -/
def inserted (log : List Entry) : List Byte :=
  log.flatMap fun x => if x.1.inserts then x.1.body else []

/-- The step that stands for an edit. -/
def stepOf (x : Entry) : UndoStep where
  line := x.1.front.count 0
  pos := markedPos x.2 (lastLine 0 x.1.front).length
  len := if x.1.inserts then -x.1.body.length else x.1.body.length

/-- An edit that `undo` and `redo` can find again. -/
def Sound (encoding : EncodingType) (e : Edit Byte) : Prop :=
  e.body ≠ [] ∧ WholeChars encoding (lastLine 0 e.front)

/-- The undo buffer stands for the edits that have been done, latest first, and
for those that have been undone, latest undone first. -/
structure Represents (ub : UndoBuffer) (done undone : List Entry) : Prop where
  steps : ∀ i x, (done.reverse ++ undone)[i]? = some x → ub.steps i = stepOf x
  curStep : ub.curStep = done.length
  lastStep : ub.lastStep = done.length + undone.length
  streams : ∀ i c, (deleted (done.reverse ++ undone))[i]? = some c → ub.streams i = c
  curStream : ub.curStream = (deleted done.reverse).length
  redoOk : StreamOk ub.redo
  redo : streamBytes ub.redo = inserted undone.reverse

variable {ub ub' : UndoBuffer} {done undone log log' : List Entry} {x y : Entry}
variable {e : Edit Byte} {linked : Bool}

@[simp] theorem deleted_append : deleted (log ++ log') = deleted log ++ deleted log' :=
  List.flatMap_append

@[simp] theorem inserted_append : inserted (log ++ log') = inserted log ++ inserted log' :=
  List.flatMap_append

theorem deleted_singleton : deleted [x] = if x.1.inserts then [] else x.1.body := by
  simp [deleted]

theorem inserted_singleton : inserted [x] = if x.1.inserts then x.1.body else [] := by
  simp [inserted]

theorem stepPos_stepOf : stepPos (stepOf x) = (lastLine 0 x.1.front).length := by
  simp only [stepPos, stepOf, markedPos]
  split
  · split
    · omega
    · omega
  · rw [if_pos (by omega)]

theorem stepOf_pos_neg : (stepOf x).pos < 0 ↔ x.2 = true := by
  simp only [stepOf, markedPos]
  split
  · rename_i hlinked
    simp only [hlinked, iff_true]
    omega
  · rename_i hlinked
    exact ⟨fun hneg => absurd hneg (by omega), fun h => absurd h hlinked⟩

theorem readCells_of_getElem {m : Nat → Byte} {s : List Byte} {start : Nat}
    (h : ∀ i c, s[i]? = some c → m (start + i) = c) : readCells m start s.length = s := by
  refine List.ext_getElem? fun i => ?_
  rw [readCells_getElem?]
  split
  · rename_i hlt
    rw [List.getElem?_eq_getElem hlt, h i _ (List.getElem?_eq_getElem hlt)]
  · rename_i hge
    rw [List.getElem?_eq_none (by omega)]

theorem getElem_readCells {m : Nat → Byte} {i n : Nat} {c : Byte}
    (h : (readCells m 0 n)[i]? = some c) : m i = c := by
  rw [readCells_getElem?] at h
  split at h
  · rw [Nat.zero_add] at h
    exact Option.some.inj h
  · simp at h

namespace Represents

theorem undoBytes_eq (h : Represents ub done undone) : undoBytes ub = deleted done.reverse := by
  rw [undoBytes, h.curStream]
  refine readCells_of_getElem fun i c hc => ?_
  rw [Nat.zero_add]
  refine h.streams i c ?_
  rw [deleted_append, List.getElem?_append_left (List.getElem?_eq_some_iff.mp hc).1, hc]

theorem step_done (h : Represents ub (x :: done) undone) :
    ub.steps (ub.curStep - 1) = stepOf x := by
  refine h.steps _ x ?_
  rw [h.curStep, List.length_cons, Nat.add_sub_cancel, List.reverse_cons, List.append_assoc,
    List.getElem?_append_right (by simp)]
  simp

theorem step_undone (h : Represents ub done (x :: undone)) : ub.steps ub.curStep = stepOf x := by
  refine h.steps _ x ?_
  rw [h.curStep, List.getElem?_append_right (by simp)]
  simp

theorem body_done (h : Represents ub (x :: done) undone) (hdel : x.1.inserts = false) :
    ub.curStream - x.1.body.length = (deleted done.reverse).length ∧
      readCells ub.streams (ub.curStream - x.1.body.length) x.1.body.length = x.1.body := by
  have hbytes : deleted [x] = x.1.body := by rw [deleted_singleton, hdel]; rfl
  have hstart : ub.curStream - x.1.body.length = (deleted done.reverse).length := by
    rw [h.curStream, List.reverse_cons, deleted_append, hbytes, List.length_append,
      Nat.add_sub_cancel]
  refine ⟨hstart, readCells_of_getElem fun i c hc => ?_⟩
  rw [hstart]
  refine h.streams _ c ?_
  rw [List.reverse_cons, List.append_assoc, deleted_append, List.getElem?_append_right (by omega),
    Nat.add_sub_cancel_left, deleted_append, hbytes,
    List.getElem?_append_left (List.getElem?_eq_some_iff.mp hc).1, hc]

theorem body_undone (h : Represents ub done (x :: undone)) (hins : x.1.inserts = true)
    (hbody : x.1.body ≠ []) :
    ∃ m, ub.redo.stream = some m ∧
      ub.redo.len - x.1.body.length = (inserted undone.reverse).length ∧
      readCells m 0 (inserted undone.reverse).length = inserted undone.reverse ∧
      readCells m (ub.redo.len - x.1.body.length) x.1.body.length = x.1.body := by
  have hbytes : inserted [x] = x.1.body := by rw [inserted_singleton, if_pos hins]
  have hredo := h.redo
  rw [List.reverse_cons, inserted_append, hbytes] at hredo
  cases hstream : ub.redo.stream with
  | none =>
      rw [streamBytes, hstream] at hredo
      exact absurd (List.append_eq_nil_iff.mp hredo.symm).2 hbody
  | some m =>
      rw [streamBytes, hstream] at hredo
      have hlen := congrArg List.length hredo
      rw [readCells_length, List.length_append] at hlen
      have hcell : ∀ i c, (inserted undone.reverse ++ x.1.body)[i]? = some c → m i = c := by
        intro i c hc
        rw [← hredo] at hc
        exact getElem_readCells hc
      refine ⟨m, rfl, by omega, readCells_of_getElem fun i c hc => ?_,
        readCells_of_getElem fun i c hc => ?_⟩
      · rw [Nat.zero_add]
        refine hcell i c ?_
        rw [List.getElem?_append_left (List.getElem?_eq_some_iff.mp hc).1, hc]
      · refine hcell _ c ?_
        rw [List.getElem?_append_right (by omega), ← hc]
        congr 1
        omega

theorem record (h : Represents ub done undone)
    (hrecords : Records ub (stepOf x) (deleted [x]) ub') : Represents ub' (x :: done) [] where
  steps := fun i y hy => by
    rw [List.append_nil, List.reverse_cons] at hy
    rw [hrecords.steps, h.curStep]
    rcases Nat.lt_trichotomy i done.length with hlt | rfl | hgt
    · rw [Function.update_of_ne (by omega)]
      refine h.steps i y ?_
      rw [List.getElem?_append_left (by simpa using hlt)] at hy ⊢
      exact hy
    · rw [Function.update_self]
      rw [List.getElem?_append_right (by simp)] at hy
      simp only [List.length_reverse, Nat.sub_self, List.getElem?_cons_zero,
        Option.some.injEq] at hy
      rw [hy]
    · rw [List.getElem?_eq_none (by simp; omega)] at hy
      simp at hy
  curStep := by rw [hrecords.curStep, h.curStep, List.length_cons]
  lastStep := by rw [hrecords.lastStep, h.curStep, List.length_cons, List.length_nil]
  streams := fun i c hc => by
    have hbytes := hrecords.bytes
    rw [h.undoBytes_eq, ← deleted_append, ← List.reverse_cons] at hbytes
    rw [List.append_nil, ← hbytes, undoBytes] at hc
    exact getElem_readCells hc
  curStream := by
    rw [hrecords.curStream, h.curStream, List.reverse_cons, deleted_append, List.length_append]
  redoOk := by
    rw [hrecords.redo]
    exact (resetStream_ok h.redoOk).1
  redo := by
    rw [hrecords.redo, (resetStream_ok h.redoOk).2.2]
    rfl

theorem undo (h : Represents ub (x :: done) undone) (hsteps : ub'.steps = ub.steps)
    (hcur : ub'.curStep = ub.curStep - 1) (hlast : ub'.lastStep = ub.lastStep)
    (hstreams : ub'.streams = ub.streams)
    (hcurStream : ub'.curStream = (deleted done.reverse).length) (hok : StreamOk ub'.redo)
    (hredo : streamBytes ub'.redo = streamBytes ub.redo ++ inserted [x]) :
    Represents ub' done (x :: undone) where
  steps := fun i y hy => by
    rw [hsteps]
    refine h.steps i y ?_
    simpa using hy
  curStep := by rw [hcur, h.curStep, List.length_cons, Nat.add_sub_cancel]
  lastStep := by
    rw [hlast, h.lastStep, List.length_cons, List.length_cons]
    omega
  streams := fun i c hc => by
    rw [hstreams]
    refine h.streams i c ?_
    rw [List.reverse_cons, List.append_assoc]
    exact hc
  curStream := hcurStream
  redoOk := hok
  redo := by rw [hredo, h.redo, List.reverse_cons, inserted_append]

theorem redone (h : Represents ub done (x :: undone)) (hsteps : ub'.steps = ub.steps)
    (hcur : ub'.curStep = ub.curStep + 1) (hlast : ub'.lastStep = ub.lastStep)
    (hstreams : ub'.streams = ub.streams)
    (hcurStream : ub'.curStream = ub.curStream + (deleted [x]).length) (hok : StreamOk ub'.redo)
    (hredo : streamBytes ub'.redo = inserted undone.reverse) :
    Represents ub' (x :: done) undone where
  steps := fun i y hy => by
    rw [hsteps]
    refine h.steps i y ?_
    simpa using hy
  curStep := by rw [hcur, h.curStep, List.length_cons]
  lastStep := by
    rw [hlast, h.lastStep, List.length_cons, List.length_cons]
    omega
  streams := fun i c hc => by
    rw [hstreams]
    refine h.streams i c ?_
    rw [List.reverse_cons, List.append_assoc] at hc
    exact hc
  curStream := by
    rw [hcurStream, h.curStream, List.reverse_cons, deleted_append, List.length_append]
  redoOk := hok
  redo := hredo

end Represents

end NiceEditor.UndoLog
