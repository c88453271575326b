import NiceEditor.LoadStrategies
import NiceEditor.Runs
import NiceEditor.UndoCalls

namespace NiceEditor.UndoRuns

open NiceEditor.Pools
open NiceEditor.PoolOwnership
open NiceEditor.BufferData
open NiceEditor.UndoSteps
open NiceEditor.EditStream
open NiceEditor.LineText
open NiceEditor.InsertRefinement
open NiceEditor.Load
open NiceEditor.LoadText
open NiceEditor.LoadPools
open NiceEditor.LoadStrategies
open NiceEditor.Navigation
open NiceEditor.Cursor
open NiceEditor.EditFrames
open NiceEditor.EditLog
open NiceEditor.EditSteps
open NiceEditor.Undo
open NiceEditor.UndoLog
open NiceEditor.UndoCalls
open NiceEditor.Runs

/-- A buffer between two calls, with `do_undo` on and no chain open. -/
structure Idle (b : Buffer) : Prop where
  linkUndos : b.linkUndos = 0
  undoing : b.undoing = false
  redoing : b.redoing = false
  doUndo : b.opt.doUndo = true
  redoOk : StreamOk b.undo.redo
  granting : Granting b.chars.answers

/-- A buffer that has just been cleared or loaded. -/
inductive Start : Buffer → Prop
  | cleared {b : Buffer} (h : Idle b) : Start (clearBuffer b)
  | loaded {b : Buffer} (f : File) (h : Idle b) : Start (loadFdInBuffer b f).2

/-- A position of a line between two characters. -/
structure Valid (b : Buffer) (ld pos : Nat) (l : List Byte) : Prop where
  line : (lines b)[ld]? = some l
  pos_le : pos ≤ l.length
  whole : WholeChars b.encoding (l.take pos)

/-- One call, with what it does to the history of the texts.  An insertion or a
deletion starts a chain of edits, unless it is part of one; `undo` and `redo`
are called when no chain is open. -/
inductive Call (t : Terminal) (allowed : Buffer → Edit Byte → Prop) :
    Buffer × History (List Byte) → Buffer × History (List Byte) → Prop
  | insert {b : Buffer} {h : History (List Byte)} {ld pos : Nat} {l : List Byte}
      (stream : List Byte) (hvalid : Valid b ld pos l) (hstream : stream ≠ [])
      (hallowed : allowed b ⟨true, frontOf b ld pos, stream⟩) :
      Call t allowed (b, h) ((insertStream b ld ld pos stream).2,
        h.edit (b.linkUndos ≠ 0) (bufferText (insertStream b ld ld pos stream).2))
  | delete {b : Buffer} {h : History (List Byte)} {ld pos : Nat} {l : List Byte}
      (len : Nat) (hvalid : Valid b ld pos l) (hlen : 1 ≤ len) (hback : backOf b ld pos ≠ [])
      (hallowed : allowed b ⟨false, frontOf b ld pos, (backOf b ld pos).take len⟩) :
      Call t allowed (b, h) ((deleteStream b ld ld pos len).2,
        h.edit (b.linkUndos ≠ 0) (bufferText (deleteStream b ld ld pos len).2))
  | startChain (b : Buffer) (h : History (List Byte)) :
      Call t allowed (b, h) (startUndoChain b, h)
  | endChain {b : Buffer} (h : History (List Byte)) (hopen : 0 < b.linkUndos) :
      Call t allowed (b, h) (endUndoChain b, if b.linkUndos = 1 then h.close else h)
  | undo {b : Buffer} (h : History (List Byte)) (hclosed : b.linkUndos = 0) :
      Call t allowed (b, h) ((undo t b).2, h.undo)
  | redo {b : Buffer} (h : History (List Byte)) (hclosed : b.linkUndos = 0) :
      Call t allowed (b, h) ((redo t b).2, h.redo)
  | goto {b : Buffer} (h : History (List Byte)) {ld pos : Nat} {l : List Byte}
      (hvalid : Valid b ld pos l) : Call t allowed (b, h) (gotoLinePos t b ld pos, h)

/-- The edits that leave the line of the cursor in the document. -/
def keepsCursorLine (b : Buffer) (e : Edit Byte) : Prop :=
  e.inserts = true ∨ ¬ ((e.front.count 0 : Int) < b.curLine ∧
    b.curLine ≤ e.front.count 0 + e.body.count 0)

/-- The edits that insert or remove no line break above the line of the cursor. -/
def breaksBelowCursor (b : Buffer) (e : Edit Byte) : Prop :=
  b.curLine ≤ e.front.count 0 ∨ 0 ∉ e.body

/-- The text, the steps that have been done and the two streams are as before. -/
structure Restored (b b' : Buffer) : Prop where
  text : bufferText b' = bufferText b
  curStep : b'.undo.curStep = b.undo.curStep
  curStream : b'.undo.curStream = b.undo.curStream
  redo : streamBytes b'.undo.redo = streamBytes b.undo.redo
  redoLen : b'.undo.redo.len = b.undo.redo.len

/-- A call is repeated until it reports that nothing is left to do. -/
inductive Repeats (call : Buffer → Status × Buffer) (nothing : Status) :
    Buffer → Buffer → Prop
  | stop {b : Buffer} (h : (call b).1 = nothing) : Repeats call nothing b (call b).2
  | again {b b' : Buffer} (h : (call b).1 = .ok) (rest : Repeats call nothing (call b).2 b') :
      Repeats call nothing b b'

/-- The entries of the chains that have been done, latest first. -/
def doneEntries : Bool → List (Chain Byte) → List Entry
  | _, [] => []
  | isOpen, c :: cs => (c.entries isOpen).reverse ++ doneEntries false cs

/-- The entries of the chains that have been undone, latest undone first. -/
def undoneEntries (future : List (Chain Byte)) : List Entry :=
  future.flatMap (Chain.entries false)

/-- The buffer stands for chains of edits between the texts of the history. -/
structure Tracks (b : Buffer) (h : History (List Byte)) (past future : List (Chain Byte)) :
    Prop where
  ready : Ready b
  doUndo : b.opt.doUndo = true
  undoing : b.undoing = false
  redoing : b.redoing = false
  linkUndos : 0 ≤ b.linkUndos
  linked : h.chained = true → b.linkUndos ≠ 0 ∧ past ≠ []
  log : Represents b.undo (doneEntries h.chained past) (undoneEntries future)
  soundPast : ∀ c ∈ past, ∀ e ∈ c.edits, Sound b.encoding e
  soundFuture : ∀ c ∈ future, ∀ e ∈ c.edits, Sound b.encoding e
  present : h.present = bufferText b
  past : Past past h.past (bufferText b)
  future : Future future h.future (bufferText b)

variable {t : Terminal} {b b' : Buffer} {h : History (List Byte)} {past future : List (Chain Byte)}
variable {ld pos : Nat} {l : List Byte} {f : File} {e : Edit Byte}

theorem undoneEntries_cons (c : Chain Byte) (future : List (Chain Byte)) :
    undoneEntries (c :: future) = c.entries false ++ undoneEntries future :=
  List.flatMap_cons

theorem doneEntries_head (past : List (Chain Byte)) :
    ∀ y ∈ (doneEntries false past).head?, y.2 = false := by
  intro y hy
  cases past with
  | nil => simp [doneEntries] at hy
  | cons c cs =>
      rw [doneEntries, reverse_entries, List.cons_append, List.head?_cons,
        Option.mem_some] at hy
      rw [← hy]

theorem represents_reset (ub : UndoBuffer) (s : Int) (hok : StreamOk ub.redo) :
    Represents { resetUndoBuffer ub with lastSaveStep := s } [] [] where
  steps := by simp
  curStep := rfl
  lastStep := rfl
  streams := by simp [deleted]
  curStream := rfl
  redoOk := (resetStream_ok hok).1
  redo := (resetStream_ok hok).2.2

theorem tracks_clearBuffer (hidle : Idle b) :
    Tracks (clearBuffer b) (History.start (bufferText (clearBuffer b))) [] [] where
  ready :=
    ⟨(owns_clearBuffer b).weaken, hidle.granting, rfl, le_rfl, le_rfl, Int.zero_lt_one, rfl, rfl⟩
  doUndo := hidle.doUndo
  undoing := hidle.undoing
  redoing := hidle.redoing
  linkUndos := hidle.linkUndos.ge
  linked := by simp [History.start]
  log := represents_reset b.undo 0 hidle.redoOk
  soundPast := by simp
  soundFuture := by simp
  present := rfl
  past := .nil _
  future := .nil _

/-- The document starts at the first line, and as it is in the file. -/
def startDocument (b : Buffer) : Buffer :=
  let b := resetPositionToSof b
  if b.opt.doUndo then { b with undo := { b.undo with lastSaveStep := 0 } } else b

theorem finishLoad_eq (b : Buffer) (cp : CharPool) (n : Nat) :
    ∃ b₁, finishLoad b cp n = startDocument b₁ ∧ b₁.lineDescList = b.lineDescList ∧
      b₁.numLines = b.numLines ∧ b₁.linkUndos = b.linkUndos ∧ b₁.undoing = b.undoing ∧
      b₁.redoing = b.redoing ∧ b₁.undo = b.undo ∧ b₁.opt = b.opt := by
  by_cases hfree : b.chars.freeChars < b.chars.allocatedChars
  · simp only [finishLoad, if_pos hfree]
    exact ⟨_, rfl, rfl, rfl, rfl, rfl, rfl, rfl, rfl⟩
  · simp only [finishLoad, if_neg hfree]
    exact ⟨_, rfl, rfl, rfl, rfl, rfl, rfl, rfl, rfl⟩

theorem startDocument_spec (hdoUndo : b.opt.doUndo = true) :
    startDocument b =
      { resetPositionToSof b with undo := { b.undo with lastSaveStep := 0 } } :=
  if_pos hdoUndo

theorem tracks_load (hidle : Idle b) :
    Tracks (loadFdInBuffer b f).2 (History.start (bufferText (loadFdInBuffer b f).2)) [] [] := by
  by_cases hempty : f.seekable = true ∧ f.content = []
  · have hcleared := tracks_clearBuffer hidle
    have hdoUndo : (clearBuffer b).opt.doUndo = true := hidle.doUndo
    simp only [loadFdInBuffer, if_pos hempty.1, if_pos hempty.2, if_pos hdoUndo]
    exact
      { hcleared with
        ready := ⟨hcleared.ready.wellFormed, hidle.granting, rfl, le_rfl, le_rfl,
          Int.zero_lt_one, rfl, rfl⟩ }
  · have houtcome := loadFdInBuffer_outcome True (b := b) (f := f)
      (fun hseek hnil => hempty ⟨hseek, hnil⟩) (fun hno => absurd trivial hno)
      (fun _ => granting_rest hidle.granting) fun _ _ => hidle.granting 0
    generalize loadFdInBuffer b f = r at houtcome ⊢
    cases houtcome with
    | failed status answers hstatus hno => exact absurd trivial hno
    | loaded b' cp hplaced hpos hframed hgrant =>
        obtain ⟨hchars, hlds, hnum, -, hopt, -⟩ := finishLoad_frame hplaced
        obtain ⟨b₁, heq, hlist₁, hnum₁, hlink₁, hundoing₁, hredoing₁, hundo₁, hopt₁⟩ :=
          finishLoad_eq b' cp (textRead b f).length
        have hframe : b'.opt = b.opt ∧ b'.undoing = b.undoing ∧ b'.redoing = b.redoing ∧
            b'.linkUndos = b.linkUndos ∧ b'.undo = resetUndoBuffer b.undo := by
          rw [hframed]
          exact ⟨rfl, rfl, rfl, rfl, rfl⟩
        obtain ⟨hopt', hundoing', hredoing', hlink', hundo'⟩ := hframe
        have hdoUndo : b₁.opt.doUndo = true := by
          rw [hopt₁, hopt']
          exact hidle.doUndo
        rw [startDocument_spec hdoUndo] at heq
        have hlines : 0 < b'.lineDescList.length := by
          have hne := congrArg List.length hplaced.lines
          have hsplit := List.length_pos_iff.mpr
            (splitText_ne_nil (isTerminator b'.opt) [] (textRead b f))
          rw [lines, List.length_map] at hne
          omega
        have hnumLines := hplaced.numLines
        have howns := finishLoad_owns False hplaced False.elim
        have hgranting : Granting (finishLoad b' cp (textRead b f).length).chars.answers := by
          rw [hchars]
          exact hgrant trivial
        simp only [heq] at howns hgranting ⊢
        refine
          { ready := ⟨howns, hgranting, ?_, le_rfl, le_rfl, ?_, rfl, rfl⟩
            doUndo := hdoUndo
            undoing := hundoing₁.trans (hundoing'.trans hidle.undoing)
            redoing := hredoing₁.trans (hredoing'.trans hidle.redoing)
            linkUndos := (hlink₁.trans (hlink'.trans hidle.linkUndos)).ge
            linked := by simp [History.start]
            log := ?_
            soundPast := by simp
            soundFuture := by simp
            present := rfl
            past := .nil _
            future := .nil _ }
        · show b₁.numLines = b₁.lineDescList.length
          rw [hnum₁, hlist₁, hnumLines]
        · show 0 < b₁.numLines
          omega
        · rw [hundo₁, hundo']
          exact represents_reset b.undo 0 hidle.redoOk

theorem Start.tracks (hstart : Start b) : Tracks b (History.start (bufferText b)) [] [] := by
  cases hstart with
  | cleared hidle => exact tracks_clearBuffer hidle
  | loaded f hidle => exact tracks_load hidle

/-- An edit that has been recorded is the latest one of the history. -/
theorem Tracks.edit (htracks : Tracks b h past future) (hready : Ready b') (hkept : Kept b b')
    (hsound : Sound b.encoding e) (happlies : e.Applies (bufferText b) (bufferText b'))
    (hrecords : Records b.undo (stepOf (e, decide (b.linkUndos ≠ 0)))
      (deleted [(e, decide (b.linkUndos ≠ 0))]) b'.undo) :
    ∃ past', Tracks b' (h.edit (b.linkUndos ≠ 0) (bufferText b')) past' [] := by
  have hlog := htracks.log.record hrecords
  have hsame : ∀ c ∈ past, ∀ e ∈ c.edits, Sound b'.encoding e := fun c hc e he =>
    hkept.encoding ▸ htracks.soundPast c hc e he
  have hnew : Sound b'.encoding e := hkept.encoding ▸ hsound
  have hframe : b'.opt.doUndo = true ∧ b'.undoing = false ∧ b'.redoing = false ∧
      0 ≤ b'.linkUndos := by
    rw [hkept.opt, hkept.undoing, hkept.redoing, hkept.linkUndos]
    exact ⟨htracks.doUndo, htracks.undoing, htracks.redoing, htracks.linkUndos⟩
  obtain ⟨hdoUndo, hundoing, hredoing, hnonneg⟩ := hframe
  cases hchained : h.chained with
  | false =>
      -- The edit starts a chain.
      refine ⟨⟨[], e⟩ :: past, hready, hdoUndo, hundoing, hredoing, hnonneg, ?_, ?_, ?_,
        by simp, ?_, ?_, ?_⟩
      · intro hlinked
        rw [hkept.linkUndos]
        simp only [History.edit, hchained] at hlinked
        exact ⟨by simpa using hlinked, by simp⟩
      · rw [hchained] at hlog
        simpa [History.edit, hchained, doneEntries, Chain.entries, undoneEntries] using hlog
      · intro c hc
        rcases List.mem_cons.mp hc with rfl | hc
        · intro e' he'
          rw [List.mem_singleton.mp he']
          exact hnew
        · exact hsame c hc
      · simp [History.edit, hchained]
      · simp only [History.edit, hchained]
        rw [htracks.present]
        exact .cons (path_singleton.mpr happlies) htracks.past
      · simp only [History.edit, hchained]
        exact .nil _
  | true =>
      -- The edit is part of the open chain.
      obtain ⟨hopen, hne⟩ := htracks.linked hchained
      obtain ⟨c, cs, rfl⟩ := List.exists_cons_of_ne_nil hne
      refine ⟨c.extend e :: cs, hready, hdoUndo, hundoing, hredoing, hnonneg, ?_, ?_, ?_,
        by simp, ?_, ?_, ?_⟩
      · intro _
        rw [hkept.linkUndos]
        exact ⟨hopen, by simp⟩
      · rw [hchained] at hlog
        simpa [History.edit, hchained, doneEntries, Chain.entries_extend, undoneEntries, hopen]
          using hlog
      · intro c' hc'
        rcases List.mem_cons.mp hc' with rfl | hc'
        · intro e' he'
          rw [Chain.edits_extend, List.mem_append, List.mem_singleton] at he'
          rcases he' with he' | rfl
          · exact hsame c List.mem_cons_self e' he'
          · exact hnew
        · exact hsame c' (List.mem_cons_of_mem _ hc')
      · simp [History.edit, hchained]
      · have hpast := htracks.past
        simp only [History.edit, hchained]
        cases hpasts : h.past with
        | nil =>
            rw [hpasts] at hpast
            cases hpast
        | cons p ps =>
            rw [hpasts] at hpast
            cases hpast with
            | cons hpath hrest =>
                exact .cons (hpath.append (path_singleton.mpr happlies)) hrest
      · simp only [History.edit, hchained]
        exact .nil _

/-- The last step of an open chain is linked to nothing when the chain is closed. -/
theorem represents_close {ub ub' : UndoBuffer} {done undone : List Entry}
    (hlog : Represents ub ((e, true) :: done) undone)
    (hub' : ub' = { ub with
      steps := Function.update ub.steps (ub.curStep - 1)
        { ub.steps (ub.curStep - 1) with pos := -(1 + (ub.steps (ub.curStep - 1)).pos) } }) :
    Represents ub' ((e, false) :: done) undone := by
  have hcurStep := hlog.curStep
  have hbytes : deleted (((e, false) :: done).reverse ++ undone) =
      deleted (((e, true) :: done).reverse ++ undone) := by simp [deleted]
  have hdone : deleted ((e, false) :: done).reverse = deleted ((e, true) :: done).reverse := by
    simp [deleted]
  subst hub'
  refine ⟨fun i y hy => ?_, hcurStep, hlog.lastStep, fun i c hc => ?_, ?_, hlog.redoOk, hlog.redo⟩
  · rw [List.length_cons] at hcurStep
    rcases eq_or_ne i (ub.curStep - 1) with rfl | hne
    · simp only [Function.update_self]
      rw [hlog.step_done]
      rw [hcurStep, Nat.add_sub_cancel, List.reverse_cons, List.append_assoc,
        List.getElem?_append_right (by simp)] at hy
      simp only [List.length_reverse, Nat.sub_self, List.singleton_append,
        List.getElem?_cons_zero, Option.some.injEq] at hy
      rw [← hy]
      simp only [stepOf, markedPos, if_true]
      congr 1
      simp only [Bool.false_eq_true, if_false]
      omega
    · simp only [Function.update_of_ne hne]
      refine hlog.steps i y ?_
      rw [List.reverse_cons, List.append_assoc] at hy ⊢
      rcases Nat.lt_or_ge i done.length with hlt | hge
      · rw [List.getElem?_append_left (by simpa using hlt)] at hy ⊢
        exact hy
      · rw [List.getElem?_append_right (by simpa using hge)] at hy ⊢
        obtain ⟨k, hk⟩ : ∃ k, i - done.reverse.length = k + 1 :=
          ⟨i - done.length - 1, by simp only [List.length_reverse]; omega⟩
        rw [hk] at hy ⊢
        exact hy
  · refine hlog.streams i c ?_
    rw [← hbytes]
    exact hc
  · rw [hdone]
    exact hlog.curStream

/-- A chain is closed. -/
theorem Tracks.endChain (htracks : Tracks b h past future) (hopen : 0 < b.linkUndos) :
    Tracks (endUndoChain b) (if b.linkUndos = 1 then h.close else h) past future := by
  have hready : ∀ (n : Int) (ub : UndoBuffer), Ready { b with linkUndos := n, undo := ub } :=
    fun n ub => ⟨htracks.ready.wellFormed, htracks.ready.granting,
      ⟨htracks.ready.cursor.numLines, htracks.ready.cursor.winY_nonneg,
        htracks.ready.cursor.winY_le, htracks.ready.cursor.curLine_lt,
        htracks.ready.cursor.cur, htracks.ready.cursor.top⟩⟩
  by_cases hlast : b.linkUndos = 1
  · rw [if_pos hlast]
    have hzero : b.linkUndos - 1 = 0 := by omega
    have hlog : Represents (endUndoChain b).undo (doneEntries false past)
        (undoneEntries future) := by
      simp only [endUndoChain, hzero]
      rw [if_neg (by simp)]
      cases hchained : h.chained with
      | false =>
          have hlog := htracks.log
          rw [hchained] at hlog
          have hnot : ¬ (b.undo.curStep ≠ 0 ∧ (b.undo.steps (b.undo.curStep - 1)).pos < 0) := by
            rintro ⟨hne, hneg⟩
            cases hpast : past with
            | nil =>
                rw [hpast] at hlog
                exact hne hlog.curStep
            | cons c cs =>
                rw [hpast, doneEntries, reverse_entries, List.cons_append] at hlog
                rw [hlog.step_done, stepOf_pos_neg] at hneg
                simp at hneg
          rw [if_neg hnot]
          exact hlog
      | true =>
          obtain ⟨-, hne⟩ := htracks.linked hchained
          obtain ⟨c, cs, rfl⟩ := List.exists_cons_of_ne_nil hne
          have hlog := htracks.log
          have hentries : ∀ isOpen, doneEntries isOpen (c :: cs) = (c.last, isOpen) ::
              ((c.init.map fun e => (e, true)).reverse ++ doneEntries false cs) := by
            intro isOpen
            rw [doneEntries, Chain.entries, List.reverse_append]
            rfl
          rw [hchained, hentries] at hlog
          have hpos : b.undo.curStep ≠ 0 ∧ (b.undo.steps (b.undo.curStep - 1)).pos < 0 := by
            refine ⟨?_, ?_⟩
            · rw [hlog.curStep]
              simp
            · rw [hlog.step_done, stepOf_pos_neg]
          rw [if_pos hpos, hentries]
          exact represents_close hlog rfl
    have hframe : ∃ ub, endUndoChain b = { b with linkUndos := b.linkUndos - 1, undo := ub } := by
      simp only [endUndoChain]
      split
      · exact ⟨_, rfl⟩
      split
      · exact ⟨_, rfl⟩
      · exact ⟨_, rfl⟩
    obtain ⟨ub, hend⟩ := hframe
    rw [hend] at hlog ⊢
    exact ⟨hready _ _, htracks.doUndo, htracks.undoing, htracks.redoing, hzero.ge,
      by simp [History.close], hlog, htracks.soundPast, htracks.soundFuture, htracks.present,
      htracks.past, htracks.future⟩
  · rw [if_neg hlast]
    have hmore : b.linkUndos - 1 ≠ 0 := by omega
    have hend : endUndoChain b = { b with linkUndos := b.linkUndos - 1 } := by
      simp only [endUndoChain]
      rw [if_pos hmore]
    rw [hend]
    refine ⟨hready _ _, htracks.doUndo, htracks.undoing, htracks.redoing, ?_, ?_, htracks.log,
      htracks.soundPast, htracks.soundFuture, htracks.present, htracks.past, htracks.future⟩
    · show 0 ≤ b.linkUndos - 1
      omega
    · exact fun hchained => ⟨hmore, (htracks.linked hchained).2⟩

/-- `undo` goes back to the text before the latest chain. -/
theorem Tracks.undo {c : Chain Byte} (htracks : Tracks b h (c :: past) future)
    (hclosed : b.linkUndos = 0) :
    ∃ b', undo t b = (.ok, b') ∧ b'.linkUndos = 0 ∧ Tracks b' h.undo past (c :: future) := by
  have hchained : h.chained = false := by
    by_contra hopen
    exact (htracks.linked (by simpa using hopen)).1 hclosed
  have hlog := htracks.log
  rw [hchained, doneEntries] at hlog
  have hpasts := htracks.past
  cases hpast : h.past with
  | nil =>
      rw [hpast] at hpasts
      cases hpasts
  | cons p ps =>
      rw [hpast] at hpasts
      cases hpasts with
      | cons hpath hrest =>
          obtain ⟨b', hrun, hready, hkept, hlog', htext⟩ := undo_spec (t := t) htracks.ready
            htracks.undoing htracks.redoing hlog (doneEntries_head past)
            (htracks.soundPast c List.mem_cons_self) hpath
          have hundo : h.undo = ⟨ps, p, h.present :: h.future, h.chained⟩ := by
            simp only [History.undo, hpast]
          refine ⟨b', hrun, hkept.linkUndos.trans hclosed, ?_⟩
          refine
            { ready := hready
              doUndo := hkept.opt ▸ htracks.doUndo
              undoing := hkept.undoing.trans htracks.undoing
              redoing := hkept.redoing.trans htracks.redoing
              linkUndos := hkept.linkUndos ▸ htracks.linkUndos
              linked := ?_
              log := ?_
              soundPast := fun c' hc' => hkept.encoding ▸
                htracks.soundPast c' (List.mem_cons_of_mem _ hc')
              soundFuture := ?_
              present := ?_
              past := ?_
              future := ?_ }
          · simp [hchained]
          · rw [History.undo_chained, hchained, undoneEntries_cons]
            exact hlog'
          · intro c' hc'
            rw [hkept.encoding]
            rcases List.mem_cons.mp hc' with rfl | hc'
            · exact htracks.soundPast _ List.mem_cons_self
            · exact htracks.soundFuture c' hc'
          · rw [hundo, htext]
          · rw [hundo, htext]
            exact hrest
          · rw [hundo, htext, htracks.present]
            exact .cons hpath htracks.future

/-- `redo` goes on to the text behind the next chain. -/
theorem Tracks.redo {c : Chain Byte} (htracks : Tracks b h past (c :: future))
    (hclosed : b.linkUndos = 0) :
    ∃ b', redo t b = (.ok, b') ∧ b'.linkUndos = 0 ∧ Tracks b' h.redo (c :: past) future := by
  have hchained : h.chained = false := by
    by_contra hopen
    exact (htracks.linked (by simpa using hopen)).1 hclosed
  have hlog := htracks.log
  rw [hchained, undoneEntries_cons] at hlog
  have hfutures := htracks.future
  cases hfuture : h.future with
  | nil =>
      rw [hfuture] at hfutures
      cases hfutures
  | cons f fs =>
      rw [hfuture] at hfutures
      cases hfutures with
      | cons hpath hrest =>
          obtain ⟨b', hrun, hready, hkept, hlog', htext⟩ := redo_spec (t := t) htracks.ready
            htracks.redoing hlog (htracks.soundFuture c List.mem_cons_self) hpath
          have hredo : h.redo = ⟨h.present :: h.past, f, fs, h.chained⟩ := by
            simp only [History.redo, hfuture]
          refine ⟨b', hrun, hkept.linkUndos.trans hclosed, ?_⟩
          refine
            { ready := hready
              doUndo := hkept.opt ▸ htracks.doUndo
              undoing := hkept.undoing.trans htracks.undoing
              redoing := hkept.redoing.trans htracks.redoing
              linkUndos := hkept.linkUndos ▸ htracks.linkUndos
              linked := ?_
              log := ?_
              soundPast := ?_
              soundFuture := fun c' hc' => hkept.encoding ▸
                htracks.soundFuture c' (List.mem_cons_of_mem _ hc')
              present := ?_
              past := ?_
              future := ?_ }
          · simp [hchained]
          · rw [History.redo_chained, hchained, doneEntries]
            exact hlog'
          · intro c' hc'
            rw [hkept.encoding]
            rcases List.mem_cons.mp hc' with rfl | hc'
            · exact htracks.soundFuture _ List.mem_cons_self
            · exact htracks.soundPast c' hc'
          · rw [hredo, htext]
          · rw [hredo, htext, htracks.present]
            exact .cons hpath htracks.past
          · rw [hredo, htext]
            exact hrest

theorem Tracks.undo_nil (htracks : Tracks b h [] future) :
    UndoRuns.Repeats (NiceEditor.Undo.undo t) .nothingToUndo b b ∧
      NiceEditor.Undo.undo t b = (.nothingToUndo, b) ∧ h.past = [] := by
  have hzero : b.undo.curStep = 0 := htracks.log.curStep
  have hrun : NiceEditor.Undo.undo t b = (.nothingToUndo, b) := if_pos hzero
  refine ⟨?_, hrun, ?_⟩
  · have hstop : UndoRuns.Repeats (NiceEditor.Undo.undo t) .nothingToUndo b _ :=
      .stop (congrArg Prod.fst hrun)
    rwa [hrun] at hstop
  · have hpast := htracks.past
    generalize h.past = ps at hpast ⊢
    cases hpast
    rfl

theorem Tracks.redo_nil (htracks : Tracks b h past []) :
    UndoRuns.Repeats (NiceEditor.Undo.redo t) .nothingToRedo b b ∧
      NiceEditor.Undo.redo t b = (.nothingToRedo, b) ∧ h.future = [] := by
  have hlast : b.undo.curStep = b.undo.lastStep := by
    rw [htracks.log.curStep, htracks.log.lastStep]
    rfl
  have hrun : NiceEditor.Undo.redo t b = (.nothingToRedo, b) := if_pos hlast
  refine ⟨?_, hrun, ?_⟩
  · have hstop : UndoRuns.Repeats (NiceEditor.Undo.redo t) .nothingToRedo b _ :=
      .stop (congrArg Prod.fst hrun)
    rwa [hrun] at hstop
  · have hfuture := htracks.future
    generalize h.future = fs at hfuture ⊢
    cases hfuture
    rfl

theorem recording_of_tracks (htracks : Tracks b h past future) : recording b = true := by
  simp [recording, htracks.doUndo, htracks.undoing, htracks.redoing]

theorem Tracks.insert {stream : List Byte} (htracks : Tracks b h past future)
    (hvalid : Valid b ld pos l) (hstream : stream ≠ [])
    (hbelow : breaksBelowCursor b ⟨true, frontOf b ld pos, stream⟩) :
    ∃ past', Tracks (insertStream b ld ld pos stream).2
      (h.edit (b.linkUndos ≠ 0) (bufferText (insertStream b ld ld pos stream).2)) past' [] := by
  obtain ⟨hcount, hlast, -, -⟩ :=
    front_spec htracks.ready.wellFormed hvalid.line hvalid.pos_le
  rw [breaksBelowCursor] at hbelow
  simp only [hcount] at hbelow
  obtain ⟨b', hrun, hready, hview, happlies, hrecords, -⟩ :=
    insertStream_step htracks.ready hvalid.line hvalid.pos_le hstream hbelow
  have hstep : stepOf (⟨true, frontOf b ld pos, stream⟩, decide (b.linkUndos ≠ 0)) =
      ⟨ld, markedPos (decide (b.linkUndos ≠ 0)) pos, -stream.length⟩ := by
    simp only [stepOf, hcount, hlast, List.length_take, Nat.min_eq_left hvalid.pos_le, if_true]
  rw [hrun]
  refine htracks.edit hready (kept_of_sameView hview) ⟨hstream, ?_⟩ happlies ?_
  · simp only [hlast]
    exact hvalid.whole
  · rw [hstep, deleted_singleton]
    exact hrecords (recording_of_tracks htracks)

theorem Tracks.delete {len : Nat} (htracks : Tracks b h past future)
    (hvalid : Valid b ld pos l) (hlen : 1 ≤ len) (hback : backOf b ld pos ≠ [])
    (hbelow : breaksBelowCursor b ⟨false, frontOf b ld pos, (backOf b ld pos).take len⟩) :
    ∃ past', Tracks (deleteStream b ld ld pos len).2
      (h.edit (b.linkUndos ≠ 0) (bufferText (deleteStream b ld ld pos len).2)) past' [] := by
  obtain ⟨hcount, hlast, -, -⟩ :=
    front_spec htracks.ready.wellFormed hvalid.line hvalid.pos_le
  rw [breaksBelowCursor] at hbelow
  simp only [hcount] at hbelow
  obtain ⟨b', hrun, hready, hview, happlies, hrecords, -⟩ :=
    deleteStream_step htracks.ready hvalid.line hvalid.pos_le hlen hback hbelow
  have hbody : (backOf b ld pos).take len ≠ [] := by
    rw [← List.length_pos_iff, List.length_take]
    have hpositive := List.length_pos_iff.mpr hback
    omega
  have hstep : stepOf (⟨false, frontOf b ld pos, (backOf b ld pos).take len⟩,
      decide (b.linkUndos ≠ 0)) = ⟨ld, markedPos (decide (b.linkUndos ≠ 0)) pos,
        ((backOf b ld pos).take len).length⟩ := by
    simp only [stepOf, hcount, hlast, List.length_take, Nat.min_eq_left hvalid.pos_le,
      Bool.false_eq_true, if_false]
  rw [hrun]
  refine htracks.edit hready (kept_of_sameView hview) ⟨hbody, ?_⟩ happlies ?_
  · simp only [hlast]
    exact hvalid.whole
  · rw [hstep, deleted_singleton]
    exact hrecords (recording_of_tracks htracks)

/-- One call keeps the buffer and the history together. -/
theorem Call.tracks {s s' : Buffer × History (List Byte)}
    (hcall : Call t breaksBelowCursor s s') (htracks : ∃ past future, Tracks s.1 s.2 past future) :
    ∃ past future, Tracks s'.1 s'.2 past future := by
  obtain ⟨past, future, htracks⟩ := htracks
  cases hcall with
  | insert stream hvalid hstream hallowed =>
      obtain ⟨past', htracks'⟩ := htracks.insert hvalid hstream hallowed
      exact ⟨past', [], htracks'⟩
  | delete len hvalid hlen hback hallowed =>
      obtain ⟨past', htracks'⟩ := htracks.delete hvalid hlen hback hallowed
      exact ⟨past', [], htracks'⟩
  | startChain b h =>
      have hnonneg := htracks.linkUndos
      refine ⟨past, future, ⟨htracks.ready.wellFormed, htracks.ready.granting,
        ⟨htracks.ready.cursor.numLines, htracks.ready.cursor.winY_nonneg,
          htracks.ready.cursor.winY_le, htracks.ready.cursor.curLine_lt,
          htracks.ready.cursor.cur, htracks.ready.cursor.top⟩⟩, htracks.doUndo, htracks.undoing,
        htracks.redoing, ?_, ?_, htracks.log, htracks.soundPast, htracks.soundFuture,
        htracks.present, htracks.past, htracks.future⟩
      · simp only [startUndoChain] at hnonneg ⊢
        omega
      · intro hchained
        refine ⟨?_, (htracks.linked hchained).2⟩
        simp only [startUndoChain] at hnonneg ⊢
        omega
  | endChain h hopen => exact ⟨past, future, htracks.endChain hopen⟩
  | @undo b h hclosed =>
      cases past with
      | nil =>
          obtain ⟨-, hrun, hpast⟩ := htracks.undo_nil (t := t)
          have hundo : h.undo = h := by rw [History.undo, hpast]
          rw [hrun, hundo]
          exact ⟨[], future, htracks⟩
      | cons c cs =>
          obtain ⟨b', hrun, -, htracks'⟩ := htracks.undo (t := t) hclosed
          rw [hrun]
          exact ⟨cs, c :: future, htracks'⟩
  | @redo b h hclosed =>
      cases future with
      | nil =>
          obtain ⟨-, hrun, hfuture⟩ := htracks.redo_nil (t := t)
          have hredo : h.redo = h := by rw [History.redo, hfuture]
          rw [hrun, hredo]
          exact ⟨past, [], htracks⟩
      | cons c cs =>
          obtain ⟨b', hrun, -, htracks'⟩ := htracks.redo (t := t) hclosed
          rw [hrun]
          exact ⟨c :: past, cs, htracks'⟩
  | @goto b h ld pos l hvalid =>
      obtain ⟨hmoved, hcursor, -, -⟩ :=
        gotoLinePos_spec t htracks.ready.cursor hvalid.line hvalid.pos_le hvalid.whole
      have hkept := kept_of_moved hmoved
      have hundo : (gotoLinePos t b ld pos).undo = b.undo := by rw [hmoved]
      have hchars : (gotoLinePos t b ld pos).chars = b.chars := by rw [hmoved]
      have hlist : (gotoLinePos t b ld pos).lineDescList = b.lineDescList := by rw [hmoved]
      have htext : bufferText (gotoLinePos t b ld pos) = bufferText b := by
        rw [bufferText, lines, hchars, hlist]
        rfl
      have hwf : WellFormed (gotoLinePos t b ld pos) := by
        rw [WellFormed, hchars, hlist]
        exact htracks.ready.wellFormed
      refine ⟨past, future, ⟨hwf, hchars ▸ htracks.ready.granting, hcursor⟩,
        hkept.opt ▸ htracks.doUndo, hkept.undoing.trans htracks.undoing,
        hkept.redoing.trans htracks.redoing, hkept.linkUndos ▸ htracks.linkUndos,
        hkept.linkUndos ▸ htracks.linked, hundo ▸ htracks.log, hkept.encoding ▸ htracks.soundPast,
        hkept.encoding ▸ htracks.soundFuture, ?_, ?_, ?_⟩
      · rw [htext]
        exact htracks.present
      · rw [htext]
        exact htracks.past
      · rw [htext]
        exact htracks.future

theorem Tracks.undo_all (htracks : Tracks b h past future) (hclosed : b.linkUndos = 0) :
    ∃ b' h' past' future', Repeats (NiceEditor.Undo.undo t) .nothingToUndo b b' ∧
      Tracks b' h' past' future' ∧ b'.linkUndos = 0 ∧ bufferText b' = h.first ∧
      h'.last = h.last := by
  induction past generalizing b h future with
  | nil =>
      obtain ⟨hstop, -, hpast⟩ := htracks.undo_nil (t := t)
      refine ⟨b, h, [], future, hstop, htracks, hclosed, ?_, rfl⟩
      rw [History.first, hpast, ← htracks.present]
      rfl
  | cons c cs ih =>
      obtain ⟨b', hrun, hclosed', htracks'⟩ := htracks.undo (t := t) hclosed
      obtain ⟨b'', h'', past'', future'', hrest, htracks'', hclosed'', htext, hlast⟩ :=
        ih htracks' hclosed'
      rw [History.first_undo] at htext
      rw [History.last_undo] at hlast
      refine ⟨b'', h'', past'', future'', .again ?_ ?_, htracks'', hclosed'', htext, hlast⟩
      · rw [hrun]
      · rw [hrun]
        exact hrest

theorem Tracks.redo_all (htracks : Tracks b h past future) (hclosed : b.linkUndos = 0) :
    ∃ b', Repeats (NiceEditor.Undo.redo t) .nothingToRedo b b' ∧ bufferText b' = h.last := by
  induction future generalizing b h past with
  | nil =>
      obtain ⟨hstop, -, hfuture⟩ := htracks.redo_nil (t := t)
      refine ⟨b, hstop, ?_⟩
      rw [History.last, hfuture, ← htracks.present]
      rfl
  | cons c cs ih =>
      obtain ⟨b', hrun, hclosed', htracks'⟩ := htracks.redo (t := t) hclosed
      obtain ⟨b'', hrest, htext⟩ := ih htracks' hclosed'
      rw [History.last_redo] at htext
      refine ⟨b'', .again ?_ ?_, htext⟩
      · rw [hrun]
      · rw [hrun]
        exact hrest

theorem StreamOk.len_eq {cs : CharStream} (hok : StreamOk cs) :
    cs.len = (streamBytes cs).length := by
  unfold streamBytes
  cases hstream : cs.stream with
  | none =>
      have hsize := hok.null hstream
      have hlen := hok.len_le
      simp only [List.length_nil]
      omega
  | some m => exact (NiceEditor.Cells.readCells_length m 0 cs.len).symm

theorem Tracks.restored {h' : History (List Byte)} (htracks : Tracks b h past future)
    (htracks' : Tracks b' h' past future) (heq : h' = h) : Restored b b' := by
  subst heq
  have hredo : streamBytes b'.undo.redo = streamBytes b.undo.redo :=
    htracks'.log.redo.trans htracks.log.redo.symm
  refine ⟨htracks'.present.symm.trans htracks.present, htracks'.log.curStep.trans
    htracks.log.curStep.symm, htracks'.log.curStream.trans htracks.log.curStream.symm, hredo, ?_⟩
  rw [StreamOk.len_eq htracks'.log.redoOk, StreamOk.len_eq htracks.log.redoOk, hredo]

theorem Call.first {s s' : Buffer × History (List Byte)} (hcall : Call t breaksBelowCursor s s')
    (htracks : ∃ past future, Tracks s.1 s.2 past future) : s'.2.first = s.2.first := by
  obtain ⟨past, future, htracks⟩ := htracks
  have hchained : s.2.chained = true → s.2.past ≠ [] := fun hchained =>
    htracks.past.ne_nil_iff.mp (htracks.linked hchained).2
  cases hcall with
  | insert stream hvalid hstream hallowed => exact History.first_edit _ _ hchained
  | delete len hvalid hlen hback hallowed => exact History.first_edit _ _ hchained
  | startChain b h => rfl
  | endChain h hopen =>
      simp only
      split
      · exact History.first_close
      · rfl
  | undo h hclosed => exact History.first_undo
  | redo h hclosed => exact History.first_redo
  | goto h hvalid => rfl

/-- In every run that inserts and removes no line break above the line of the
cursor, `undo` and `redo` take back and do again one chain at a time, each
restores what the other has changed, and repeating them leads to the first and
to the last text. -/
theorem undo_redo_inverse {b₀ : Buffer} (hstart : Start b₀)
    (hrun : Reached (fun s => s = (b₀, History.start (bufferText b₀)))
      (Call t breaksBelowCursor) (b, h))
    (hclosed : b.linkUndos = 0) :
    bufferText b = h.present ∧
    (h.past = [] → undo t b = (.nothingToUndo, b)) ∧
    (∀ p ps, h.past = p :: ps → ∃ b', undo t b = (.ok, b') ∧ bufferText b' = p ∧
      ∃ b'', redo t b' = (.ok, b'') ∧ Restored b b'') ∧
    (h.future = [] → redo t b = (.nothingToRedo, b)) ∧
    (∀ f fs, h.future = f :: fs → ∃ b', redo t b = (.ok, b') ∧ bufferText b' = f ∧
      ∃ b'', undo t b' = (.ok, b'') ∧ Restored b b'') ∧
    ∃ b₁ b₂, Repeats (undo t) .nothingToUndo b b₁ ∧ bufferText b₁ = bufferText b₀ ∧
      Repeats (redo t) .nothingToRedo b₁ b₂ ∧ bufferText b₂ = h.last ∧
      (h.future = [] → bufferText b₂ = bufferText b) := by
  have htracked : ∀ s, Reached (fun s => s = (b₀, History.start (bufferText b₀)))
      (Call t breaksBelowCursor) s →
      (∃ past future, Tracks s.1 s.2 past future) ∧ s.2.first = bufferText b₀ := by
    intro s hs
    induction hs with
    | init hfirst =>
        subst hfirst
        exact ⟨⟨[], [], hstart.tracks⟩, rfl⟩
    | next _ hcall ih => exact ⟨hcall.tracks ih.1, (hcall.first ih.1).trans ih.2⟩
  obtain ⟨⟨past, future, htracks⟩, hfirst⟩ := htracked _ hrun
  refine ⟨htracks.present.symm, ?_, ?_, ?_, ?_, ?_⟩
  · intro hnil
    have hpast : past = [] := by
      by_contra hne
      exact htracks.past.ne_nil_iff.mp hne hnil
    subst hpast
    exact htracks.undo_nil.2.1
  · intro p ps hcons
    have hne := htracks.past.ne_nil_iff.mpr (by rw [hcons]; simp)
    obtain ⟨c, cs, rfl⟩ := List.exists_cons_of_ne_nil hne
    obtain ⟨b', hundo, hclosed', htracks'⟩ := htracks.undo (t := t) hclosed
    obtain ⟨b'', hredo, -, htracks''⟩ := htracks'.redo (t := t) hclosed'
    refine ⟨b', hundo, ?_, b'', hredo, htracks.restored htracks'' (History.redo_undo ?_)⟩
    · rw [← htracks'.present, History.undo, hcons]
    · rw [hcons]
      simp
  · intro hnil
    have hfuture : future = [] := by
      by_contra hne
      exact htracks.future.ne_nil_iff.mp hne hnil
    subst hfuture
    exact htracks.redo_nil.2.1
  · intro f fs hcons
    have hne := htracks.future.ne_nil_iff.mpr (by rw [hcons]; simp)
    obtain ⟨c, cs, rfl⟩ := List.exists_cons_of_ne_nil hne
    obtain ⟨b', hredo, hclosed', htracks'⟩ := htracks.redo (t := t) hclosed
    obtain ⟨b'', hundo, -, htracks''⟩ := htracks'.undo (t := t) hclosed'
    refine ⟨b', hredo, ?_, b'', hundo, htracks.restored htracks'' (History.undo_redo ?_)⟩
    · rw [← htracks'.present, History.redo, hcons]
    · rw [hcons]
      simp
  · obtain ⟨b₁, h₁, past₁, future₁, hundos, htracks₁, hclosed₁, htext₁, hlast₁⟩ :=
      htracks.undo_all (t := t) hclosed
    obtain ⟨b₂, hredos, htext₂⟩ := htracks₁.redo_all (t := t) hclosed₁
    refine ⟨b₁, b₂, hundos, htext₁.trans hfirst, hredos, htext₂.trans hlast₁, fun hnil => ?_⟩
    rw [htext₂, hlast₁, History.last, hnil, ← htracks.present]
    rfl

theorem idle_allocBuffer : Idle (allocBuffer false none fun _ => true) where
  linkUndos := rfl
  undoing := rfl
  redoing := rfl
  doUndo := rfl
  redoOk := ⟨le_rfl, fun _ => rfl⟩
  granting := fun _ => rfl

/-- A terminal whose characters are all one column wide. -/
def plainTerminal : Terminal := ⟨25, 80, fun _ => 1, twentyFive_pos, eighty_pos⟩

/-- A character or a line break is put at the start of a line. -/
def putFirst (b : Buffer) (ld : Nat) (c : Byte) : Buffer := (insertStream b ld ld 0 [c]).2

/-- A document of two lines, with a character on the second one. -/
def secondLine : Buffer := putFirst (putFirst (newBuffer false none fun _ => true) 0 0) 1 120

/-- The character has been undone: the cursor is on the second line. -/
def twoLines : Buffer := (undo plainTerminal secondLine).2

/-- A line break above the cursor, and a character on the second line. -/
def brokenAbove : Buffer := putFirst (putFirst twoLines 0 0) 1 121

theorem reached_putFirst {allowed : Buffer → Edit Byte → Prop} {b₀ : Buffer} (ld : Nat) (c : Byte)
    (hrun : ∃ h, Reached (fun s => s = (b₀, History.start (bufferText b₀))) (Call t allowed) (b, h))
    (hascii : b.encoding = .ascii) (hline : (lines b)[ld]? = some [])
    (hallowed : allowed b ⟨true, frontOf b ld 0, [c]⟩) :
    ∃ h, Reached (fun s => s = (b₀, History.start (bufferText b₀))) (Call t allowed)
      (putFirst b ld c, h) := by
  obtain ⟨h, hrun⟩ := hrun
  have hvalid : Valid b ld 0 [] :=
    ⟨hline, le_rfl, wholeChars_of_ne_utf8 (by simp [hascii]) _⟩
  exact ⟨_, hrun.next (.insert [c] hvalid (by simp) hallowed)⟩

/-- A character and a line break, in a chain that is still open -/
def openChain : Buffer :=
  (insertStream (putFirst (startUndoChain (newBuffer false none fun _ => true)) 0 97) 0 0 1 [0]).2

/-- The chain has been closed, undone and done again. -/
def redoneChain : Buffer :=
  (redo plainTerminal (undo plainTerminal (endUndoChain openChain)).2).2

/-- After that the character is deleted. -/
theorem undo_redo_inverse_chain :
    ∃ b₁ b₂, Repeats (undo plainTerminal) .nothingToUndo (deleteStream redoneChain 0 0 0 1).2 b₁ ∧
        bufferText b₁ = [] ∧
      Repeats (redo plainTerminal) .nothingToRedo b₁ b₂ ∧ bufferText b₂ = [0] := by
  have hinit : Reached (fun s => s = (newBuffer false none fun _ => true,
      History.start (bufferText (newBuffer false none fun _ => true))))
      (Call plainTerminal breaksBelowCursor)
      (startUndoChain (newBuffer false none fun _ => true), _) :=
    .next (.init rfl) (.startChain _ _)
  obtain ⟨h₁, hrun₁⟩ := reached_putFirst 0 97 ⟨_, hinit⟩ rfl (by decide +kernel)
    (Or.inl (by decide +kernel))
  have hvalid : Valid (putFirst (startUndoChain (newBuffer false none fun _ => true)) 0 97) 0 1
      [97] := ⟨by decide +kernel, le_rfl, wholeChars_of_ne_utf8 (by decide +kernel) _⟩
  have hopen := hrun₁.next (.insert [0] hvalid (by simp) (Or.inl (by decide +kernel)))
  have hclosed := hopen.next (.endChain _ (by decide +kernel))
  have hredone := (hclosed.next (.undo _ (by decide +kernel))).next (.redo _ (by decide +kernel))
  have hvalid' : Valid redoneChain 0 0 [97] :=
    ⟨by decide +kernel, Nat.zero_le 1, wholeChars_of_ne_utf8 (by decide +kernel) _⟩
  have hrun := hredone.next (.delete 1 hvalid' le_rfl (by decide +kernel)
    (Or.inl (by decide +kernel)))
  obtain ⟨hpresent, -, -, -, -, b₁, b₂, hundos, hfirst, hredos, -, hlast⟩ :=
    undo_redo_inverse (Start.cleared idle_allocBuffer) hrun (by decide +kernel)
  have hnothing := hlast (History.future_edit _ _)
  exact ⟨b₁, b₂, hundos, hfirst, hredos, hnothing.trans (by decide +kernel)⟩

/-- Without the condition a chain can be undone at the wrong line: the cursor
does not move when it takes itself to be there. -/
theorem not_undo_first_of_breaks_above :
    ¬ ∀ (t : Terminal) (b₀ b b₁ : Buffer) (h : History (List Byte)), Start b₀ →
      Reached (fun s => s = (b₀, History.start (bufferText b₀))) (Call t keepsCursorLine) (b, h) →
      b.linkUndos = 0 → Repeats (undo t) .nothingToUndo b b₁ → bufferText b₁ = bufferText b₀ := by
  intro hall
  have hrun₁ : ∃ h, Reached (fun s => s = (newBuffer false none fun _ => true,
      History.start (bufferText (newBuffer false none fun _ => true))))
      (Call plainTerminal keepsCursorLine) (putFirst (newBuffer false none fun _ => true) 0 0, h) :=
    reached_putFirst 0 0 ⟨_, .init rfl⟩ rfl rfl (Or.inl rfl)
  obtain ⟨h₂, hrun₂⟩ := reached_putFirst 1 120 hrun₁ (by decide +kernel) (by decide +kernel)
    (Or.inl rfl)
  have hrun₃ : Reached _ (Call plainTerminal keepsCursorLine) (twoLines, h₂.undo) :=
    hrun₂.next (.undo h₂ (by decide +kernel))
  obtain ⟨h₅, hrun₅⟩ := reached_putFirst 1 121
    (reached_putFirst 0 0 ⟨_, hrun₃⟩ (by decide +kernel) (by decide +kernel) (Or.inl rfl))
    (by decide +kernel) (by decide +kernel) (Or.inl rfl)
  have htext := hall plainTerminal _ brokenAbove _ h₅ (Start.cleared idle_allocBuffer) hrun₅
    (by decide +kernel) (.again (by decide +kernel) (.again (by decide +kernel)
      (.again (by decide +kernel) (.stop (by decide +kernel)))))
  exact absurd htext (by decide +kernel)

end NiceEditor.UndoRuns
