import NiceEditor.InsertRefinement

namespace NiceEditor.DeleteRefinement

open NiceEditor.Pools
open NiceEditor.Ownership
open NiceEditor.PoolOwnership
open NiceEditor.PoolSegments
open NiceEditor.LineEdits
open NiceEditor.BufferData
open NiceEditor.UndoSteps
open NiceEditor.EditStream
open NiceEditor.Load
open NiceEditor.LineText
open NiceEditor.InsertRefinement

/-- What a deletion has recorded when it has removed the bytes `s`. -/
structure Recorded (b : Buffer) (s : List Byte) (b' : Buffer) : Prop where
  flags : b'.redoing = b.redoing ∧ b'.undoing = b.undoing ∧ b'.opt = b.opt
  steps : b'.undo.steps = b.undo.steps
  curStep : b'.undo.curStep = b.undo.curStep
  lastStep : b'.undo.lastStep = b.undo.lastStep
  lastSaveStep : b'.undo.lastSaveStep = b.undo.lastSaveStep
  redone : b.redoing = true → b'.undo = b.undo
  undone : b.redoing = false → b.undoing = true → StreamOk b.undo.redo →
    StreamOk b'.undo.redo ∧ b'.undo.redo.len = b.undo.redo.len + s.length ∧
      streamBytes b'.undo.redo = streamBytes b.undo.redo ++ s ∧
      b'.undo.streams = b.undo.streams ∧ b'.undo.curStream = b.undo.curStream
  done : recording b = true → b.undo.curStep ≠ 0 →
    0 ≤ (b.undo.steps (b.undo.curStep - 1)).len →
    undoBytes b'.undo = undoBytes b.undo ++ s ∧
      b'.undo.curStream = b.undo.curStream + s.length ∧ b'.undo.redo = b.undo.redo
  off : b.redoing = false → b.undoing = false → b.opt.doUndo = false → b'.undo = b.undo

variable {strict : Prop} {b b' b'' : Buffer} {ld pos len n : Nat} {line : Int}
variable {d next : LineDesc} {before after : List LineDesc} {s t : List Byte} {status : Status}

theorem Recorded.refl (b : Buffer) : Recorded b [] b where
  flags := ⟨rfl, rfl, rfl⟩
  steps := rfl
  curStep := rfl
  lastStep := rfl
  lastSaveStep := rfl
  redone := fun _ => rfl
  undone := fun _ _ hok => ⟨hok, rfl, by simp, rfl, rfl⟩
  done := fun _ _ _ => ⟨by simp, rfl, rfl⟩
  off := fun _ _ _ => rfl

theorem Recorded.trans (first : Recorded b s b') (second : Recorded b' t b'') :
    Recorded b (s ++ t) b'' := by
  obtain ⟨hredo, hundo, hopt⟩ := first.flags
  obtain ⟨hredo', hundo', hopt'⟩ := second.flags
  refine
    { flags := ⟨hredo'.trans hredo, hundo'.trans hundo, hopt'.trans hopt⟩
      steps := second.steps.trans first.steps
      curStep := second.curStep.trans first.curStep
      lastStep := second.lastStep.trans first.lastStep
      lastSaveStep := second.lastSaveStep.trans first.lastSaveStep
      redone := fun h => (second.redone (hredo ▸ h)).trans (first.redone h)
      undone := ?_
      done := ?_
      off := fun h h' h'' => (second.off (hredo ▸ h) (hundo ▸ h') (hopt ▸ h'')).trans
        (first.off h h' h'') }
  · intro h h' hok
    obtain ⟨hok₁, hlen₁, hbytes₁, hstreams₁, hcur₁⟩ := first.undone h h' hok
    obtain ⟨hok₂, hlen₂, hbytes₂, hstreams₂, hcur₂⟩ :=
      second.undone (hredo ▸ h) (hundo ▸ h') hok₁
    refine ⟨hok₂, ?_, ?_, hstreams₂.trans hstreams₁, hcur₂.trans hcur₁⟩
    · rw [hlen₂, hlen₁, List.length_append, Nat.add_assoc]
    · rw [hbytes₂, hbytes₁, List.append_assoc]
  · intro h hstep hlen
    have hrecording : recording b' = true := by
      rw [recording, hredo, hundo, hopt]
      exact h
    obtain ⟨hbytes₁, hcur₁, hkept₁⟩ := first.done h hstep hlen
    obtain ⟨hbytes₂, hcur₂, hkept₂⟩ := second.done hrecording (first.curStep ▸ hstep)
      (by rw [first.curStep, first.steps]; exact hlen)
    refine ⟨?_, ?_, hkept₂.trans hkept₁⟩
    · rw [hbytes₂, hbytes₁, List.append_assoc]
    · rw [hcur₂, hcur₁, List.length_append, Nat.add_assoc]

/-- The deleted bytes are recorded when the requests for memory are granted. -/
theorem recordDeleted_granting (hgrant : Granting b.chars.answers) (hs : s ≠ []) :
    Recorded b s (recordDeleted b s) ∧ Granting (recordDeleted b s).chars.answers := by
  have hredoing : ∀ {P : Prop}, b.redoing = true → b.redoing = false → P := by
    intro P h h'
    simp [h] at h'
  unfold recordDeleted
  split
  · rename_i hredo
    refine ⟨⟨⟨rfl, rfl, rfl⟩, rfl, rfl, rfl, rfl, fun _ => rfl, fun h => hredoing hredo h, ?_,
      fun h => hredoing hredo h⟩, hgrant⟩
    intro h
    simp [recording, hredo] at h
  rename_i hredo
  split
  · rename_i hundo
    refine ⟨⟨⟨rfl, rfl, rfl⟩, rfl, rfl, rfl, rfl, fun h => absurd h hredo, ?_, ?_, ?_⟩,
      addToStream_answers hgrant⟩
    · intro _ _ hok
      obtain ⟨cs, answers, hadd, -, hok', hlen, hbytes⟩ := addToStream_granting hgrant hok hs
      rw [hadd]
      exact ⟨hok', hlen, hbytes, rfl, rfl⟩
    · intro h
      simp [recording, hundo] at h
    · intro _ h
      simp [hundo] at h
  rename_i hundo
  split
  · rename_i hdo
    have hframe := addToUndoStream_frame b.chars.answers b.undo s
    have hanswers := addToUndoStream_answers b.undo s hgrant
    have hdone := addToUndoStream_granting b.undo s hgrant
    generalize addToUndoStream b.chars.answers b.undo s = result at hframe hanswers hdone ⊢
    obtain ⟨status, ub, answers⟩ := result
    obtain ⟨hsteps, hcurStep, hlastStep, hlastSave⟩ := hframe
    refine ⟨⟨⟨rfl, rfl, rfl⟩, hsteps, hcurStep, hlastStep, hlastSave,
      fun h => absurd h hredo, fun _ h => absurd h hundo, ?_, fun _ _ h => ?_⟩, hanswers⟩
    · intro _ hstep hlen
      obtain ⟨ub', answers', hadd, -, hbytes, hcur, hkept⟩ := hdone hstep hlen
      obtain ⟨-, rfl, rfl⟩ : status = .ok ∧ ub = ub' ∧ answers = answers' := by
        simpa using hadd
      exact ⟨hbytes, hcur, hkept⟩
    · simp [hdo] at h
  · rename_i hdo
    refine ⟨⟨⟨rfl, rfl, rfl⟩, rfl, rfl, rfl, rfl, fun _ => rfl, fun _ h => absurd h hundo, ?_,
      fun _ _ _ => rfl⟩, hgrant⟩
    intro h
    simp [recording, hdo] at h

theorem recordDeleted_frame (b : Buffer) (s : List Byte) :
    ∃ answers undo, recordDeleted b s = setAnswers { b with undo := undo } answers := by
  unfold recordDeleted
  split
  · exact ⟨b.chars.answers, b.undo, rfl⟩
  split
  · exact ⟨_, _, rfl⟩
  split
  · exact ⟨_, _, rfl⟩
  · exact ⟨b.chars.answers, b.undo, rfl⟩

/-- The text of a buffer from a position of line `d` on. -/
def restOf (b : Buffer) (d : LineDesc) (after : List LineDesc) (pos : Nat) : List Byte :=
  (lineBytes b.chars d).drop pos ++ textAfter 0 (after.map (lineBytes b.chars))

/-- What joining a line with the next one does to the line list. -/
theorem deleteBreak_spec (hlist : b.lineDescList = before ++ d :: next :: after)
    (hld : before.length = ld) (hown : Owns False b.chars [d, next])
    (h : deleteBreak b ld line d next = (status, b')) :
    (status ≠ .ok ∧ b'.lineDescList = before ++ d :: next :: after ∧
      (∃ answers, b'.chars = { b.chars with answers := answers }) ∧
      b'.numLines = b.numLines ∧ ¬ Granting b.chars.answers) ∨
    (status = .ok ∧ ∃ d', b'.lineDescList = before ++ d' :: after ∧
      (∀ strict, Exchanges (Owns strict) lineBytes b.chars [d, next] b'.chars [d']) ∧
      lineBytes b'.chars d' = lineBytes b.chars d ++ lineBytes b.chars next ∧
      b'.numLines = b.numLines - 1 ∧
      (Granting b.chars.answers → Recorded b [0] b' ∧ Granting b'.chars.answers)) := by
  have hnull := hown.null d List.mem_cons_self
  simp only [deleteBreak] at h
  split at h
  · rename_i chars hjoin
    obtain ⟨rfl, rfl⟩ := Prod.mk.inj h
    obtain ⟨answers, rfl⟩ := joinLines_none hjoin
    refine Or.inl ⟨by simp, hlist, ⟨answers, rfl⟩, rfl, fun hgrant => ?_⟩
    obtain ⟨d', b'', hjoin', -⟩ := joinLines_granting hgrant hnull
    exact absurd (hjoin.symm.trans hjoin') (by simp)
  · rename_i d' chars hjoin
    obtain ⟨rfl, rfl⟩ := Prod.mk.inj h
    have hjoin₀ : joinLines b.chars d next = (some d', chars) := hjoin
    have hspec := fun strict => joinLines_spec strict hown hjoin₀
    set b₁ := mergeNext (movePlaces b (placeAfterJoin line d.lineLen)) ld d' chars with hb₁
    have hlist₁ : b₁.lineDescList = before ++ d' :: after := by
      simp only [hb₁, mergeNext, remLine, setLine, movePlaces, hlist, set_middle hld,
        eraseIdx_middle hld]
    obtain ⟨answers, undo, hrec⟩ := recordDeleted_frame b₁ [0]
    refine Or.inr ⟨rfl, d', ?_, fun strict => ?_, ?_, ?_, fun hgrant => ?_⟩
    · rw [hrec]
      exact hlist₁
    · rw [hrec]
      exact (hspec strict).1.trans (answers_exchanges answers)
    · rw [hrec]
      exact (hspec False).2
    · rw [hrec]
      rfl
    · obtain ⟨d'', chars', hjoin', hgrant'⟩ := joinLines_granting hgrant hnull
      obtain ⟨-, rfl⟩ := Prod.mk.inj (hjoin₀.symm.trans hjoin')
      obtain ⟨hrecorded, hgrant''⟩ := recordDeleted_granting (b := b₁) (s := [0]) hgrant' (by simp)
      exact ⟨⟨hrecorded.flags, hrecorded.steps, hrecorded.curStep, hrecorded.lastStep,
        hrecorded.lastSaveStep, hrecorded.redone, hrecorded.undone, hrecorded.done,
        hrecorded.off⟩, hgrant''⟩

/-- What deleting characters of a line does to the line list. -/
theorem deleteChars_spec (hlist : b.lineDescList = before ++ d :: after)
    (hld : before.length = ld) (hown : Owns False b.chars [d]) (hn : 0 < n)
    (hpos : pos + n ≤ d.lineLen) :
    ∃ d', (deleteChars b ld line pos d n).lineDescList = before ++ d' :: after ∧
      (∀ strict, Exchanges (Owns strict) lineBytes b.chars [d]
        (deleteChars b ld line pos d n).chars [d']) ∧
      lineBytes (deleteChars b ld line pos d n).chars d' =
        (lineBytes b.chars d).take pos ++ (lineBytes b.chars d).drop (pos + n) ∧
      d'.lineLen = d.lineLen - n ∧
      (deleteChars b ld line pos d n).numLines = b.numLines ∧
      (Granting b.chars.answers →
        Recorded b (((lineBytes b.chars d).drop pos).take n) (deleteChars b ld line pos d n) ∧
          Granting (deleteChars b ld line pos d n).chars.answers) := by
  have hlen : (lineBytes b.chars d).length = d.lineLen :=
    lineBytes_length (hown.null d (List.mem_singleton_self _))
  set s := ((lineBytes b.chars d).drop pos).take n with hs
  have hsne : s ≠ [] := List.length_pos_iff.mp (by
    rw [hs, List.length_take, List.length_drop]
    omega)
  set b₁ := recordDeleted (movePlaces b (placeAfterDelete line pos n)) s with hb₁
  obtain ⟨answers, undo, hrec⟩ := recordDeleted_frame (movePlaces b (placeAfterDelete line pos n)) s
  have hb₁' : b₁ = setAnswers { movePlaces b (placeAfterDelete line pos n) with undo := undo }
      answers := hrec
  have hchars : b₁.chars = { b.chars with answers := answers } := by
    rw [hb₁']
    rfl
  have hdelete : deleteChars b ld line pos d n =
      { setLine { b₁ with chars := (removeChars b₁.chars d pos n).2 } ld
          (removeChars b₁.chars d pos n).1 with isModified := true } := rfl
  have hrefused : ∀ strict, Exchanges (Owns strict) lineBytes b.chars [d] b₁.chars [d] :=
    fun strict => hchars ▸ answers_exchanges answers
  have hown₁ : Owns False b₁.chars [d] := (hrefused False).inv [] hown
  have hspec := fun strict => removeChars_spec strict hown₁ hn hpos
  rw [hdelete]
  refine ⟨(removeChars b₁.chars d pos n).1, ?_, fun strict => (hrefused strict).trans
    (hspec strict).1, ?_, ?_, ?_, fun hgrant => ?_⟩
  · simp only [setLine]
    rw [hb₁']
    simp only [setAnswers, movePlaces, hlist, set_middle hld]
  · have hbytes := (hspec False).2
    rw [hchars] at hbytes ⊢
    exact hbytes
  · rcases Owns.cases_line hown with rfl | ⟨p, k, -, rfl⟩
    · simp only at hpos
      omega
    · rfl
  · simp only [setLine]
    rw [hb₁']
    rfl
  · obtain ⟨hrecorded, hgrant'⟩ := recordDeleted_granting
      (b := movePlaces b (placeAfterDelete line pos n)) hgrant hsne
    refine ⟨⟨hrecorded.flags, hrecorded.steps, hrecorded.curStep, hrecorded.lastStep,
        hrecorded.lastSaveStep, hrecorded.redone, hrecorded.undone, hrecorded.done,
        hrecorded.off⟩, ?_⟩
    show Granting (removeChars b₁.chars d pos n).2.answers
    rw [removeChars_answers]
    exact hgrant'

/-- What the loop of `delete_stream` has done when it ends with `left` bytes not
deleted: line `d` and the `k` lines after it are now line `d'`. -/
structure Deletes (b : Buffer) (before : List LineDesc) (d : LineDesc) (after : List LineDesc)
    (pos len : Nat) (status : Status) (left : Nat) (b' : Buffer) (d' : LineDesc) (k : Nat) :
    Prop where
  list : b'.lineDescList = before ++ d' :: after.drop k
  le : k ≤ after.length
  pos_le : pos ≤ d'.lineLen
  step : ∀ strict, Exchanges (Owns strict) lineBytes b.chars (d :: after.take k) b'.chars [d']
  numLines : b'.numLines = b.numLines - k
  left : status = .ok → left = len - (restOf b d after pos).length
  breaks : status = .ok → k = ((restOf b d after pos).take len).count 0
  front : status = .ok →
    (lineBytes b'.chars d').take pos = (lineBytes b.chars d).take pos
  rest : status = .ok → restOf b' d' (after.drop k) pos = (restOf b d after pos).drop len
  granted : Granting b.chars.answers → status = .ok ∧ Granting b'.chars.answers ∧
    Recorded b ((restOf b d after pos).take len) b'

theorem Deletes.stop (hlist : b.lineDescList = before ++ d :: after) (hpos : pos ≤ d.lineLen)
    (hlen : len = 0 ∨ restOf b d after pos = []) :
    Deletes b before d after pos len .ok len b d 0 where
  list := hlist
  le := Nat.zero_le _
  pos_le := hpos
  step := fun _ => Exchanges.refl _ _
  numLines := by simp
  left := fun _ => by rcases hlen with rfl | h <;> simp [*]
  breaks := fun _ => by rcases hlen with rfl | h <;> simp [*]
  front := fun _ => rfl
  rest := fun _ => by rcases hlen with rfl | h <;> simp [*]
  granted := fun hgrant => by
    refine ⟨rfl, hgrant, ?_⟩
    have hnil : (restOf b d after pos).take len = [] := by rcases hlen with rfl | h <;> simp [*]
    rw [hnil]
    exact Recorded.refl b

theorem restOf_congr (hafter : ∀ x ∈ after, lineBytes b'.chars x = lineBytes b.chars x)
    {d' : LineDesc} :
    restOf b' d' after pos =
      (lineBytes b'.chars d').drop pos ++ textAfter 0 (after.map (lineBytes b.chars)) := by
  rw [restOf, List.map_congr_left hafter]

/-- One more line break has been deleted before the rest of the loop. -/
theorem Deletes.join {b₁ : Buffer} {d₁ d' : LineDesc} {left k : Nat}
    (hnull : d.line = none ↔ d.lineLen = 0)
    (hpos : pos = d.lineLen) (hlen : 0 < len)
    (hstep : ∀ strict, Exchanges (Owns strict) lineBytes b.chars [d, next] b₁.chars [d₁])
    (hbytes : lineBytes b₁.chars d₁ = lineBytes b.chars d ++ lineBytes b.chars next)
    (hnum : b₁.numLines = b.numLines - 1)
    (hgrant : Granting b.chars.answers → Recorded b [0] b₁ ∧ Granting b₁.chars.answers)
    (hkept : ∀ x ∈ after, lineBytes b₁.chars x = lineBytes b.chars x)
    (h : Deletes b₁ before d₁ after pos (len - 1) status left b' d' k) :
    Deletes b before d (next :: after) pos len status left b' d' (k + 1) := by
  have hlength : (lineBytes b.chars d).length = pos := hpos ▸ lineBytes_length hnull
  have hrest₁ : restOf b₁ d₁ after pos =
      lineBytes b.chars next ++ textAfter 0 (after.map (lineBytes b.chars)) := by
    rw [restOf_congr hkept, hbytes, List.drop_left' hlength]
  have hrest : restOf b d (next :: after) pos = 0 :: restOf b₁ d₁ after pos := by
    rw [hrest₁, restOf, List.drop_eq_nil_of_le (by omega), List.map_cons, textAfter_cons,
      List.nil_append]
  obtain ⟨len, rfl⟩ : ∃ m, len = m + 1 := ⟨len - 1, by omega⟩
  rw [Nat.add_sub_cancel] at h
  refine
    { list := h.list
      le := Nat.succ_le_succ h.le
      pos_le := h.pos_le
      step := fun strict => ((hstep strict).frame (after.take k)).trans (h.step strict)
      numLines := by
        rw [h.numLines, hnum]
        push_cast
        ring
      left := fun hok => by
        rw [h.left hok, hrest, List.length_cons]
        omega
      breaks := fun hok => by
        rw [hrest, List.take_succ_cons, List.count_cons_self, ← h.breaks hok]
      front := fun hok => by
        rw [h.front hok, hbytes, List.take_left' hlength, List.take_of_length_le (by omega)]
      rest := fun hok => by
        rw [hrest, List.drop_succ_cons]
        exact h.rest hok
      granted := fun hgranting => ?_ }
  obtain ⟨hrecorded, hgranting₁⟩ := hgrant hgranting
  obtain ⟨hok, hgranting', hrecorded'⟩ := h.granted hgranting₁
  refine ⟨hok, hgranting', ?_⟩
  rw [hrest, List.take_succ_cons]
  exact hrecorded.trans hrecorded'

/-- Some characters of the line have been deleted before the rest of the loop. -/
theorem Deletes.chars {b₁ : Buffer} {d₁ d' : LineDesc} {left k : Nat}
    (hnull : d.line = none ↔ d.lineLen = 0)
    (hn : n ≤ len) (hpos : pos + n ≤ d.lineLen)
    (hnonzero : ∀ x ∈ lineBytes b.chars d, x ≠ 0)
    (hstep : ∀ strict, Exchanges (Owns strict) lineBytes b.chars [d] b₁.chars [d₁])
    (hbytes : lineBytes b₁.chars d₁ =
      (lineBytes b.chars d).take pos ++ (lineBytes b.chars d).drop (pos + n))
    (hnum : b₁.numLines = b.numLines)
    (hgrant : Granting b.chars.answers →
      Recorded b (((lineBytes b.chars d).drop pos).take n) b₁ ∧ Granting b₁.chars.answers)
    (hkept : ∀ x ∈ after, lineBytes b₁.chars x = lineBytes b.chars x)
    (h : Deletes b₁ before d₁ after pos (len - n) status left b' d' k) :
    Deletes b before d after pos len status left b' d' k := by
  have hlength : (lineBytes b.chars d).length = d.lineLen := lineBytes_length hnull
  have htake : ((lineBytes b.chars d).take pos).length = pos := by
    rw [List.length_take, Nat.min_eq_left (by omega)]
  set s := ((lineBytes b.chars d).drop pos).take n with hs
  have hslength : s.length = n := by
    rw [hs, List.length_take, List.length_drop]
    omega
  have hrest : restOf b d after pos = s ++ restOf b₁ d₁ after pos := by
    rw [restOf_congr hkept, hbytes, List.drop_left' htake, restOf, ← List.append_assoc, hs,
      ← List.drop_drop, List.take_append_drop]
  have hcount : s.count 0 = 0 := by
    rw [List.count_eq_zero]
    exact fun hmem => hnonzero 0 (List.mem_of_mem_drop (List.mem_of_mem_take hmem)) rfl
  obtain ⟨m, rfl⟩ := Nat.exists_eq_add_of_le hn
  rw [Nat.add_sub_cancel_left] at h
  have htaken : (restOf b d after pos).take (n + m) = s ++ (restOf b₁ d₁ after pos).take m := by
    rw [hrest, ← hslength, List.take_length_add_append]
  refine
    { list := h.list
      le := h.le
      pos_le := h.pos_le
      step := fun strict => ((hstep strict).frame (after.take k)).trans (h.step strict)
      numLines := h.numLines.trans (by rw [hnum])
      left := fun hok => by
        rw [h.left hok, hrest, List.length_append]
        omega
      breaks := fun hok => by
        rw [htaken, List.count_append, hcount, ← h.breaks hok, Nat.zero_add]
      front := fun hok => by
        rw [h.front hok, hbytes, List.take_left' htake]
      rest := fun hok => by
        rw [hrest, ← hslength, List.drop_length_add_append]
        exact h.rest hok
      granted := fun hgranting => ?_ }
  obtain ⟨hrecorded, hgranting₁⟩ := hgrant hgranting
  obtain ⟨hok, hgranting', hrecorded'⟩ := h.granted hgranting₁
  refine ⟨hok, hgranting', ?_⟩
  rw [htaken]
  exact hrecorded.trans hrecorded'

theorem Deletes.failed (hlist : b'.lineDescList = before ++ d :: after) (hpos : pos ≤ d.lineLen)
    (hchars : ∃ answers, b'.chars = { b.chars with answers := answers })
    (hnum : b'.numLines = b.numLines) (hstatus : status ≠ .ok)
    (hgrant : ¬ Granting b.chars.answers) :
    Deletes b before d after pos len status len b' d 0 where
  list := hlist
  le := Nat.zero_le _
  pos_le := hpos
  step := fun strict => by
    obtain ⟨answers, hchars⟩ := hchars
    exact hchars ▸ answers_exchanges answers
  numLines := by simp [hnum]
  left := fun hok => absurd hok hstatus
  breaks := fun hok => absurd hok hstatus
  front := fun hok => absurd hok hstatus
  rest := fun hok => absurd hok hstatus
  granted := fun h => absurd h hgrant

/-- What the loop of `delete_stream` does.  Each turn deletes a byte at least, so
the turns do not run out. -/
theorem deleteLoop_spec {turns left : Nat} (hlist : b.lineDescList = before ++ d :: after)
    (hld : before.length = ld) (hown : Owns False b.chars (d :: after)) (hpos : pos ≤ d.lineLen)
    (hturns : len ≤ turns) (h : deleteLoop ld line pos turns len b = (status, left, b')) :
    ∃ d' k, Deletes b before d after pos len status left b' d' k := by
  induction turns generalizing b d after len with
  | zero =>
      obtain ⟨rfl, rfl, rfl⟩ : Status.ok = status ∧ len = left ∧ b = b' := by
        simpa [deleteLoop] using h
      exact ⟨d, 0, Deletes.stop hlist hpos (Or.inl (by omega))⟩
  | succ turns ih =>
      have hnull := hown.null d List.mem_cons_self
      have hlength : (lineBytes b.chars d).length = d.lineLen := lineBytes_length hnull
      have hown₁ : Owns False b.chars [d] := Owns.left hown
      simp only [deleteLoop, hlist, getElem?_middle hld] at h
      split at h
      · rename_i hzero
        obtain ⟨rfl, rfl, rfl⟩ : Status.ok = status ∧ 0 = left ∧ b = b' := by simpa using h
        subst hzero
        exact ⟨d, 0, Deletes.stop hlist hpos (Or.inl rfl)⟩
      rename_i hlen
      split at h
      · -- We are on the end of the line.
        rename_i hend
        cases after with
        | nil =>
            have hnone : (before ++ [d])[ld + 1]? = none :=
              List.getElem?_eq_none (by simp [hld])
            rw [hnone] at h
            obtain ⟨rfl, rfl, rfl⟩ : Status.ok = status ∧ len = left ∧ b = b' := by
              simpa using h
            refine ⟨d, 0, Deletes.stop hlist hpos (Or.inr ?_)⟩
            rw [restOf, List.drop_eq_nil_of_le (by omega)]
            rfl
        | cons next after =>
            have hsome : (before ++ d :: next :: after)[ld + 1]? = some next := by
              subst hld
              simp
            rw [hsome] at h
            simp only at h
            have hownPair : Owns False b.chars [d, next] := Owns.left hown
            split at h
            · rename_i b₁ hbreak
              rcases deleteBreak_spec hlist hld hownPair hbreak with
                ⟨hnot, -⟩ | ⟨-, d₁, hlist₁, hstep₁, hbytes₁, hnum₁, hgrant₁⟩
              · exact absurd rfl hnot
              have hown' : Owns False b₁.chars (d₁ :: after) := (hstep₁ False).inv after hown
              have hlen₁ : d₁.lineLen = (lineBytes b.chars d ++ lineBytes b.chars next).length := by
                rw [← hbytes₁, lineBytes_length (hown'.null d₁ List.mem_cons_self)]
              rw [List.length_append] at hlen₁
              obtain ⟨d', k, hdel⟩ := ih hlist₁ hown' (by omega) (by omega) h
              exact ⟨d', k + 1, hdel.join hnull hend (by omega) hstep₁ hbytes₁ hnum₁ hgrant₁
                fun x hx => (hstep₁ False).view after hown x hx⟩
            · rename_i failed b₁ hnot hbreak
              obtain ⟨rfl, rfl, rfl⟩ : failed = status ∧ len = left ∧ b₁ = b' := by simpa using h
              rcases deleteBreak_spec hlist hld hownPair hbreak with
                ⟨hstatus, hlist₁, hchars₁, hnum₁, hgrant₁⟩ | ⟨rfl, -⟩
              · exact ⟨d, 0, Deletes.failed hlist₁ hpos hchars₁ hnum₁ hstatus hgrant₁⟩
              · exact absurd rfl hnot
      · -- We are inside the line.
        rename_i hinside
        have hn : 0 < min len (d.lineLen - pos) := by omega
        have hbound : pos + min len (d.lineLen - pos) ≤ d.lineLen := by omega
        obtain ⟨d₁, hlist₁, hstep₁, hbytes₁, hlen₁, hnum₁, hgrant₁⟩ :=
          deleteChars_spec hlist hld hown₁ hn hbound
        have hown' := (hstep₁ False).inv after hown
        obtain ⟨d', k, hdel⟩ := ih hlist₁ hown' (by omega) (by omega) h
        have hnonzero : ∀ x ∈ lineBytes b.chars d, x ≠ 0 := by
          rcases Owns.cases_line hown₁ with rfl | ⟨p, k, -, rfl⟩
          · simp [lineBytes]
          · exact load_ne_zero hown₁
        exact ⟨d', k, hdel.chars hnull (Nat.min_le_left _ _) (by omega) hnonzero hstep₁ hbytes₁
          hnum₁ hgrant₁ fun x hx => (hstep₁ False).view after hown x hx⟩

/-- The buffer `delete_stream` works on once the step has been recorded. -/
def afterRecord (b : Buffer) (line : Int) (pos : Nat) (len : Int) : Buffer :=
  if recording b then (addUndoStep b line pos len).2 else b

theorem afterRecord_frame (b : Buffer) (line : Int) (pos : Nat) (len : Int) :
    ∃ answers undo, afterRecord b line pos len =
      setAnswers { b with undo := undo } answers := by
  unfold afterRecord
  split
  · exact ⟨_, _, rfl⟩
  · exact ⟨b.chars.answers, b.undo, rfl⟩

theorem deleteStream_lines (hlist : b.lineDescList = before ++ d :: after)
    (hld : before.length = ld) (hown : Owns False b.chars (d :: after))
    (h : deleteStream b ld line pos len = (status, b')) :
    ∃ d' k, b'.lineDescList = before ++ d' :: after.drop k ∧
      ∀ strict, Exchanges (Owns strict) lineBytes b.chars (d :: after.take k) b'.chars [d'] := by
  simp only [deleteStream, hlist, getElem?_middle hld] at h
  split at h
  · obtain ⟨rfl, rfl⟩ := Prod.mk.inj h
    exact ⟨d, 0, hlist, fun _ => Exchanges.refl _ _⟩
  rename_i hvalid
  split at h
  · split at h
    · rename_i b₁ hundo
      obtain ⟨answers, hchars, hlist₁, -⟩ := addUndoStep_spec hundo
      have hrefused : ∀ (strict : Prop) (held : List LineDesc),
          Exchanges (Owns strict) lineBytes b.chars held b₁.chars held :=
        fun strict held => hchars ▸ answers_exchanges answers
      obtain ⟨loopStatus, left, b₂, hloop⟩ : ∃ loopStatus left b₂,
          deleteLoop ld line pos len len b₁ = (loopStatus, left, b₂) := ⟨_, _, _, rfl⟩
      rw [hloop] at h
      obtain ⟨rfl, rfl⟩ := Prod.mk.inj h
      obtain ⟨d', k, hdel⟩ := deleteLoop_spec (hlist₁.trans hlist) hld
        ((hrefused False []).inv _ hown) (by omega) le_rfl hloop
      exact ⟨d', k, hdel.list, fun strict => (hrefused strict _).trans (hdel.step strict)⟩
    · rename_i hfail
      obtain ⟨answers, hchars, hlist₁, -⟩ := addUndoStep_spec h
      exact ⟨d, 0, hlist₁.trans hlist, fun strict => hchars ▸ answers_exchanges answers⟩
  · obtain ⟨loopStatus, left, b₂, hloop⟩ : ∃ loopStatus left b₂,
        deleteLoop ld line pos len len b = (loopStatus, left, b₂) := ⟨_, _, _, rfl⟩
    rw [hloop] at h
    obtain ⟨rfl, rfl⟩ := Prod.mk.inj h
    obtain ⟨d', k, hdel⟩ := deleteLoop_spec hlist hld hown (by omega) le_rfl hloop
    exact ⟨d', k, hdel.list, hdel.step⟩

/-- What `delete_stream` does when memory is granted. -/
theorem deleteStream_granting (hgrant : Granting b.chars.answers)
    (hlist : b.lineDescList = before ++ d :: after) (hld : before.length = ld)
    (hown : Owns False b.chars (d :: after)) (hpos : pos ≤ d.lineLen) (hlen : 0 < len)
    (hend : pos = d.lineLen → after ≠ []) :
    ∃ left b₁ d' k,
      Deletes (afterRecord b line pos len) before d after pos len .ok left b₁ d' k ∧
      Granting (afterRecord b line pos len).chars.answers ∧
      deleteStream b ld line pos len =
        (.ok, if recording b then fixLastUndoStep b₁ (-left) else b₁) := by
  have hvalid : ¬ (len = 0 ∨ d.lineLen < pos ∨
      (pos = d.lineLen ∧ (before ++ d :: after).length ≤ ld + 1)) := by
    rintro (h | h | ⟨h, hlast⟩)
    · omega
    · omega
    · refine hend h (List.eq_nil_of_length_eq_zero ?_)
      simp only [List.length_append, List.length_cons] at hlast
      omega
  have hloop_spec : ∀ b₀ : Buffer, b₀.lineDescList = b.lineDescList →
      (∃ answers, b₀.chars = { b.chars with answers := answers }) → Granting b₀.chars.answers →
      ∃ left b₁ d' k, deleteLoop ld line pos len len b₀ = (.ok, left, b₁) ∧
        Deletes b₀ before d after pos len .ok left b₁ d' k := by
    intro b₀ hlist₀ hchars hgrant₀
    obtain ⟨answers, hchars⟩ := hchars
    have hrefused : Exchanges (Owns False) lineBytes b.chars [] b₀.chars [] :=
      hchars ▸ answers_exchanges answers
    obtain ⟨status, left, b₁, hloop⟩ : ∃ status left b₁,
        deleteLoop ld line pos len len b₀ = (status, left, b₁) := ⟨_, _, _, rfl⟩
    obtain ⟨d', k, hdel⟩ := deleteLoop_spec (hlist₀.trans hlist) hld (hrefused.inv _ hown) hpos
      le_rfl hloop
    obtain ⟨rfl, -⟩ := hdel.granted hgrant₀
    exact ⟨left, b₁, d', k, hloop, hdel⟩
  simp only [deleteStream, hlist, getElem?_middle hld]
  rw [if_neg hvalid]
  by_cases hrec : recording b = true
  · obtain ⟨ub, answers, hcat, hgrant', -⟩ := catUndoStep_granting b.undo line _ len hgrant
    have hundo : addUndoStep b line pos len = (.ok, setAnswers { b with undo := ub } answers) := by
      simp only [addUndoStep]
      rw [hcat]
    obtain ⟨left, b₁, d', k, hloop, hdel⟩ := hloop_spec
      (setAnswers { b with undo := ub } answers) rfl ⟨answers, rfl⟩ hgrant'
    refine ⟨left, b₁, d', k, ?_, ?_, ?_⟩
    · rw [afterRecord, if_pos hrec, hundo]
      exact hdel
    · rw [afterRecord, if_pos hrec, hundo]
      exact hgrant'
    · rw [if_pos hrec, hundo]
      simp only
      rw [hloop, if_pos hrec]
  · obtain ⟨left, b₁, d', k, hloop, hdel⟩ := hloop_spec b rfl ⟨b.chars.answers, rfl⟩ hgrant
    refine ⟨left, b₁, d', k, ?_, ?_, ?_⟩
    · rw [afterRecord, if_neg hrec]
      exact hdel
    · rw [afterRecord, if_neg hrec]
      exact hgrant
    · rw [if_neg hrec, hloop, if_neg hrec]

theorem restOf_of_answers {answers : Answers}
    (hchars : b'.chars = { b.chars with answers := answers }) :
    restOf b' d after pos = restOf b d after pos := by
  rw [restOf, hchars]
  rfl

theorem restOf_eq_drop (hlist : b.lineDescList = before ++ d :: after) (hld : before.length = ld)
    (hpos : pos ≤ (lineBytes b.chars d).length) :
    (bufferText b).drop (offset (lines b) ld pos) = restOf b d after pos := by
  have hdrop := text_drop_offset 0 (before.map (lineBytes b.chars))
    (after.map (lineBytes b.chars)) hpos
  rw [List.length_map, hld] at hdrop
  rw [bufferText, lines, hlist, List.map_append, List.map_cons, hdrop]
  rfl

theorem recorded_step {left : Nat} {b₁ : Buffer} (hgrant : Granting b.chars.answers)
    (hrec : recording b = true)
    (h : Recorded (afterRecord b line pos len) s b₁) (hleft : left + s.length = len) :
    (fixLastUndoStep b₁ (-left)).undo.curStep = b.undo.curStep + 1 ∧
      (fixLastUndoStep b₁ (-left)).undo.lastStep = b.undo.curStep + 1 ∧
      (fixLastUndoStep b₁ (-left)).undo.steps = Function.update b.undo.steps b.undo.curStep
        ⟨line, if b.linkUndos ≠ 0 then -pos - 1 else pos, s.length⟩ ∧
      undoBytes (fixLastUndoStep b₁ (-left)).undo = undoBytes b.undo ++ s ∧
      (fixLastUndoStep b₁ (-left)).undo.curStream = b.undo.curStream + s.length ∧
      (fixLastUndoStep b₁ (-left)).undo.redo = resetStream b.undo.redo ∧
      (fixLastUndoStep b₁ (-left)).undo.lastSaveStep =
        if b.undo.curStep < b.undo.lastSaveStep then -1 else b.undo.lastSaveStep := by
  obtain ⟨ub, answers, hcat, -, hsteps, hcur, hlast, hstreams, hcurStream, -, hredo, hsave⟩ :=
    catUndoStep_granting b.undo line _ len hgrant
  have hafter : afterRecord b line pos len = setAnswers { b with undo := ub } answers := by
    rw [afterRecord, if_pos hrec, addUndoStep, hcat]
  rw [hafter] at h
  have hcur₁ : b₁.undo.curStep = b.undo.curStep + 1 := h.curStep.trans hcur
  have hsteps₁ : b₁.undo.steps = Function.update b.undo.steps b.undo.curStep
      ⟨line, if b.linkUndos ≠ 0 then -pos - 1 else pos, len⟩ := h.steps.trans hsteps
  obtain ⟨hbytes, hcurStream₁, hredo₁⟩ := h.done hrec (by
      show ub.curStep ≠ 0
      omega) (by
      show 0 ≤ (ub.steps (ub.curStep - 1)).len
      rw [hsteps, hcur, Nat.add_sub_cancel, Function.update_self]
      exact Int.natCast_nonneg len)
  have hundo : undoBytes ub = undoBytes b.undo := by rw [undoBytes, hstreams, hcurStream, undoBytes]
  refine ⟨hcur₁, h.lastStep.trans hlast, ?_, hbytes.trans (congrArg (· ++ s) hundo),
    hcurStream₁.trans (congrArg (· + s.length) hcurStream), hredo₁.trans hredo,
    h.lastSaveStep.trans hsave⟩
  simp only [fixLastUndoStep, hcur₁, hsteps₁, Nat.add_sub_cancel, Function.update_self,
    Function.update_idem]
  congr 2
  omega

theorem owns_deleteStream {strict : Prop} {ld : Nat} {line : Int} {pos len : Nat}
    {status : Status} (hown : Owns strict b.chars b.lineDescList)
    (h : deleteStream b ld line pos len = (status, b')) :
    Owns strict b'.chars b'.lineDescList := by
  rcases Nat.lt_or_ge ld b.lineDescList.length with hlt | hge
  · obtain ⟨before, d, after, hlist, hld⟩ := exists_line_at hlt
    rw [hlist] at hown
    have hlines : Owns False b.chars (d :: after) :=
      Owns.left (hown.perm (List.perm_append_comm))
    obtain ⟨d', k, hlist', hstep⟩ := deleteStream_lines hlist hld hlines h
    rw [hlist', ← List.singleton_append, ← List.append_assoc]
    refine (hstep strict).inv_middle (fun hperm h => h.perm hperm) ?_
    simpa using hown
  · simp only [deleteStream, List.getElem?_eq_none hge, Prod.mk.injEq] at h
    rw [← h.2]
    exact hown

theorem recording_frame (b₁ : Buffer) (left : Int) :
    (if recording b then fixLastUndoStep b₁ left else b₁).chars = b₁.chars ∧
      (if recording b then fixLastUndoStep b₁ left else b₁).lineDescList = b₁.lineDescList ∧
      (if recording b then fixLastUndoStep b₁ left else b₁).numLines = b₁.numLines := by
  split
  · exact ⟨rfl, rfl, rfl⟩
  · exact ⟨rfl, rfl, rfl⟩

/-- What `delete_stream` does to the text, and what it has recorded before the
length of the step is put right. -/
theorem deleteStream_text {l : List Byte} (line : Int) (hwf : WellFormed b)
    (hgrant : Granting b.chars.answers) (hline : (lines b)[ld]? = some l) (hpos : pos ≤ l.length)
    (hend : offset (lines b) ld pos < (bufferText b).length) (hlen : 1 ≤ len) :
    ∃ (left : Nat) (b₁ : Buffer), deleteStream b ld line pos len =
        (.ok, if recording b then fixLastUndoStep b₁ (-left) else b₁) ∧
      Granting b₁.chars.answers ∧ WellFormed b₁ ∧
      bufferText b₁ = (bufferText b).take (offset (lines b) ld pos) ++
        (bufferText b).drop (offset (lines b) ld pos + len) ∧
      b₁.lineDescList.length +
        (((bufferText b).drop (offset (lines b) ld pos)).take len).count 0 =
          b.lineDescList.length ∧
      b₁.numLines = b.numLines -
        (((bufferText b).drop (offset (lines b) ld pos)).take len).count 0 ∧
      Recorded (afterRecord b line pos len)
        (((bufferText b).drop (offset (lines b) ld pos)).take len) b₁ ∧
      left + (((bufferText b).drop (offset (lines b) ld pos)).take len).length = len := by
  obtain ⟨before, d, after, hlist, hld, rfl⟩ := exists_middle hline
  have hown : Owns False b.chars (d :: after) := by
    rw [WellFormed, hlist] at hwf
    exact Owns.left (hwf.perm (List.perm_append_comm))
  have hlength : (lineBytes b.chars d).length = d.lineLen :=
    lineBytes_length (hown.null d List.mem_cons_self)
  have hdrop := restOf_eq_drop hlist hld hpos
  have hrestLength : (restOf b d after pos).length =
      (bufferText b).length - offset (lines b) ld pos := by
    rw [← hdrop, List.length_drop]
  obtain ⟨left, b₁, d', k, hdel, hgrant₀, hrun⟩ := deleteStream_granting hgrant
    hlist hld hown (hlength ▸ hpos) hlen (fun heq hnil => by
      have hnone : restOf b d after pos = [] := by
        rw [restOf, hnil, List.drop_eq_nil_of_le (by omega)]
        rfl
      rw [hnone] at hrestLength
      simp only [List.length_nil] at hrestLength
      omega)
  obtain ⟨answers, undo, hafter⟩ := afterRecord_frame b line pos len
  have hchars : (afterRecord b line pos len).chars = { b.chars with answers := answers } := by
    rw [hafter]
    rfl
  have hrest : restOf b₁ d' (after.drop k) pos = (restOf b d after pos).drop len := by
    rw [hdel.rest rfl, restOf_of_answers hchars]
  have hstep : Exchanges (Owns False) lineBytes b.chars (d :: after.take k) b₁.chars [d'] := by
    have hrefused : Exchanges (Owns False) lineBytes b.chars (d :: after.take k)
        (afterRecord b line pos len).chars (d :: after.take k) :=
      hchars ▸ answers_exchanges answers
    exact hrefused.trans (hdel.step False)
  obtain ⟨hwf', hlines'⟩ := lines_of_exchanges before (after.drop k) hwf
    (by simp [hlist]) (by simpa using hdel.list) hstep
  have hfront : (lineBytes b₁.chars d').take pos = (lineBytes b.chars d).take pos := by
    rw [hdel.front rfl, hchars]
    rfl
  have hafter' : (after.drop k).map (lineBytes b₁.chars) =
      (after.drop k).map (lineBytes b.chars) := by
    refine List.map_congr_left fun x hx => ?_
    have hown' : Owns False b.chars (d :: after.take k ++ after.drop k) := by simpa using hown
    exact hstep.view _ hown' x hx
  have htext : bufferText b₁ = (bufferText b).take (offset (lines b) ld pos) ++
      (bufferText b).drop (offset (lines b) ld pos + len) := by
    have htake := text_take_offset 0 (before.map (lineBytes b.chars))
      (after.map (lineBytes b.chars)) hpos
    rw [List.length_map, hld] at htake
    have htake' : (bufferText b).take (offset (lines b) ld pos) =
        textBefore 0 (before.map (lineBytes b.chars)) ++ (lineBytes b.chars d).take pos := by
      rw [bufferText, lines, hlist, List.map_append, List.map_cons, htake]
    calc bufferText b₁
        = textBefore 0 (before.map (lineBytes b.chars)) ++
            (lineBytes b₁.chars d' ++
              textAfter 0 ((after.drop k).map (lineBytes b.chars))) := by
          rw [bufferText, hlines', List.map_cons, List.map_nil, List.singleton_append, text_middle]
      _ = textBefore 0 (before.map (lineBytes b.chars)) ++
            ((lineBytes b.chars d).take pos ++ restOf b₁ d' (after.drop k) pos) := by
          rw [restOf, hafter', ← hfront, ← List.append_assoc (List.take _ _),
            List.take_append_drop]
      _ = (bufferText b).take (offset (lines b) ld pos) ++
            (bufferText b).drop (offset (lines b) ld pos + len) := by
          rw [htake', hrest, ← hdrop, List.drop_drop, List.append_assoc]
  obtain ⟨-, hgrant₁, hrecorded⟩ := hdel.granted hgrant₀
  have hbreaks := hdel.breaks rfl
  have hleft := hdel.left rfl
  rw [restOf_of_answers hchars, ← hdrop] at hrecorded hbreaks hleft
  refine ⟨left, b₁, hrun, hgrant₁, hwf', htext, ?_, ?_, hrecorded, ?_⟩
  · have hle := hdel.le
    rw [← hbreaks, hdel.list, hlist]
    simp only [List.length_append, List.length_cons, List.length_drop]
    omega
  · rw [← hbreaks, hdel.numLines, hafter]
    rfl
  · rw [List.length_take]
    omega

/-- `delete_stream` refines the deletion of a text from a text, and records what
it deletes. -/
theorem deleteStream_refines {l : List Byte} (hwf : WellFormed b)
    (hgrant : Granting b.chars.answers) (hline : (lines b)[ld]? = some l) (hpos : pos ≤ l.length)
    (hend : offset (lines b) ld pos < (bufferText b).length) (hlen : 1 ≤ len) :
    ∃ b', deleteStream b ld line pos len = (.ok, b') ∧ WellFormed b' ∧
      let start := offset (lines b) ld pos
      let removed := min len ((bufferText b).length - start)
      bufferText b' = (bufferText b).take start ++ (bufferText b).drop (start + removed) ∧
      (recording b = true →
        b'.undo.curStep = b.undo.curStep + 1 ∧
        b'.undo.steps b.undo.curStep =
          ⟨line, if b.linkUndos ≠ 0 then -pos - 1 else pos, removed⟩ ∧
        undoBytes b'.undo =
          undoBytes b.undo ++ ((bufferText b).drop start).take removed) := by
  obtain ⟨left, b₁, hrun, -, hwf', htext, -, -, hrecorded, hleft⟩ :=
    deleteStream_text line hwf hgrant hline hpos hend hlen
  obtain ⟨hchars, hlist, -⟩ := recording_frame (b := b) b₁ (-left)
  set start := offset (lines b) ld pos with hstart
  set removed := min len ((bufferText b).length - start) with hremoved
  have htaken : ((bufferText b).drop start).take len =
      ((bufferText b).drop start).take removed := by
    rw [hremoved, ← List.length_drop, List.take_eq_take_iff]
    omega
  have hcount : (((bufferText b).drop start).take len).length = removed := by
    rw [List.length_take, List.length_drop]
  have hrest : (bufferText b).drop (start + len) = (bufferText b).drop (start + removed) := by
    rcases Nat.le_total len ((bufferText b).length - start) with hle | hle
    · rw [hremoved, Nat.min_eq_left hle]
    · rw [List.drop_eq_nil_of_le (by omega), List.drop_eq_nil_of_le (by omega)]
  refine ⟨_, hrun, ?_, ?_, fun hrec => ?_⟩
  · rw [WellFormed, hchars, hlist]
    exact hwf'
  · rw [← hrest, ← htext, bufferText, lines, hchars, hlist]
    rfl
  · obtain ⟨hcur, -, hsteps, hbytes, -⟩ := recorded_step hgrant hrec hrecorded hleft
    rw [if_pos hrec]
    refine ⟨hcur, ?_, ?_⟩
    · rw [hsteps, Function.update_self, hcount]
    · rw [hbytes, htaken]

/-- The line break between two lines is deleted. -/
theorem deleteStream_refines_twoLines :
    ∃ b', deleteStream (insertStream (newBuffer false none fun _ => true) 0 0 0 [97, 0, 98]).2
      0 0 1 1 = (.ok, b') ∧ bufferText b' = [97, 98] := by
  have hnew : WellFormed (newBuffer false none fun _ => true) := (owns_clearBuffer _).weaken
  have hwf : WellFormed (insertStream (newBuffer false none fun _ => true) 0 0 0 [97, 0, 98]).2 :=
    owns_insertStream hnew (Prod.mk.eta.symm : _ = (_, _))
  exact (deleteStream_refines (l := [97]) hwf (fun _ => rfl) (by decide) (Nat.le_refl 1)
    (by decide) (Nat.le_refl 1)).imp fun b' h => ⟨h.1, h.2.2.1⟩

end NiceEditor.DeleteRefinement
