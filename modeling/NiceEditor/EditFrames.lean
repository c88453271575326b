import NiceEditor.DeleteRefinement

namespace NiceEditor.EditFrames

open NiceEditor.Pools
open NiceEditor.LineEdits
open NiceEditor.BufferData
open NiceEditor.UndoSteps
open NiceEditor.EditStream
open NiceEditor.InsertRefinement
open NiceEditor.DeleteRefinement

/-- Only the text, the places in it and the undo buffer have changed. -/
def SameView (b b' : Buffer) : Prop :=
  b' = { b with
    chars := b'.chars
    lineDescList := b'.lineDescList
    curLineDesc := b'.curLineDesc
    topLineDesc := b'.topLineDesc
    numLines := b'.numLines
    blockStartLine := b'.blockStartLine
    blockStartPos := b'.blockStartPos
    bookmark := b'.bookmark
    isModified := b'.isModified
    undo := b'.undo }

/-- An edit that leaves the descriptors of the cursor and of the top of the window
where they are. -/
structure Fixed (b b' : Buffer) : Prop where
  view : SameView b b'
  cur : b'.curLineDesc = b.curLineDesc
  top : b'.topLineDesc = b.topLineDesc

/-- An edit that leaves the descriptors of the cursor and of the top of the window
where they are when they belong to line `ld` or to a line above. -/
structure EditFrame (ld : Nat) (b b' : Buffer) : Prop where
  view : SameView b b'
  cur : ∀ i ≤ ld, b.curLineDesc = some i → b'.curLineDesc = some i
  top : ∀ i ≤ ld, b.topLineDesc = some i → b'.topLineDesc = some i

variable {b b' b'' : Buffer} {ld ld' pos len n : Nat} {line : Int} {s stream : List Byte}
variable {d next : LineDesc} {status : Status}

theorem SameView.trans (first : SameView b b') (second : SameView b' b'') : SameView b b'' := by
  refine Eq.trans second ?_
  rw [first]

theorem Fixed.refl (b : Buffer) : Fixed b b := ⟨rfl, rfl, rfl⟩

theorem Fixed.trans (first : Fixed b b') (second : Fixed b' b'') : Fixed b b'' where
  view := first.view.trans second.view
  cur := second.cur.trans first.cur
  top := second.top.trans first.top

theorem Fixed.frame (h : Fixed b b') (ld : Nat) : EditFrame ld b b' where
  view := h.view
  cur := fun _ _ hcur => h.cur.trans hcur
  top := fun _ _ htop => h.top.trans htop

theorem EditFrame.trans (first : EditFrame ld b b') (second : EditFrame ld b' b'') :
    EditFrame ld b b'' where
  view := first.view.trans second.view
  cur := fun i hi hcur => second.cur i hi (first.cur i hi hcur)
  top := fun i hi htop => second.top i hi (first.top i hi htop)

theorem EditFrame.mono (h : EditFrame ld b b') (hle : ld' ≤ ld) : EditFrame ld' b b' where
  view := h.view
  cur := fun i hi => h.cur i (hi.trans hle)
  top := fun i hi => h.top i (hi.trans hle)

theorem addUndoStep_fixed {l p k : Int} (h : addUndoStep b l p k = (status, b')) : Fixed b b' := by
  unfold addUndoStep at h
  obtain ⟨-, rfl⟩ := Prod.mk.inj h
  exact ⟨rfl, rfl, rfl⟩

theorem recordDeleted_fixed (b : Buffer) (s : List Byte) : Fixed b (recordDeleted b s) := by
  obtain ⟨answers, undo, h⟩ := recordDeleted_frame b s
  rw [h]
  exact ⟨rfl, rfl, rfl⟩

theorem insertSegment_fixed (h : insertSegment b ld line pos s = (status, b')) : Fixed b b' := by
  unfold insertSegment at h
  split at h
  · obtain ⟨-, rfl⟩ := Prod.mk.inj h
    exact Fixed.refl b
  split at h
  · obtain ⟨-, rfl⟩ := Prod.mk.inj h
    exact Fixed.refl b
  split at h
  · obtain ⟨-, rfl⟩ := Prod.mk.inj h
    exact ⟨rfl, rfl, rfl⟩
  · obtain ⟨-, rfl⟩ := Prod.mk.inj h
    exact ⟨rfl, rfl, rfl⟩

theorem insertBreak_frame (h : insertBreak b ld line pos len = (status, b')) :
    EditFrame ld b b' := by
  unfold insertBreak at h
  split at h
  · obtain ⟨-, rfl⟩ := Prod.mk.inj h
    exact (Fixed.refl b).frame ld
  simp only at h
  split at h
  · obtain ⟨-, rfl⟩ := Prod.mk.inj h
    have hmove : ∀ {p : Option Nat}, ∀ i ≤ ld, p = some i →
        p.map (fun k => if ld < k then k + 1 else k) = some i := by
      rintro p i hi rfl
      rw [Option.map_some, if_neg (by omega)]
    exact ⟨rfl, fun i hi hcur => hmove i hi hcur, fun i hi htop => hmove i hi htop⟩
  · obtain ⟨-, rfl⟩ := Prod.mk.inj h
    apply Fixed.frame
    exact ⟨rfl, rfl, rfl⟩

theorem insertSegments_frame {segs : List (List Byte)}
    (h : insertSegments b ld line pos segs = (status, b')) : EditFrame ld b b' := by
  induction segs generalizing b ld line pos with
  | nil =>
      obtain ⟨-, rfl⟩ := Prod.mk.inj h
      exact (Fixed.refl b).frame ld
  | cons s rest ih =>
      cases rest with
      | nil => exact (insertSegment_fixed h).frame ld
      | cons next rest =>
          simp only [insertSegments] at h
          split at h
          · rename_i b₁ hseg
            have hfirst := (insertSegment_fixed hseg).frame ld
            split at h
            · rename_i b₂ hbreak
              have hrest := (ih h).mono (Nat.le_succ ld)
              exact hfirst.trans ((insertBreak_frame hbreak).trans hrest)
            · exact hfirst.trans (insertBreak_frame (show _ = (status, b') from h))
          · exact (insertSegment_fixed (show _ = (status, b') from h)).frame ld

theorem splitOn_of_not_mem (h : 0 ∉ stream) : stream.splitOn 0 = [stream] := by
  have hlength := LineText.splitOn_length 0 stream
  rw [List.count_eq_zero.mpr h] at hlength
  obtain ⟨s, hs⟩ := List.length_eq_one_iff.mp hlength
  have htext := LineText.text_splitOn 0 stream
  rw [hs, LineText.text_singleton] at htext
  rw [hs, htext]

theorem insertStream_frame (h : insertStream b ld line pos stream = (status, b')) :
    EditFrame ld b b' ∧ (0 ∉ stream → Fixed b b') := by
  have hsegs : ∀ {b₁ : Buffer}, Fixed b b₁ →
      insertSegments b₁ ld line pos (stream.splitOn 0) = (status, b') →
      EditFrame ld b b' ∧ (0 ∉ stream → Fixed b b') := by
    intro b₁ hfirst hrun
    refine ⟨(hfirst.frame ld).trans (insertSegments_frame hrun), fun hzero => hfirst.trans ?_⟩
    rw [splitOn_of_not_mem hzero] at hrun
    exact insertSegment_fixed hrun
  have hnothing : ∀ {b₁ : Buffer}, Fixed b b₁ → EditFrame ld b b₁ ∧ (0 ∉ stream → Fixed b b₁) :=
    fun hfixed => ⟨hfixed.frame ld, fun _ => hfixed⟩
  unfold insertStream at h
  split at h
  · obtain ⟨-, rfl⟩ := Prod.mk.inj h
    exact hnothing (Fixed.refl b)
  split at h
  · obtain ⟨-, rfl⟩ := Prod.mk.inj h
    exact hnothing (Fixed.refl b)
  split at h
  · split at h
    · rename_i b₁ hundo
      exact hsegs (addUndoStep_fixed hundo) h
    · exact hnothing (addUndoStep_fixed (show _ = (status, b') from h))
  · exact hsegs (Fixed.refl b) h

theorem deleteBreak_frame (h : deleteBreak b ld line d next = (status, b')) :
    EditFrame ld b b' := by
  simp only [deleteBreak] at h
  split at h
  · obtain ⟨-, rfl⟩ := Prod.mk.inj h
    apply Fixed.frame
    exact ⟨rfl, rfl, rfl⟩
  · rename_i d' chars hjoin
    obtain ⟨-, rfl⟩ := Prod.mk.inj h
    have hmove : ∀ {p : Option Nat}, ∀ i ≤ ld, p = some i →
        p.bind (fun k => if k = ld + 1 then none else some (if ld + 1 < k then k - 1 else k)) =
          some i := by
      rintro p i hi rfl
      rw [Option.bind_some, if_neg (by omega), if_neg (by omega)]
    have hmerge : EditFrame ld b (mergeNext (movePlaces b (placeAfterJoin line d.lineLen)) ld d'
        chars) :=
      ⟨rfl, fun i hi hcur => hmove i hi hcur, fun i hi htop => hmove i hi htop⟩
    have hrecord := (recordDeleted_fixed (mergeNext (movePlaces b (placeAfterJoin line d.lineLen))
      ld d' chars) [0]).frame ld
    refine (hmerge.trans hrecord).trans ?_
    apply Fixed.frame
    exact ⟨rfl, rfl, rfl⟩

theorem deleteChars_fixed (b : Buffer) (ld : Nat) (line : Int) (pos : Nat) (d : LineDesc)
    (n : Nat) : Fixed b (deleteChars b ld line pos d n) := by
  have hmove : Fixed b (movePlaces b (placeAfterDelete line pos n)) := ⟨rfl, rfl, rfl⟩
  have hrecord := recordDeleted_fixed (movePlaces b (placeAfterDelete line pos n))
    (((lineBytes b.chars d).drop pos).take n)
  exact (hmove.trans hrecord).trans ⟨rfl, rfl, rfl⟩

theorem deleteLoop_frame {turns left : Nat}
    (h : deleteLoop ld line pos turns len b = (status, left, b')) : EditFrame ld b b' := by
  induction turns generalizing b len with
  | zero =>
      obtain ⟨-, -, rfl⟩ : Status.ok = status ∧ len = left ∧ b = b' := by
        simpa [deleteLoop] using h
      exact (Fixed.refl b).frame ld
  | succ turns ih =>
      have hstop : ∀ {st : Status} {k : Nat} {b₁ : Buffer}, (st, k, b₁) = (status, left, b') →
          EditFrame ld b b₁ → EditFrame ld b b' := by
        intro st k b₁ heq hframe
        obtain ⟨-, -, rfl⟩ : st = status ∧ k = left ∧ b₁ = b' := by simpa using heq
        exact hframe
      simp only [deleteLoop] at h
      split at h
      · exact hstop h ((Fixed.refl b).frame ld)
      split at h
      · exact hstop h ((Fixed.refl b).frame ld)
      split at h
      · split at h
        · exact hstop h ((Fixed.refl b).frame ld)
        split at h
        · rename_i b₁ hbreak
          exact (deleteBreak_frame hbreak).trans (ih h)
        · rename_i hbreak
          exact hstop h (deleteBreak_frame hbreak)
      · exact ((deleteChars_fixed b ld line pos _ _).frame ld).trans (ih h)

theorem deleteLoop_fixed {turns left : Nat} (hd : b.lineDescList[ld]? = some d)
    (hinside : pos + len ≤ d.lineLen)
    (h : deleteLoop ld line pos turns len b = (status, left, b')) : Fixed b b' := by
  have hstop : ∀ {m k : Nat} {b₁ : Buffer}, deleteLoop ld line pos m 0 b₁ = (status, k, b') →
      b₁ = b' := by
    intro m k b₁ hrun
    cases m with
    | zero => simpa [deleteLoop] using congrArg (fun r => r.2.2) hrun
    | succ m =>
        rw [deleteLoop, if_pos rfl] at hrun
        simpa using congrArg (fun r => r.2.2) hrun
  cases turns with
  | zero =>
      rw [← show b = b' by simpa [deleteLoop] using congrArg (fun r => r.2.2) h]
      exact Fixed.refl b
  | succ turns =>
      rcases Nat.eq_zero_or_pos len with rfl | hpos
      · rw [← hstop h]
        exact Fixed.refl b
      · have hmin : min len (d.lineLen - pos) = len := by omega
        simp only [deleteLoop, if_neg hpos.ne', hd, if_neg (show pos ≠ d.lineLen by omega), hmin,
          Nat.sub_self] at h
        rw [← hstop h]
        exact deleteChars_fixed b ld line pos d len

theorem deleteStream_frame (h : deleteStream b ld line pos len = (status, b')) :
    EditFrame ld b b' ∧
      (∀ d, b.lineDescList[ld]? = some d → pos + len ≤ d.lineLen → Fixed b b') := by
  have hnothing : ∀ {b₁ : Buffer}, Fixed b b₁ → EditFrame ld b b₁ ∧
      (∀ d, b.lineDescList[ld]? = some d → pos + len ≤ d.lineLen → Fixed b b₁) :=
    fun hfixed => ⟨hfixed.frame ld, fun _ _ _ => hfixed⟩
  have hloop : ∀ {b₁ b₂ : Buffer} {st : Status} {left : Nat}, Fixed b b₁ →
      b₁.lineDescList = b.lineDescList → deleteLoop ld line pos len len b₁ = (st, left, b₂) →
      EditFrame ld b b₂ ∧
        (∀ d, b.lineDescList[ld]? = some d → pos + len ≤ d.lineLen → Fixed b b₂) := by
    intro b₁ b₂ st left hfirst hlist hrun
    refine ⟨(hfirst.frame ld).trans (deleteLoop_frame hrun), fun d hd hinside => ?_⟩
    exact hfirst.trans (deleteLoop_fixed (hlist ▸ hd) hinside hrun)
  unfold deleteStream at h
  split at h
  · obtain ⟨-, rfl⟩ := Prod.mk.inj h
    exact hnothing (Fixed.refl b)
  split at h
  · obtain ⟨-, rfl⟩ := Prod.mk.inj h
    exact hnothing (Fixed.refl b)
  split at h
  · split at h
    · rename_i b₁ hundo
      obtain ⟨st, left, b₂, hrun⟩ : ∃ st left b₂, deleteLoop ld line pos len len b₁ =
          (st, left, b₂) := ⟨_, _, _, rfl⟩
      rw [hrun] at h
      obtain ⟨-, rfl⟩ := Prod.mk.inj h
      obtain ⟨-, -, hlist, -⟩ := addUndoStep_spec hundo
      obtain ⟨hframe, hfixed⟩ := hloop (addUndoStep_fixed hundo) hlist hrun
      have hfix : Fixed b₂ (fixLastUndoStep b₂ (-left)) := ⟨rfl, rfl, rfl⟩
      exact ⟨hframe.trans (hfix.frame ld), fun d hd hinside => (hfixed d hd hinside).trans hfix⟩
    · exact hnothing (addUndoStep_fixed (show _ = (status, b') from h))
  · obtain ⟨st, left, b₂, hrun⟩ : ∃ st left b₂, deleteLoop ld line pos len len b =
        (st, left, b₂) := ⟨_, _, _, rfl⟩
    rw [hrun] at h
    obtain ⟨-, rfl⟩ := Prod.mk.inj h
    exact hloop (Fixed.refl b) rfl hrun

end NiceEditor.EditFrames
