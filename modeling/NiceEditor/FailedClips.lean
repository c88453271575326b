import NiceEditor.ClipRoundTrip
import NiceEditor.VerticalClips

namespace NiceEditor.FailedClips

open NiceEditor.Pools
open NiceEditor.BufferData
open NiceEditor.Encoding
open NiceEditor.UndoSteps
open NiceEditor.EditStream
open NiceEditor.LineText
open NiceEditor.InsertRefinement
open NiceEditor.Navigation
open NiceEditor.EditSteps
open NiceEditor.UndoRuns
open NiceEditor.Clips
open NiceEditor.ClipBlocks
open NiceEditor.ClipPasses
open NiceEditor.ClipRoundTrip
open NiceEditor.Characters
open NiceEditor.VerticalClips

/-- Where the cursor and the window are. -/
def cursorOf (b : Buffer) : List Int :=
  [b.curLine, b.curPos, b.curChar, b.curX, b.curY, b.winX, b.winY]

/-- The text, the cursor, the undo history and the nesting of undo chains are as before. -/
structure Unchanged (b b' : Buffer) : Prop where
  text : bufferText b' = bufferText b
  cursor : cursorOf b' = cursorOf b
  undo : b'.undo = b.undo
  linkUndos : b'.linkUndos = b.linkUndos

/-- The clips there were are as before. -/
def ClipsKept (clips clips' : List ClipDesc) : Prop :=
  ∀ n cd, getNthClip clips n = some cd → getNthClip clips' n = some cd

/-- A call that returns an error has changed nothing. -/
def FailsCleanly (b : Buffer) (clips : List ClipDesc)
    (result : ClipStatus × Buffer × List ClipDesc) : Prop :=
  result.1 ≠ .ok → Unchanged b result.2.1 ∧ ClipsKept clips result.2.2

/-- There is no `n`th clip, or it has no stream. -/
def NothingToLose (clips : List ClipDesc) (n : Int) : Prop :=
  ∀ cd, getNthClip clips n = some cd → cd.cs.stream = none

/-- The call gets as far as asking for the memory of a clip that is not empty. -/
def Asks (empty : Buffer → Bool) (b : Buffer) : Prop :=
  b.marking = true ∧ b.blockStartLine < b.numLines ∧ empty b = false

variable {t : Terminal} {b b' : Buffer} {clips clips' : List ClipDesc} {k q y c i len : Nat}
variable {n : Int} {granted cut pad : Bool} {extra : Int → Int}

theorem Unchanged.refl (b : Buffer) : Unchanged b b := ⟨rfl, rfl, rfl, rfl⟩

theorem ClipsKept.refl (clips : List ClipDesc) : ClipsKept clips clips := fun _ _ hclip => hclip

theorem setClip_self {cd : ClipDesc} (h : getNthClip clips n = some cd) :
    setClip clips n cd.cs = clips := by
  induction clips with
  | nil => rfl
  | cons first clips ih =>
      rw [setClip]
      by_cases hn : first.n = n
      · rw [getNthClip, List.find?_cons_of_pos (by simpa using hn), Option.some.injEq] at h
        rw [if_pos hn, ← h, ← hn]
      · rw [getNthClip, List.find?_cons_of_neg (by simpa using hn)] at h
        rw [if_neg hn, ih h]

theorem reallocClip_denied (hlen : len ≠ 0) :
    ∃ clips', reallocClip false clips n len = (none, clips') ∧
      (ClipsKept clips clips' ↔ NothingToLose clips n) := by
  unfold reallocClip
  cases hclip : getNthClip clips n with
  | none =>
      refine ⟨clips, rfl, fun _ cd hcd => ?_, fun _ => ClipsKept.refl clips⟩
      rw [hclip] at hcd
      exact absurd hcd nofun
  | some cd =>
      have hsome : (getNthClip clips n).isSome := by rw [hclip]; rfl
      simp only [reallocCharStream, if_neg hlen, Bool.false_eq_true, if_false]
      refine ⟨_, rfl, fun hkept cd' hcd => ?_, fun hnothing => ?_⟩
      · have hafter := hkept n cd' hcd
        rw [getNthClip_setClip hsome, Option.some.injEq] at hafter
        rw [← hafter]
      · have hstream : cd.cs.stream = none := hnothing cd hclip
        have hsame : { cd.cs with stream := none } = cd.cs := by rw [← hstream]
        rw [hsame, setClip_self hclip]
        exact ClipsKept.refl clips

theorem reallocClip_empty (h : reallocClip granted clips n 0 = (none, clips')) :
    clips' = clips := by
  unfold reallocClip at h
  split at h
  · split at h
    · exact absurd (Prod.mk.inj h).1 nofun
    · exact (Prod.mk.inj h).2.symm
  · exact absurd (Prod.mk.inj h).1 nofun

theorem upLoop_unpadded (hm : Marks b k q y c) (hlong : q ≤ ((lines b).getD k []).length)
    (turns : Nat) (hki : k ≤ i) (s : BlockState) (hs : s.b = b) :
    upLoop true y (count extra) turns (some i) i s =
      upLoop false y (count extra) turns (some i) i s := by
  induction turns generalizing i s with
  | zero => rfl
  | succ turns ih =>
      have hms : Marks s.b k q y c := by rwa [hs]
      have hpad : (if i = k ∧ true = true then padMark s (some i) i else s) = s := by
        split
        · case _ hik =>
          rw [padMark, lineOf_eq, hik.1, hs, hm.startPos, if_neg (by omega)]
        · rfl
      rw [upLoop_turn hms hki hpad hms, upLoop_turn hms hki (if_neg (by simp)) hms]
      obtain rfl | hlt := Nat.eq_or_lt_of_le hki
      · rw [upLoop_stop, upLoop_stop]
        all_goals
          change _ < s.b.blockStartLine
          rw [hms.startLine]
          omega
      · have hcast : (i : Int) - 1 = (i - 1 : Nat) := by omega
        rw [nodeAway_up hlt, hcast]
        exact ih (by omega) _ hs

theorem downLoop_unpadded (hm : Marks b k q y c) (hlong : c ≤ ((lines b).getD y []).length)
    (turns : Nat) (hik : i ≤ k) (s : BlockState) (hs : s.b = b) :
    downLoop true y (count extra) turns (some i) i s =
      downLoop false y (count extra) turns (some i) i s := by
  induction turns generalizing i s with
  | zero => rfl
  | succ turns ih =>
      have hms : Marks s.b k q y c := by rwa [hs]
      have hpad : (if i = y ∧ true = true then padCursor s (some i) i else s) = s := by
        split
        · case _ hiy =>
          rw [padCursor, lineOf_eq, hiy.1, hs, hm.curPos, if_neg (by omega)]
        · rfl
      rw [downLoop_turn hms hik hpad hms, downLoop_turn hms hik (if_neg (by simp)) hms]
      obtain rfl | hlt := Nat.eq_or_lt_of_le hik
      · rw [downLoop_stop, downLoop_stop]
        all_goals
          change s.b.blockStartLine < _
          rw [hms.startLine]
          omega
      · have hcast : (i : Int) + 1 = (i + 1 : Nat) := by omega
        rw [hcast]
        exact ih (by omega) _ hs

theorem pass_unpadded (h : Block b) (hne : emptyBlock b = false) (hpadding : padding b = 0)
    (pad : Bool) :
    pass (markFirst b) pad (count extra) (BlockState.start b) =
      pass (markFirst b) false (count extra) (BlockState.start b) := by
  have hm := h.marks
  have hends := h.ends hne
  rw [padding, if_neg (by rw [hne]; decide), firstPos, firstLine] at hpadding
  cases pad with
  | false => rfl
  | true =>
      cases hup : markFirst b with
      | true =>
          rw [if_pos hup] at hends
          rw [if_pos hup, if_pos hup] at hpadding
          have hle : b.blockStartLine.toNat ≤ b.curLine.toNat := by
            have := hends.before
            omega
          have hrun := (@upLoop_unpadded _ _ _ _ _ _ extra) hm (by omega) (blockLines b) hle
            (BlockState.start b) rfl
          rw [Clips.pass, Clips.pass, if_pos rfl, if_pos rfl]
          rw [← hm.cur, ← hm.curLine] at hrun
          exact hrun
      | false =>
          have hnot : ¬ markFirst b = true := by rw [hup]; decide
          rw [if_neg hnot] at hends
          rw [if_neg hnot, if_neg hnot] at hpadding
          have hle : b.curLine.toNat ≤ b.blockStartLine.toNat := by
            have := hends.before
            omega
          have hrun := (@downLoop_unpadded _ _ _ _ _ _ extra) hm (by omega) (blockLines b) hle
            (BlockState.start b) rfl
          rw [Clips.pass, Clips.pass, if_neg (by decide), if_neg (by decide)]
          rw [← hm.cur, ← hm.curLine] at hrun
          exact hrun

theorem bufferText_endUndoChain (b : Buffer) : bufferText (endUndoChain b) = bufferText b := by
  obtain ⟨undo, heq⟩ := endUndoChain_eq b
  rw [heq]
  rfl

theorem bufferText_pads {ld m : Nat} (h : Pads b ld m b') (hld : ld < (lines b).length) :
    (bufferText b').length = (bufferText b).length + m := by
  have htext := text_set_append 0 (getD_of_lt hld) (List.replicate m space)
  rw [bufferText, h.padded, htext, bufferText]
  simp only [List.length_append, List.length_take, List.length_drop, List.length_replicate]
  omega

/-- The memory for the clip is denied to `copy_to_clip`. -/
theorem copyToClip_denied (t : Terminal) (clips : List ClipDesc) (n : Int) (cut : Bool)
    (h : Block b) (hne : emptyBlock b = false) :
    ∃ b' clips', copyToClip t false b clips n cut = (.outOfMemory, b', clips') ∧
      (Unchanged b b' ↔ cut = true → padding b = 0) ∧
      (ClipsKept clips clips' ↔ NothingToLose clips n) := by
  have hpos : (blockText b).length ≠ 0 := fun hzero =>
    blockText_ne_nil h hne (List.length_eq_zero_iff.mp hzero)
  have hmark : ¬ ¬ b.marking = true := not_not_intro h.marking
  have hin : ¬ b.numLines ≤ b.blockStartLine := Int.not_le.mpr h.startLine_lt
  obtain ⟨clips', hrealloc, hkept⟩ := (@reallocClip_denied clips _ n) hpos
  have hresult : ∀ b' ch pad, Passes b pad b' ch →
      pass (markFirst b) cut (copyMeasure b.curLine) (BlockState.start b) =
        pass (markFirst b) pad (copyMeasure b.curLine) (BlockState.start b) →
      copyToClip t false b clips n cut =
        (.outOfMemory, finishChain ⟨b', ch, (blockText b).length, 0, fun _ => 0⟩ b', clips') := by
    intro b' ch pad hp hsame
    have hcounts := hp.counts (fun i => if i ≠ b.curLine then 1 else 0) fun j hj => if_pos hj
    rw [if_neg (not_not_intro rfl), Int.add_zero] at hcounts
    have hfirst : pass (markFirst b) cut (copyMeasure b.curLine) (BlockState.start b) =
        ⟨b', ch, (blockText b).length, 0, fun _ => 0⟩ := hsame.trans hcounts
    simp only [copyToClip, if_neg hmark, if_neg hin, hne, Bool.false_eq_true, if_false, hfirst,
      Int.toNat_natCast, hrealloc]
  by_cases hplain : cut = true → padding b = 0
  · obtain ⟨b', ch, hp⟩ := exists_passes h hne false
    obtain ⟨rfl, rfl⟩ := hp.plain rfl
    have hsame : pass (markFirst b') cut (copyMeasure b'.curLine) (BlockState.start b') =
        pass (markFirst b') false (copyMeasure b'.curLine) (BlockState.start b') := by
      cases cut with
      | false => rfl
      | true => exact pass_unpadded h hne (hplain rfl) true
    exact ⟨b', clips', hresult b' false false hp hsame,
      iff_of_true (Unchanged.refl b') hplain, hkept⟩
  · obtain ⟨rfl, hspaces⟩ := Classical.not_imp.mp hplain
    obtain ⟨b', ch, hp⟩ := exists_passes h hne true
    refine ⟨_, clips', hresult b' ch true hp rfl, iff_of_false (fun hunchanged => ?_) hplain, hkept⟩
    have hline : firstLine b < (lines b).length := by
      unfold firstLine
      split
      · exact h.marks.startLine_lt
      · exact h.marks.curLine_lt
    have hlonger := bufferText_pads hp.pads hline
    rw [if_pos rfl] at hlonger
    have htext := hunchanged.text
    unfold finishChain at htext
    split at htext
    · rw [bufferText_endUndoChain] at htext
      rw [htext] at hlonger
      omega
    · rw [htext] at hlonger
      omega

theorem copyVertToClip_denied (t : Terminal) (clips : List ClipDesc) (n : Int) (cut : Bool)
    (hasks : Asks emptyRectangle b) (hcurPos : 0 ≤ b.curPos)
    (hencoded : Encoded b.encoding (lines b)) :
    ∃ b' clips', copyVertToClip t false b clips n cut = (.outOfMemory, b', clips') ∧
      (Unchanged b b' ↔ cut = false) ∧ (ClipsKept clips clips' ↔ NothingToLose clips n) := by
  obtain ⟨hmarking, hin, hne⟩ := hasks
  have hmark : ¬ ¬ b.marking = true := not_not_intro hmarking
  have hout : ¬ b.numLines ≤ b.blockStartLine := Int.not_le.mpr hin
  have hstart : Encoded (startCut cut b).encoding (lines (startCut cut b)) := by
    cases cut with
    | false => exact hencoded
    | true => exact hencoded
  have hup : decide ((startCut cut b).blockStartLine < (startCut cut b).curLine) =
      decide (b.blockStartLine < b.curLine) := by
    cases cut with
    | false => rfl
    | true => rfl
  obtain ⟨len, hlen, hpass⟩ := @rectanglePass_measure t _ _ hstart (rectangleColumns_le t b)
  rw [hup] at hpass
  obtain ⟨clips', hrealloc, hkept⟩ := (@reallocClip_denied clips _ n) (show len.toNat ≠ 0 by omega)
  refine ⟨startCut cut b, clips', ?_, ?_, hkept⟩
  · simp only [copyVertToClip, if_neg hmark, if_neg hout, hne, Bool.false_eq_true, if_false, hpass,
      hrealloc]
    rfl
  · cases cut with
    | false => exact iff_of_true (Unchanged.refl b) rfl
    | true =>
        refine iff_of_false (fun hunchanged => ?_) (by decide)
        -- The position of the cursor is -1.
        have hcursor := hunchanged.cursor
        simp only [startCut, startUndoChain, if_true, cursorOf, List.cons.injEq] at hcursor
        omega

theorem copyToClip_clean (t : Terminal) (clips : List ClipDesc) (n : Int) (cut : Bool)
    (h : granted = true ∨ ¬ Asks emptyBlock b) :
    FailsCleanly b clips (copyToClip t granted b clips n cut) := by
  unfold copyToClip
  split
  · exact fun _ => ⟨Unchanged.refl b, ClipsKept.refl clips⟩
  split
  · exact fun _ => ⟨Unchanged.refl b, ClipsKept.refl clips⟩
  split
  · split
    · case _ hrealloc =>
      rw [reallocClip_empty hrealloc]
      exact fun _ => ⟨Unchanged.refl b, ClipsKept.refl clips⟩
    · exact fun hfailed => absurd rfl hfailed
  · case _ hmark hin hne =>
    obtain rfl | hasks := h
    · dsimp only
      obtain ⟨cs, clips', hrealloc, -⟩ := reallocClip_granted clips n
        (pass (markFirst b) cut (copyMeasure b.curLine) (BlockState.start b)).len.toNat
      rw [hrealloc]
      exact fun hfailed => absurd rfl hfailed
    · exact absurd ⟨not_not.mp hmark, Int.not_le.mp hin, Bool.eq_false_iff.mpr hne⟩ hasks

theorem copyVertToClip_clean (t : Terminal) (clips : List ClipDesc) (n : Int) (cut : Bool)
    (h : granted = true ∨ ¬ Asks emptyRectangle b) :
    FailsCleanly b clips (copyVertToClip t granted b clips n cut) := by
  unfold copyVertToClip
  split
  · exact fun _ => ⟨Unchanged.refl b, ClipsKept.refl clips⟩
  split
  · exact fun _ => ⟨Unchanged.refl b, ClipsKept.refl clips⟩
  split
  · split
    · case _ hrealloc =>
      rw [reallocClip_empty hrealloc]
      exact fun _ => ⟨Unchanged.refl b, ClipsKept.refl clips⟩
    · exact fun hfailed => absurd rfl hfailed
  · case _ hmark hin hne =>
    obtain rfl | hasks := h
    · dsimp only
      obtain ⟨cs, clips', hrealloc, -⟩ := reallocClip_granted clips n
        (rectanglePass t (rectangleColumns t b) (b.blockStartLine < b.curLine) measureTurn
          (BlockState.start (startCut cut b))).len.toNat
      rw [hrealloc]
      cases cut with
      | false => exact fun hfailed => absurd rfl hfailed
      | true => exact fun hfailed => absurd rfl hfailed
    · exact absurd ⟨not_not.mp hmark, Int.not_le.mp hin, Bool.eq_false_iff.mpr hne⟩ hasks

theorem failsCleanly_iff {result : ClipStatus × Buffer × List ClipDesc} {text kept : Prop}
    (h : ∃ b' clips', result = (.outOfMemory, b', clips') ∧ (Unchanged b b' ↔ text) ∧
      (ClipsKept clips clips' ↔ kept)) :
    FailsCleanly b clips result ↔ text ∧ kept := by
  obtain ⟨b', clips', rfl, htext, hkept⟩ := h
  rw [← htext, ← hkept]
  exact ⟨fun hclean => hclean nofun, fun hboth _ => hboth⟩

/-- A copy or cut that fails changes nothing exactly when nothing has been lost or done before the
memory is denied. -/
theorem failedCopy_iff (t : Terminal) (granted : Bool) (b : Buffer) (clips : List ClipDesc)
    (n : Int) (cut : Bool) (h : Ready b) (hstartLine : 0 ≤ b.blockStartLine)
    (hstartPos : 0 ≤ b.blockStartPos) (hcurPos : 0 ≤ b.curPos)
    (hencoded : Encoded b.encoding (lines b)) :
    (FailsCleanly b clips (copyToClip t granted b clips n cut) ↔
      granted = true ∨ ¬ Asks emptyBlock b ∨
        (cut = true → padding b = 0) ∧ NothingToLose clips n) ∧
    (FailsCleanly b clips (copyVertToClip t granted b clips n cut) ↔
      granted = true ∨ ¬ Asks emptyRectangle b ∨ cut = false ∧ NothingToLose clips n) := by
  constructor
  · by_cases hquiet : granted = true ∨ ¬ Asks emptyBlock b
    · exact iff_of_true (copyToClip_clean t clips n cut hquiet) (by tauto)
    · obtain ⟨hdenied, hasks⟩ := not_or.mp hquiet
      obtain rfl := Bool.eq_false_iff.mpr hdenied
      obtain ⟨hmarking, hin, hne⟩ := not_not.mp hasks
      have hblock : Block b := ⟨h, hmarking, hstartLine, hin, hstartPos, hcurPos⟩
      rw [failsCleanly_iff (copyToClip_denied t clips n cut hblock hne)]
      tauto
  · by_cases hquiet : granted = true ∨ ¬ Asks emptyRectangle b
    · exact iff_of_true (copyVertToClip_clean t clips n cut hquiet) (by tauto)
    · obtain ⟨hdenied, hasks⟩ := not_or.mp hquiet
      obtain rfl := Bool.eq_false_iff.mpr hdenied
      rw [failsCleanly_iff
        (copyVertToClip_denied t clips n cut (not_not.mp hasks) hcurPos hencoded)]
      tauto

theorem encoded_of_ne_utf8 {e : EncodingType} (he : e ≠ .utf8) (text : List (List Byte)) :
    Encoded e text := by
  intro line _
  refine ⟨line.map fun c => [c], fun ch hch => ?_, CharacterRows.flatten_bytes line⟩
  obtain ⟨c, -, rfl⟩ := List.mem_map.mp hch
  exact .mk (by rw [charLen, if_neg he]; rfl) nofun

/-- The part of a line before the cursor cannot be cut, as there is no memory for the clip. -/
theorem failedCopy_line :
    FailsCleanly (typed [97, 98, 99] .ascii 0 0 0 2) []
      (copyToClip plainTerminal false (typed [97, 98, 99] .ascii 0 0 0 2) [] 0 true) := by
  have hblock : Block (typed [97, 98, 99] .ascii 0 0 0 2) :=
    block_typed (by decide) (by decide) (by decide) (by decide) (by decide) (by decide +kernel)
      (by decide +kernel)
  exact (failedCopy_iff plainTerminal false _ [] 0 true hblock.ready (by decide) (by decide)
    (by decide) (encoded_of_ne_utf8 (by decide) _)).1.mpr
      (Or.inr (Or.inr ⟨fun _ => by decide +kernel, nofun⟩))

/-- The mark is behind the end of its line: the spaces up to it are put into the text before the
memory for the clip is denied, and they stay. -/
theorem not_failedCopy :
    ¬ ∀ (t : Terminal) (granted : Bool) (b : Buffer) (clips : List ClipDesc) (n : Int) (cut : Bool),
      Ready b → 0 ≤ b.blockStartLine → 0 ≤ b.blockStartPos → 0 ≤ b.curPos →
      Encoded b.encoding (lines b) →
      FailsCleanly b clips (copyToClip t granted b clips n cut) ∧
        FailsCleanly b clips (copyVertToClip t granted b clips n cut) := by
  intro hall
  have hblock : Block (typed [97, 98, 0, 99, 100] .ascii 0 4 1 1) :=
    block_typed (by decide) (by decide) (by decide) (by decide) (by decide) (by decide +kernel)
      (by decide +kernel)
  have hclean := (hall plainTerminal false _ [] 0 true hblock.ready (by decide) (by decide)
    (by decide) (encoded_of_ne_utf8 (by decide) _)).1 (by decide +kernel)
  have htext := hclean.1.text
  exact absurd htext (by decide +kernel)

end NiceEditor.FailedClips
