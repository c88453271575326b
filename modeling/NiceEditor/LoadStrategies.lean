import NiceEditor.LoadPools

namespace NiceEditor.LoadStrategies

open NiceEditor.Cells
open NiceEditor.Pools
open NiceEditor.BufferData
open NiceEditor.UndoSteps
open NiceEditor.Load
open NiceEditor.LoadText
open NiceEditor.MmapFiles
open NiceEditor.LoadPools
open NiceEditor.Outcomes

variable {b : Buffer} {cp : CharPool} {content : List Byte} {f : File} {granted : Prop}

/-- The bytes that a load puts into the pool. -/
def textRead (b : Buffer) (f : File) : List Byte :=
  if f.seekable = true ∧ f.fd = 0 ∧ b.chars.answers 0 = true
  then List.replicate f.content.length 0 else f.content

/-- A buffer that holds nothing but what a load has put in it. -/
def Framed (b b' : Buffer) : Prop :=
  b' = { freeBufferContents b with
    chars := b'.chars
    lineDescList := b'.lineDescList
    numLines := b'.numLines
    isCRLF := b'.isCRLF }

/-- How a load can end: with an error and a buffer that has been cleared, or
with the text in a pool. -/
inductive LoadOutcome (granted : Prop) (b : Buffer) (text : List Byte) :
    Status × Buffer → Prop
  | failed (status : Status) (answers : Answers) (hstatus : status ≠ .ok) (hgrant : ¬ granted) :
      LoadOutcome granted b text (status, clearBuffer (setAnswers (freeBufferContents b) answers))
  | loaded (b' : Buffer) (cp : CharPool) (hplaced : Placed text cp b') (hpos : 0 < cp.size)
      (hframed : Framed b b') (hgrant : granted → Granting b'.chars.answers) :
      LoadOutcome granted b text (.ok, finishLoad b' cp text.length)

theorem placed_of_placeText {b' : Buffer} (hopt : b'.opt = b.opt)
    (hmem : b'.chars.mem = (placeText b (content.map (blank (isTerminator b.opt)))).chars.mem)
    (hnext : b'.chars.nextBlock = b.chars.nextBlock + 1) (hpools : b'.chars.charPoolList = [])
    (hblock : cp.pool = b.chars.nextBlock) (hsize : content.length ≤ cp.size)
    (hallocated : b'.chars.allocatedChars = cp.size)
    (hfree : b'.chars.freeChars =
      cp.size - content.length + (content.countP (isTerminator b.opt) : Nat))
    (hlds : b'.lineDescList =
      (lineCuts (isTerminator b.opt) 0 0 content).map fun c => lineAt cp.pool c.1 c.2)
    (hnum : b'.numLines = (lineCuts (isTerminator b.opt) 0 0 content).length)
    (hcrlf : b'.isCRLF = (countLines (isTerminator b.opt) content).2.2) :
    Placed content cp b' := by
  have hcell : ∀ i, b'.chars.mem cp.pool i =
      writeCells (fun _ => 0) 0 (content.map (blank (isTerminator b.opt))) i := by
    intro i
    rw [hmem, hblock]
    exact congrFun (Function.update_self _ _ _) i
  refine ⟨?_, ?_, by omega, hsize, hpools, hallocated, hopt ▸ hfree, hopt ▸ hlds, ?_, hopt ▸ hcrlf⟩
  · have hread := readCells_writeCells (fun _ => (0 : Byte)) 0
      (content.map (blank (isTerminator b.opt)))
    rw [List.length_map] at hread
    rw [hopt]
    exact (readCells_congr fun i _ _ => hcell i).trans hread
  · intro i hi
    exact (hcell i).trans (writeCells_of_outside _ (by simp; omega))
  · rw [hnum, hlds, List.length_map]

theorem cutPool_outcome (hpools : b.chars.charPoolList = []) (hcrlf : b.isCRLF = false)
    (hblock : cp.pool = b.chars.nextBlock) (hsize : content.length ≤ cp.size) :
    if b.chars.answers 0 = true then
      ∃ b', cutPool b cp content = (some b', Answers.rest b.chars.answers) ∧
        Placed content cp b' ∧ b'.chars.answers = Answers.rest b.chars.answers ∧
        b' = { b with
          chars := b'.chars
          lineDescList := b'.lineDescList
          numLines := b'.numLines
          isCRLF := b'.isCRLF }
    else cutPool b cp content = (none, Answers.rest b.chars.answers) := by
  have hlf : isTerminator b.opt cr = true → isTerminator b.opt lf = true := isTerminator_lf
  obtain ⟨hterms, hfree⟩ := countLines_spec hlf 0 0 content
  have hcut := cutLines_spec cp.pool hlf hterms
  split
  · rename_i hgranted
    simp only [cutPool, hcut, hgranted, if_true, List.length_map, hfree]
    refine ⟨_, rfl, ?_, rfl, rfl⟩
    refine placed_of_placeText (b := b) rfl rfl rfl hpools hblock hsize rfl rfl rfl ?_ ?_
    · rw [← hterms]
    · simp only [placeText, hcrlf, Bool.false_or]
  · rename_i hrefused
    simp [cutPool, hrefused]

theorem cutAndFinish_outcome {b₀ : Buffer} {answers : Answers}
    (hgrant : granted → Granting answers) (hb : b = setAnswers (freeBufferContents b₀) answers)
    (hblock : cp.pool = b.chars.nextBlock) (hsize : content.length ≤ cp.size)
    (hpos : 0 < cp.size) :
    LoadOutcome granted b₀ content (cutAndFinish b ⟨cp, content⟩) := by
  have hcut := cutPool_outcome (b := b) (by rw [hb]; rfl)
    (by rw [hb]; rfl) hblock hsize
  have hanswers : b.chars.answers = answers := by rw [hb]; rfl
  rw [hanswers] at hcut
  unfold cutAndFinish
  split at hcut
  · rename_i hgranted
    obtain ⟨b', hcut, hplaced, hanswers', hframe⟩ := hcut
    rw [hcut]
    refine .loaded b' cp hplaced hpos ?_ fun hg => ?_
    · rw [hframe, hb]
      rfl
    · rw [hanswers']
      exact granting_rest (hgrant hg)
  · rename_i hrefused
    rw [hcut, hb]
    exact .failed .outOfMemoryDiskFull _ (by decide) fun hg => hrefused (hgrant hg 0)

theorem loadFdMmap_spec {b₀ : Buffer} {answers : Answers} {fails : Nat → Bool}
    (hseen : ¬ granted → ∀ n, fails n = false) (hgrant : granted → Granting answers)
    (hb : b = setAnswers (freeBufferContents b₀) answers) (hne : content ≠ []) :
    Ends (loadFdMmap b content fails) (fun r => (granted → Granting r.1.chars.answers) ∧
        Placed content r.2 r.1 ∧ 0 < r.2.size ∧ Framed b₀ r.1)
      (Refused granted) := by
  have hanswers : b.chars.answers = answers := by rw [hb]; rfl
  have hpos : 0 < content.length := List.length_pos_iff.mpr hne
  unfold loadFdMmap
  rw [hanswers]
  refine Ends.bind (tryCall_spec _ (by decide) hgrant) fun a₁ h₁ => ?_
  refine Ends.bind (tryCall_spec _ (by decide) h₁) fun a₂ h₂ => ?_
  refine Ends.bind (createMmapFiles_spec hseen isTerminator_lf h₂) ?_
  rintro s ⟨hs, hfile, hlds, hnum, hfree, hcrlf⟩
  refine Ends.bind (tryCall_spec _ (by decide) hs) fun a₃ h₃ => ?_
  refine Ends.bind (tryCall_spec _ (by decide) h₃) fun a₄ h₄ => ?_
  refine Ends.bind (tryCall_spec _ (by decide) h₄) fun a₅ h₅ => ?_
  refine Ends.bind (tryCall_spec _ (by decide) h₅) fun a₆ h₆ => ?_
  refine Ends.pure ⟨h₆, ?_, hpos, ?_⟩
  · refine placed_of_placeText (b := b) rfl ?_ rfl ?_ rfl le_rfl rfl ?_ ?_ ?_ hcrlf
    · rw [← hfile]
    · rw [hb]
      rfl
    · simp [hfree]
    · rw [← hlds]
    · rw [hnum, hlds]
  · rw [Framed, hb]
    rfl

theorem growPool_spec (len turns size : Nat) {answers : Answers}
    (hgrant : granted → Granting answers) (hsize : 0 < size) (hturns : len < size + turns) :
    Ends (growPool len turns size answers)
      (fun r => (granted → Granting r.2) ∧ len < r.1) (Refused granted) := by
  induction turns generalizing size answers with
  | zero => exact ⟨hgrant, hturns⟩
  | succ turns ih =>
      refine Ends.ite (fun hlt => ⟨hgrant, hlt⟩) fun hle => ?_
      refine Ends.bind (tryCall_spec _ (by decide) hgrant) fun answers' h' => ?_
      exact ih _ h' (by omega) (by omega)

theorem loadSeekable_outcome (hne : f.content ≠ []) (hseek : f.seekable = true)
    (hseen : ¬ granted → b.chars.answers 0 = false → ∀ n, f.writeFails n = false)
    (hgrant : granted → Granting (Answers.rest b.chars.answers)) :
    LoadOutcome granted b (textRead b f) (loadSeekable b f) := by
  have hpos : 0 < f.content.length := List.length_pos_iff.mpr hne
  unfold loadSeekable allocFilePool
  by_cases hgranted : b.chars.answers 0 = true
  · have htext : (if f.fd = 0 then List.replicate f.content.length 0 else f.content) =
        textRead b f := by
      unfold textRead
      by_cases hfd : f.fd = 0 <;> simp [hfd, hseek, hgranted]
    have hlen : (textRead b f).length = f.content.length := by
      rw [← htext]
      split <;> simp
    simp only [freeBufferContents, hgranted, if_true, htext]
    have hsize : f.content.length ≤
        if f.content.length < stdPoolSize ∧ f.fd = 0 then stdPoolSize else f.content.length := by
      by_cases hsmall : f.content.length < stdPoolSize ∧ f.fd = 0
      · rw [if_pos hsmall]
        exact hsmall.1.le
      · rw [if_neg hsmall]
    exact cutAndFinish_outcome hgrant rfl rfl (hlen.trans_le hsize) (hpos.trans_le hsize)
  · have htext : textRead b f = f.content := by simp [textRead, hgranted]
    have hmmap := loadFdMmap_spec (b := setAnswers (freeBufferContents b)
      (Answers.rest b.chars.answers)) (fun hno => hseen hno (by simpa using hgranted)) hgrant
      rfl hne
    simp only [freeBufferContents, hgranted] at hmmap ⊢
    rw [htext]
    simp only [Bool.false_eq_true, if_false]
    split
    · rename_i b' cp heq
      rw [heq] at hmmap
      obtain ⟨hanswers, hplaced, hsize, hframed⟩ := hmmap
      exact .loaded b' cp hplaced hsize hframed hanswers
    · rename_i status answers heq
      rw [heq] at hmmap
      exact .failed status answers hmmap.1 hmmap.2

theorem loadStream_outcome (hseek : f.seekable = false)
    (hgrant : granted → Granting b.chars.answers) :
    LoadOutcome granted b (textRead b f) (loadStream b f) := by
  have htext : textRead b f = f.content := by simp [textRead, hseek]
  have hgrow := growPool_spec f.content.length (f.content.length + 1) startSize
    (fun hg => granting_rest (hgrant hg)) (by decide) (by omega)
  rw [htext]
  simp only [loadStream]
  split
  · rename_i hrefused
    refine .failed .ioError _ (by decide) fun hg => ?_
    have hzero := hgrant hg 0
    exact absurd (hrefused.1.symm.trans hzero) (by simp)
  · simp only [freeBufferContents] at hgrow ⊢
    split
    · rename_i status answers heq
      rw [heq] at hgrow
      exact .failed status answers hgrow.1 hgrow.2
    · rename_i size answers heq
      rw [heq] at hgrow
      have hcall := tryCall_spec .outOfMemory (by decide) hgrow.1
      split
      · rename_i status answers' heq'
        rw [heq'] at hcall
        exact .failed status answers' hcall.1 hcall.2
      · rename_i answers' heq'
        rw [heq'] at hcall
        have hlen : f.content.length < size := hgrow.2
        refine cutAndFinish_outcome hcall rfl rfl ?_ ?_
        · simp only
          omega
        · simp only
          omega

variable (granted) in
theorem loadFdInBuffer_outcome (hne : f.seekable = true → f.content ≠ [])
    (hseen : ¬ granted → f.seekable = true → b.chars.answers 0 = false →
      ∀ n, f.writeFails n = false)
    (hrest : granted → Granting (Answers.rest b.chars.answers))
    (hfirst : granted → f.seekable = false → b.chars.answers 0 = true) :
    LoadOutcome granted b (textRead b f) (loadFdInBuffer b f) := by
  unfold loadFdInBuffer
  split
  · rename_i hseek
    rw [if_neg (hne hseek)]
    exact loadSeekable_outcome (hne hseek) hseek (fun hno => hseen hno hseek) hrest
  · rename_i hseek
    rw [Bool.not_eq_true] at hseek
    refine loadStream_outcome hseek fun hg n => ?_
    cases n with
    | zero => exact hfirst hg hseek
    | succ n => exact hrest hg n

theorem loadFdInBuffer_empty (hseek : f.seekable = true) (hnil : f.content = []) :
    ∃ undo, loadFdInBuffer b f =
      (.ok, { clearBuffer b with encoding := .ascii, undo := undo }) := by
  unfold loadFdInBuffer
  rw [if_pos hseek, if_pos hnil]
  cases hundo : b.opt.doUndo with
  | true => exact ⟨_, congrArg _ (if_pos hundo)⟩
  | false =>
      have hno : ¬ b.opt.doUndo = true := by simp [hundo]
      exact ⟨_, congrArg _ (if_neg hno)⟩

theorem loadFdInBuffer_granting (hgrant : Granting b.chars.answers) :
    ∃ b', loadFdInBuffer b f = (.ok, b') ∧ Granting b'.chars.answers ∧ b'.opt = b.opt := by
  by_cases hempty : f.seekable = true ∧ f.content = []
  · obtain ⟨undo, hload⟩ := loadFdInBuffer_empty (b := b) hempty.1 hempty.2
    exact ⟨_, hload, hgrant, rfl⟩
  · have houtcome := loadFdInBuffer_outcome True (b := b) (f := f)
      (fun hseek hnil => hempty ⟨hseek, hnil⟩) (fun hno => absurd trivial hno)
      (fun _ => granting_rest hgrant)
      fun _ _ => hgrant 0
    generalize loadFdInBuffer b f = r at houtcome ⊢
    cases houtcome with
    | failed status answers hstatus hno => exact absurd trivial hno
    | loaded b' cp hplaced hpos hframed hgrant' =>
        obtain ⟨hchars, -, -, -, hopt, -⟩ := finishLoad_frame hplaced
        refine ⟨_, rfl, ?_, ?_⟩
        · rw [hchars]
          exact hgrant' trivial
        · rw [hopt, hframed]
          rfl

end NiceEditor.LoadStrategies
