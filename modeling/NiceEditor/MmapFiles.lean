import NiceEditor.LoadText
import NiceEditor.Outcomes

namespace NiceEditor.MmapFiles

open NiceEditor.Cells
open NiceEditor.Pools
open NiceEditor.BufferData
open NiceEditor.UndoSteps
open NiceEditor.Load
open NiceEditor.LoadText
open NiceEditor.Outcomes

variable {isTerm : Byte → Bool} {content : List Byte} {granted : Prop} {e : Nat}
variable {fails : Nat → Bool}

/-- The errors of the load: the call that failed was refused. -/
def Refused (granted : Prop) (e : Status × Answers) : Prop :=
  e.1 ≠ .ok ∧ ¬ granted

/-- The circular buffer and the file of characters, when the terminators below
`e` have been set to NUL. -/
structure Buffered (isTerm : Byte → Bool) (content : List Byte) (e : Nat)
    (s : MmapState) : Prop where
  i_eq : s.i = s.currPos % (2 * circBufferSize)
  remaining : s.remaining =
    content.drop ((s.currPos / circBufferSize + 2) * circBufferSize)
  charFile : s.charFile =
    (content.take (s.currPos / circBufferSize * circBufferSize)).map (blank isTerm)
  ahead : ∀ q c, e ≤ q → q < (s.currPos / circBufferSize + 2) * circBufferSize →
    content[q]? = some c → s.buffer (q % (2 * circBufferSize)) = c
  behind : ∀ q c, s.currPos / circBufferSize * circBufferSize ≤ q → q < e →
    content[q]? = some c → s.buffer (q % (2 * circBufferSize)) = blank isTerm c

/-- The line descriptors written and the counters, for the text before `pos`. -/
structure Counted (isTerm : Byte → Bool) (content : List Byte) (pos : Nat)
    (s : MmapState) : Prop where
  start_le : s.startOfLine ≤ pos
  lds : s.ldFile ++ lineCuts isTerm s.startOfLine pos (content.drop pos) =
    lineCuts isTerm 0 0 content
  numLines : s.numLines = s.ldFile.length
  free : s.freeChars + (content.drop pos).countP isTerm = content.countP isTerm
  crlf : (s.isCRLF || (countLines isTerm (content.drop pos)).2.2) =
    (countLines isTerm content).2.2

/-- What `advance` does to the line descriptors and the counters. -/
def Ahead (s s' : MmapState) : Prop :=
  s'.currPos = s.currPos + 1 ∧ s'.startOfLine = s.startOfLine ∧ s'.ldFile = s.ldFile ∧
    s'.numLines = s.numLines ∧ s'.freeChars = s.freeChars ∧ s'.isCRLF = s.isCRLF

theorem tryCall_spec (failure : Status) {answers : Answers} (hfailure : failure ≠ .ok)
    (hgrant : granted → Granting answers) :
    Ends (tryCall failure answers) (fun answers' => granted → Granting answers')
      (Refused granted) := by
  unfold tryCall
  refine Ends.ite (fun _ hg => granting_rest (hgrant hg)) fun hrefused => ?_
  exact ⟨hfailure, fun hg => hrefused (hgrant hg 0)⟩

theorem writeFile_spec {s : MmapState} (hgrant : granted → Granting s.answers) :
    Ends (writeFile s) (fun s' => (granted → Granting s'.answers) ∧
      s' = { s with answers := s'.answers }) (Refused granted) := by
  unfold writeFile
  split
  · exact ⟨fun hg => granting_rest (hgrant hg), rfl⟩
  · rename_i hrefused
    exact ⟨by simp, fun hg => hrefused (hgrant hg 0)⟩

theorem writeChars_spec {s : MmapState} (chars : List Byte)
    (hgrant : granted → Granting s.answers) (hseen : ¬ granted → ∀ n, fails n = false) :
    Ends (writeChars fails chars s) (fun s' => (granted → Granting s'.answers) ∧
      s' = { s with charFile := s.charFile ++ chars, answers := s'.answers })
      (Refused granted) := by
  unfold writeChars
  split
  · exact ⟨fun hg => granting_rest (hgrant hg), rfl⟩
  · rename_i hrefused
    have hno : ¬ granted := fun hg => hrefused (hgrant hg 0)
    rw [hseen hno, if_neg Bool.false_ne_true]
    exact ⟨by simp, hno⟩

theorem readCells_half {s : MmapState} {e n : Nat} (hbuf : Buffered isTerm content e s)
    (hn : n ≤ circBufferSize) (he : s.currPos / circBufferSize * circBufferSize + n ≤ e)
    (hend : e ≤ content.length) :
    readCells s.buffer (s.currPos / circBufferSize * circBufferSize % (2 * circBufferSize)) n =
      ((content.drop (s.currPos / circBufferSize * circBufferSize)).take n).map
        (blank isTerm) := by
  set base := s.currPos / circBufferSize * circBufferSize with hbase
  apply List.ext_getElem?
  intro k
  rw [readCells_getElem?, List.getElem?_map, List.getElem?_take, List.getElem?_drop]
  split
  · rename_i hk
    have hlt : base + k < content.length := by omega
    rw [List.getElem?_eq_getElem hlt, Option.map_some, Option.some_inj]
    rw [← hbuf.behind (base + k) _ (by omega) (by omega) (List.getElem?_eq_getElem hlt)]
    congr 1
    -- A half never wraps.
    have hmod : base % (2 * circBufferSize) = 0 ∨
        base % (2 * circBufferSize) = circBufferSize := by
      simp only [circBufferSize] at hbase ⊢
      omega
    simp only [circBufferSize] at hmod hn ⊢
    omega
  · rfl

theorem flip_ahead {s : MmapState} {k : Nat} (hk : s.currPos + 1 = (k + 1) * circBufferSize)
    (hbuf : Buffered isTerm content (s.currPos + 1) s) {q : Nat} {c : Byte}
    (hlow : s.currPos + 1 ≤ q) (hhigh : q < (k + 3) * circBufferSize) (hc : content[q]? = some c) :
    writeCells s.buffer (k * circBufferSize % (2 * circBufferSize))
      (s.remaining.take circBufferSize) (q % (2 * circBufferSize)) = c := by
  have hdiv : s.currPos / circBufferSize = k := by
    simp only [circBufferSize] at hk ⊢
    omega
  have hrem : (s.remaining.take circBufferSize).length ≤ circBufferSize := by simp
  by_cases hq : q < (k + 2) * circBufferSize
  · rw [writeCells_of_outside]
    · exact hbuf.ahead q c hlow (by rwa [hdiv]) hc
    · simp only [circBufferSize] at hk hq hrem ⊢
      omega
  · have hplace : q % (2 * circBufferSize) =
        k * circBufferSize % (2 * circBufferSize) + (q - (k + 2) * circBufferSize) := by
      simp only [circBufferSize] at hhigh hq ⊢
      omega
    rw [hplace]
    refine writeCells_of_getElem? _ _ ?_
    rw [hbuf.remaining, hdiv, List.getElem?_take, if_pos (by
        simp only [circBufferSize] at hhigh hq ⊢
        omega), List.getElem?_drop, Nat.add_sub_cancel' (by omega), hc]

theorem advance_spec {s : MmapState} (hseen : ¬ granted → ∀ n, fails n = false)
    (hgrant : granted → Granting s.answers) (hpos : s.currPos < content.length)
    (hbuf : Buffered isTerm content (s.currPos + 1) s) :
    Ends (advance fails s) (fun s' => (granted → Granting s'.answers) ∧ Ahead s s' ∧
      Buffered isTerm content s'.currPos s') (Refused granted) := by
  have hi := hbuf.i_eq
  have hiff : (s.i + 1) % (2 * circBufferSize) % circBufferSize = 0 ↔
      (s.currPos + 1) % circBufferSize = 0 := by
    simp only [circBufferSize] at hi ⊢
    omega
  simp only [advance]
  split
  · -- The half is complete.
    rename_i hflip
    have hflip' := hiff.mp hflip
    obtain ⟨k, hk⟩ : ∃ k, s.currPos + 1 = (k + 1) * circBufferSize := by
      refine ⟨s.currPos / circBufferSize, ?_⟩
      simp only [circBufferSize] at hflip' ⊢
      omega
    have hdiv : s.currPos / circBufferSize = k := by
      simp only [circBufferSize] at hk ⊢
      omega
    have hdiv' : (s.currPos + 1) / circBufferSize = k + 1 := by
      simp only [circBufferSize] at hk ⊢
      omega
    have hhalf : ((s.i + 1) % (2 * circBufferSize) + circBufferSize) % (2 * circBufferSize) =
        k * circBufferSize % (2 * circBufferSize) := by
      simp only [circBufferSize] at hi hk ⊢
      omega
    have hcells := readCells_half hbuf le_rfl (by rw [hdiv, hk, Nat.add_mul, Nat.one_mul]) hpos
    rw [hdiv] at hcells
    rw [hhalf, hcells]
    have hwrite := writeChars_spec (s := { s with
      i := (s.i + 1) % (2 * circBufferSize), currPos := s.currPos + 1 })
      (((content.drop (k * circBufferSize)).take circBufferSize).map (blank isTerm)) hgrant hseen
    split
    · rename_i e heq
      rw [heq] at hwrite
      exact hwrite
    · rename_i s' heq
      rw [heq] at hwrite
      obtain ⟨hgrant', hs'⟩ := hwrite
      rw [hs']
      refine ⟨hgrant', ⟨rfl, rfl, rfl, rfl, rfl, rfl⟩, ?_, ?_, ?_, ?_, ?_⟩
      · simp only [circBufferSize] at hi ⊢
        omega
      · simp only [hdiv', hbuf.remaining, hdiv, List.drop_drop]
        have hnext : (k + 2) * circBufferSize + circBufferSize =
            (k + 1 + 2) * circBufferSize := by
          simp only [circBufferSize]
          omega
        rw [hnext]
      · simp only [hdiv', hbuf.charFile, hdiv, ← List.map_append, Nat.add_mul,
          Nat.one_mul, List.take_add]
      · intro q c hlow hhigh hc
        exact flip_ahead hk hbuf hlow (by rwa [hdiv'] at hhigh) hc
      · intro q c hlow hhigh hc
        rw [hdiv'] at hlow
        simp only at hhigh
        omega
  · rename_i hflip
    have hflip' := (not_congr hiff).mp hflip
    have hsame : (s.currPos + 1) / circBufferSize = s.currPos / circBufferSize := by
      simp only [circBufferSize] at hflip' ⊢
      omega
    refine ⟨hgrant, ⟨rfl, rfl, rfl, rfl, rfl, rfl⟩, ?_, ?_, ?_, ?_, ?_⟩
    · simp only [circBufferSize] at hi ⊢
      omega
    · simpa only [hsame] using hbuf.remaining
    · simpa only [hsame] using hbuf.charFile
    · simpa only [hsame] using hbuf.ahead
    · simpa only [hsame] using hbuf.behind

theorem Counted.ahead {s s' : MmapState} (h : Counted isTerm content (s.currPos + 1) s)
    (hahead : Ahead s s') : Counted isTerm content s'.currPos s' := by
  obtain ⟨hpos, hstart, hlds, hnum, hfree, hcrlf⟩ := hahead
  rw [hpos]
  exact ⟨hstart ▸ h.start_le, hstart ▸ hlds ▸ h.lds, hnum ▸ hlds ▸ h.numLines,
    hfree ▸ h.free, hcrlf ▸ h.crlf⟩

theorem Buffered.current {s : MmapState} {c : Byte} (h : Buffered isTerm content s.currPos s)
    (hc : content[s.currPos]? = some c) : s.buffer s.i = c := by
  rw [h.i_eq]
  refine h.ahead s.currPos c le_rfl ?_ hc
  simp only [circBufferSize]
  omega

theorem Buffered.next {s : MmapState} {d : Byte} (h : Buffered isTerm content s.currPos s)
    (hd : content[s.currPos + 1]? = some d) :
    s.buffer ((s.i + 1) % (2 * circBufferSize)) = d := by
  have hplace : (s.i + 1) % (2 * circBufferSize) =
      (s.currPos + 1) % (2 * circBufferSize) := by
    rw [h.i_eq]
    simp only [circBufferSize]
    omega
  rw [hplace]
  refine h.ahead (s.currPos + 1) d (by omega) ?_ hd
  simp only [circBufferSize]
  omega

theorem Buffered.skip {s : MmapState} {c : Byte} (h : Buffered isTerm content s.currPos s)
    (hc : content[s.currPos]? = some c) (hchar : ¬ isTerm c = true) :
    Buffered isTerm content (s.currPos + 1) s where
  i_eq := h.i_eq
  remaining := h.remaining
  charFile := h.charFile
  ahead := fun q d hlow hhigh hd => h.ahead q d (by omega) hhigh hd
  behind := fun q d hlow hhigh hd => by
    by_cases hq : q = s.currPos
    · subst hq
      obtain rfl := Option.some.inj (hc.symm.trans hd)
      rw [blank, if_neg hchar, ← h.i_eq]
      exact h.current hc
    · exact h.behind q d hlow (by omega) hd

theorem Buffered.zero {s : MmapState} {c : Byte} (h : Buffered isTerm content s.currPos s)
    (hc : content[s.currPos]? = some c) (hterm : isTerm c = true) :
    Buffered isTerm content (s.currPos + 1)
      { s with buffer := Function.update s.buffer s.i 0 } where
  i_eq := h.i_eq
  remaining := h.remaining
  charFile := h.charFile
  ahead := fun q d hlow hhigh hd => by
    have hne : q % (2 * circBufferSize) ≠ s.i := by
      rw [h.i_eq]
      simp only [circBufferSize] at hhigh ⊢
      omega
    exact (Function.update_of_ne hne _ _).trans (h.ahead q d (by omega) hhigh hd)
  behind := fun q d hlow hhigh hd => by
    by_cases hq : q = s.currPos
    · subst hq
      obtain rfl := Option.some.inj (hc.symm.trans hd)
      rw [blank, if_pos hterm, ← h.i_eq]
      exact Function.update_self _ _ _
    · have hne : q % (2 * circBufferSize) ≠ s.i := by
        rw [h.i_eq]
        simp only [circBufferSize] at hlow ⊢
        omega
      exact (Function.update_of_ne hne _ _).trans (h.behind q d hlow (by omega) hd)

theorem putLineDesc_spec {s : MmapState} {start len : Nat}
    (hgrant : granted → Granting s.answers) :
    Ends (putLineDesc s start len) (fun s' => (granted → Granting s'.answers) ∧
      s' = { s with ldFile := s.ldFile ++ [(start, len)], answers := s'.answers })
      (Refused granted) := by
  unfold putLineDesc
  refine Ends.ite (fun _ => ?_) (fun _ => ⟨hgrant, rfl⟩)
  exact writeFile_spec hgrant

/-- The state of the loop between two bytes. -/
structure Scanned (granted : Prop) (isTerm : Byte → Bool) (content : List Byte)
    (s : MmapState) : Prop where
  answers : granted → Granting s.answers
  pos_le : s.currPos ≤ content.length
  buffered : Buffered isTerm content s.currPos s
  counted : Counted isTerm content s.currPos s

/-- The state of the loop when the byte at the current position, which is
`start` or the one after it, has been dealt with. -/
structure Passed (granted : Prop) (isTerm : Byte → Bool) (content : List Byte) (start : Nat)
    (s : MmapState) : Prop where
  answers : granted → Granting s.answers
  start_le : start ≤ s.currPos
  pos_lt : s.currPos < content.length
  buffered : Buffered isTerm content (s.currPos + 1) s
  counted : Counted isTerm content (s.currPos + 1) s

/-- The state of `endLine` when the last byte of a terminator is current; the
line ended before `endOfLine`. -/
structure Ended (granted : Prop) (isTerm : Byte → Bool) (content : List Byte) (endOfLine : Nat)
    (s : MmapState) : Prop where
  answers : granted → Granting s.answers
  end_le : endOfLine ≤ s.currPos
  pos_lt : s.currPos < content.length
  buffered : Buffered isTerm content s.currPos s
  term : isTerm content[s.currPos] = true
  lds : s.ldFile ++ (s.startOfLine, endOfLine - s.startOfLine) ::
      lineCuts isTerm (s.currPos + 1) (s.currPos + 1) (content.drop (s.currPos + 1)) =
    lineCuts isTerm 0 0 content
  numLines : s.numLines = s.ldFile.length
  free : s.freeChars + 1 + (content.drop (s.currPos + 1)).countP isTerm = content.countP isTerm
  crlf : (s.isCRLF || (countLines isTerm (content.drop (s.currPos + 1))).2.2) =
    (countLines isTerm content).2.2

theorem pair_spec {s : MmapState} (hseen : ¬ granted → ∀ n, fails n = false)
    (hlf : isTerm cr = true → isTerm lf = true)
    (h : Scanned granted isTerm content s) (hnext : s.currPos + 1 < content.length)
    (hcr : content[s.currPos]? = some cr) (hd : content[s.currPos + 1]? = some lf)
    (hterm : isTerm cr = true) :
    Ends (advance fails { s with
        isCRLF := true
        buffer := Function.update s.buffer s.i 0
        freeChars := s.freeChars + 1 })
      (Ended granted isTerm content s.currPos) (Refused granted) := by
  have hzero := h.buffered.zero hcr hterm
  have hdrop : content.drop s.currPos = cr :: lf :: content.drop (s.currPos + 2) := by
    rw [List.drop_eq_getElem_cons (by omega), List.drop_eq_getElem_cons hnext]
    rw [List.getElem?_eq_getElem (by omega), Option.some_inj] at hcr hd
    rw [hcr, hd]
  refine Ends.weaken (advance_spec hseen h.answers (by simp only; omega)
    ⟨hzero.i_eq, hzero.remaining, hzero.charFile, hzero.ahead, hzero.behind⟩) ?_
  rintro s' ⟨hgrant, ⟨hpos, hstart, hlds, hnum, hfree, hcrlf⟩, hbuf⟩
  simp only at hpos hstart hlds hnum hfree hcrlf
  have hcut := h.counted.lds
  have hcount := h.counted.free
  have hpair := h.counted.crlf
  rw [hdrop] at hcut hcount hpair
  rw [lineCuts_pair hterm] at hcut
  rw [List.countP_cons_of_pos hterm, List.countP_cons_of_pos (hlf hterm)] at hcount
  rw [countLines_pair hterm, Bool.or_true] at hpair
  refine ⟨hgrant, by omega, by omega, hbuf, ?_, ?_, ?_, ?_, ?_⟩
  · simp only [hpos]
    rw [List.getElem?_eq_getElem hnext, Option.some_inj] at hd
    rw [hd]
    exact hlf hterm
  · rw [hlds, hstart, hpos]
    exact hcut
  · rw [hnum, hlds]
    exact h.counted.numLines
  · rw [hfree, hpos, ← hcount]
    ring
  · rw [hcrlf, Bool.true_or]
    exact hpair

theorem single_spec {s : MmapState} (h : Scanned granted isTerm content s)
    (hlt : s.currPos < content.length) (hterm : isTerm content[s.currPos] = true)
    (hpair : ¬ (content[s.currPos] = cr ∧ content[s.currPos + 1]? = some lf)) :
    Ended granted isTerm content s.currPos s := by
  have hdrop : content.drop s.currPos = content[s.currPos] :: content.drop (s.currPos + 1) :=
    List.drop_eq_getElem_cons hlt
  have hcut := h.counted.lds
  have hcount := h.counted.free
  have hcrlf := h.counted.crlf
  rw [← List.head?_drop] at hpair
  rw [hdrop] at hcut hcount hcrlf
  rw [lineCuts_term hterm hpair] at hcut
  rw [List.countP_cons_of_pos hterm] at hcount
  rw [countLines_term hterm hpair] at hcrlf
  exact ⟨h.answers, le_rfl, hlt, h.buffered, hterm, hcut, h.counted.numLines, by omega, hcrlf⟩

theorem passReturn_spec {s : MmapState} (hseen : ¬ granted → ∀ n, fails n = false)
    (hlf : isTerm cr = true → isTerm lf = true)
    (h : Scanned granted isTerm content s) (hlt : s.currPos < content.length)
    (hterm : isTerm content[s.currPos] = true) :
    Ends (passReturn fails content.length s) (Ended granted isTerm content s.currPos)
      (Refused granted) := by
  have hcurrent := h.buffered.current (List.getElem?_eq_getElem hlt)
  refine Ends.ite ?_ fun hpair => ?_
  · rintro ⟨hnext, hcr, hd⟩
    have hnext' : s.currPos + 1 < content.length := by omega
    rw [h.buffered.next (List.getElem?_eq_getElem hnext')] at hd
    rw [hcurrent] at hcr
    exact pair_spec hseen hlf h hnext' (by rw [List.getElem?_eq_getElem hlt, hcr])
      (by rw [List.getElem?_eq_getElem hnext', hd]) (hcr ▸ hterm)
  · refine single_spec h hlt hterm ?_
    rintro ⟨hcr, hd⟩
    obtain ⟨hnext, -⟩ := List.getElem?_eq_some_iff.mp hd
    exact hpair ⟨by omega, by rw [hcurrent, hcr], h.buffered.next hd⟩

theorem endLine_spec {s : MmapState} (hseen : ¬ granted → ∀ n, fails n = false)
    (hlf : isTerm cr = true → isTerm lf = true)
    (h : Scanned granted isTerm content s) (hlt : s.currPos < content.length)
    (hterm : isTerm content[s.currPos] = true) :
    Ends (endLine fails content.length s) (Passed granted isTerm content s.currPos)
      (Refused granted) := by
  refine Ends.bind (passReturn_spec hseen hlf h hlt hterm) fun s' h' => ?_
  refine Ends.bind (putLineDesc_spec h'.answers) ?_
  rintro s₂ ⟨hgrant, hs₂⟩
  have hzero := h'.buffered.zero (List.getElem?_eq_getElem h'.pos_lt) h'.term
  rw [hs₂]
  refine Ends.pure ⟨hgrant, h'.end_le, h'.pos_lt, ?_, ?_⟩
  · exact ⟨hzero.i_eq, hzero.remaining, hzero.charFile, hzero.ahead, hzero.behind⟩
  · refine ⟨le_rfl, ?_, ?_, h'.free, h'.crlf⟩
    · simpa using h'.lds
    · simp [h'.numLines]

theorem passByte_spec {s : MmapState} (hseen : ¬ granted → ∀ n, fails n = false)
    (hlf : isTerm cr = true → isTerm lf = true)
    (h : Scanned granted isTerm content s) (hlt : s.currPos < content.length) :
    Ends (passByte fails isTerm content.length s) (Passed granted isTerm content s.currPos)
      (Refused granted) := by
  have hc := List.getElem?_eq_getElem hlt
  have hcurrent := h.buffered.current hc
  have hdrop : content.drop s.currPos = content[s.currPos] :: content.drop (s.currPos + 1) :=
    List.drop_eq_getElem_cons hlt
  refine Ends.ite (fun hterm => endLine_spec hseen hlf h hlt (hcurrent ▸ hterm)) fun hchar => ?_
  rw [hcurrent] at hchar
  have hcut := h.counted.lds
  have hcount := h.counted.free
  have hcrlf := h.counted.crlf
  rw [hdrop] at hcut hcount hcrlf
  rw [lineCuts_char hchar] at hcut
  rw [List.countP_cons_of_neg hchar] at hcount
  rw [countLines_char hchar] at hcrlf
  have hstart := h.counted.start_le
  exact ⟨h.answers, le_rfl, hlt, h.buffered.skip hc hchar,
    ⟨by omega, hcut, h.counted.numLines, hcount, hcrlf⟩⟩

theorem Passed.advance_spec {s : MmapState} {start : Nat}
    (hseen : ¬ granted → ∀ n, fails n = false) (h : Passed granted isTerm content start s) :
    Ends (advance fails s) (fun s' => Scanned granted isTerm content s' ∧ start < s'.currPos)
      (Refused granted) := by
  refine Ends.weaken (MmapFiles.advance_spec hseen h.answers h.pos_lt h.buffered) ?_
  rintro s' ⟨hgrant, hahead, hbuf⟩
  have hpos := hahead.1
  have hlt := h.pos_lt
  have hstart := h.start_le
  exact ⟨⟨hgrant, by omega, hbuf, h.counted.ahead hahead⟩, by omega⟩

theorem mmapLoop_spec {s : MmapState} {turns : Nat} (hseen : ¬ granted → ∀ n, fails n = false)
    (hlf : isTerm cr = true → isTerm lf = true) (h : Scanned granted isTerm content s)
    (hturns : content.length ≤ s.currPos + turns) :
    Ends (mmapLoop fails isTerm content.length turns s)
      (fun s' => Scanned granted isTerm content s' ∧ s'.currPos = content.length)
      (Refused granted) := by
  induction turns generalizing s with
  | zero => exact ⟨h, Nat.le_antisymm h.pos_le hturns⟩
  | succ turns ih =>
      refine Ends.ite (fun hlt => ?_) fun hend => ⟨h, Nat.le_antisymm h.pos_le (by omega)⟩
      refine Ends.bind (passByte_spec hseen hlf h hlt) fun s₁ h₁ => ?_
      refine Ends.bind (h₁.advance_spec hseen) ?_
      rintro s₂ ⟨h₂, hpos⟩
      exact ih h₂ (by omega)

theorem scanned_start {answers : Answers} (hgrant : granted → Granting answers) :
    Scanned granted isTerm content
      { buffer := writeCells (fun _ => 0) 0 (content.take (2 * circBufferSize))
        i := 0
        currPos := 0
        startOfLine := 0
        remaining := content.drop (2 * circBufferSize)
        charFile := []
        ldFile := []
        numLines := 0
        freeChars := 0
        isCRLF := false
        answers := answers } where
  answers := hgrant
  pos_le := Nat.zero_le _
  buffered := by
    refine ⟨rfl, by simp only [Nat.zero_div, Nat.zero_add], by simp,
      fun q c _ hhigh hc => ?_, fun q c _ hlow _ => ?_⟩
    · have hq : q < 2 * circBufferSize := by simpa [circBufferSize] using hhigh
      have hwrite := writeCells_of_getElem? (i := q) (x := c) (fun _ => 0) 0
        (by rw [List.getElem?_take, if_pos hq, hc])
      rw [Nat.mod_eq_of_lt hq]
      simpa using hwrite
    · simp at hlow
  counted := ⟨le_rfl, by simp, rfl, by simp, by simp⟩

theorem writeHalf_spec {s : MmapState} (hseen : ¬ granted → ∀ n, fails n = false)
    (h : Scanned granted isTerm content s)
    (hend : s.currPos = content.length) :
    Ends (writeHalf fails s) (fun s' => (granted → Granting s'.answers) ∧
      s' = { s with charFile := content.map (blank isTerm), answers := s'.answers })
      (Refused granted) := by
  have hi := h.buffered.i_eq
  have hfile := h.buffered.charFile
  have hmod : s.i % circBufferSize = s.currPos % circBufferSize := by
    rw [hi]
    simp only [circBufferSize]
    omega
  have hwhole : ∀ n, content.length ≤ s.currPos / circBufferSize * circBufferSize + n →
      (content.take (s.currPos / circBufferSize * circBufferSize)).map (blank isTerm) ++
        ((content.drop (s.currPos / circBufferSize * circBufferSize)).take n).map
          (blank isTerm) = content.map (blank isTerm) := by
    intro n hn
    rw [← List.map_append, ← List.take_add, List.take_of_length_le hn]
  refine Ends.ite (fun hhalf => ?_) fun hnone => ⟨h.answers, ?_⟩
  · refine Ends.weaken (writeChars_spec _ h.answers hseen) ?_
    rintro s' ⟨hgrant, hs'⟩
    refine ⟨hgrant, hs'.trans ?_⟩
    have hhalf : s.i / circBufferSize * circBufferSize =
        s.currPos / circBufferSize * circBufferSize % (2 * circBufferSize) := by
      rw [hi]
      simp only [circBufferSize]
      omega
    have hcells := readCells_half (n := s.currPos % circBufferSize) h.buffered
      (Nat.le_of_lt (Nat.mod_lt _ (by decide)))
      (by rw [Nat.div_add_mod']) h.pos_le
    rw [hhalf, hmod, hcells, hfile, hwhole _ (by rw [Nat.div_add_mod', hend])]
  · have hall : s.charFile = content.map (blank isTerm) := by
      have hrest : content.length ≤ s.currPos / circBufferSize * circBufferSize + 0 := by
        simp only [circBufferSize, ne_eq, not_not] at hnone hmod ⊢
        omega
      rw [hfile, ← hwhole 0 hrest, List.take_zero, List.map_nil, List.append_nil]
    rw [← hall]

theorem createMmapFiles_spec {answers : Answers} (hseen : ¬ granted → ∀ n, fails n = false)
    (hlf : isTerm cr = true → isTerm lf = true)
    (hgrant : granted → Granting answers) :
    Ends (createMmapFiles fails isTerm content answers) (fun s => (granted → Granting s.answers) ∧
      s.charFile = content.map (blank isTerm) ∧ s.ldFile = lineCuts isTerm 0 0 content ∧
      s.numLines = s.ldFile.length ∧ s.freeChars = content.countP isTerm ∧
      s.isCRLF = (countLines isTerm content).2.2) (Refused granted) := by
  refine Ends.bind (mmapLoop_spec hseen hlf (scanned_start hgrant) (by simp)) ?_
  rintro s₁ ⟨h, hend⟩
  refine Ends.bind (writeHalf_spec hseen h hend) ?_
  rintro s₂ ⟨hgrant₂, hs₂⟩
  have hdrop : content.drop s₁.currPos = [] := by rw [hend, List.drop_length]
  have hcut := h.counted.lds
  have hcount := h.counted.free
  have hcrlf := h.counted.crlf
  rw [hdrop] at hcut hcount hcrlf
  refine Ends.weaken (writeFile_spec hgrant₂) ?_
  rintro s₃ ⟨hgrant₃, hs₃⟩
  rw [hs₃, hs₂]
  refine ⟨hgrant₃, rfl, ?_, ?_, ?_, ?_⟩
  · simpa [lineCuts] using hcut
  · simp [h.counted.numLines]
  · simpa using hcount
  · simpa [countLines] using hcrlf

end NiceEditor.MmapFiles
