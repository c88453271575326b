import NiceEditor.PoolInvariant

namespace NiceEditor.StrategyAgreement

open NiceEditor.Cells
open NiceEditor.Pools
open NiceEditor.PoolOwnership
open NiceEditor.BufferData
open NiceEditor.Load
open NiceEditor.LoadText
open NiceEditor.LoadPools
open NiceEditor.LoadStrategies
open NiceEditor.PoolInvariant

variable {b b' : Buffer} {content : List Byte} {fd : Nat}

/-- A seekable file is read into memory. -/
def loadInMemory (b : Buffer) (fd : Nat) (content : List Byte) : Status × Buffer :=
  loadFdInBuffer (setAnswers b fun _ => true) ⟨fd, true, content, fun _ => false⟩

/-- There is no memory for the pool of a seekable file, but for all the rest. -/
def loadMapped (b : Buffer) (fd : Nat) (content : List Byte) : Status × Buffer :=
  loadFdInBuffer (setAnswers b fun n => n ≠ 0) ⟨fd, true, content, fun _ => false⟩

/-- The descriptor is not seekable. -/
def loadPiped (b : Buffer) (fd : Nat) (content : List Byte) : Status × Buffer :=
  loadFdInBuffer (setAnswers b fun _ => true) ⟨fd, false, content, fun _ => false⟩

/-- Cell `i` of `block` belongs to the segment of one of the lines. -/
def isUsed (lds : List LineDesc) (block i : Nat) : Bool :=
  lds.any fun ld =>
    match ld.line with
    | none => false
    | some p => p.block = block ∧ p.off ≤ i ∧ i < p.off + ld.lineLen

/-- The bytes of the pools that are not used by lines. -/
def unusedChars (b : Buffer) : Nat :=
  (b.chars.charPoolList.map fun c =>
    (List.range c.size).countP fun i => !isUsed b.lineDescList c.pool i).sum

/-- What a load yields, as far as the way of loading should not matter. -/
structure Outcome where
  status : Status
  lines : List (List Byte)
  numLines : Int
  isCRLF : Bool
  encoding : EncodingType
  freeExact : Bool
deriving DecidableEq

def outcome (r : Status × Buffer) : Outcome where
  status := r.1
  lines := lines r.2
  numLines := r.2.numLines
  isCRLF := r.2.isCRLF
  encoding := r.2.encoding
  freeExact := r.2.chars.freeChars = unusedChars r.2

/-- The three ways of loading yield the same, with an exact `free_chars`. -/
def Agree (b : Buffer) (fd : Nat) (content : List Byte) : Prop :=
  outcome (loadInMemory b fd content) = outcome (loadMapped b fd content) ∧
    outcome (loadMapped b fd content) = outcome (loadPiped b fd content) ∧
    (outcome (loadPiped b fd content)).status = .ok ∧
    (outcome (loadPiped b fd content)).freeExact = true

instance : Decidable (Agree b fd content) := inferInstanceAs (Decidable (_ ∧ _ ∧ _ ∧ _))

theorem isUsed_iff {lds : List LineDesc} {block i : Nat} :
    isUsed lds block i = true ↔ ∃ ld ∈ lds, Covers ld block i := by
  unfold isUsed
  rw [List.any_eq_true]
  refine exists_congr fun ld => and_congr_right fun _ => ?_
  cases hline : ld.line with
  | none => simp [Covers, hline]
  | some p =>
      simp only [Covers, hline, decide_eq_true_eq]
      constructor
      · rintro ⟨hblock, hlow, hhigh⟩
        exact ⟨p.off, by rw [← hblock], hlow, hhigh⟩
      · rintro ⟨off, hp, hlow, hhigh⟩
        obtain rfl := Option.some.inj hp
        exact ⟨rfl, hlow, hhigh⟩

theorem zeroCount_eq_countP (m : Nat → Byte) (size : Nat) :
    zeroCount m size = (List.range size).countP fun i => m i == 0 := by
  have hcells : ∀ start, readCells m start size = (List.range size).map fun i => m (start + i) := by
    intro start
    apply List.ext_getElem?
    intro i
    rw [readCells_getElem?, List.getElem?_map]
    by_cases hi : i < size
    · rw [if_pos hi, List.getElem?_range hi]
      rfl
    · rw [if_neg hi, List.getElem?_eq_none (by simpa using hi)]
      rfl
  rw [zeroCount, hcells, List.count, List.countP_map]
  simp only [Nat.zero_add]
  rfl

theorem unusedChars_eq (h : Owns True b.chars b.lineDescList) :
    unusedChars b = zeroChars b.chars := by
  unfold unusedChars zeroChars
  refine congrArg List.sum (List.map_congr_left fun c hc => ?_)
  rw [zeroCount_eq_countP]
  refine List.countP_congr fun i hi => ?_
  have hlt : i < c.size := List.mem_range.mp hi
  have hiff : isUsed b.lineDescList c.pool i = true ↔ b.chars.mem c.pool i ≠ 0 := by
    rw [isUsed_iff]
    constructor
    · rintro ⟨ld, hld, hcov⟩
      exact (h.used ld hld _ _ hcov).2
    · exact fun hne => h.all trivial _ _ ⟨⟨c, hc, rfl, hlt⟩, hne⟩
  rw [beq_iff_eq, Bool.not_eq_true', ← Bool.not_eq_true, hiff, not_not]

theorem splitText_flatten {isTerm : Byte → Bool} (hlf : isTerm cr = true → isTerm lf = true)
    (line rest : List Byte) :
    (splitText isTerm line rest).flatten = line ++ rest.filter fun c => !isTerm c := by
  fun_induction splitText isTerm line rest with
  | case1 line => simp
  | case2 line c hc => simp [hc]
  | case3 line c hc => simp [hc]
  | case4 line c d rest hc hpair ih =>
      have hd : isTerm d = true := by
        rw [hpair.2]
        exact hlf (hpair.1 ▸ hc)
      simp [hc, hd, ih]
  | case5 line c d rest hc hpair ih =>
      rw [List.flatten_cons, ih, List.nil_append, List.filter_cons_of_neg (a := c) (by simp [hc])]
  | case6 line c d rest hc ih =>
      rw [ih, List.filter_cons_of_pos (a := c) (by simp [hc]), List.append_assoc,
        List.singleton_append]

/-- What a load that succeeds yields, by the text it has read. -/
def textOutcome (opt : Options) (text : List Byte) : Outcome where
  status := .ok
  lines := splitText (isTerminator opt) [] text
  numLines := (splitText (isTerminator opt) [] text).length
  isCRLF := (countLines (isTerminator opt) text).2.2
  encoding := guessEncoding opt text
  freeExact := HasText opt text

theorem finishLoad_freeExact {cp : CharPool} {text : List Byte} (h : Placed text cp b)
    (hpos : 0 < cp.size) :
    (finishLoad b cp text.length).chars.freeChars =
        unusedChars (finishLoad b cp text.length) ↔ HasText b.opt text := by
  constructor
  · intro hfree
    by_contra htext
    obtain ⟨hchars, -⟩ := finishLoad_frame h
    have hnone := finishLoad_free h hpos htext
    rw [hfree, hchars, if_neg htext] at hnone
    simp only [unusedChars, zeroChars, hchars, if_neg htext] at hnone
    exact hnone rfl
  · intro htext
    have hown := finishLoad_owns True h fun _ => htext
    rw [unusedChars_eq hown]
    exact hown.free trivial

theorem outcome_of_loaded {text : List Byte} {r : Status × Buffer}
    (h : LoadOutcome True b text r) : outcome r = textOutcome b.opt text := by
  cases h with
  | failed status answers hstatus hgrant => exact absurd trivial hgrant
  | loaded b' cp hplaced hpos hframed =>
      obtain ⟨-, hlds, hnum, hcrlf, -, hencoding⟩ := finishLoad_frame hplaced
      have hopt : b'.opt = b.opt := by
        rw [hframed]
        rfl
      have hlines := finishLoad_lines hplaced
      have hlength : b'.lineDescList.length = (splitText (isTerminator b.opt) [] text).length := by
        rw [← hopt, ← hplaced.lines, BufferData.lines, List.length_map]
      have hfree := finishLoad_freeExact hplaced hpos
      rw [hopt] at hlines hfree hencoding
      unfold outcome textOutcome
      simp only [hlines, hnum, hplaced.numLines, hlength, hcrlf, hplaced.crlf, hencoding, hopt,
        hfree]

theorem loadInMemory_outcome (hne : content ≠ []) :
    outcome (loadInMemory b fd content) =
      textOutcome b.opt (if fd = 0 then List.replicate content.length 0 else content) := by
  have h := outcome_of_loaded (loadFdInBuffer_outcome True
    (b := setAnswers b fun _ => true) (f := ⟨fd, true, content, fun _ => false⟩) (fun _ => hne)
    (fun _ _ _ _ => rfl) (fun _ _ => rfl) fun _ _ => rfl)
  have hread : textRead (setAnswers b fun _ => true) ⟨fd, true, content, fun _ => false⟩ =
      if fd = 0 then List.replicate content.length 0 else content := by
    simp [textRead, setAnswers]
  rw [hread] at h
  exact h

theorem loadMapped_outcome (hne : content ≠ []) :
    outcome (loadMapped b fd content) = textOutcome b.opt content := by
  have h := outcome_of_loaded (loadFdInBuffer_outcome True
    (b := setAnswers b fun n => n ≠ 0) (f := ⟨fd, true, content, fun _ => false⟩) (fun _ => hne)
    (fun _ _ _ _ => rfl) (fun _ n => by simp [setAnswers, Answers.rest]) fun _ h => by simp at h)
  have hread : textRead (setAnswers b fun n => n ≠ 0) ⟨fd, true, content, fun _ => false⟩ =
      content := by
    simp [textRead, setAnswers]
  rw [hread] at h
  exact h

theorem loadPiped_outcome :
    outcome (loadPiped b fd content) = textOutcome b.opt content := by
  have h := outcome_of_loaded (loadFdInBuffer_outcome True
    (b := setAnswers b fun _ => true) (f := ⟨fd, false, content, fun _ => false⟩)
    (fun h => by simp at h)
    (fun _ _ _ _ => rfl) (fun _ _ => rfl) fun _ _ => rfl)
  have hread : textRead (setAnswers b fun _ => true) ⟨fd, false, content, fun _ => false⟩ =
      content := by
    simp [textRead]
  rw [hread] at h
  exact h

/-- The ways of loading agree exactly for the files with text, when the
descriptor is not 0. -/
theorem agree_iff (b : Buffer) (fd : Nat) (content : List Byte) :
    Agree b fd content ↔ fd ≠ 0 ∧ HasText b.opt content := by
  constructor
  · rintro ⟨hmapped, -, -, hfree⟩
    rw [loadPiped_outcome] at hfree
    have htext : HasText b.opt content := of_decide_eq_true hfree
    obtain ⟨c, hc, hchar⟩ := htext
    have hne : content ≠ [] := List.ne_nil_of_mem hc
    refine ⟨fun hfd => ?_, c, hc, hchar⟩
    -- Nothing is read from descriptor 0: there are only zeroes in the pool.
    rw [loadInMemory_outcome hne, if_pos hfd, loadMapped_outcome hne] at hmapped
    have hflat := congrArg (fun o => o.lines.flatten) hmapped
    simp only [textOutcome, splitText_flatten isTerminator_lf, List.nil_append] at hflat
    have hmem : c ∈ content.filter fun c => !isTerminator b.opt c :=
      List.mem_filter.mpr ⟨hc, by simp [hchar]⟩
    rw [← hflat] at hmem
    obtain ⟨hzero, hkept⟩ := List.mem_filter.mp hmem
    rw [(List.mem_replicate.mp hzero).2, isTerminator_nul] at hkept
    simp at hkept
  · rintro ⟨hfd, htext⟩
    have hne : content ≠ [] := by
      obtain ⟨c, hc, -⟩ := htext
      exact List.ne_nil_of_mem hc
    refine ⟨?_, ?_, ?_, ?_⟩
    · rw [loadInMemory_outcome hne, if_neg hfd, loadMapped_outcome hne]
    · rw [loadMapped_outcome hne, loadPiped_outcome]
    · rw [loadPiped_outcome]
      rfl
    · rw [loadPiped_outcome]
      exact decide_eq_true htext

/-- The file of one line feed, and the file of one letter on descriptor 0. -/
theorem not_agree_lineFeed :
    ¬ Agree (newBuffer false none fun _ => true) 3 [lf] ∧
      ¬ Agree (newBuffer false none fun _ => true) 0 [97] := by
  decide

end NiceEditor.StrategyAgreement
