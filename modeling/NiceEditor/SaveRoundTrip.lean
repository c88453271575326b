import NiceEditor.LoadStrategies
import NiceEditor.Save

namespace NiceEditor.SaveRoundTrip

open NiceEditor.Pools
open NiceEditor.BufferData
open NiceEditor.Load
open NiceEditor.LoadText
open NiceEditor.LoadPools
open NiceEditor.LoadStrategies
open NiceEditor.Save

variable {isTerm : Byte → Bool} {content rest line : List Byte}

theorem intercalate_splitText {sep : List Byte} (line front rest : List Byte) :
    sep.intercalate (front :: splitText isTerm line rest) =
      front ++ sep ++ sep.intercalate (splitText isTerm line rest) :=
  List.intercalate_cons_of_ne_nil (splitText_ne_nil _ _ _)

theorem splitText_join_byte {t : Byte} (ht : t ≠ cr)
    (hterm : ∀ c ∈ rest, isTerm c = true → c = t) :
    [t].intercalate (splitText isTerm line rest) = line ++ rest := by
  fun_induction splitText isTerm line rest with
  | case1 line => simp
  | case2 line c hc =>
      obtain rfl := hterm c (by simp) hc
      rw [List.intercalate_cons_cons, List.intercalate_singleton, List.append_nil]
  | case3 line c hc => simp
  | case4 line c d rest hc hpair ih =>
      obtain rfl := hterm c (by simp) hc
      exact absurd hpair.1 ht
  | case5 line c d rest hc hpair ih =>
      obtain rfl := hterm c (by simp) hc
      rw [intercalate_splitText, ih fun e he => hterm e (by simp_all)]
      simp
  | case6 line c d rest hc ih =>
      rw [ih fun e he => hterm e (by simp_all)]
      simp

/-- Every CR is followed by a LF, and every LF comes after a CR. -/
def Paired (content : List Byte) : Prop :=
  (∀ i, content[i]? = some cr → content[i + 1]? = some lf) ∧
    content[0]? ≠ some lf ∧ ∀ i, content[i + 1]? = some lf → content[i]? = some cr

theorem Paired.cons {c : Byte} (h : Paired (c :: rest)) :
    c ≠ lf ∧ (c ≠ cr ∧ Paired rest ∨ c = cr ∧ ∃ tail, rest = lf :: tail ∧ Paired tail) := by
  obtain ⟨hcr, hfirst, hlf⟩ := h
  refine ⟨fun hc => hfirst (by rw [hc]; rfl), ?_⟩
  by_cases hc : c = cr
  · right
    have hnext := hcr 0 (by rw [hc]; rfl)
    rcases rest with _ | ⟨d, tail⟩
    · simp at hnext
    obtain rfl : d = lf := by simpa using hnext
    refine ⟨hc, tail, rfl, fun i hi => hcr (i + 2) hi, fun hzero => ?_, fun i hi => hlf (i + 2) hi⟩
    exact absurd (hlf 1 hzero) (by simp [lf, cr])
  · left
    refine ⟨hc, fun i hi => hcr (i + 1) hi, fun hzero => ?_, fun i hi => hlf (i + 1) hi⟩
    exact hc (by simpa using hlf 0 hzero)

theorem splitText_join_pair (hterm : ∀ c ∈ rest, isTerm c = true → c = cr ∨ c = lf)
    (hcr : isTerm cr = true) (hpaired : Paired rest) :
    [cr, lf].intercalate (splitText isTerm line rest) = line ++ rest := by
  fun_induction splitText isTerm line rest with
  | case1 line => simp
  | case2 line c hc =>
      obtain ⟨hne, ⟨hne', -⟩ | ⟨-, tail, htail, -⟩⟩ := hpaired.cons
      · rcases hterm c (by simp) hc with h | h
        · exact absurd h hne'
        · exact absurd h hne
      · simp at htail
  | case3 line c hc => simp
  | case4 line c d rest hc hpair ih =>
      obtain ⟨rfl, rfl⟩ := hpair
      obtain ⟨-, ⟨hne, -⟩ | ⟨-, tail, htail, hpaired'⟩⟩ := hpaired.cons
      · exact absurd rfl hne
      obtain rfl := (List.cons.inj htail).2
      rw [intercalate_splitText, ih (fun e he => hterm e (by simp_all)) hpaired']
      simp
  | case5 line c d rest hc hpair ih =>
      obtain ⟨hne, ⟨hne', -⟩ | ⟨hcr', tail, htail, -⟩⟩ := hpaired.cons
      · rcases hterm c (by simp) hc with h | h
        · exact absurd h hne'
        · exact absurd h hne
      · exact absurd ⟨hcr', (List.cons.inj htail).1⟩ hpair
  | case6 line c d rest hc ih =>
      obtain ⟨-, ⟨-, hpaired'⟩ | ⟨rfl, -⟩⟩ := hpaired.cons
      · rw [ih (fun e he => hterm e (by simp_all)) hpaired']
        simp
      · exact absurd hcr hc

theorem countLines_crlf_of_not_mem (hcr : isTerm cr = true → cr ∉ content) :
    (countLines isTerm content).2.2 = false := by
  fun_induction countLines isTerm content with
  | case1 => rfl
  | case2 => rfl
  | case3 => rfl
  | case4 c d rest hc hpair lines free crlf heq ih =>
      obtain ⟨rfl, -⟩ := hpair
      exact absurd (List.mem_cons_self) (hcr hc)
  | case5 c d rest hc hpair lines free crlf heq ih =>
      rw [heq] at ih
      exact ih fun h => List.not_mem_of_not_mem_cons (hcr h)
  | case6 c d rest hc ih => exact ih fun h => List.not_mem_of_not_mem_cons (hcr h)

theorem countLines_crlf_of_mem (hcr : isTerm cr = true) (hpaired : Paired content)
    (hterm : ∀ c ∈ content, isTerm c = true → c = cr ∨ c = lf) (hmem : cr ∈ content) :
    (countLines isTerm content).2.2 = true := by
  induction content with
  | nil => simp at hmem
  | cons c rest ih =>
      obtain ⟨hne, ⟨hne', hpaired'⟩ | ⟨rfl, tail, rfl, -⟩⟩ := hpaired.cons
      · have hc : ¬ isTerm c = true := fun hc => by
          rcases hterm c (by simp) hc with h | h
          · exact absurd h hne'
          · exact absurd h hne
        rw [countLines_char hc]
        refine ih hpaired' (fun e he => hterm e (List.mem_cons_of_mem _ he)) ?_
        exact (List.mem_cons.mp hmem).resolve_left fun h => hne' h.symm
      · exact countLines_pair hcr

/-- The texts that the line terminators of a mode can hold. -/
def Faithful (opt : Options) (content : List Byte) : Prop :=
  opt.binary = true ∨ (opt.preserveCr = true ∧ 0 ∉ content) ∨
    (0 ∉ content ∧ (cr ∉ content ∨ Paired content))

theorem isTerminator_cases {opt : Options} {c : Byte} (h : isTerminator opt c = true) :
    c = 0 ∨ opt.binary = false ∧ (c = lf ∨ opt.preserveCr = false ∧ c = cr) := by
  unfold isTerminator at h
  cases hbinary : opt.binary <;> cases hcr : opt.preserveCr <;> simp_all
  all_goals tauto

theorem isTerminator_cr {opt : Options} :
    isTerminator opt cr = true ↔ opt.binary = false ∧ opt.preserveCr = false := by
  unfold isTerminator
  cases opt.binary <;> cases opt.preserveCr <;> simp [cr, lf]

/-- The lines of a text, joined by the terminators of its mode, are the text. -/
theorem join_splitText {b : Buffer} (hmode : Faithful b.opt content)
    (hcrlf : b.isCRLF = (countLines (isTerminator b.opt) content).2.2) :
    (terminator b).intercalate (splitText (isTerminator b.opt) [] content) = content := by
  cases hbinary : b.opt.binary with
  | true =>
      have hterm : ∀ c ∈ content, isTerminator b.opt c = true → c = 0 := by
        intro c _ hc
        rcases isTerminator_cases hc with hc | hc
        · exact hc
        · simp [hbinary] at hc
      rw [terminator, hbinary, if_pos rfl, splitText_join_byte (by decide) hterm, List.nil_append]
  | false =>
      have hnul : 0 ∉ content := by
        rcases hmode with h | h | h
        · simp [hbinary] at h
        · exact h.2
        · exact h.1
      have hsep : terminator b = if b.isCRLF then [cr, lf] else [lf] := by
        simp [terminator, hbinary]
      by_cases hcr : isTerminator b.opt cr = true ∧ cr ∈ content
      · -- The lines end with pairs.
        have hpaired : Paired content := by
          have hpreserve := (isTerminator_cr.mp hcr.1).2
          rcases hmode with h | h | ⟨-, h | h⟩
          · simp [hbinary] at h
          · simp [hpreserve] at h
          · exact absurd hcr.2 h
          · exact h
        have hterm : ∀ c ∈ content, isTerminator b.opt c = true → c = cr ∨ c = lf := by
          intro c hmem hc
          rcases isTerminator_cases hc with rfl | ⟨-, hc | ⟨-, hc⟩⟩
          · exact absurd hmem hnul
          · exact Or.inr hc
          · exact Or.inl hc
        rw [hsep, hcrlf, countLines_crlf_of_mem hcr.1 hpaired hterm hcr.2, if_pos rfl,
          splitText_join_pair hterm hcr.1 hpaired, List.nil_append]
      · have hterm : ∀ c ∈ content, isTerminator b.opt c = true → c = lf := by
          intro c hmem hc
          rcases isTerminator_cases hc with rfl | ⟨-, hc' | ⟨-, rfl⟩⟩
          · exact absurd hmem hnul
          · exact hc'
          · exact absurd ⟨hc, hmem⟩ hcr
        rw [hsep, hcrlf, countLines_crlf_of_not_mem fun h hmem => hcr ⟨h, hmem⟩,
          if_neg (by simp), splitText_join_byte (by decide) hterm, List.nil_append]

theorem savedText_of_load {b b' : Buffer} {f : File} (hfd : f.fd ≠ 0)
    (hmode : Faithful b.opt f.content)
    (hseen : f.seekable = true → b.chars.answers 0 = false → ∀ n, f.writeFails n = false)
    (hload : loadFdInBuffer b f = (.ok, b')) :
    savedText b' = f.content := by
  by_cases hempty : f.seekable = true ∧ f.content = []
  · obtain ⟨hseek, hnil⟩ := hempty
    obtain ⟨undo, hempty⟩ := loadFdInBuffer_empty (b := b) hseek hnil
    have hb' := (Prod.mk.inj (hempty.symm.trans hload)).2
    have hlines : lines b' = [[]] := by
      rw [← hb']
      rfl
    rw [savedText, hlines, hnil, List.intercalate_singleton]
  · have hread : textRead b f = f.content := by
      simp [textRead, hfd]
    have houtcome := loadFdInBuffer_outcome False (b := b) (f := f)
      (fun hseek hnil => hempty ⟨hseek, hnil⟩) (fun _ => hseen) False.elim False.elim
    rw [hload, hread] at houtcome
    cases houtcome with
    | failed status answers hstatus => exact absurd rfl hstatus
    | loaded b₁ cp hplaced hpos hframed =>
        obtain ⟨-, -, -, hcrlf, hopt, -⟩ := finishLoad_frame hplaced
        have hopt₁ : b₁.opt = b.opt := by
          rw [hframed]
          rfl
        have hterm : terminator (finishLoad b₁ cp f.content.length) = terminator b₁ := by
          unfold terminator
          rw [hopt, hcrlf]
        rw [savedText, finishLoad_lines hplaced, hterm]
        exact join_splitText (hopt₁ ▸ hmode) hplaced.crlf

/-- Loading a file and saving the buffer writes the same bytes, whichever way
the file is loaded and saved. Only a write to the temporary file of a mapping
that fails is not seen by the load. -/
theorem load_save (b : Buffer) (f : File) (hfd : f.fd ≠ 0) (hmode : Faithful b.opt f.content) :
    (∀ b' b'' name file,
      (f.seekable = true → b.chars.answers 0 = false → ∀ n, f.writeFails n = false) →
      loadFdInBuffer b f = (.ok, b') →
      saveBufferToFile b' name = (.ok, b'', file) → file = some f.content) ∧
    (Granting b.chars.answers → b.opt.readOnly = false →
      ∃ b' b'', loadFdInBuffer b f = (.ok, b') ∧
        saveBufferToFile b' (some ⟨false, false⟩) = (.ok, b'', some f.content)) := by
  constructor
  · intro b' b'' name file hseen hload hsave
    obtain ⟨hfile, -⟩ := saveBufferToFile_ok hsave
    rw [hfile, savedText_of_load hfd hmode hseen hload]
  · intro hgrant hwritable
    obtain ⟨b', hload, hgrant', hopt⟩ := loadFdInBuffer_granting (f := f) hgrant
    obtain ⟨b'', hsave⟩ := saveBufferToFile_granting hgrant' (hopt ▸ hwritable)
    -- Memory that is granted leaves nothing to a mapping.
    have hseen : f.seekable = true → b.chars.answers 0 = false → ∀ n, f.writeFails n = false :=
      fun _ hno => by simp [hgrant 0] at hno
    exact ⟨b', b'', hload, by rw [hsave, savedText_of_load hfd hmode hseen hload]⟩

/-- A file of two lines is loaded and saved. -/
theorem load_save_twoLines :
    ∃ b' b'', loadFdInBuffer (newBuffer false none fun _ => true)
          ⟨3, true, [97, 10, 98], fun _ => false⟩ = (.ok, b') ∧
      saveBufferToFile b' (some ⟨false, false⟩) = (.ok, b'', some [97, 10, 98]) :=
  (load_save (newBuffer false none fun _ => true) ⟨3, true, [97, 10, 98], fun _ => false⟩
    (by decide) (Or.inr (Or.inr ⟨by decide, Or.inl (by decide)⟩))).2 (fun _ => rfl) rfl

end NiceEditor.SaveRoundTrip
