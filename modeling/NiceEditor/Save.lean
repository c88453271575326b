import NiceEditor.MmapFiles
import NiceEditor.Outcomes

namespace NiceEditor.Save

open NiceEditor.Pools
open NiceEditor.BufferData
open NiceEditor.UndoSteps
open NiceEditor.Load
open NiceEditor.MmapFiles
open NiceEditor.Outcomes

def saveBlockLen : Nat := 16 * 1024 - 1

/-- What the file system says about a name, before the file is opened. -/
structure Target where
  isDirectory : Bool
  isMigrated : Bool
deriving DecidableEq, Repr

/-- The file written so far, and the bytes in use of the block. -/
structure SaveState where
  file : List Byte
  used : List Byte
  answers : Answers

/-- A write to the file that is saved. -/
def writeBytes (failure : Status) (s : SaveState) (bytes : List Byte) :
    Except (Status × Answers) SaveState :=
  if s.answers 0 then
    .ok { s with file := s.file ++ bytes, answers := Answers.rest s.answers }
  else .error (failure, Answers.rest s.answers)

/-- The block is written, and is empty again. -/
def writeBlock (failure : Status) (s : SaveState) : Except (Status × Answers) SaveState := do
  let s ← writeBytes failure s s.used
  return { s with used := [] }

/-- The characters of a line are put into the block, which is written whenever it
is full.  Every turn takes a character at least. -/
def saveChars : Nat → List Byte → SaveState → Except (Status × Answers) SaveState
  | 0, _, s => .ok s
  | turns + 1, l, s =>
      if l = [] then .ok s
      else
        let room := saveBlockLen - s.used.length
        if l.length < room then .ok { s with used := s.used ++ l }
        else do
          let s ← writeBlock .cannotSaveDiskFull { s with used := s.used ++ l.take room }
          saveChars turns (l.drop room) s

/-- What ends a line in the file. -/
def terminator (b : Buffer) : List Byte :=
  if b.opt.binary then [0] else if b.isCRLF then [cr, lf] else [lf]

/-- The block is written when it cannot take another line terminator. -/
def flushBlock (s : SaveState) : Except (Status × Answers) SaveState :=
  if saveBlockLen ≤ s.used.length then writeBlock .ioError s else .ok s

/-- The lines are saved through the block; there is no line terminator after
the last one. -/
def saveLines (sep : List Byte) :
    List (List Byte) → SaveState → Except (Status × Answers) SaveState
  | [], s => .ok s
  | l :: rest, s => do
      let s ← saveChars l.length l s
      let s ← flushBlock { s with used := s.used ++ if rest = [] then [] else sep }
      saveLines sep rest s

/-- A write that is made only when `c` holds. -/
def writeIf (c : Prop) [Decidable c] (s : SaveState) (bytes : List Byte) :
    Except (Status × Answers) SaveState :=
  if c then writeBytes .ioError s bytes else .ok s

/-- Without a block every line is written by itself. -/
def saveLinesDirect (b : Buffer) :
    List (List Byte) → SaveState → Except (Status × Answers) SaveState
  | [], s => .ok s
  | l :: rest, s => do
      let s ← writeIf (l ≠ []) s l
      let s ← writeIf (rest ≠ [] ∧ b.opt.binary = false ∧ b.isCRLF = true) s [cr]
      let s ← writeIf (rest ≠ []) s [if b.opt.binary then 0 else lf]
      saveLinesDirect b rest s

/-- What is left in the block is written. -/
def writeRest (s : SaveState) : Except (Status × Answers) SaveState :=
  if s.used = [] then .ok s else writeBlock .ioError s

/-- The lines are saved through a block, if there is memory for it. -/
def saveText (b : Buffer) (answers : Answers) : Except (Status × Answers) SaveState :=
  if answers 0 then do
    let s ← saveLines (terminator b) (lines b) ⟨[], [], Answers.rest answers⟩
    writeRest s
  else saveLinesDirect b (lines b) ⟨[], [], Answers.rest answers⟩

/-- The file is opened, the lines are saved and the file is closed. -/
def saveFile (b : Buffer) : Except (Status × Answers) SaveState := do
  let answers ← tryCall .cantOpenFile b.chars.answers
  let s ← saveText b answers
  let answers ← tryCall .ioError s.answers
  return { s with answers := answers }

/-- `save_buffer_to_file`; the contents of the file are given when it could be
saved. -/
def saveBufferToFile (b : Buffer) (name : Option Target) :
    Status × Buffer × Option (List Byte) :=
  if b.opt.readOnly then (.documentIsReadOnly, b, none)
  else
    match name with
    | none => (.error, b, none)
    | some target =>
        if target.isDirectory then (.fileIsDirectory, b, none)
        else if target.isMigrated then (.fileIsMigrated, b, none)
        else
          match saveFile b with
          | .error (status, answers) => (status, setAnswers b answers, none)
          | .ok s => (.ok, { setAnswers b s.answers with isModified := false }, some s.file)

variable {b : Buffer} {granted : Prop} {s : SaveState} {text : List Byte}

/-- The text put out so far, and room in the block. -/
structure Saved (granted : Prop) (text : List Byte) (s : SaveState) : Prop where
  answers : granted → Granting s.answers
  text_eq : s.file ++ s.used = text
  room : s.used.length < saveBlockLen

theorem writeBytes_spec {failure : Status} (hfailure : failure ≠ .ok)
    (hgrant : granted → Granting s.answers) (bytes : List Byte) :
    Ends (writeBytes failure s bytes) (fun s' => (granted → Granting s'.answers) ∧
      s'.file = s.file ++ bytes ∧ s'.used = s.used) (Refused granted) := by
  unfold writeBytes
  refine Ends.ite (fun _ => ⟨fun hg => granting_rest (hgrant hg), rfl, rfl⟩) fun hrefused => ?_
  exact ⟨hfailure, fun hg => hrefused (hgrant hg 0)⟩

theorem writeBlock_spec {failure : Status} (hfailure : failure ≠ .ok)
    (hgrant : granted → Granting s.answers) :
    Ends (writeBlock failure s) (fun s' => Saved granted (s.file ++ s.used) s' ∧ s'.used = [])
      (Refused granted) := by
  refine Ends.bind (writeBytes_spec hfailure hgrant s.used) ?_
  rintro s' ⟨hgrant', hfile, -⟩
  exact Ends.pure ⟨⟨hgrant', by simp [hfile], by simp [saveBlockLen]⟩, rfl⟩

theorem saveChars_spec {turns : Nat} {l : List Byte} (h : Saved granted text s)
    (hturns : l.length ≤ turns) :
    Ends (saveChars turns l s) (Saved granted (text ++ l)) (Refused granted) := by
  induction turns generalizing l s text with
  | zero =>
      obtain rfl := List.eq_nil_of_length_eq_zero (Nat.le_zero.mp hturns)
      rw [List.append_nil]
      exact h
  | succ turns ih =>
      have hroom := h.room
      refine Ends.ite (fun hnil => ?_) fun hne => ?_
      · rw [hnil, List.append_nil]
        exact h
      refine Ends.ite (fun hfits => ?_) fun hfull => ?_
      · refine ⟨h.answers, ?_, ?_⟩
        · simp only [← h.text_eq, List.append_assoc]
        · simp only [List.length_append]
          omega
      · refine Ends.bind (writeBlock_spec (by decide) h.answers) ?_
        rintro s' ⟨hsaved, -⟩
        have htext : text ++ l = s.file ++ (s.used ++ l.take (saveBlockLen - s.used.length)) ++
            l.drop (saveBlockLen - s.used.length) := by
          rw [← h.text_eq]
          simp only [List.append_assoc, List.take_append_drop]
        rw [htext]
        exact ih hsaved (by rw [List.length_drop]; omega)

theorem flushBlock_spec (hgrant : granted → Granting s.answers) :
    Ends (flushBlock s) (Saved granted (s.file ++ s.used)) (Refused granted) := by
  refine Ends.ite (fun _ => ?_) fun hroom => ⟨hgrant, rfl, by omega⟩
  exact Ends.weaken (writeBlock_spec (by decide) hgrant) fun s' h => h.1

theorem saveLines_spec {sep : List Byte} {ls : List (List Byte)} (h : Saved granted text s) :
    Ends (saveLines sep ls s) (Saved granted (text ++ sep.intercalate ls)) (Refused granted) := by
  induction ls generalizing s text with
  | nil =>
      rw [List.intercalate_nil, List.append_nil]
      exact h
  | cons l rest ih =>
      refine Ends.bind (saveChars_spec h le_rfl) fun s₁ h₁ => ?_
      refine Ends.bind (flushBlock_spec h₁.answers) fun s₂ h₂ => ?_
      have htext : text ++ sep.intercalate (l :: rest) =
          s₁.file ++ (s₁.used ++ if rest = [] then [] else sep) ++ sep.intercalate rest := by
        rw [← List.append_assoc s₁.file, h₁.text_eq]
        by_cases hrest : rest = []
        · simp [hrest]
        · rw [List.intercalate_cons_of_ne_nil hrest, if_neg hrest]
          simp only [List.append_assoc]
      rw [htext]
      exact ih h₂

theorem writeRest_spec (h : Saved granted text s) :
    Ends (writeRest s) (fun s' => (granted → Granting s'.answers) ∧ s'.file = text)
      (Refused granted) := by
  have htext := h.text_eq
  refine Ends.ite (fun hnil => ⟨h.answers, ?_⟩) fun _ => ?_
  · rwa [hnil, List.append_nil] at htext
  · refine Ends.weaken (writeBlock_spec (by decide) h.answers) ?_
    rintro s' ⟨hsaved, hnil⟩
    have htext' := hsaved.text_eq
    rw [hnil, List.append_nil] at htext'
    exact ⟨hsaved.answers, htext'.trans htext⟩

theorem writeIf_spec {c : Prop} [Decidable c] (hgrant : granted → Granting s.answers)
    (bytes : List Byte) :
    Ends (writeIf c s bytes) (fun s' => (granted → Granting s'.answers) ∧
      s'.file = s.file ++ if c then bytes else []) (Refused granted) := by
  refine Ends.ite (fun hc => ?_) fun hc => ⟨hgrant, by simp [hc]⟩
  refine Ends.weaken (writeBytes_spec (by decide) hgrant bytes) ?_
  rintro s' ⟨hgrant', hfile, -⟩
  exact ⟨hgrant', by rw [hfile, if_pos hc]⟩

theorem saveLinesDirect_spec {ls : List (List Byte)} (hgrant : granted → Granting s.answers) :
    Ends (saveLinesDirect b ls s) (fun s' => (granted → Granting s'.answers) ∧
      s'.file = s.file ++ (terminator b).intercalate ls) (Refused granted) := by
  induction ls generalizing s with
  | nil => exact ⟨hgrant, by simp⟩
  | cons l rest ih =>
      refine Ends.bind (writeIf_spec hgrant l) ?_
      rintro s₁ ⟨h₁, hfile₁⟩
      refine Ends.bind (writeIf_spec h₁ [cr]) ?_
      rintro s₂ ⟨h₂, hfile₂⟩
      refine Ends.bind (writeIf_spec h₂ [if b.opt.binary = true then 0 else lf]) ?_
      rintro s₃ ⟨h₃, hfile₃⟩
      refine Ends.weaken (ih h₃) ?_
      rintro s₄ ⟨h₄, hfile₄⟩
      refine ⟨h₄, ?_⟩
      have hl : (if l ≠ [] then l else []) = l := by
        by_cases hnil : l = [] <;> simp [hnil]
      rw [hfile₄, hfile₃, hfile₂, hfile₁, hl]
      by_cases hrest : rest = []
      · simp [hrest]
      · rw [List.intercalate_cons_of_ne_nil hrest]
        cases hbinary : b.opt.binary <;> cases hcrlf : b.isCRLF <;>
          simp [terminator, hbinary, hcrlf, hrest]

/-- The text of the file: the lines of the buffer with their terminators. -/
def savedText (b : Buffer) : List Byte := (terminator b).intercalate (lines b)

theorem saveText_spec {answers : Answers} (hgrant : granted → Granting answers) :
    Ends (saveText b answers) (fun s => (granted → Granting s.answers) ∧ s.file = savedText b)
      (Refused granted) := by
  have hrest : granted → Granting (Answers.rest answers) := fun hg => granting_rest (hgrant hg)
  refine Ends.ite (fun _ => ?_) fun _ => saveLinesDirect_spec hrest
  refine Ends.bind (saveLines_spec ⟨hrest, rfl, by simp [saveBlockLen]⟩) ?_
  exact fun s h => writeRest_spec h

variable (granted) in
theorem saveFile_spec (hgrant : granted → Granting b.chars.answers) :
    Ends (saveFile b) (fun s => (granted → Granting s.answers) ∧ s.file = savedText b)
      (Refused granted) := by
  refine Ends.bind (tryCall_spec _ (by decide) hgrant) fun answers hopen => ?_
  refine Ends.bind (saveText_spec hopen) ?_
  rintro s ⟨hs, hfile⟩
  refine Ends.bind (tryCall_spec _ (by decide) hs) fun answers' h' => ?_
  exact Ends.pure ⟨h', hfile⟩

theorem saveBufferToFile_ok {name : Option Target} {b' : Buffer} {file : Option (List Byte)}
    (h : saveBufferToFile b name = (.ok, b', file)) :
    file = some (savedText b) ∧
      ∃ answers, b' = { setAnswers b answers with isModified := false } := by
  have hsave := saveFile_spec False (b := b) False.elim
  unfold saveBufferToFile at h
  split at h
  · simp at h
  split at h
  · simp at h
  split at h
  · simp at h
  split at h
  · simp at h
  split at h
  · rename_i status answers heq
    rw [heq] at hsave
    exact absurd (Prod.mk.inj h).1 hsave.1
  · rename_i s heq
    rw [heq] at hsave
    simp only [Prod.mk.injEq] at h
    obtain ⟨-, rfl, rfl⟩ := h
    exact ⟨congrArg some hsave.2, s.answers, rfl⟩

theorem saveBufferToFile_granting (hgrant : Granting b.chars.answers)
    (hwritable : b.opt.readOnly = false) :
    ∃ b', saveBufferToFile b (some ⟨false, false⟩) = (.ok, b', some (savedText b)) := by
  have hsave := saveFile_spec True (b := b) fun _ => hgrant
  unfold saveBufferToFile
  simp only [hwritable, Bool.false_eq_true, if_false]
  split
  · rename_i status answers heq
    rw [heq] at hsave
    exact absurd trivial hsave.2
  · rename_i s heq
    rw [heq] at hsave
    exact ⟨_, by rw [hsave.2]⟩

end NiceEditor.Save
