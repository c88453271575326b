import NiceEditor.OptionsOnly
import NiceEditor.UndoChains

namespace NiceEditor.OptionFrames

open NiceEditor.Pools
open NiceEditor.BufferData
open NiceEditor.UndoSteps
open NiceEditor.Navigation
open NiceEditor.Commands
open NiceEditor.Sessions
open NiceEditor.OptionsOnly
open NiceEditor.UndoChains

/-- The fields of a document that have commands of their own. -/
structure FixedFields where
  undo : UndoBuffer
  linkUndos : Int
  undoing : Bool
  redoing : Bool
  atomicUndo : Bool
  bpasteSupport : Nat
  bpasteMacroBefore : Option (List Byte)
  bpasteMacroAfter : Option (List Byte)

def fixedFields (d : Document) : FixedFields where
  undo := d.buffer.undo
  linkUndos := d.buffer.linkUndos
  undoing := d.buffer.undoing
  redoing := d.buffer.redoing
  atomicUndo := d.atomicUndo
  bpasteSupport := d.bpasteSupport
  bpasteMacroBefore := d.bpasteMacroBefore
  bpasteMacroAfter := d.bpasteMacroAfter

/-- These fields are the same in every document. -/
def KeepsFixed (s s' : Session) : Prop :=
  ∀ b, fixedFields (s'.documents b) = fixedFields (s.documents b)

variable {w : World} {s s' s'' : Session} {b : Nat} {a : Action} {c : Int}
variable {p : Option (List Byte)}

theorem KeepsFixed.of_eq (h : s'.documents = s.documents) : KeepsFixed s s' := fun b => by rw [h]

theorem KeepsFixed.trans (first : KeepsFixed s s') (second : KeepsFixed s' s'') :
    KeepsFixed s s'' := fun b => (second b).trans (first b)

theorem KeepsFixed.setDocument {f : Document → Document}
    (hf : ∀ d, fixedFields (f d) = fixedFields d) : KeepsFixed s (s.setDocument b f) := by
  intro b'
  by_cases hb : b' = b
  · subst hb
    simp [Session.setDocument, hf]
  · simp [Session.setDocument, hb]

theorem KeepsFixed.setOpt {f : Options → Options} : KeepsFixed s (s.setOpt b f) :=
  .setDocument fun _ => rfl

theorem pushPrefs_keepsFixed {opt : Options} (n : Nat) : KeepsFixed s (pushPrefs opt n s).2 := by
  induction n generalizing s with
  | zero => exact .of_eq rfl
  | succ n ih =>
      rw [pushPrefs]
      split
      · exact .of_eq rfl
      · exact ih

theorem record_keepsFixed : KeepsFixed s (record s b c).2 := by
  unfold record
  split
  · rename_i cs _
    split
    · have hset : KeepsFixed s (s.setDocument b fun d => { d with curMacro := cs }) :=
        .setDocument fun _ => rfl
      exact hset
    · split
      · exact .of_eq rfl
      · exact .of_eq rfl
  · split
    · exact .of_eq rfl
    · split
      · exact .of_eq rfl
      · exact .of_eq rfl

theorem fixedFields_of_steady {d : Document} {b : Buffer} (h : Steady d.buffer b) :
    fixedFields { d with buffer := b } = fixedFields d := by
  simp only [fixedFields, h.undo, h.linkUndos, h.undoing, h.redoing]

theorem mark_steady (vertical : Bool) (c : Int) (b : Buffer) : Steady b (mark vertical c b) := by
  unfold mark
  dsimp only
  generalize (if c < 0 then 1 else c) = n
  split
  · exact ⟨rfl, rfl, rfl, rfl⟩
  · exact ⟨rfl, rfl, rfl, rfl⟩

/-- Only three of the options change these fields. -/
theorem doOption_keepsFixed (h : Harmless a) (hpaste : a ≠ .bracketedPasteA)
    (hdoUndo : a ≠ .doUndoA) (hutf8 : a ≠ .utf8A) : KeepsFixed s (doOption w s b a c p).2 := by
  have hdocument : ∀ {status : CommandStatus} {s : Session} {f : Document → Document},
      (∀ d, fixedFields (f d) = fixedFields d) →
        KeepsFixed s (status, s.setDocument b f).2 := fun hf => .setDocument hf
  have hopt : ∀ {status : CommandStatus} {f : Options → Options},
      KeepsFixed s (status, s.setOpt b f).2 := .setOpt
  have hboth : ∀ {status : CommandStatus} {f : Options → Options} {g : Document → Document},
      (∀ d, fixedFields (g d) = fixedFields d) →
        KeepsFixed s (status, (s.setOpt b f).setDocument b g).2 :=
    fun hg => KeepsFixed.setOpt.trans (.setDocument hg)
  cases a with
  | bracketedPasteA => exact absurd rfl hpaste
  | doUndoA => exact absurd rfl hdoUndo
  | utf8A => exact absurd rfl hutf8
  | caseSearchA | searchBackA => exact hboth (by intro d; rfl)
  | autoMatchBracketA | clipNumberA | rightMarginA =>
      simp only [doOption]
      split
      · exact .of_eq rfl
      · exact hopt
  | escapeTimeA =>
      simp only [doOption]
      split
      · exact .of_eq rfl
      · split
        · exact .of_eq rfl
        · exact .of_eq rfl
  | turboA =>
      simp only [doOption]
      split
      · exact .of_eq rfl
      · exact .of_eq rfl
  | pushPrefsA => exact pushPrefs_keepsFixed _
  | recordA => exact record_keepsFixed
  | syntaxA =>
      simp only [doOption]
      split
      · exact .of_eq rfl
      · split
        · exact .of_eq rfl
        · split
          · exact hdocument (by intro d; rfl)
          · split
            · exact hdocument (by intro d; rfl)
            · exact .of_eq rfl
  | tabSizeA =>
      simp only [doOption]
      split
      · exact .of_eq rfl
      · split
        · refine hdocument fun d => fixedFields_of_steady ?_
          have hsol : ∀ o : Options, Steady d.buffer { moveToSol d.buffer with opt := o } :=
            fun _ => ⟨rfl, rfl, rfl, rfl⟩
          exact (hsol _).trans (gotoPos_steady _ _ _)
        · exact .of_eq rfl
  | markA | markVertA => exact hdocument fun d => fixedFields_of_steady (mark_steady _ _ _)
  | crlfA | modifiedA | nameConvertA => exact hdocument (by intro d; rfl)
  | fastGUIA | requestOrderA | statusBarA | utf8IOA | verboseMacrosA | nopA => exact .of_eq rfl
  | _ =>
      rcases h with h | h
      all_goals first | exact absurd h (by decide) | exact hopt

theorem setUtf8_frame (b : Buffer) :
    (setUtf8 c b).2.linkUndos = b.linkUndos ∧ (setUtf8 c b).2.undoing = b.undoing ∧
      (setUtf8 c b).2.redoing = b.redoing ∧
      ((setUtf8 c b).2.undo = b.undo ∨ (setUtf8 c b).2.undo = resetUndoBuffer b.undo) := by
  have hundo : ∀ new : EncodingType, (if b.encoding = new then b.undo else resetUndoBuffer b.undo) =
      b.undo ∨ (if b.encoding = new then b.undo else resetUndoBuffer b.undo) =
        resetUndoBuffer b.undo := by
    intro new
    split
    · exact .inl rfl
    · exact .inr rfl
  unfold setUtf8
  dsimp only
  split
  · split
    · exact ⟨rfl, rfl, rfl, hundo _⟩
    · exact ⟨rfl, rfl, rfl, .inl rfl⟩
  · exact ⟨rfl, rfl, rfl, hundo _⟩

theorem setBracketedPaste_buffer (q : List Byte) (b' : Nat) :
    ((setBracketedPaste s b q).2.documents b').buffer = (s.documents b').buffer ∧
      ((setBracketedPaste s b q).2.documents b').atomicUndo = (s.documents b').atomicUndo := by
  have hset : ∀ {status : CommandStatus} {f : Document → Document},
      (∀ d, (f d).buffer = d.buffer ∧ (f d).atomicUndo = d.atomicUndo) →
        (((status, s.setDocument b f).2.documents b').buffer = (s.documents b').buffer ∧
          ((status, s.setDocument b f).2.documents b').atomicUndo =
            (s.documents b').atomicUndo) := by
    intro status f hf
    by_cases hb : b' = b
    · subst hb
      simpa [Session.setDocument] using hf _
    · simp [Session.setDocument, hb]
  simp only [setBracketedPaste]
  split
  · split
    all_goals
      split
      · exact ⟨rfl, rfl⟩
      · exact hset (by intro d; exact ⟨rfl, rfl⟩)
  · split
    · exact hset (by intro d; exact ⟨rfl, rfl⟩)
    · exact ⟨rfl, rfl⟩

end NiceEditor.OptionFrames
