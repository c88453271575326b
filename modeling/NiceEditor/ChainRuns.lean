import NiceEditor.ChainedActions
import NiceEditor.OptionFrames

namespace NiceEditor.ChainRuns

open NiceEditor.Pools
open NiceEditor.BufferData
open NiceEditor.UndoSteps
open NiceEditor.Undo
open NiceEditor.UndoChains
open NiceEditor.Flows
open NiceEditor.Navigation
open NiceEditor.Commands
open NiceEditor.ChainedActions
open NiceEditor.Sessions
open NiceEditor.OptionsOnly
open NiceEditor.OptionFrames

/-- Nothing is linked to a following step, on either side of the place in the history. -/
structure Settled (ub : UndoBuffer) : Prop where
  cur : ¬ Linked ub ub.curStep
  last : ¬ Linked ub ub.lastStep

/-- The open chain is at the end of the history, or the history does not end in a chain. -/
def AtEnd (ub : UndoBuffer) : Prop := ub.curStep = ub.lastStep ∨ ¬ Linked ub ub.lastStep

theorem Settled.atEnd {ub : UndoBuffer} (h : Settled ub) : AtEnd ub := .inr h.last

/-- What is true of a buffer while a function has opened so many chains, above `base`. -/
structure Describes (base : Nat) (a : Nat × Locals) (s : Buffer × Locals) : Prop where
  linkUndos : s.1.linkUndos = base + a.1
  locals : s.2 = a.2
  undoing : s.1.undoing = false
  redoing : s.1.redoing = false
  cur_le : s.1.undo.curStep ≤ s.1.undo.lastStep
  settled : base = 0 → a.1 = 0 → Settled s.1.undo
  atEnd : base = 0 → AtEnd s.1.undo

variable {t : Terminal} {b b' : Buffer} {base : Nat} {a : Nat × Locals} {v v' : Locals}

theorem Describes.steady {s s' : Buffer × Locals} (h : Describes base a s)
    (hsteady : Steady s.1 s'.1) (hlocals : s'.2 = s.2) : Describes base a s' where
  linkUndos := hsteady.linkUndos.trans h.linkUndos
  locals := hlocals.trans h.locals
  undoing := hsteady.undoing.trans h.undoing
  redoing := hsteady.redoing.trans h.redoing
  cur_le := hsteady.undo ▸ h.cur_le
  settled := hsteady.undo ▸ h.settled
  atEnd := hsteady.undo ▸ h.atEnd

theorem Describes.start (h : Describes base a (b, v)) :
    Describes base (a.1 + 1, a.2) (startUndoChain b, v) where
  linkUndos := by
    have hlink := h.linkUndos
    simp only [UndoSteps.startUndoChain, Nat.cast_add, Nat.cast_one] at hlink ⊢
    omega
  locals := h.locals
  undoing := h.undoing
  redoing := h.redoing
  cur_le := h.cur_le
  settled := fun _ hzero => absurd hzero (Nat.succ_ne_zero _)
  atEnd := h.atEnd

theorem endUndoChain_settled (hone : b.linkUndos = 1) (hend : AtEnd b.undo) :
    Settled (endUndoChain b).undo := by
  have hzero : ¬ b.linkUndos - 1 ≠ 0 := by omega
  simp only [endUndoChain, if_neg hzero]
  split
  · rename_i hlast
    obtain ⟨hcur, hneg⟩ := hlast
    have hcleared : ¬ Linked { b.undo with
        steps := Function.update b.undo.steps (b.undo.curStep - 1)
          { b.undo.steps (b.undo.curStep - 1) with
            pos := -(1 + (b.undo.steps (b.undo.curStep - 1)).pos) } } b.undo.curStep := by
      intro hlinked
      have hpos := hlinked.2
      simp only [Function.update_self] at hpos
      omega
    refine ⟨hcleared, fun hlinked => ?_⟩
    rcases hend with heq | hnot
    · simp only at hlinked
      rw [← heq] at hlinked
      exact hcleared hlinked
    · refine hnot ⟨hlinked.1, ?_⟩
      have hpos := hlinked.2
      simp only [Function.update_apply] at hpos
      split at hpos
      · rename_i hsame
        rw [hsame]
        exact hneg
      · exact hpos
  · rename_i hlast
    have hcur : ¬ Linked b.undo b.undo.curStep := hlast
    refine ⟨hcur, ?_⟩
    rcases hend with heq | hnot
    · rwa [heq] at hcur
    · exact hnot

theorem endUndoChain_frame (b : Buffer) :
    (endUndoChain b).linkUndos = b.linkUndos - 1 ∧ (endUndoChain b).undoing = b.undoing ∧
      (endUndoChain b).redoing = b.redoing ∧
      (endUndoChain b).undo.curStep = b.undo.curStep ∧
      (endUndoChain b).undo.lastStep = b.undo.lastStep ∧
      (b.linkUndos ≠ 1 → (endUndoChain b).undo = b.undo) := by
  unfold endUndoChain
  dsimp only
  split
  · exact ⟨rfl, rfl, rfl, rfl, rfl, fun _ => rfl⟩
  · rename_i hzero
    split
    · exact ⟨rfl, rfl, rfl, rfl, rfl, fun hone => absurd (by omega) hone⟩
    · exact ⟨rfl, rfl, rfl, rfl, rfl, fun _ => rfl⟩

theorem Describes.finish (h : Describes base a (b, v)) (hopen : a.1 ≠ 0) :
    Describes base (a.1 - 1, a.2) (endUndoChain b, v) := by
  obtain ⟨hlink, hundoing, hredoing, hcur, hlast, hundo⟩ := endUndoChain_frame b
  have hlinkUndos : b.linkUndos = base + a.1 := h.linkUndos
  refine ⟨?_, h.locals, hundoing.trans h.undoing, hredoing.trans h.redoing, ?_, ?_, ?_⟩
  · simp only [hlink]
    omega
  · simp only [hcur, hlast]
    exact h.cur_le
  · intro hbase hzero
    simp only at hzero
    exact endUndoChain_settled (by omega) (h.atEnd hbase)
  · intro hbase
    by_cases hone : b.linkUndos = 1
    · exact (endUndoChain_settled hone (h.atEnd hbase)).atEnd
    · simp only [hundo hone]
      exact h.atEnd hbase

theorem Describes.edited (h : Describes base a (b, v)) (hedited : Edited b b') :
    Describes base a (b', v) := by
  have hlink : b.linkUndos = base + a.1 := h.linkUndos
  refine ⟨hedited.linkUndos.trans h.linkUndos, h.locals, hedited.undoing.trans h.undoing,
    hedited.redoing.trans h.redoing, ?_, ?_, ?_⟩
  all_goals
    rcases hedited.steps with hsame | ⟨-, hcur, hlast, hlinked⟩
  · simp only [hsame.curStep, hsame.lastStep]
    exact h.cur_le
  · simp only [hcur, hlast, le_refl]
  · intro hbase hzero
    have hsettled := h.settled hbase hzero
    refine ⟨?_, ?_⟩
    · simp only [hsame.linked, hsame.curStep]
      exact hsettled.cur
    · simp only [hsame.linked, hsame.lastStep]
      exact hsettled.last
  · intro hbase hzero
    have hnot : ¬ Linked b'.undo b'.undo.curStep := fun hyes => hlinked.mp hyes (by omega)
    refine ⟨hnot, ?_⟩
    simp only [hlast]
    rwa [hcur] at hnot
  · intro hbase
    rcases h.atEnd hbase with heq | hnot
    · exact .inl (hsame.curStep.trans (heq.trans hsame.lastStep.symm))
    · exact .inr (by simpa only [hsame.linked, hsame.lastStep] using hnot)
  · exact fun _ => .inl (by simp only [hcur, hlast])

theorem Describes.undo (h : Describes base a (b, v)) (hclosed : a.1 = 0) :
    Describes base a ((undo t b).2, v) := by
  obtain ⟨htravelled, hundoing, hredoing, hle, hlinked⟩ := undo_spec t b h.undoing
  refine ⟨htravelled.linkUndos.trans h.linkUndos, h.locals, hundoing,
    hredoing.trans h.redoing, ?_, ?_, ?_⟩
  · simp only [htravelled.lastStep]
    exact hle.trans h.cur_le
  all_goals
    intro hbase
    have hlast := (h.settled hbase hclosed).last
    have hlast' : ¬ Linked (Undo.undo t b).2.undo (Undo.undo t b).2.undo.lastStep := by
      rwa [htravelled.linked, htravelled.lastStep]
  · exact fun _ => ⟨hlinked, hlast'⟩
  · exact .inr hlast'

theorem Describes.redo (h : Describes base a (b, v)) :
    Describes base a ((redo t b).2, v) := by
  obtain ⟨htravelled, hredoing, hundoing, hle, hlinked⟩ := redo_spec t b h.redoing h.cur_le
  refine ⟨htravelled.linkUndos.trans h.linkUndos, h.locals, hundoing.trans h.undoing, hredoing,
    ?_, ?_, ?_⟩
  · simp only [htravelled.lastStep]
    exact hle
  · intro hbase hzero
    have hlast := (h.settled hbase hzero).last
    have hlast' : ¬ Linked (Undo.redo t b).2.undo (Undo.redo t b).2.undo.lastStep := by
      rwa [htravelled.linked, htravelled.lastStep]
    refine ⟨?_, hlast'⟩
    rcases hlinked with heq | hnot
    · rwa [heq, ← htravelled.lastStep]
    · exact hnot
  · intro hbase
    rcases h.atEnd hbase with heq | hnot
    · -- There is nothing to be done again.
      have hsame : (Undo.redo t b).2 = b := by
        rw [Undo.redo, if_pos heq]
      rw [hsame]
      exact .inl heq
    · refine .inr ?_
      rwa [htravelled.linked, htravelled.lastStep]

/-- What `after` says of the calls is true. -/
theorem after_sound {c : Call} {as : List (Nat × Locals)} {s s' : Buffer × Locals}
    (h : after c a = some as) (hs : Describes base a s) (hperforms : Performs t c s s') :
    ∃ a' ∈ as, Describes base a' s' := by
  obtain ⟨b₁, b₂, hbefore, hdoes, hafter⟩ := hperforms
  have hs₁ : Describes base a (b₁, s.2) := hs.steady hbefore rfl
  suffices hdone : ∃ a' ∈ as, Describes base a' (b₂, s'.2) by
    obtain ⟨a', ha', hs₂⟩ := hdone
    exact ⟨a', ha', hs₂.steady hafter rfl⟩
  obtain ⟨opened, locals⟩ := a
  generalize s.2 = v₁ at hdoes hs₁
  generalize s'.2 = v₂ at hdoes ⊢
  cases hdoes with
  | startUndoChain =>
      cases h
      exact ⟨_, List.mem_singleton_self _, hs₁.start⟩
  | endUndoChain =>
      simp only [after] at h
      split at h
      · cases h
      · rename_i hopen
        cases h
        exact ⟨_, List.mem_singleton_self _, hs₁.finish hopen⟩
  | insertStream ld line pos stream =>
      cases h
      exact ⟨_, List.mem_singleton_self _, hs₁.edited (insertStream_edited _ _ _ _ _)⟩
  | deleteStream ld line pos len =>
      cases h
      exact ⟨_, List.mem_singleton_self _, hs₁.edited (deleteStream_edited _ _ _ _ _)⟩
  | undo =>
      simp only [after] at h
      split at h
      · rename_i hclosed
        cases h
        exact ⟨_, List.mem_singleton_self _, hs₁.undo hclosed⟩
      · cases h
  | assign f =>
      cases h
      refine ⟨_, List.mem_singleton_self _, ⟨hs₁.linkUndos, ?_, hs₁.undoing, hs₁.redoing,
        hs₁.cur_le, hs₁.settled, hs₁.atEnd⟩⟩
      exact congrArg f hs₁.locals
  | assume holds _ _ hholds =>
      have hlocals : v₁ = locals := hs₁.locals
      subst hlocals
      simp only [after, hholds, if_true] at h
      cases h
      exact ⟨_, List.mem_singleton_self _, hs₁⟩

theorem describes_of_runs {p : Flow Call} (h : balanced p = true)
    (hs : Describes base (0, noLocals) (b, noLocals)) {s' : Buffer × Locals} {e : Option Exit}
    (hruns : Runs (Performs t) p (b, noLocals) e s') :
    Describes base (0, noLocals) (s'.1, noLocals) := by
  have hpost : ∀ c a as s s', after c a = some as → Describes base a s → Performs t c s s' →
      ∃ a' ∈ as, Describes base a' s' := fun _ _ _ _ _ => after_sound
  obtain ⟨⟨opened, locals⟩, hzero, hs'⟩ := always_sound hpost h hs hruns
  obtain rfl : opened = 0 := beq_iff_eq.mp hzero
  exact ⟨hs'.linkUndos, rfl, hs'.undoing, hs'.redoing, hs'.cur_le, hs'.settled, hs'.atEnd⟩

/-- The session, with what bracketed pastes remember of the buffer and of its options. -/
structure Editing where
  session : Session
  bpasting : Bool
  bpasteOptCache : Options

/-- Document `b` is changed. -/
def Editing.setDocument (s : Editing) (b : Nat) (f : Document → Document) : Editing :=
  { s with session := s.session.setDocument b f }

/-- The level that `AtomicUndo` asks for, unless its argument is invalid. -/
def atomicLevel (p : Option (List Byte)) (linkUndos : Int) : Option Int :=
  match p with
  | none => some (if linkUndos ≠ 0 then linkUndos - 1 else 1)
  | some q =>
      if q.head? = some 48 then some 0
      else if q.head? = some 45 then some (if linkUndos ≠ 0 then linkUndos - 1 else 0)
      else if q.head? = some 43 ∨ q.head? = some 49 then some (linkUndos + 1)
      else none

/-- Chains are opened and closed until `link_undos` is `c`. -/
def setLevel (c : Int) (b : Buffer) : Buffer :=
  let b := startUndoChain^[(c - b.linkUndos).toNat] b
  endUndoChain^[(b.linkUndos - c).toNat] b

/-- All chains are closed. -/
def closeChains (b : Buffer) : Buffer := endUndoChain^[b.linkUndos.toNat] b

/-- `do_action` for `AtomicUndo` -/
def atomicUndo (p : Option (List Byte)) (d : Document) : Document :=
  if d.buffer.opt.doUndo then
    match atomicLevel p d.buffer.linkUndos with
    | some c => { d with buffer := setLevel c d.buffer, atomicUndo := decide (0 < c) }
    | none => d
  else d

/-- `do_action` for `Undo`, when `undo` is called `times` times -/
def undoCommand (t : Terminal) (times : Nat) (d : Document) : Document :=
  if d.buffer.opt.readOnly ∨ ¬ d.buffer.opt.doUndo then d
  else
    let d := if d.atomicUndo then { d with buffer := closeChains d.buffer, atomicUndo := false }
      else d
    let b := (fun b => (undo t b).2)^[times] d.buffer
    { d with
      buffer := { b with isModified := decide ((b.undo.curStep : Int) ≠ b.undo.lastSaveStep) } }

/-- `do_action` for `Redo` -/
def redoCommand (t : Terminal) (times : Nat) (d : Document) : Document :=
  if d.buffer.opt.readOnly ∨ ¬ d.buffer.opt.doUndo then d
  else
    let b := (fun b => (redo t b).2)^[times] d.buffer
    { d with
      buffer := { b with isModified := decide ((b.undo.curStep : Int) ≠ b.undo.lastSaveStep) } }

/-- Whether a bracketed paste begins. -/
def begins (w : World) (s : Editing) (b : Nat) : Bool :=
  w.bracketedPasteOk && (decide (1 ≤ (s.session.documents b).bpasteSupport) && !s.bpasting)

/-- `bracketed_paste_begin`, up to the macro that it executes -/
def bracketedPasteBegin (w : World) (s : Editing) (b : Nat) : Editing :=
  let d := s.session.documents b
  if begins w s b then
    let s := { s with bpasteOptCache := d.buffer.opt, bpasting := true }
    if d.bpasteSupport = 1 then
      s.setDocument b fun d => { d with
        buffer :=
          startUndoChain { d.buffer with opt := { d.buffer.opt with autoIndent := false } } }
    else if d.bpasteSupport = 2 then s
    else { s with bpasting := false }
  else s

/-- `bracketed_paste_end`, up to the shift of the pasted lines or the macro that it
executes -/
def bracketedPasteEnd (w : World) (s : Editing) (b : Nat) : Editing :=
  let d := s.session.documents b
  let s := { s with bpasting := false }
  if ¬ w.bracketedPasteOk ∨ d.bpasteSupport < 1 then s
  else if d.bpasteSupport = 1 then
    s.setDocument b fun d => { d with
      buffer := endUndoChain { d.buffer with opt := s.bpasteOptCache } }
  else s.setDocument b fun d => { d with
    buffer := { d.buffer with opt := s.bpasteOptCache } }

/-- What happens to a buffer. -/
inductive Event
  | option (a : Action) (c : Int) (p : Option (List Byte))
  | action (a : Action) (granted : Bool)
  | atomicUndo (p : Option (List Byte))
  | undo (times : Nat)
  | redo (times : Nat)
  | clear
  | bracketedPasteBegin
  | bracketedPasteEnd
  | other

/-- Of what bears on the chains of document `b` only its buffer takes part. -/
def BufferStep (R : Buffer → Buffer → Prop) (b : Nat) (s s' : Editing) : Prop :=
  (s'.session.documents b).atomicUndo = (s.session.documents b).atomicUndo ∧
    s'.bpasting = s.bpasting ∧
      R (s.session.documents b).buffer (s'.session.documents b).buffer

/-- A function is executed. -/
def Executes (t : Terminal) (p : Flow Call) (b b' : Buffer) : Prop :=
  ∃ b₁ b₂ v e, Steady b b₁ ∧ Runs (Performs t) p (b₁, noLocals) e (b₂, v) ∧ Steady b₂ b'

/-- The undo buffer is reset, as by `clear_buffer`. -/
def Clears (b b' : Buffer) : Prop :=
  b'.undo = resetUndoBuffer b.undo ∧ b'.linkUndos = b.linkUndos ∧ b'.undoing = b.undoing ∧
    b'.redoing = b.redoing

/-- The events and their effects.  Macros are the sequences of their commands. -/
inductive Step (w : World) (b : Nat) : Editing → Event → Editing → Prop
  | option {s : Editing} {a : Action} {c : Int} {p : Option (List Byte)} (ha : Harmless a) :
      Step w b s (.option a c p) { s with session := (doOption w s.session b a c p).2 }
  | action {s s' : Editing} {a : Action} {granted : Bool}
      (h : BufferStep (Executes w.terminal (actionFlow
        (s.session.documents b).buffer.markIsVertical granted a)) b s s') :
      Step w b s (.action a granted) s'
  | atomicUndo {s : Editing} {p : Option (List Byte)} :
      Step w b s (.atomicUndo p) (s.setDocument b (ChainRuns.atomicUndo p))
  | undo {s : Editing} {times : Nat} :
      Step w b s (.undo times) (s.setDocument b (undoCommand w.terminal times))
  | redo {s : Editing} {times : Nat} :
      Step w b s (.redo times) (s.setDocument b (redoCommand w.terminal times))
  | clear {s s' : Editing} (h : BufferStep Clears b s s') : Step w b s .clear s'
  | bracketedPasteBegin {s : Editing} :
      Step w b s .bracketedPasteBegin (ChainRuns.bracketedPasteBegin w s b)
  | bracketedPasteEnd {s s' : Editing}
      (h : BufferStep (Executes w.terminal (optional shift)) b
        (ChainRuns.bracketedPasteEnd w s b) s') :
      Step w b s .bracketedPasteEnd s'
  | other {s s' : Editing} (h : BufferStep Steady b s s') : Step w b s .other s'

/-- The `AtomicUndo` level that the user has opened, and whether a built-in bracketed paste
is in progress. -/
structure Chains where
  level : Nat
  pasting : Bool

/-- The level after `AtomicUndo`, if its argument is valid -/
def levelAfter (p : Option (List Byte)) (level : Nat) : Nat :=
  match p with
  | none => if level = 0 then 1 else level - 1
  | some q =>
      if q.head? = some 48 then 0
      else if q.head? = some 45 then level - 1
      else if q.head? = some 43 ∨ q.head? = some 49 then level + 1
      else level

/-- What the events mean for the level: `Undo` and the end of recording reset it. -/
def Chains.after (w : World) (b : Nat) (s : Editing) (g : Chains) : Event → Chains
  | .option .doUndoA c _ =>
      if setFlag c (s.session.documents b).buffer.opt.doUndo then g else { g with level := 0 }
  | .atomicUndo p =>
      if (s.session.documents b).buffer.opt.doUndo then { g with level := levelAfter p g.level }
      else g
  | .undo _ =>
      let o := (s.session.documents b).buffer.opt
      if o.readOnly ∨ ¬ o.doUndo then g else { g with level := 0 }
  | .bracketedPasteBegin =>
      if begins w s b ∧ (s.session.documents b).bpasteSupport = 1 then { g with pasting := true }
      else g
  | .bracketedPasteEnd => { g with pasting := false }
  | _ => g

/-- The chains are balanced. -/
structure Balanced (b : Nat) (s : Editing) (g : Chains) : Prop where
  linkUndos : (s.session.documents b).buffer.linkUndos = g.level + if g.pasting then 1 else 0
  atomicUndo : (s.session.documents b).atomicUndo = decide (0 < g.level)
  settled : (s.session.documents b).buffer.linkUndos = 0 →
    Settled (s.session.documents b).buffer.undo

/-- The events that keep the chains balanced. -/
def Permitted (w : World) (b : Nat) (s : Editing) (g : Chains) : Event → Prop
  | .option .doUndoA c _ =>
      setFlag c (s.session.documents b).buffer.opt.doUndo = false →
        (s.session.documents b).atomicUndo = false
  | .action a granted =>
      a = .cutA → (s.session.documents b).buffer.markIsVertical = true → granted = true
  | .atomicUndo p =>
      let buffer := (s.session.documents b).buffer
      buffer.opt.doUndo = true → ∀ c, atomicLevel p buffer.linkUndos = some c →
        (c = 0 → AtEnd buffer.undo) ∧
          (g.pasting = true → buffer.linkUndos < c ∨ 3 ≤ buffer.linkUndos ∧ c ≠ 0)
  | .undo _ =>
      let d := s.session.documents b
      d.buffer.opt.readOnly = false → d.buffer.opt.doUndo = true → d.atomicUndo = true →
        g.pasting = false ∧ AtEnd d.buffer.undo
  | .bracketedPasteEnd =>
      let d := s.session.documents b
      (g.pasting = true ↔ w.bracketedPasteOk = true ∧ d.bpasteSupport = 1) ∧
        (g.pasting = true → d.buffer.linkUndos = 1 → AtEnd d.buffer.undo)
  | _ => True

/-- A buffer in which nothing has been done yet. -/
structure New (s : Editing) (b : Nat) : Prop where
  linkUndos : (s.session.documents b).buffer.linkUndos = 0
  atomicUndo : (s.session.documents b).atomicUndo = false
  curStep : (s.session.documents b).buffer.undo.curStep = 0
  lastStep : (s.session.documents b).buffer.undo.lastStep = 0
  undoing : (s.session.documents b).buffer.undoing = false
  redoing : (s.session.documents b).buffer.redoing = false
  bpasting : s.bpasting = false

/-- The states that are reached by events that are permitted. -/
inductive Reachable (w : World) (b : Nat) (permitted : Editing → Chains → Event → Prop) :
    Editing → Chains → Prop
  | new {s : Editing} (h : New s b) : Reachable w b permitted s ⟨0, false⟩
  | step {s s' : Editing} {g : Chains} {e : Event} (h : Reachable w b permitted s g)
      (hpermitted : permitted s g e) (hstep : Step w b s e s') :
      Reachable w b permitted s' (g.after w b s e)

attribute [grind =] Chains.after

variable {w : World} {n : Nat} {s s' : Editing} {g : Chains} {d : Document} {c : Int}
variable {p : Option (List Byte)}

theorem Describes.raise (h : Describes base (0, noLocals) (b, noLocals)) :
    Describes (base + 1) (0, noLocals) (startUndoChain b, noLocals) where
  linkUndos := by
    have hlink := h.linkUndos
    simp only [UndoSteps.startUndoChain, Nat.cast_add, Nat.cast_one, Nat.cast_zero,
      add_zero] at hlink ⊢
    omega
  locals := rfl
  undoing := h.undoing
  redoing := h.redoing
  cur_le := h.cur_le
  settled := fun hzero => absurd hzero (Nat.succ_ne_zero _)
  atEnd := fun hzero => absurd hzero (Nat.succ_ne_zero _)

theorem Describes.lower (h : Describes (base + 1) (0, noLocals) (b, noLocals))
    (hend : base = 0 → AtEnd b.undo) :
    Describes base (0, noLocals) (endUndoChain b, noLocals) := by
  obtain ⟨hlink, hundoing, hredoing, hcur, hlast, -⟩ := endUndoChain_frame b
  have hlinkUndos : b.linkUndos = base + 1 := by
    have hlink := h.linkUndos
    simpa only [Nat.cast_add, Nat.cast_one, Nat.cast_zero, add_zero] using hlink
  have hsettled : base = 0 → Settled (endUndoChain b).undo := fun hzero =>
    endUndoChain_settled (by omega) (hend hzero)
  refine ⟨?_, rfl, hundoing.trans h.undoing, hredoing.trans h.redoing, ?_,
    fun hzero _ => hsettled hzero, fun hzero => (hsettled hzero).atEnd⟩
  · simp only [hlink, Nat.cast_zero, add_zero]
    omega
  · simp only [hcur, hlast]
    exact h.cur_le

theorem Describes.raises (h : Describes base (0, noLocals) (b, noLocals)) (n : Nat) :
    Describes (base + n) (0, noLocals) (UndoSteps.startUndoChain^[n] b, noLocals) ∧
      (UndoSteps.startUndoChain^[n] b).undo = b.undo := by
  induction n with
  | zero => exact ⟨h, rfl⟩
  | succ n ih =>
      rw [Function.iterate_succ_apply']
      exact ⟨ih.1.raise, ih.2⟩

theorem Describes.lowers (n : Nat) (h : Describes (base + n) (0, noLocals) (b, noLocals))
    (hend : base = 0 → AtEnd b.undo) :
    Describes base (0, noLocals) (UndoSteps.endUndoChain^[n] b, noLocals) := by
  induction n generalizing b with
  | zero => exact h
  | succ n ih =>
      rw [Function.iterate_succ_apply]
      have hlink : b.linkUndos = base + (n + 1 : Nat) := by simpa using h.linkUndos
      by_cases hlast : base + n = 0
      · obtain ⟨rfl, rfl⟩ : base = 0 ∧ n = 0 := by omega
        exact Describes.lower h hend
      · have hundo := (endUndoChain_frame b).2.2.2.2.2 (by omega)
        refine ih ((@Describes.lower _ (base + n)) h fun hzero => absurd hzero hlast) ?_
        rwa [hundo]

theorem setLevel_describes (h : Describes base (0, noLocals) (b, noLocals)) (n : Nat)
    (hend : n = 0 → AtEnd b.undo) :
    Describes n (0, noLocals) (setLevel n b, noLocals) := by
  have hlink : b.linkUndos = base := by simpa using h.linkUndos
  obtain ⟨hraised, hundo⟩ := h.raises ((n : Int) - b.linkUndos).toNat
  have hlink' : (UndoSteps.startUndoChain^[((n : Int) - b.linkUndos).toNat] b).linkUndos =
      (base + ((n : Int) - b.linkUndos).toNat : Nat) := by simpa using hraised.linkUndos
  refine Describes.lowers _ ?_ (hundo.symm ▸ hend)
  have hsum : n +
      ((UndoSteps.startUndoChain^[((n : Int) - b.linkUndos).toNat] b).linkUndos - n).toNat =
      base + ((n : Int) - b.linkUndos).toNat := by
    rw [hlink']
    omega
  rw [hsum]
  exact hraised

theorem closeChains_describes (h : Describes base (0, noLocals) (b, noLocals))
    (hend : AtEnd b.undo) : Describes 0 (0, noLocals) (closeChains b, noLocals) := by
  have hlink : b.linkUndos = base := by simpa using h.linkUndos
  rw [closeChains, hlink, Int.toNat_natCast]
  exact Describes.lowers base (by rwa [Nat.zero_add]) fun _ => hend

theorem Describes.clears (h : Describes base (0, noLocals) (b, noLocals)) (hclears : Clears b b') :
    Describes base (0, noLocals) (b', noLocals) := by
  obtain ⟨hundo, hlink, hundoing, hredoing⟩ := hclears
  have hsettled : Settled b'.undo := by
    rw [hundo]
    exact ⟨fun hlinked => hlinked.1 rfl, fun hlinked => hlinked.1 rfl⟩
  refine ⟨hlink.trans h.linkUndos, rfl, hundoing.trans h.undoing, hredoing.trans h.redoing, ?_,
    fun _ _ => hsettled, fun _ => hsettled.atEnd⟩
  simp only [hundo]
  exact le_rfl

theorem Describes.undos (h : Describes base (0, noLocals) (b, noLocals)) (n : Nat) :
    Describes base (0, noLocals) ((fun b => (Undo.undo t b).2)^[n] b, noLocals) := by
  induction n generalizing b with
  | zero => exact h
  | succ n ih => exact ih (h.undo rfl)

theorem Describes.redos (h : Describes base (0, noLocals) (b, noLocals)) (n : Nat) :
    Describes base (0, noLocals) ((fun b => (Undo.redo t b).2)^[n] b, noLocals) := by
  induction n generalizing b with
  | zero => exact h
  | succ n ih => exact ih h.redo

theorem Describes.executes (h : Describes base (0, noLocals) (b, noLocals)) {q : Flow Call}
    (hq : balanced q = true) (hexecutes : Executes t q b b') :
    Describes base (0, noLocals) (b', noLocals) := by
  obtain ⟨b₁, b₂, v, e, hbefore, hruns, hafter⟩ := hexecutes
  have hs₁ : Describes base (0, noLocals) (b₁, noLocals) := h.steady hbefore rfl
  exact (describes_of_runs hq hs₁ hruns).steady hafter rfl

/-- The number of open chains -/
def Chains.open (g : Chains) : Nat := g.level + if g.pasting then 1 else 0

/-- What every event preserves. -/
structure Invariant (b : Nat) (s : Editing) (g : Chains) : Prop where
  describes : Describes g.open (0, noLocals) ((s.session.documents b).buffer, noLocals)
  atomicUndo : (s.session.documents b).atomicUndo = decide (0 < g.level)
  pasting : g.pasting = true → s.bpasting = true

theorem Invariant.balanced {b : Nat} (h : Invariant b s g) : Balanced b s g := by
  have hlink := h.describes.linkUndos
  refine ⟨?_, h.atomicUndo, fun hzero => h.describes.settled ?_ rfl⟩
  · rw [hlink, Chains.open]
    simp
  · simp only [hzero, Nat.cast_zero, add_zero] at hlink
    omega

variable {k : Nat}

theorem documents_setDocument (f : Document → Document) :
    (s.setDocument k f).session.documents k = f (s.session.documents k) := by
  simp [Editing.setDocument, Session.setDocument]

theorem Invariant.bufferStep {R : Buffer → Buffer → Prop} (h : Invariant k s g)
    (hR : ∀ b b', R b b' → Describes g.open (0, noLocals) (b, noLocals) →
      Describes g.open (0, noLocals) (b', noLocals)) (hstep : BufferStep R k s s') :
    Invariant k s' g := by
  obtain ⟨hatomic, hbpasting, hbuffer⟩ := hstep
  exact ⟨hR _ _ hbuffer h.describes, hatomic.trans h.atomicUndo, fun hp =>
    hbpasting.trans (h.pasting hp)⟩

theorem Invariant.option {a : Action} (h : Invariant k s g) (ha : Harmless a)
    (hdoUndo : a ≠ .doUndoA) :
    Invariant k { s with session := (doOption w s.session k a c p).2 } g := by
  by_cases hpaste : a = .bracketedPasteA
  · subst hpaste
    simp only [doOption]
    split
    · exact h
    split
    · rename_i q _
      obtain ⟨hbuffer, hatomic⟩ := setBracketedPaste_buffer (s := s.session) (b := k) q k
      refine ⟨?_, hatomic.trans h.atomicUndo, h.pasting⟩
      rw [hbuffer]
      exact h.describes
    · exact h
  by_cases hutf8 : a = .utf8A
  · subst hutf8
    obtain ⟨hlink, hundoing, hredoing, hundo⟩ :=
      setUtf8_frame (c := c) (s.session.documents k).buffer
    have hdocument : (doOption w s.session k .utf8A c p).2.documents k =
        { s.session.documents k with buffer := (setUtf8 c (s.session.documents k).buffer).2 } := by
      simp [doOption, Session.setDocument]
    refine ⟨?_, ?_, h.pasting⟩
    · simp only [hdocument]
      rcases hundo with hsame | hreset
      · exact h.describes.steady ⟨hsame, hlink, hundoing, hredoing⟩ rfl
      · exact h.describes.clears ⟨hreset, hlink, hundoing, hredoing⟩
    · simp only [hdocument]
      exact h.atomicUndo
  · have hfixed := doOption_keepsFixed (w := w) (s := s.session) (b := k) (c := c) (p := p) ha
      hpaste hdoUndo hutf8 k
    simp only [fixedFields, FixedFields.mk.injEq] at hfixed
    obtain ⟨hundo, hlink, hundoing, hredoing, hatomic, -⟩ := hfixed
    exact ⟨h.describes.steady ⟨hundo, hlink, hundoing, hredoing⟩ rfl,
      hatomic.trans h.atomicUndo, h.pasting⟩

/-- The undo flag -/
theorem Invariant.doUndo (h : Invariant k s g)
    (hpermitted : Permitted w k s g (.option .doUndoA c p)) :
    Invariant k { s with session := (doOption w s.session k .doUndoA c p).2 }
      (g.after w k s (.option .doUndoA c p)) := by
  have hopt : ((s.session.setOpt k fun o => { o with doUndo := setFlag c o.doUndo }).documents k) =
      { s.session.documents k with buffer := { (s.session.documents k).buffer with
        opt := { (s.session.documents k).buffer.opt with
          doUndo := setFlag c (s.session.documents k).buffer.opt.doUndo } } } := by
    simp [Session.setOpt, Session.setDocument]
  have hreset : (((s.session.setOpt k fun o =>
      { o with doUndo := setFlag c o.doUndo }).setDocument k fun d =>
        { d with
          buffer := { d.buffer with undo := resetUndoBuffer d.buffer.undo }
          atomicUndo := false }).documents k) =
      { s.session.documents k with
        buffer := { (s.session.documents k).buffer with
          opt := { (s.session.documents k).buffer.opt with
            doUndo := setFlag c (s.session.documents k).buffer.opt.doUndo }
          undo := resetUndoBuffer (s.session.documents k).buffer.undo }
        atomicUndo := false } := by
    simp [Session.setOpt, Session.setDocument]
  simp only [doOption, Chains.after, hopt]
  split
  · refine ⟨?_, ?_, h.pasting⟩
    · simp only [hopt]
      exact h.describes.steady ⟨rfl, rfl, rfl, rfl⟩ rfl
    · simp only [hopt]
      exact h.atomicUndo
  · rename_i hoff
    have hatomic : (s.session.documents k).atomicUndo = false :=
      hpermitted (Bool.eq_false_iff.mpr hoff)
    have hlevel : g.level = 0 := by
      have hlevel := h.atomicUndo
      rw [hatomic] at hlevel
      simpa using hlevel.symm
    have hsame : ({ g with level := 0 } : Chains) = g := by rw [← hlevel]
    rw [hsame]
    refine ⟨?_, ?_, h.pasting⟩
    · simp only [hreset]
      exact h.describes.clears ⟨rfl, rfl, rfl, rfl⟩
    · simp only [hreset, hlevel]
      decide

/-- The level that `AtomicUndo` asks for is that which the user expects. -/
theorem atomicLevel_expected (hc : atomicLevel p (g.open : Int) = some c)
    (hpasting : g.pasting = true → (g.open : Int) < c ∨ 3 ≤ (g.open : Int) ∧ c ≠ 0) :
    c = ({ g with level := levelAfter p g.level } : Chains).open ∧
      (0 < c ↔ 0 < levelAfter p g.level) := by
  obtain ⟨level, pasting⟩ := g
  obtain ⟨extra, hextra, hopen⟩ : ∃ extra : Nat, (extra ≤ 1 ∧ (pasting = false → extra = 0)) ∧
      ∀ l : Nat, Chains.open ⟨l, pasting⟩ = l + extra := by
    cases pasting
    · exact ⟨0, ⟨by omega, fun _ => rfl⟩, fun _ => rfl⟩
    · exact ⟨1, ⟨le_rfl, nofun⟩, fun _ => rfl⟩
  have hbound : extra = 1 → ((level + extra : Nat) : Int) < c ∨
      3 ≤ ((level + extra : Nat) : Int) ∧ c ≠ 0 := by
    intro hone
    cases pasting
    · exact absurd (hextra.2 rfl) (by omega)
    · rw [← hopen level]
      exact hpasting rfl
  simp only [hopen] at hc ⊢
  have hle := hextra.1
  unfold atomicLevel at hc
  unfold levelAfter
  split at hc
  · have hlevel := Option.some.inj hc
    split at hlevel
    all_goals split <;> omega
  · rename_i q
    by_cases hzero : q.head? = some 48
    · rw [if_pos hzero] at hc ⊢
      cases hc
      omega
    rw [if_neg hzero] at hc ⊢
    by_cases hminus : q.head? = some 45
    · rw [if_pos hminus] at hc ⊢
      cases hc
      split at hbound
      all_goals omega
    rw [if_neg hminus] at hc ⊢
    by_cases hplus : q.head? = some 43 ∨ q.head? = some 49
    · rw [if_pos hplus] at hc ⊢
      cases hc
      omega
    · rw [if_neg hplus] at hc
      cases hc

/-- `AtomicUndo` -/
theorem Invariant.atomicUndo_step (h : Invariant k s g)
    (hpermitted : Permitted w k s g (.atomicUndo p)) :
    Invariant k (s.setDocument k (ChainRuns.atomicUndo p)) (g.after w k s (.atomicUndo p)) := by
  have hdocument := documents_setDocument (s := s) (k := k) (ChainRuns.atomicUndo p)
  have hlink : (s.session.documents k).buffer.linkUndos = g.open := by
    simpa using h.describes.linkUndos
  by_cases hdoUndo : (s.session.documents k).buffer.opt.doUndo = true
  · have hfine := hpermitted hdoUndo
    simp only [Chains.after, hdoUndo, if_true]
    cases hlevel : atomicLevel p (s.session.documents k).buffer.linkUndos with
    | none =>
        have hsame : ChainRuns.atomicUndo p (s.session.documents k) = s.session.documents k := by
          simp only [ChainRuns.atomicUndo, hdoUndo, if_true, hlevel]
        have hkept : levelAfter p g.level = g.level := by
          unfold atomicLevel at hlevel
          unfold levelAfter
          split at hlevel
          · cases hlevel
          · split at hlevel
            · cases hlevel
            split at hlevel
            · cases hlevel
            split at hlevel
            · cases hlevel
            · rename_i hzero hminus hplus
              rw [if_neg hzero, if_neg hminus, if_neg hplus]
        rw [hkept]
        rw [hsame] at hdocument
        exact ⟨hdocument ▸ h.describes, hdocument ▸ h.atomicUndo, h.pasting⟩
    | some c =>
        obtain ⟨hend, hpasting⟩ := hfine c hlevel
        rw [hlink] at hlevel hpasting
        obtain ⟨hc, hpos⟩ := atomicLevel_expected hlevel hpasting
        have hset : ChainRuns.atomicUndo p (s.session.documents k) =
            { s.session.documents k with
              buffer := setLevel c (s.session.documents k).buffer
              atomicUndo := decide (0 < c) } := by
          simp only [ChainRuns.atomicUndo, hdoUndo, if_true, hlink, hlevel]
        rw [hset] at hdocument
        refine ⟨?_, ?_, h.pasting⟩
        · simp only [hdocument, hc]
          exact setLevel_describes h.describes _ fun hzero => hend (by rw [hc, hzero]; rfl)
        · simp only [hdocument]
          exact decide_eq_decide.mpr hpos
  · have hsame : ChainRuns.atomicUndo p (s.session.documents k) = s.session.documents k :=
      if_neg hdoUndo
    rw [hsame] at hdocument
    simp only [Chains.after, hdoUndo, if_false, Bool.false_eq_true]
    exact ⟨hdocument ▸ h.describes, hdocument ▸ h.atomicUndo, h.pasting⟩

theorem Invariant.undo_step (h : Invariant k s g) (hpermitted : Permitted w k s g (.undo n)) :
    Invariant k (s.setDocument k (undoCommand w.terminal n)) (g.after w k s (.undo n)) := by
  have hdocument := documents_setDocument (s := s) (k := k) (undoCommand w.terminal n)
  by_cases hskip : (s.session.documents k).buffer.opt.readOnly = true ∨
      ¬ (s.session.documents k).buffer.opt.doUndo = true
  · rw [undoCommand, if_pos hskip] at hdocument
    simp only [Chains.after, if_pos hskip]
    exact ⟨hdocument ▸ h.describes, hdocument ▸ h.atomicUndo, h.pasting⟩
  rw [undoCommand, if_neg hskip] at hdocument
  simp only [Chains.after, if_neg hskip]
  rw [not_or, not_not] at hskip
  -- The history is settled, or a paste is in progress and nothing else is open.
  obtain ⟨d, hd, hdescribes, hatomic⟩ : ∃ d, (if (s.session.documents k).atomicUndo = true then
        { s.session.documents k with
          buffer := closeChains (s.session.documents k).buffer, atomicUndo := false }
      else s.session.documents k) = d ∧
      Describes (Chains.open { g with level := 0 }) (0, noLocals) (d.buffer, noLocals) ∧
        d.atomicUndo = false := by
    refine ⟨_, rfl, ?_⟩
    split
    · rename_i hon
      obtain ⟨hpasting, hend⟩ := hpermitted (Bool.eq_false_iff.mpr hskip.1) hskip.2 hon
      have hopen : Chains.open { g with level := 0 } = 0 := by simp [Chains.open, hpasting]
      rw [hopen]
      exact ⟨closeChains_describes h.describes hend, rfl⟩
    · rename_i hoff
      have hlevel : g.level = 0 := by
        have hlevel := h.atomicUndo
        rw [Bool.eq_false_iff.mpr hoff] at hlevel
        simpa using hlevel.symm
      have hsame : ({ g with level := 0 } : Chains) = g := by rw [← hlevel]
      rw [hsame]
      exact ⟨h.describes, Bool.eq_false_iff.mpr hoff⟩
  rw [hd] at hdocument
  refine ⟨?_, ?_, h.pasting⟩
  · simp only [hdocument]
    exact (hdescribes.undos n).steady ⟨rfl, rfl, rfl, rfl⟩ rfl
  · simp only [hdocument, hatomic, lt_irrefl, decide_false]

theorem Invariant.redo_step (h : Invariant k s g) :
    Invariant k (s.setDocument k (redoCommand w.terminal n)) g := by
  have hdocument := documents_setDocument (s := s) (k := k) (redoCommand w.terminal n)
  rw [redoCommand] at hdocument
  split at hdocument
  · exact ⟨hdocument ▸ h.describes, hdocument ▸ h.atomicUndo, h.pasting⟩
  · refine ⟨?_, ?_, h.pasting⟩
    · simp only [hdocument]
      exact (h.describes.redos n).steady ⟨rfl, rfl, rfl, rfl⟩ rfl
    · simp only [hdocument]
      exact h.atomicUndo

theorem Invariant.begin_step (h : Invariant k s g) :
    Invariant k (ChainRuns.bracketedPasteBegin w s k) (g.after w k s .bracketedPasteBegin) := by
  by_cases hbegins : begins w s k = true
  · have hidle : s.bpasting = false := by
      simp only [begins, Bool.and_eq_true, Bool.not_eq_true'] at hbegins
      exact hbegins.2.2
    have hpasting : g.pasting = false := by
      by_contra hne
      rw [h.pasting (Bool.not_eq_false _ ▸ hne)] at hidle
      cases hidle
    simp only [ChainRuns.bracketedPasteBegin, Chains.after, hbegins, if_true, true_and]
    split
    · have hopen : Chains.open { g with pasting := true } = g.open + 1 := by
        simp [Chains.open, hpasting]
      refine ⟨?_, ?_, fun _ => rfl⟩
      · simp only [hopen, documents_setDocument]
        have hopt : Describes g.open (0, noLocals) ({ (s.session.documents k).buffer with
            opt := { (s.session.documents k).buffer.opt with autoIndent := false } }, noLocals) :=
          h.describes.steady ⟨rfl, rfl, rfl, rfl⟩ rfl
        exact hopt.raise
      · simp only [documents_setDocument]
        exact h.atomicUndo
    split
    · exact ⟨h.describes, h.atomicUndo, fun _ => rfl⟩
    · refine ⟨h.describes, h.atomicUndo, fun hyes => ?_⟩
      rw [hpasting] at hyes
      cases hyes
  · simp only [ChainRuns.bracketedPasteBegin, Chains.after, hbegins, false_and, if_false,
      Bool.false_eq_true]
    exact h

theorem shift_balanced : balanced (optional shift) = true := by decide +kernel

theorem Invariant.end_step (h : Invariant k s g)
    (hpermitted : Permitted w k s g .bracketedPasteEnd) :
    Invariant k (ChainRuns.bracketedPasteEnd w s k) { g with pasting := false } := by
  obtain ⟨hbuiltin, hend⟩ := hpermitted
  by_cases hpasting : g.pasting = true
  · obtain ⟨hok, hone⟩ := hbuiltin.mp hpasting
    have hopen : g.open = Chains.open { g with pasting := false } + 1 := by
      simp [Chains.open, hpasting]
    have hlink : (s.session.documents k).buffer.linkUndos = g.open := by
      simpa using h.describes.linkUndos
    have hskip : ¬ (¬ w.bracketedPasteOk = true ∨ (1 : Nat) < 1) := by simp [hok]
    simp only [ChainRuns.bracketedPasteEnd, hone, if_neg hskip, if_true]
    refine ⟨?_, ?_, nofun⟩
    · simp only [documents_setDocument]
      have hopt : Describes g.open (0, noLocals)
          ({ (s.session.documents k).buffer with opt := s.bpasteOptCache }, noLocals) :=
        h.describes.steady ⟨rfl, rfl, rfl, rfl⟩ rfl
      rw [hopen] at hopt
      exact hopt.lower fun hzero => hend hpasting (by omega)
    · simp only [documents_setDocument]
      exact h.atomicUndo
  · have hsame : ({ g with pasting := false } : Chains) = g := by
      rw [← Bool.eq_false_iff.mpr hpasting]
    rw [hsame]
    have hnone : ∀ yes : g.pasting = true, False := fun yes => hpasting yes
    simp only [ChainRuns.bracketedPasteEnd]
    split
    · exact ⟨h.describes, h.atomicUndo, fun yes => (hnone yes).elim⟩
    rename_i hskip
    rw [not_or, not_not] at hskip
    split
    · rename_i hone
      exact absurd (hbuiltin.mpr ⟨hskip.1, hone⟩) hpasting
    · refine ⟨?_, ?_, fun yes => (hnone yes).elim⟩
      · simp only [documents_setDocument]
        exact h.describes.steady ⟨rfl, rfl, rfl, rfl⟩ rfl
      · simp only [documents_setDocument]
        exact h.atomicUndo

theorem Invariant.step {e : Event} (h : Invariant k s g) (hpermitted : Permitted w k s g e)
    (hstep : Step w k s e s') : Invariant k s' (g.after w k s e) := by
  cases hstep with
  | @option a c p ha =>
      by_cases hdoUndo : a = .doUndoA
      · subst hdoUndo
        exact h.doUndo hpermitted
      · have hsame : g.after w k s (.option a c p) = g := by
          unfold Chains.after
          split <;> first | rfl | simp_all
        rw [hsame]
        exact h.option ha hdoUndo
  | @action _ a granted haction =>
      refine h.bufferStep (fun b b' hexecutes hs => hs.executes ?_ hexecutes) haction
      exact (actionFlow_balanced _ _ _).mpr fun hcut => by
        have hgranted := hpermitted hcut.1 hcut.2.1
        rw [hcut.2.2] at hgranted
        cases hgranted
  | atomicUndo => exact h.atomicUndo_step hpermitted
  | undo => exact h.undo_step hpermitted
  | redo => exact h.redo_step
  | clear hclear => exact h.bufferStep (fun b b' hclears hs => hs.clears hclears) hclear
  | bracketedPasteBegin => exact h.begin_step
  | bracketedPasteEnd hend =>
      exact (h.end_step hpermitted).bufferStep
        (fun b b' hexecutes hs => hs.executes shift_balanced hexecutes) hend
  | other hother => exact h.bufferStep (fun b b' hsteady hs => hs.steady hsteady rfl) hother

theorem Invariant.new (h : New s k) : Invariant k s ⟨0, false⟩ := by
  have hsettled : Settled (s.session.documents k).buffer.undo :=
    ⟨fun hlinked => hlinked.1 h.curStep, fun hlinked => hlinked.1 h.lastStep⟩
  refine ⟨⟨?_, rfl, h.undoing, h.redoing, ?_, fun _ _ => hsettled, fun _ => hsettled.atEnd⟩, ?_,
    nofun⟩
  · exact h.linkUndos
  · simp only [h.curStep, h.lastStep, le_refl]
  · exact h.atomicUndo

theorem Reachable.invariant (h : Reachable w k (Permitted w k) s g) : Invariant k s g := by
  induction h with
  | new hnew => exact .new hnew
  | step _ hpermitted hstep ih => exact ih.step hpermitted hstep

/-- A character is pasted at the start of the document. -/
def pasted (b : Buffer) : Buffer :=
  endUndoChain (EditStream.insertStream (startUndoChain b) 0 0 0 [97]).2

end NiceEditor.ChainRuns
