import NiceEditor.OpenDocuments
import NiceEditor.Runs
import NiceEditor.PreferencesEffects

namespace NiceEditor.TabSizes

open NiceEditor.Pools
open NiceEditor.BufferData
open NiceEditor.Load
open NiceEditor.Navigation
open NiceEditor.Commands
open NiceEditor.Sessions
open NiceEditor.OptionsOnly
open NiceEditor.OptionFrames
open NiceEditor.PreferencesEffects
open NiceEditor.ChainRuns
open NiceEditor.Movement
open NiceEditor.OpenDocuments
open NiceEditor.Runs

/-- A TAB size is smaller than half the number of columns, or than 2. -/
def Fits (t : Terminal) (tabSize : Int) : Prop := tabSize < max (t.neColumns / 2) 2

instance (t : Terminal) (tabSize : Int) : Decidable (Fits t tabSize) :=
  inferInstanceAs (Decidable (_ < _))

/-- Every TAB size can be divided by, and the one of the current document fits. -/
structure Usable (e : Editor) : Prop where
  pos : ∀ b ∈ e.buffers, 1 ≤ e.tabSize b
  fits : Fits e.terminal (e.tabSize e.cur)

/-- What happens in the editor. -/
inductive Event
  | option (w : World) (a : Action) (c : Int) (p : Option (List Byte))
  | popPrefs (c : Int)
  | newDoc (b : Nat)
  | closeDoc
  | nextDoc
  | prevDoc
  | selectDoc (closed : List Nat) (answer : Option (List Nat × Nat))
  | open (b : Nat)
  | opened
  | replaced
  | failed
  | refresh (t : Terminal)
  | resize (t : Terminal)
  | bracketedPasteBegin (w : World)
  | bracketedPasteEnd (w : World)
  | other

/-- The documents that the requester closes: not all of them, and none that is modified. -/
structure Closable (e : Editor) (closed : List Nat) : Prop where
  nodup : closed.Nodup
  mem : ∀ b ∈ closed, b ∈ e.buffers
  unmodified : ∀ b ∈ closed, (e.session.documents b).buffer.isModified = false
  length : closed.length < e.buffers.length

/-- What the commands that are not modelled here leave as it is. -/
structure Keeps (e e' : Editor) : Prop where
  terminal : e'.terminal = e.terminal
  buffers : e'.buffers = e.buffers
  cur : e'.cur = e.cur
  act : e'.act = e.act
  bufferActuations : e'.bufferActuations = e.bufferActuations
  prefStack : e'.session.prefStack = e.session.prefStack
  bpasteOptCache : e'.bpasteOptCache = e.bpasteOptCache
  opening : e'.opening = e.opening
  tabSize : ∀ b, e'.tabSize b = e.tabSize b

/-- The events and their effects.  Macros and preferences are the sequences of their
commands, and so is `Open`: a document is made, the file and its preferences are loaded,
and then the new document is kept beside the old one (`opened`), instead of it
(`replaced`) or not at all (`failed`). -/
inductive Step : Editor → Event → Editor → Prop
  | option {e : Editor} {w : World} {a : Action} {c : Int} {p : Option (List Byte)}
      (hw : w.terminal = e.terminal) (ha : Harmless a) :
      Step e (.option w a c p) { e with session := (doOption w e.session e.cur a c p).2 }
  | popPrefs {e : Editor} {c : Int} (hidle : e.opening = false) :
      Step e (.popPrefs c)
        { e with
          session := (OpenDocuments.popPrefs e.cur (Movement.normalize c).toNat e.session).2 }
  | newDoc {e : Editor} {b : Nat} {answers : Answers} (hidle : e.opening = false)
      (hb : b ∉ e.buffers) : Step e (.newDoc b) (e.newBuffer b answers)
  | closeDoc {e e' : Editor} (hidle : e.opening = false) (h : e.closeDoc = some e') :
      Step e .closeDoc e'
  | nextDoc {e : Editor} (hidle : e.opening = false) : Step e .nextDoc e.nextDoc
  | prevDoc {e : Editor} (hidle : e.opening = false) : Step e .prevDoc e.prevDoc
  | selectDoc {e : Editor} {closed : List Nat} {answer : Option (List Nat × Nat)}
      (hidle : e.opening = false) (hclosed : Closable e closed)
      (hanswer : ∀ order b, answer = some (order, b) →
        order.Perm (closed.foldl Editor.handleClosedoc e).buffers ∧ b ∈ order) :
      Step e (.selectDoc closed answer) (e.selectDoc closed answer)
  | open {e : Editor} {b : Nat} {answers : Answers} (hidle : e.opening = false)
      (hb : b ∉ e.buffers) : Step e (.open b) { e.newBuffer b answers with opening := true }
  | opened {e : Editor} (hopening : e.opening = true) : Step e .opened { e with opening := false }
  | replaced {e e' : Editor} (hopening : e.opening = true) (h : e.prevDoc.deleteBuffer = some e') :
      Step e .replaced { e' with opening := false }
  | failed {e e' : Editor} (hopening : e.opening = true) (h : e.deleteBuffer = some e') :
      Step e .failed { e'.prevDoc with opening := false }
  | refresh {e : Editor} {t : Terminal} (hidle : e.opening = false) :
      Step e (.refresh t) (e.refresh t)
  | resize {e : Editor} {t : Terminal} : Step e (.resize t) (e.resize t)
  | bracketedPasteBegin {e : Editor} {w : World} (hidle : e.opening = false) :
      Step e (.bracketedPasteBegin w)
        (e.setEditing (ChainRuns.bracketedPasteBegin w e.editing e.cur))
  | bracketedPasteEnd {e : Editor} {w : World} (hidle : e.opening = false) :
      Step e (.bracketedPasteEnd w)
        (e.setEditing (ChainRuns.bracketedPasteEnd w e.editing e.cur))
  | other {e e' : Editor} (h : Keeps e e') : Step e .other e'

/-- The document that is current when the requester has closed some documents: the
current one, or the first one behind it, and around, that has not been closed. -/
def firstKept (e : Editor) (closed : List Nat) : Option Nat :=
  (e.buffers.dropWhile (· ≠ e.cur) ++ e.buffers.takeWhile (· ≠ e.cur)).find?
    fun b => ¬ b ∈ closed

/-- The preferences that `PopPrefs` leaves. -/
def lastPopped (e : Editor) (c : Int) : Option Options :=
  (e.session.prefStack.take (Movement.normalize c).toNat).getLast?

/-- The events that keep the TAB sizes usable. -/
def Permitted (e : Editor) : Event → Prop
  | .option _ .tabSizeA c _ => c = 0 → e.terminal.neColumns / 2 = 0
  | .popPrefs c => ∀ opt, lastPopped e c = some opt → Fits e.terminal opt.tabSize
  | .selectDoc closed none =>
      ∀ b, firstKept e closed = some b → Fits e.terminal (e.tabSize b)
  | .bracketedPasteEnd w =>
      w.bracketedPasteOk = true → 1 ≤ (e.session.documents e.cur).bpasteSupport →
        1 ≤ e.bpasteOptCache.tabSize ∧ Fits e.terminal e.bpasteOptCache.tabSize
  | _ => True

/-- The editor when it starts, with the document that `alloc_buffer` makes. -/
structure Starts (e : Editor) : Prop where
  buffers : e.buffers = [e.cur]
  tabSize : e.tabSize e.cur = 8
  prefStack : e.session.prefStack = []
  act : e.act e.cur = e.bufferActuations
  opening : e.opening = false

variable {e e' : Editor} {w : World} {s s' s'' : Session} {b c : Nat} {a : Action} {n : Int}
variable {p : Option (List Byte)} {t : Terminal} {l r : List Nat}

/-- The TAB sizes of all documents are the same, and so are the saved preferences. -/
structure KeepsTabSizes (s s' : Session) : Prop where
  tabSize : ∀ b, (s'.documents b).buffer.opt.tabSize = (s.documents b).buffer.opt.tabSize
  prefStack : s'.prefStack = s.prefStack

theorem KeepsTabSizes.of_eq (h : s'.documents = s.documents) (hstack : s'.prefStack = s.prefStack) :
    KeepsTabSizes s s' := ⟨fun b => by rw [h], hstack⟩

theorem KeepsTabSizes.trans (first : KeepsTabSizes s s') (second : KeepsTabSizes s' s'') :
    KeepsTabSizes s s'' :=
  ⟨fun b => (second.tabSize b).trans (first.tabSize b), second.prefStack.trans first.prefStack⟩

theorem KeepsTabSizes.setDocument {f : Document → Document}
    (hf : ∀ d, (f d).buffer.opt.tabSize = d.buffer.opt.tabSize) :
    KeepsTabSizes s (s.setDocument b f) := by
  refine ⟨fun b' => ?_, rfl⟩
  by_cases hb : b' = b
  · subst hb
    simp [Session.setDocument, hf]
  · simp [Session.setDocument, hb]

theorem KeepsTabSizes.setOpt {f : Options → Options} (hf : ∀ o, (f o).tabSize = o.tabSize) :
    KeepsTabSizes s (s.setOpt b f) := .setDocument fun _ => hf _

theorem record_keepsTabSizes : KeepsTabSizes s (record s b n).2 := by
  unfold record
  split
  · rename_i cs _
    split
    · have hset : KeepsTabSizes s (s.setDocument b fun d => { d with curMacro := cs }) :=
        .setDocument fun _ => rfl
      exact ⟨hset.tabSize, hset.prefStack⟩
    · split
      all_goals exact .of_eq rfl rfl
  · split
    · exact .of_eq rfl rfl
    · split
      all_goals exact .of_eq rfl rfl

theorem setUtf8_opt (b : Buffer) : (setUtf8 n b).2.opt = b.opt := by
  unfold setUtf8
  dsimp only
  split
  · split
    all_goals rfl
  · rfl

theorem setBracketedPaste_prefStack (q : List Byte) :
    (setBracketedPaste s b q).2.prefStack = s.prefStack := by
  simp only [setBracketedPaste]
  split
  · split
    all_goals
      split
      all_goals rfl
  · split
    all_goals rfl

/-- Only `TabSize` changes a TAB size, and only `PushPrefs` saves preferences. -/
theorem doOption_keepsTabSizes (h : Harmless a) (htabSize : a ≠ .tabSizeA)
    (hpush : a ≠ .pushPrefsA) : KeepsTabSizes s (doOption w s b a n p).2 := by
  have hdocument : ∀ {status : CommandStatus} {s : Session} {f : Document → Document},
      (∀ d, (f d).buffer.opt.tabSize = d.buffer.opt.tabSize) →
        KeepsTabSizes s (status, s.setDocument b f).2 := fun hf => .setDocument hf
  have hopt : ∀ {status : CommandStatus} {f : Options → Options},
      (∀ o, (f o).tabSize = o.tabSize) → KeepsTabSizes s (status, s.setOpt b f).2 :=
    fun hf => .setOpt hf
  have hboth : ∀ {status : CommandStatus} {f : Options → Options} {g : Document → Document},
      (∀ o, (f o).tabSize = o.tabSize) →
        (∀ d, (g d).buffer.opt.tabSize = d.buffer.opt.tabSize) →
          KeepsTabSizes s (status, (s.setOpt b f).setDocument b g).2 :=
    fun hf hg => (KeepsTabSizes.setOpt hf).trans (.setDocument hg)
  cases a with
  | tabSizeA => exact absurd rfl htabSize
  | pushPrefsA => exact absurd rfl hpush
  | bracketedPasteA =>
      have hset : ∀ q, KeepsTabSizes s (setBracketedPaste s b q).2 := fun q =>
        ⟨fun b' => by rw [(setBracketedPaste_buffer q b').1], setBracketedPaste_prefStack q⟩
      simp only [doOption]
      split
      · exact .of_eq rfl rfl
      · split
        · exact hset _
        · exact .of_eq rfl rfl
  | doUndoA =>
      simp only [doOption]
      split
      · exact hopt fun _ => rfl
      · exact hboth (fun _ => rfl) fun _ => rfl
  | utf8A =>
      simp only [doOption]
      refine ⟨fun b' => ?_, rfl⟩
      by_cases hb : b' = b
      · subst hb
        simp [Session.setDocument, setUtf8_opt]
      · simp [Session.setDocument, hb]
  | caseSearchA | searchBackA => exact hboth (fun _ => rfl) fun _ => rfl
  | autoMatchBracketA | clipNumberA | rightMarginA =>
      simp only [doOption]
      split
      · exact .of_eq rfl rfl
      · exact hopt fun _ => rfl
  | escapeTimeA =>
      simp only [doOption]
      split
      · exact .of_eq rfl rfl
      · split
        all_goals exact .of_eq rfl rfl
  | turboA =>
      simp only [doOption]
      split
      all_goals exact .of_eq rfl rfl
  | recordA => exact record_keepsTabSizes
  | syntaxA =>
      simp only [doOption]
      split
      · exact .of_eq rfl rfl
      · split
        · exact .of_eq rfl rfl
        · split
          · exact hdocument fun _ => rfl
          · split
            · exact hdocument fun _ => rfl
            · exact .of_eq rfl rfl
  | markA | markVertA =>
      refine hdocument fun d => ?_
      unfold mark
      dsimp only
      generalize (if n < 0 then 1 else n) = m
      split
      all_goals rfl
  | crlfA | modifiedA | nameConvertA => exact hdocument fun _ => rfl
  | fastGUIA | requestOrderA | statusBarA | utf8IOA | verboseMacrosA | nopA =>
      exact .of_eq rfl rfl
  | _ =>
      rcases h with h | h
      all_goals first | exact absurd h (by decide) | exact hopt fun _ => rfl

theorem split_of_mem {l : List Nat} (h : b ∈ l) (hnodup : l.Nodup) :
    ∃ before after, l = before ++ b :: after ∧ b ∉ before ∧ b ∉ after := by
  obtain ⟨before, after, rfl⟩ := List.append_of_mem h
  have hsides := List.nodup_append.mp hnodup
  refine ⟨before, after, rfl, fun hbefore => ?_, (List.nodup_cons.mp hsides.2.1).1⟩
  exact hsides.2.2 b hbefore b List.mem_cons_self rfl

theorem following_split (hb : b ∉ l) : following (l ++ b :: r) b = r.head? := by
  have hdrop : (l ++ b :: r).dropWhile (· ≠ b) = b :: r := by
    rw [List.dropWhile_append_of_pos (fun x hx => by simpa using ne_of_mem_of_not_mem hx hb)]
    simp
  rw [following, hdrop, List.tail_cons]

theorem preceding_split (hb : b ∉ l) : preceding (l ++ b :: r) b = l.getLast? := by
  have htake : (l ++ b :: r).takeWhile (· ≠ b) = l := by
    rw [List.takeWhile_append_of_pos (fun x hx => by simpa using ne_of_mem_of_not_mem hx hb)]
    simp
  rw [preceding, htake]

theorem addAfter_of_not_mem (hb : b ∉ l) : addAfter l b c = l := by
  induction l with
  | nil => rfl
  | cons x l ih =>
      have hx : ¬ x = b := fun heq => hb (heq ▸ List.mem_cons_self)
      rw [addAfter, List.flatMap_cons, if_neg hx]
      exact congrArg _ (ih fun hmem => hb (List.mem_cons_of_mem _ hmem))

theorem addAfter_split (hl : b ∉ l) (hr : b ∉ r) :
    addAfter (l ++ b :: r) b c = l ++ b :: c :: r := by
  have hleft := addAfter_of_not_mem (c := c) hl
  have hright := addAfter_of_not_mem (c := c) hr
  simp only [addAfter] at hleft hright ⊢
  rw [List.flatMap_append, List.flatMap_cons, if_pos rfl, hleft, hright]
  rfl

theorem following_mem (h : following l b = some c) : c ∈ l := by
  have htail := List.mem_of_mem_head? (Option.mem_def.mpr h)
  exact (List.dropWhile_sublist _).subset (List.mem_of_mem_tail htail)

theorem preceding_mem (h : preceding l b = some c) : c ∈ l :=
  (List.takeWhile_sublist _).subset (List.mem_of_getLast? h)

theorem shiftLeft_opt (turns : Nat) (b : Buffer) : (shiftLeft t turns b).opt = b.opt := by
  induction turns generalizing b with
  | zero => rfl
  | succ turns ih =>
      rw [shiftLeft]
      split
      · exact ih _
      · rfl

/-- The TAB size that `keep_cursor_on_screen` leaves. -/
def keptSize (t : Terminal) (tabSize : Int) : Int := min tabSize (max (t.neColumns.tdiv 2 - 1) 1)

theorem keepCursorOnScreen_tabSize (t : Terminal) (b : Buffer) :
    (keepCursorOnScreen t b).opt.tabSize = keptSize t b.opt.tabSize := by
  unfold keepCursorOnScreen
  dsimp only
  rw [shiftLeft_opt]
  split
  all_goals rfl

theorem keptSize_pos {tabSize : Int} (h : 1 ≤ tabSize) : 1 ≤ keptSize t tabSize :=
  le_min h (le_max_right _ _)

theorem fits_keptSize (t : Terminal) (tabSize : Int) : Fits t (keptSize t tabSize) := by
  have hle : keptSize t tabSize ≤ max (t.neColumns.tdiv 2 - 1) 1 := min_le_right _ _
  have hcolumns := t.columns_pos
  rw [Int.tdiv_eq_ediv_of_nonneg hcolumns.le] at hle
  simp only [Fits]
  omega

/-- What is true of the documents, whichever is current. -/
structure Sound (e : Editor) : Prop where
  pos : ∀ b ∈ e.buffers, 1 ≤ e.tabSize b
  nodup : e.buffers.Nodup
  saved : ∀ opt ∈ e.session.prefStack, 1 ≤ opt.tabSize
  act_le : ∀ b ∈ e.buffers, e.act b ≤ e.bufferActuations
  act_inj : ∀ b ∈ e.buffers, ∀ c ∈ e.buffers, e.act b = e.act c → b = c

/-- What is true in every state.  While a document is being opened it is the one that has
become current last, and the one that it may replace is before it. -/
structure Invariant (e : Editor) : Prop where
  sound : Sound e
  mem : e.cur ∈ e.buffers
  fits : Fits e.terminal (e.tabSize e.cur)
  newest : e.opening = true →
    e.act e.cur = e.bufferActuations ∧ preceding e.buffers e.cur ≠ none

theorem Invariant.usable (h : Invariant e) : Usable e := ⟨h.sound.pos, h.fits⟩

theorem keepOnScreen_tabSize (e : Editor) (b : Nat) :
    e.keepOnScreen.tabSize b =
      if b = e.cur then keptSize e.terminal (e.tabSize b) else e.tabSize b := by
  by_cases hb : b = e.cur
  · subst hb
    simp only [Editor.tabSize, Editor.keepOnScreen, Session.setDocument, Function.update_self,
      keepCursorOnScreen_tabSize, if_true]
  · simp only [Editor.tabSize, Editor.keepOnScreen, Session.setDocument,
      Function.update_of_ne hb, if_neg hb]

theorem Sound.keepOnScreen (h : Sound e) : Sound e.keepOnScreen := by
  refine ⟨fun b hb => ?_, h.nodup, h.saved, h.act_le, h.act_inj⟩
  rw [keepOnScreen_tabSize]
  split
  · exact keptSize_pos (h.pos b hb)
  · exact h.pos b hb

theorem Sound.actuate (h : Sound e) (b : Nat) : Sound (e.actuate b) := by
  refine ⟨h.pos, h.nodup, h.saved, fun c hc => ?_, fun c hc d hd hact => ?_⟩
  · simp only [Editor.actuate, Function.update_apply]
    split
    · exact le_rfl
    · exact (h.act_le c hc).trans (Nat.le_succ _)
  · simp only [Editor.actuate, Function.update_apply] at hact
    have hc' := h.act_le c hc
    have hd' := h.act_le d hd
    split at hact
    · rename_i hcb
      split at hact
      · rename_i hdb
        exact hcb.trans hdb.symm
      · omega
    · split at hact
      · omega
      · exact h.act_inj c hc d hd hact

theorem Sound.setCur (h : Sound e) (b : Nat) : Sound (e.setCur b) :=
  ⟨h.pos, h.nodup, h.saved, h.act_le, h.act_inj⟩

theorem Sound.kept (h : Sound e) (hmem : e.cur ∈ e.buffers) (hopening : e.opening = false) :
    Invariant e.keepOnScreen where
  sound := h.keepOnScreen
  mem := hmem
  fits := by
    have hcur : e.keepOnScreen.tabSize e.cur = keptSize e.terminal (e.tabSize e.cur) := by
      rw [keepOnScreen_tabSize, if_pos rfl]
    have hfits := fits_keptSize e.terminal (e.tabSize e.cur)
    rwa [← hcur] at hfits
  newest := fun hyes => absurd (hyes.symm.trans hopening) nofun

theorem Sound.switchTo (h : Sound e) (hmem : b ∈ e.buffers) (hopening : e.opening = false) :
    Invariant (e.switchTo b) :=
  ((h.setCur b).actuate b).kept hmem hopening

theorem setDocument_tabSize (f : Document → Document) (b c : Nat) :
    ((s.setDocument b f).documents c).buffer.opt.tabSize =
      if c = b then (f (s.documents b)).buffer.opt.tabSize
      else (s.documents c).buffer.opt.tabSize := by
  by_cases hc : c = b
  · subst hc
    simp [Session.setDocument]
  · simp [Session.setDocument, hc]

theorem Invariant.session {s : Session} (h : Invariant e) (hcur : s.curBuffer = e.cur)
    (hpos : ∀ b ∈ e.buffers, 1 ≤ (s.documents b).buffer.opt.tabSize)
    (hfits : Fits e.terminal (s.documents e.cur).buffer.opt.tabSize)
    (hsaved : ∀ opt ∈ s.prefStack, 1 ≤ opt.tabSize) : Invariant { e with session := s } where
  sound := ⟨hpos, h.sound.nodup, hsaved, h.sound.act_le, h.sound.act_inj⟩
  mem := by
    simp only [Editor.cur, hcur]
    exact h.mem
  fits := by
    simp only [Editor.tabSize, Editor.cur, hcur]
    exact hfits
  newest := fun hopening => by
    simp only [Editor.cur, hcur]
    exact h.newest hopening

theorem pushPrefs_saved {opt : Options} (hopt : 1 ≤ opt.tabSize)
    (h : ∀ o ∈ s.prefStack, 1 ≤ o.tabSize) (c : Nat) :
    (pushPrefs opt c s).2.documents = s.documents ∧
      ∀ o ∈ (pushPrefs opt c s).2.prefStack, 1 ≤ o.tabSize := by
  induction c generalizing s with
  | zero => exact ⟨rfl, h⟩
  | succ c ih =>
      rw [pushPrefs]
      split
      · exact ⟨rfl, h⟩
      · refine ih fun o ho => ?_
        rcases List.mem_cons.mp ho with rfl | ho
        · exact hopt
        · exact h o ho

theorem Invariant.option (h : Invariant e) (hw : w.terminal = e.terminal) (ha : Harmless a)
    (hpermitted : Permitted e (.option w a n p)) :
    Invariant { e with session := (doOption w e.session e.cur a n p).2 } := by
  have hcur : (doOption w e.session e.cur a n p).2.curBuffer = e.cur :=
    (doOption_options ha).curBuffer
  by_cases hpush : a = .pushPrefsA
  · subst hpush
    obtain ⟨hdocuments, hsaved⟩ := pushPrefs_saved (h.sound.pos e.cur h.mem) h.sound.saved
      (if n < 0 then 1 else n.toNat)
    refine h.session hcur (fun b hb => ?_) ?_ hsaved
    · simp only [doOption, hdocuments]
      exact h.sound.pos b hb
    · simp only [doOption, hdocuments]
      exact h.fits
  by_cases htab : a = .tabSizeA
  · subst htab
    revert hcur
    simp only [doOption]
    split
    · exact fun _ => h
    rename_i hzero
    split
    · rename_i hlt
      rw [hw] at hlt
      intro hcur
      have hpos : 1 ≤ numberArgument w e.session .tabSizeA n := by
        have hnumber : 0 ≤ n → numberArgument w e.session .tabSizeA n = n := fun hn =>
          if_neg (by omega)
        have hpermitted' : n = 0 → e.terminal.neColumns / 2 = 0 := hpermitted
        by_cases hneg : n < 0
        · by_contra hnot
          exact hzero ⟨hneg, by omega⟩
        · rw [hnumber (by omega)] at hlt ⊢
          by_contra hnot
          have hn : n = 0 := by omega
          have := hpermitted' hn
          omega
      refine h.session hcur (fun b hb => ?_) ?_ h.sound.saved
      · rw [setDocument_tabSize]
        split
        · rw [(gotoPos_kept _ _ _).1]
          exact hpos
        · exact h.sound.pos b hb
      · rw [setDocument_tabSize, if_pos rfl, (gotoPos_kept _ _ _).1]
        exact lt_max_of_lt_left hlt
    · exact fun _ => h
  · have hkeeps := doOption_keepsTabSizes (w := w) (s := e.session) (b := e.cur) (n := n) (p := p)
      ha htab hpush
    refine h.session hcur (fun b hb => ?_) ?_ ?_
    · rw [hkeeps.tabSize]
      exact h.sound.pos b hb
    · rw [hkeeps.tabSize]
      exact h.fits
    · rw [hkeeps.prefStack]
      exact h.sound.saved

theorem popPrefs_spec (b c : Nat) (s : Session) :
    (popPrefs b c s).2.curBuffer = s.curBuffer ∧
      (popPrefs b c s).2.prefStack = s.prefStack.drop c ∧
      ∀ b', ((popPrefs b c s).2.documents b').buffer.opt.tabSize =
        if b' = b then
          (((s.prefStack.take c).getLast?).map Options.tabSize).getD
            (s.documents b).buffer.opt.tabSize
        else (s.documents b').buffer.opt.tabSize := by
  induction c generalizing s with
  | zero =>
      refine ⟨rfl, rfl, fun b' => ?_⟩
      by_cases hb : b' = b
      · simp [popPrefs, hb]
      · simp [popPrefs, hb]
  | succ c ih =>
      rw [popPrefs]
      split
      · rename_i hempty
        refine ⟨rfl, by simp [hempty], fun b' => ?_⟩
        by_cases hb : b' = b
        · simp [hempty, hb]
        · simp [hb]
      · rename_i opt rest hstack
        obtain ⟨hcur, hrest, htab⟩ := ih ({ s with prefStack := rest }.setOpt b fun _ => opt)
        refine ⟨hcur, ?_, fun b' => ?_⟩
        · rw [hrest, hstack]
          rfl
        · have hset : (({ s with prefStack := rest }.setOpt b fun _ => opt).documents
              b).buffer.opt.tabSize = opt.tabSize := by
            rw [Session.setOpt, setDocument_tabSize, if_pos rfl]
          rw [htab]
          by_cases hb : b' = b
          · have hlast : ((s.prefStack.take (c + 1)).getLast?).map Options.tabSize =
                some ((((rest.take c).getLast?).map Options.tabSize).getD opt.tabSize) := by
              rw [hstack, List.take_succ_cons, List.getLast?_cons]
              cases (rest.take c).getLast? <;> rfl
            rw [if_pos hb, if_pos hb, hlast, hset]
            rfl
          · rw [if_neg hb, if_neg hb, Session.setOpt, setDocument_tabSize, if_neg hb]

theorem Invariant.popPrefs (h : Invariant e) (hpermitted : Permitted e (.popPrefs n)) :
    Invariant { e with
      session := (OpenDocuments.popPrefs e.cur (Movement.normalize n).toNat e.session).2 } := by
  obtain ⟨hcur, hstack, htab⟩ := popPrefs_spec e.cur (Movement.normalize n).toNat e.session
  have hsize : ∀ P : Int → Prop, P (e.tabSize e.cur) →
      (∀ opt, lastPopped e n = some opt → P opt.tabSize) →
        P ((((e.session.prefStack.take (Movement.normalize n).toNat).getLast?).map
          Options.tabSize).getD
          (e.session.documents e.cur).buffer.opt.tabSize) := by
    intro P hold hpopped
    rcases hlast : (e.session.prefStack.take (Movement.normalize n).toNat).getLast? with _ | opt
    · exact hold
    · exact hpopped opt hlast
  have hsaved : ∀ opt, lastPopped e n = some opt → 1 ≤ opt.tabSize := fun opt hopt =>
    h.sound.saved opt (List.mem_of_mem_take (List.mem_of_getLast? hopt))
  refine h.session hcur (fun b hb => ?_) ?_ ?_
  · rw [htab]
    split
    · exact hsize (1 ≤ ·) (h.sound.pos e.cur h.mem) hsaved
    · exact h.sound.pos b hb
  · rw [htab, if_pos rfl]
    exact hsize (Fits e.terminal) h.fits hpermitted
  · rw [hstack]
    exact fun opt hopt => h.sound.saved opt (List.mem_of_mem_drop hopt)

theorem Invariant.newBuffer (h : Invariant e) (hb : b ∉ e.buffers) (answers : Answers)
    (opening : Bool) : Invariant { e.newBuffer b answers with opening := opening } := by
  obtain ⟨before, after, hbuffers, hbefore, hafter⟩ := split_of_mem h.mem h.sound.nodup
  have hadded : (e.newBuffer b answers).buffers = before ++ e.cur :: b :: after := by
    have hadd := addAfter_split (c := b) hbefore hafter
    rw [← hbuffers] at hadd
    exact hadd
  have hperm : (e.newBuffer b answers).buffers.Perm (b :: e.buffers) := by
    rw [hadded, hbuffers]
    simpa using @List.perm_middle _ b (before ++ [e.cur]) after
  have hmem : ∀ {c}, c ∈ (e.newBuffer b answers).buffers → c = b ∨ c ∈ e.buffers := fun hc =>
    List.mem_cons.mp (hperm.subset hc)
  have hact : ∀ {c}, c ∈ e.buffers → (e.newBuffer b answers).act c = e.act c := fun hc =>
    Function.update_of_ne (ne_of_mem_of_not_mem hc hb) _ _
  have hnew : (e.newBuffer b answers).act b = e.bufferActuations + 1 := Function.update_self ..
  have htab : ∀ c, (e.newBuffer b answers).tabSize c =
      if c = b then e.tabSize e.cur else e.tabSize c := fun c =>
    setDocument_tabSize (s := e.session) (fun _ => e.newDocument answers) b c
  refine ⟨⟨fun c hc => ?_, hperm.nodup_iff.mpr (List.nodup_cons.mpr ⟨hb, h.sound.nodup⟩),
    h.sound.saved, fun c hc => ?_, fun c hc d hd heq => ?_⟩, ?_, ?_, fun _ => ⟨hnew, ?_⟩⟩
  · have hsize := htab c
    simp only [Editor.tabSize] at hsize ⊢
    rw [hsize]
    split
    · exact h.sound.pos e.cur h.mem
    · rename_i hne
      exact h.sound.pos c ((hmem hc).resolve_left hne)
  · simp only
    rcases hmem hc with rfl | hc
    · rw [hnew]
      exact le_rfl
    · rw [hact hc]
      exact (h.sound.act_le c hc).trans (Nat.le_succ _)
  · simp only at heq
    rcases hmem hc with rfl | hcold
    · rcases hmem hd with rfl | hdold
      · rfl
      · rw [hnew, hact hdold] at heq
        have := h.sound.act_le d hdold
        omega
    · rcases hmem hd with rfl | hdold
      · rw [hnew, hact hcold] at heq
        have := h.sound.act_le c hcold
        omega
      · rw [hact hcold, hact hdold] at heq
        exact h.sound.act_inj c hcold d hdold heq
  · exact hperm.symm.subset List.mem_cons_self
  · have hsize := htab b
    rw [if_pos rfl] at hsize
    have hfits : Fits e.terminal ((e.newBuffer b answers).tabSize b) := hsize ▸ h.fits
    exact hfits
  · have hsplit : (e.newBuffer b answers).buffers = (before ++ [e.cur]) ++ b :: after := by
      rw [hadded]
      simp
    have hnot : b ∉ before ++ [e.cur] := by
      rw [List.mem_append, List.mem_singleton, not_or]
      refine ⟨fun hmem => hb ?_, fun heq => hb (heq ▸ h.mem)⟩
      rw [hbuffers]
      exact List.mem_append_left _ hmem
    have hprev : preceding (e.newBuffer b answers).buffers b = some e.cur := by
      rw [hsplit, preceding_split hnot, List.getLast?_concat]
    have hsome : preceding (e.newBuffer b answers).buffers b ≠ none := hprev ▸ nofun
    exact hsome

theorem Sound.erase (h : Sound e) (b : Nat) : Sound { e with buffers := e.buffers.erase b } where
  pos := fun c hc => h.pos c (List.mem_of_mem_erase hc)
  nodup := h.nodup.erase b
  saved := h.saved
  act_le := fun c hc => h.act_le c (List.mem_of_mem_erase hc)
  act_inj := fun c hc d hd => h.act_inj c (List.mem_of_mem_erase hc) d (List.mem_of_mem_erase hd)

theorem erase_split (hl : b ∉ l) : (l ++ b :: r).erase b = l ++ r := by
  rw [List.erase_append_right _ hl, List.erase_cons_head]

theorem neighbour_mem (hmem : b ∈ l) (hnodup : l.Nodup)
    (h : preceding l b = some c ∨ following l b = some c) : c ∈ l.erase b := by
  obtain ⟨before, after, rfl, hbefore, hafter⟩ := split_of_mem hmem hnodup
  rw [erase_split hbefore]
  rcases h with h | h
  · rw [preceding_split hbefore] at h
    exact List.mem_append_left _ (List.mem_of_getLast? h)
  · rw [following_split hbefore] at h
    exact List.mem_append_right _ (List.mem_of_mem_head? (Option.mem_def.mpr h))

theorem deleteBuffer_spec (h : e.deleteBuffer = some e') :
    ∃ b, (preceding e.buffers e.cur = some b ∨ following e.buffers e.cur = some b) ∧
      e' = { e with buffers := e.buffers.erase e.cur }.setCur b := by
  unfold Editor.deleteBuffer at h
  obtain ⟨b, hb, rfl⟩ := Option.map_eq_some_iff.mp h
  refine ⟨b, ?_, rfl⟩
  split at hb
  · exact .inr hb
  · exact .inl hb
  · rename_i prev next hprev hnext
    split at hb
    · exact .inr (hnext.trans hb)
    · exact .inl (hprev.trans hb)

theorem Invariant.closeDoc (h : Invariant e) (hopening : e.opening = false)
    (hclose : e.closeDoc = some e') : Invariant e' := by
  obtain ⟨e₁, hdelete, rfl⟩ := Option.map_eq_some_iff.mp hclose
  obtain ⟨b, hb, rfl⟩ := deleteBuffer_spec hdelete
  have hmem := neighbour_mem h.mem h.sound.nodup hb
  exact (((h.sound.erase e.cur).setCur b).actuate b).kept hmem hopening

theorem Sound.nextDoc (h : Sound e) (hmem : e.cur ∈ e.buffers) (hopening : e.opening = false) :
    Invariant e.nextDoc := by
  refine h.switchTo ?_ hopening
  rcases hnext : following e.buffers e.cur with _ | b
  · rcases hhead : e.buffers.head? with _ | b
    · exact hmem
    · exact List.mem_of_mem_head? (Option.mem_def.mpr hhead)
  · exact following_mem hnext

theorem Sound.prevDoc (h : Sound e) (hmem : e.cur ∈ e.buffers) (hopening : e.opening = false) :
    Invariant e.prevDoc := by
  refine h.switchTo ?_ hopening
  rcases hprev : preceding e.buffers e.cur with _ | b
  · rcases hlast : e.buffers.getLast? with _ | b
    · exact hmem
    · exact List.mem_of_getLast? hlast
  · exact preceding_mem hprev

theorem deleteBuffer_newest (h : Sound e) (hl : e.buffers = l ++ b :: c :: r) (hcur : e.cur = b)
    (hnewest : ∀ d ∈ l, e.act d < e.act c) :
    e.deleteBuffer = some ({ e with buffers := e.buffers.erase b }.setCur c) := by
  have hb : b ∉ l := by
    intro hmem
    have hnodup := h.nodup
    rw [hl] at hnodup
    exact (List.nodup_append.mp hnodup).2.2 b hmem b List.mem_cons_self rfl
  have hnext : following e.buffers e.cur = some c := by
    rw [hl, hcur, following_split hb, List.head?_cons]
  have hprev : preceding e.buffers e.cur = l.getLast? := by
    rw [hl, hcur, preceding_split hb]
  unfold Editor.deleteBuffer
  rw [hnext, hprev, hcur]
  rcases hlast : l.getLast? with _ | p
  · rfl
  · simp only [if_pos (hnewest p (List.mem_of_getLast? hlast)), Option.map_some]

theorem Invariant.replaced (h : Invariant e) (hopening : e.opening = true)
    (hdelete : e.prevDoc.deleteBuffer = some e') : Invariant { e' with opening := false } := by
  obtain ⟨hact, hprev⟩ := h.newest hopening
  obtain ⟨a, ha⟩ := Option.ne_none_iff_exists'.mp hprev
  obtain ⟨before, after, hbuffers, hbefore, hafter⟩ := split_of_mem h.mem h.sound.nodup
  have hlast := ha
  rw [hbuffers, preceding_split hbefore] at hlast
  obtain ⟨before, rfl⟩ := List.getLast?_eq_some_iff.mp hlast
  have hsplit : e.buffers = before ++ a :: e.cur :: after := by simpa using hbuffers
  have hswitch : e.prevDoc = e.switchTo a := by rw [Editor.prevDoc, ha, Option.getD_some]
  have hsound : Sound (e.switchTo a) := ((h.sound.setCur a).actuate a).keepOnScreen
  have hane : e.cur ≠ a := fun heq => hbefore (by rw [heq]; simp)
  have hactCur : (e.switchTo a).act e.cur = e.act e.cur := Function.update_of_ne hane _ _
  have hnewest : ∀ d ∈ before, (e.switchTo a).act d < (e.switchTo a).act e.cur := by
    intro d hd
    have hdmem : d ∈ e.buffers := hsplit ▸ List.mem_append_left _ hd
    have hda : d ≠ a := by
      rintro rfl
      have hnodup := h.sound.nodup
      rw [hsplit] at hnodup
      exact (List.nodup_append.mp hnodup).2.2 d hd d List.mem_cons_self rfl
    have hdcur : d ≠ e.cur := fun heq => hbefore (heq ▸ List.mem_append_left _ hd)
    have hactd : (e.switchTo a).act d = e.act d := Function.update_of_ne hda _ _
    rw [hactd, hactCur, hact]
    refine lt_of_le_of_ne (h.sound.act_le d hdmem) fun heq => hdcur ?_
    exact h.sound.act_inj d hdmem e.cur h.mem (heq.trans hact.symm)
  rw [hswitch, deleteBuffer_newest hsound hsplit rfl hnewest] at hdelete
  obtain rfl := Option.some.inj hdelete
  have herased := (hsound.erase a).setCur e.cur
  refine ⟨⟨herased.pos, herased.nodup, herased.saved, herased.act_le, herased.act_inj⟩, ?_, ?_,
    nofun⟩
  · exact (List.mem_erase_of_ne hane).mpr h.mem
  · have htab : (e.switchTo a).tabSize e.cur = e.tabSize e.cur :=
      (keepOnScreen_tabSize _ _).trans (if_neg hane)
    have hfits := h.fits
    rw [← htab] at hfits
    exact hfits

theorem Invariant.failed (h : Invariant e) (hdelete : e.deleteBuffer = some e') :
    Invariant { e'.prevDoc with opening := false } := by
  obtain ⟨b, hb, rfl⟩ := deleteBuffer_spec hdelete
  have hmem := neighbour_mem h.mem h.sound.nodup hb
  have hsound : Sound ({ e with buffers := e.buffers.erase e.cur, opening := false }.setCur b) :=
    let h' := (h.sound.erase e.cur).setCur b
    ⟨h'.pos, h'.nodup, h'.saved, h'.act_le, h'.act_inj⟩
  exact hsound.prevDoc hmem rfl

theorem Invariant.resize (h : Invariant e) (t : Terminal) : Invariant (e.resize t) where
  sound := by
    have hsound : Sound { e with terminal := t } :=
      ⟨h.sound.pos, h.sound.nodup, h.sound.saved, h.sound.act_le, h.sound.act_inj⟩
    exact hsound.keepOnScreen
  mem := h.mem
  fits := by
    have hcur : (e.resize t).tabSize e.cur = keptSize t (e.tabSize e.cur) :=
      (keepOnScreen_tabSize { e with terminal := t } e.cur).trans (if_pos rfl)
    have hfits := fits_keptSize t (e.tabSize e.cur)
    rwa [← hcur] at hfits
  newest := h.newest

theorem Invariant.refresh (h : Invariant e) (t : Terminal) : Invariant (e.refresh t) where
  sound := (h.resize t).sound.actuate e.cur
  mem := h.mem
  fits := (h.resize t).fits
  newest := fun hopening => ⟨Function.update_self .., (h.newest hopening).2⟩

theorem Invariant.other (h : Invariant e) (hkeeps : Keeps e e') : Invariant e' where
  sound := by
    refine ⟨?_, ?_, ?_, ?_, ?_⟩
    · simp only [hkeeps.buffers, hkeeps.tabSize]
      exact h.sound.pos
    · rw [hkeeps.buffers]
      exact h.sound.nodup
    · rw [hkeeps.prefStack]
      exact h.sound.saved
    · rw [hkeeps.buffers, hkeeps.act, hkeeps.bufferActuations]
      exact h.sound.act_le
    · rw [hkeeps.buffers, hkeeps.act]
      exact h.sound.act_inj
  mem := by
    rw [hkeeps.buffers, hkeeps.cur]
    exact h.mem
  fits := by
    rw [hkeeps.terminal, hkeeps.tabSize, hkeeps.cur]
    exact h.fits
  newest := by
    rw [hkeeps.opening, hkeeps.act, hkeeps.bufferActuations, hkeeps.cur, hkeeps.buffers]
    exact h.newest

theorem endUndoChain_opt (b : Buffer) : (UndoSteps.endUndoChain b).opt = b.opt := by
  unfold UndoSteps.endUndoChain
  dsimp only
  split
  · rfl
  · split
    all_goals rfl

theorem Invariant.setEditing (h : Invariant e) {s : Editing}
    (hs : Invariant { e with session := s.session }) (hcur : s.session.curBuffer = e.cur) :
    Invariant (e.setEditing s) :=
  ⟨⟨hs.sound.pos, hs.sound.nodup, hs.sound.saved, hs.sound.act_le, hs.sound.act_inj⟩, hs.mem,
    hs.fits, fun hopening => by
      have hnewest := h.newest hopening
      rwa [← hcur] at hnewest⟩

theorem Invariant.keepsTabSizes (h : Invariant e) (hcur : s.curBuffer = e.cur)
    (hkeeps : KeepsTabSizes e.session s) : Invariant { e with session := s } := by
  refine h.session hcur (fun b hb => ?_) ?_ ?_
  · rw [hkeeps.tabSize]
    exact h.sound.pos b hb
  · rw [hkeeps.tabSize]
    exact h.fits
  · rw [hkeeps.prefStack]
    exact h.sound.saved

theorem Invariant.begin (h : Invariant e) (w : World) :
    Invariant (e.setEditing (ChainRuns.bracketedPasteBegin w e.editing e.cur)) := by
  have hkeeps : (ChainRuns.bracketedPasteBegin w e.editing e.cur).session.curBuffer = e.cur ∧
      KeepsTabSizes e.session (ChainRuns.bracketedPasteBegin w e.editing e.cur).session := by
    unfold ChainRuns.bracketedPasteBegin
    dsimp only
    split
    · split
      · refine ⟨rfl, ?_⟩
        simp only [Editing.setDocument]
        exact .setDocument fun _ => rfl
      · split
        all_goals exact ⟨rfl, .of_eq rfl rfl⟩
    · exact ⟨rfl, .of_eq rfl rfl⟩
  exact h.setEditing (h.keepsTabSizes hkeeps.1 hkeeps.2) hkeeps.1

theorem bracketedPasteEnd_tabSize (w : World) (s : Editing) (b : Nat) :
    (ChainRuns.bracketedPasteEnd w s b).session.curBuffer = s.session.curBuffer ∧
      (ChainRuns.bracketedPasteEnd w s b).session.prefStack = s.session.prefStack ∧
        ∀ c, ((ChainRuns.bracketedPasteEnd w s b).session.documents c).buffer.opt.tabSize =
          if c = b ∧ w.bracketedPasteOk = true ∧ 1 ≤ (s.session.documents b).bpasteSupport then
            s.bpasteOptCache.tabSize
          else (s.session.documents c).buffer.opt.tabSize := by
  unfold ChainRuns.bracketedPasteEnd
  dsimp only
  split
  · rename_i hoff
    refine ⟨rfl, rfl, fun c => (if_neg ?_).symm⟩
    rintro ⟨-, hok, hsupport⟩
    rcases hoff with hoff | hoff
    · exact hoff hok
    · omega
  · rename_i hon
    obtain ⟨hok, hsupport⟩ := not_or.mp hon
    have hiff : ∀ c, (c = b ∧ w.bracketedPasteOk = true ∧
        1 ≤ (s.session.documents b).bpasteSupport) ↔ c = b := fun c =>
      and_iff_left ⟨not_not.mp hok, by omega⟩
    split
    all_goals
      refine ⟨rfl, rfl, fun c => ?_⟩
      simp only [hiff, Editing.setDocument, setDocument_tabSize, endUndoChain_opt]

theorem Invariant.end (h : Invariant e) (hpermitted : Permitted e (.bracketedPasteEnd w)) :
    Invariant (e.setEditing (ChainRuns.bracketedPasteEnd w e.editing e.cur)) := by
  obtain ⟨hcur, hstack, htab⟩ := bracketedPasteEnd_tabSize w e.editing e.cur
  refine h.setEditing (h.session hcur (fun b hb => ?_) ?_ ?_) hcur
  · rw [htab]
    split
    · rename_i hends
      exact (hpermitted hends.2.1 hends.2.2).1
    · exact h.sound.pos b hb
  · rw [htab]
    split
    · rename_i hends
      exact (hpermitted hends.2.1 hends.2.2).2
    · exact h.fits
  · rw [hstack]
    exact h.sound.saved

/-- The documents, from the current one on and around. -/
def Around (buffers : List Nat) (cur : Nat) (row : List Nat) : Prop :=
  ∃ before after, buffers = before ++ cur :: after ∧ row = cur :: after ++ before

theorem around_next {next : Nat} (hrow : Around l b r) (hnodup : l.Nodup) (hlength : l.length ≠ 1)
    (hnext : next = (following l b).getD ((l.erase b).head?.getD b)) :
    Around (l.erase b) next (r.erase b) := by
  obtain ⟨before, after, rfl, rfl⟩ := hrow
  have hbefore : b ∉ before := fun hmem =>
    (List.nodup_append.mp hnodup).2.2 b hmem b List.mem_cons_self rfl
  rw [following_split hbefore, erase_split hbefore] at hnext
  rw [erase_split hbefore, List.cons_append, List.erase_cons_head]
  rcases after with _ | ⟨x, after⟩
  · rcases before with _ | ⟨y, before⟩
    · exact absurd rfl hlength
    · obtain rfl : next = y := hnext
      exact ⟨[], before, by simp, by simp⟩
  · obtain rfl : next = x := hnext
    exact ⟨before, after, rfl, rfl⟩

theorem around_other (hrow : Around l c r) (hnodup : l.Nodup) (hne : b ≠ c) (hb : b ∈ l) :
    Around (l.erase b) c (r.erase b) := by
  obtain ⟨before, after, rfl, rfl⟩ := hrow
  have hsides := List.nodup_append.mp hnodup
  by_cases hbefore : b ∈ before
  · have hafter : b ∉ c :: after := fun hmem => hsides.2.2 b hbefore b hmem rfl
    refine ⟨before.erase b, after, List.erase_append_left _ hbefore, ?_⟩
    exact List.erase_append_right _ hafter
  · have hafter : b ∈ after := by
      rcases List.mem_append.mp hb with hmem | hmem
      · exact absurd hmem hbefore
      · exact (List.mem_cons.mp hmem).resolve_left hne
    have hcons : (c :: after).erase b = c :: after.erase b :=
      List.erase_cons_tail (by simpa using hne.symm)
    refine ⟨before, after.erase b, ?_, ?_⟩
    · rw [List.erase_append_right _ hbefore, hcons]
    · rw [List.erase_append_left _ (List.mem_cons_of_mem _ hafter), hcons]

/-- What the requester does to the editor when it closes documents. -/
structure Closes (e e' : Editor) (buffers row : List Nat) : Prop where
  documents : e'.session.documents = e.session.documents
  prefStack : e'.session.prefStack = e.session.prefStack
  terminal : e'.terminal = e.terminal
  act : e'.act = e.act
  bufferActuations : e'.bufferActuations = e.bufferActuations
  opening : e'.opening = e.opening
  buffers : e'.buffers = buffers
  around : Around e'.buffers e'.cur row

theorem handleClosedoc_closes {row : List Nat} (hnodup : e.buffers.Nodup)
    (hrow : Around e.buffers e.cur row) (hmem : b ∈ e.buffers)
    (hunmodified : (e.session.documents b).buffer.isModified = false)
    (hlength : e.buffers.length ≠ 1) :
    Closes e (e.handleClosedoc b) (e.buffers.erase b) (row.erase b) := by
  have hcloses : ¬ (b ∉ e.buffers ∨ (e.session.documents b).buffer.isModified = true ∨
      e.buffers.length = 1) := by
    simp [hmem, hunmodified, hlength]
  unfold Editor.handleClosedoc
  rw [if_neg hcloses]
  dsimp only
  split
  · rename_i heq
    rw [← heq] at hrow
    exact ⟨rfl, rfl, rfl, rfl, rfl, rfl, rfl, around_next hrow hnodup hlength rfl⟩
  · rename_i hne
    exact ⟨rfl, rfl, rfl, rfl, rfl, rfl, rfl, around_other hrow hnodup hne hmem⟩

theorem Closable.tail {closed : List Nat} (h : Closable e (b :: closed))
    (hcloses : Closes e e' (e.buffers.erase b) r) : Closable e' closed := by
  obtain ⟨hb, hclosed⟩ := List.nodup_cons.mp h.nodup
  have hmem := h.mem b List.mem_cons_self
  refine ⟨hclosed, fun c hc => ?_, fun c hc => ?_, ?_⟩
  · rw [hcloses.buffers]
    exact (List.mem_erase_of_ne (ne_of_mem_of_not_mem hc hb)).mpr
      (h.mem c (List.mem_cons_of_mem _ hc))
  · rw [hcloses.documents]
    exact h.unmodified c (List.mem_cons_of_mem _ hc)
  · have hlength := h.length
    rw [hcloses.buffers, List.length_erase_of_mem hmem]
    rw [List.length_cons] at hlength
    omega

theorem foldl_handleClosedoc {closed row : List Nat} (h : Closable e closed)
    (hnodup : e.buffers.Nodup) (hrow : Around e.buffers e.cur row) :
    Closes e (closed.foldl Editor.handleClosedoc e) (e.buffers.filter (· ∉ closed))
      (row.filter (· ∉ closed)) := by
  induction closed generalizing e row with
  | nil => exact ⟨rfl, rfl, rfl, rfl, rfl, rfl, by simp, by simpa using hrow⟩
  | cons b closed ih =>
      have hlength := h.length
      rw [List.length_cons] at hlength
      have hfirst := handleClosedoc_closes hnodup hrow (h.mem b List.mem_cons_self)
        (h.unmodified b List.mem_cons_self) (by omega)
      have hnodup' : (e.handleClosedoc b).buffers.Nodup := by
        rw [hfirst.buffers]
        exact hnodup.erase b
      have hrest := ih (h.tail hfirst) hnodup' hfirst.around
      have hfilter : ∀ {l : List Nat}, l.Nodup →
          (l.erase b).filter (· ∉ closed) = l.filter (· ∉ b :: closed) := by
        intro l hl
        rw [hl.erase_eq_filter, List.filter_filter]
        congr 1
        funext x
        rw [Bool.eq_iff_iff]
        simp only [Bool.and_eq_true, decide_eq_true_eq, bne_iff_ne, List.mem_cons, not_or]
        exact and_comm
      have hrowNodup : row.Nodup := by
        obtain ⟨before, after, hsplit, rfl⟩ := hrow
        rw [hsplit] at hnodup
        exact (List.perm_append_comm.nodup_iff).mp hnodup
      refine ⟨hrest.documents.trans hfirst.documents, hrest.prefStack.trans hfirst.prefStack,
        hrest.terminal.trans hfirst.terminal, hrest.act.trans hfirst.act,
        hrest.bufferActuations.trans hfirst.bufferActuations,
        hrest.opening.trans hfirst.opening, ?_, ?_⟩
      · rw [List.foldl_cons, hrest.buffers, hfirst.buffers, hfilter hnodup]
      · rw [List.foldl_cons, ← hfilter hrowNodup]
        exact hrest.around

theorem Sound.closes {buffers row : List Nat} (h : Sound e) (hcloses : Closes e e' buffers row)
    (hsub : buffers.Sublist e.buffers) : Sound e' := by
  have hmem : ∀ {b}, b ∈ e'.buffers → b ∈ e.buffers := fun hb =>
    hsub.subset (hcloses.buffers ▸ hb)
  refine ⟨fun b hb => ?_, ?_, ?_, fun b hb => ?_, fun b hb c hc hact => ?_⟩
  · rw [Editor.tabSize, hcloses.documents]
    exact h.pos b (hmem hb)
  · rw [hcloses.buffers]
    exact hsub.nodup h.nodup
  · rw [hcloses.prefStack]
    exact h.saved
  · rw [hcloses.act, hcloses.bufferActuations]
    exact h.act_le b (hmem hb)
  · rw [hcloses.act] at hact
    exact h.act_inj b (hmem hb) c (hmem hc) hact

theorem Sound.reorder {order : List Nat} (h : Sound e) (horder : order.Perm e.buffers) :
    Sound { e with buffers := order } where
  pos := fun b hb => h.pos b (horder.subset hb)
  nodup := horder.nodup_iff.mpr h.nodup
  saved := h.saved
  act_le := fun b hb => h.act_le b (horder.subset hb)
  act_inj := fun b hb c hc => h.act_inj b (horder.subset hb) c (horder.subset hc)

theorem firstKept_eq {closed : List Nat} (hnodup : e.buffers.Nodup) (hmem : e.cur ∈ e.buffers)
    (hrow : ∀ row, Around e.buffers e.cur row →
      Around e'.buffers e'.cur (row.filter (· ∉ closed))) :
    firstKept e closed = some e'.cur := by
  obtain ⟨before, after, hbuffers, hbefore, -⟩ := split_of_mem hmem hnodup
  have hdrop : e.buffers.dropWhile (· ≠ e.cur) = e.cur :: after := by
    rw [hbuffers, List.dropWhile_append_of_pos
      (fun x hx => by simpa using ne_of_mem_of_not_mem hx hbefore)]
    simp
  have htake : e.buffers.takeWhile (· ≠ e.cur) = before := by
    rw [hbuffers, List.takeWhile_append_of_pos
      (fun x hx => by simpa using ne_of_mem_of_not_mem hx hbefore)]
    simp
  obtain ⟨before', after', -, hfilter⟩ := hrow _ ⟨before, after, hbuffers, rfl⟩
  rw [firstKept, hdrop, htake, ← List.head?_filter]
  exact (congrArg List.head? hfilter).trans rfl

theorem Invariant.selectDoc {closed : List Nat} {answer : Option (List Nat × Nat)}
    (h : Invariant e) (hopening : e.opening = false) (hclosed : Closable e closed)
    (hanswer : ∀ order b, answer = some (order, b) →
      order.Perm (closed.foldl Editor.handleClosedoc e).buffers ∧ b ∈ order)
    (hpermitted : Permitted e (.selectDoc closed answer)) :
    Invariant (e.selectDoc closed answer) := by
  have hcloses := fun row (hrow : Around e.buffers e.cur row) =>
    foldl_handleClosedoc hclosed h.sound.nodup hrow
  obtain ⟨before, after, hbuffers, -, -⟩ := split_of_mem h.mem h.sound.nodup
  have hall := hcloses _ ⟨before, after, hbuffers, rfl⟩
  have hsound := h.sound.closes hall List.filter_sublist
  rcases answer with _ | ⟨order, b⟩
  · have hkept := firstKept_eq h.sound.nodup h.mem fun row hrow => (hcloses row hrow).around
    refine ⟨hsound, ?_, ?_, fun hyes => ?_⟩
    · obtain ⟨before', after', hsplit, -⟩ := hall.around
      simp only [Editor.selectDoc]
      rw [hsplit]
      simp
    · have hfits := hpermitted _ hkept
      simp only [Editor.selectDoc, Editor.tabSize, hall.terminal, hall.documents]
      exact hfits
    · simp only [Editor.selectDoc, hall.opening, hopening] at hyes
      exact absurd hyes nofun
  · obtain ⟨horder, hb⟩ := hanswer order b rfl
    exact (hsound.reorder horder).switchTo hb (hall.opening.trans hopening)

theorem Invariant.step {event : Event} (h : Invariant e) (hpermitted : Permitted e event)
    (hstep : Step e event e') : Invariant e' := by
  cases hstep with
  | option hw ha => exact h.option hw ha hpermitted
  | popPrefs hidle => exact h.popPrefs hpermitted
  | newDoc hidle hb => exact h.newBuffer hb _ e.opening
  | closeDoc hidle hclose => exact h.closeDoc hidle hclose
  | nextDoc hidle => exact h.sound.nextDoc h.mem hidle
  | prevDoc hidle => exact h.sound.prevDoc h.mem hidle
  | selectDoc hidle hclosed hanswer => exact h.selectDoc hidle hclosed hanswer hpermitted
  | «open» hidle hb => exact h.newBuffer hb _ true
  | opened hopening =>
      exact ⟨⟨h.sound.pos, h.sound.nodup, h.sound.saved, h.sound.act_le, h.sound.act_inj⟩, h.mem,
        h.fits, nofun⟩
  | replaced hopening hdelete => exact h.replaced hopening hdelete
  | failed hopening hdelete => exact h.failed hdelete
  | refresh hidle => exact h.refresh _
  | resize => exact h.resize _
  | bracketedPasteBegin hidle => exact h.begin _
  | bracketedPasteEnd hidle => exact h.end hpermitted
  | other hkeeps => exact h.other hkeeps

theorem Invariant.starts (h : Starts e) (hfits : Fits e.terminal 8) : Invariant e := by
  have hmem : ∀ {b}, b ∈ e.buffers → b = e.cur := fun hb => by
    rw [h.buffers] at hb
    exact List.mem_singleton.mp hb
  refine ⟨⟨fun b hb => ?_, ?_, ?_, fun b hb => ?_, fun b hb c hc _ => ?_⟩, ?_, ?_, fun hyes => ?_⟩
  · rw [hmem hb, h.tabSize]
    decide
  · rw [h.buffers]
    exact List.nodup_singleton _
  · rw [h.prefStack]
    exact fun opt hopt => absurd hopt List.not_mem_nil
  · rw [hmem hb, h.act]
  · exact (hmem hb).trans (hmem hc).symm
  · rw [h.buffers]
    exact List.mem_singleton_self _
  · rw [h.tabSize]
    exact hfits
  · exact absurd (hyes.symm.trans h.opening) nofun

/-- The states that the editor reaches by events that are permitted, from a terminal that is
wide enough for the first document. -/
def Reachable (e : Editor) : Prop :=
  Reached (fun e => Starts e ∧ Fits e.terminal 8)
    (fun e e' => ∃ event, Permitted e event ∧ Step e event e') e

theorem usable_of_reachable (h : Reachable e) : Usable e := by
  have hinvariant : Invariant e := by
    refine h.invariant (fun e he => ?_) fun e e' he hstep => ?_
    · exact .starts he.1 he.2
    · obtain ⟨event, hpermitted, hstep⟩ := hstep
      exact he.step hpermitted hstep
  exact hinvariant.usable

/-- An editor with one document -/
def plainEditor : Editor where
  session := plainSession
  terminal := (plainWorld []).terminal
  buffers := [0]
  act := fun _ => 1
  bufferActuations := 1
  bpasting := fun _ => false
  bpasteOptCache := plainDocument.buffer.opt
  opening := false

theorem starts_plain : Starts plainEditor := ⟨rfl, rfl, rfl, rfl, rfl⟩

/-- An option command in the editor -/
def optioned (a : Action) (c : Int) (e : Editor) : Editor :=
  { e with session := (doOption (plainWorld []) e.session e.cur a c none).2 }

/-- The TAB size is set, saved, set again and restored, and a document is made. -/
def busyEditor : Editor :=
  let e := optioned .tabSizeA 6 (optioned .pushPrefsA 1 (optioned .tabSizeA 12 plainEditor))
  let (_, session) := OpenDocuments.popPrefs e.cur (Movement.normalize 1).toNat e.session
  Editor.newBuffer { e with session := session } 1 fun _ => true

def narrowTerminal : Terminal := ⟨24, 20, fun _ => 1, twentyFour_pos, by decide⟩

/-- Then the window gets narrower, and the other document comes back. -/
theorem usable_of_reachable_nextDoc : Usable (busyEditor.resize narrowTerminal).nextDoc := by
  have hset : ∀ {e : Editor} {c : Int}, e.terminal = (plainWorld []).terminal → c ≠ 0 →
      Reachable e → Reachable (optioned .tabSizeA c e) := fun hterminal hc h =>
    .next h ⟨.option (plainWorld []) .tabSizeA _ none, fun hzero => absurd hzero hc,
      .option hterminal.symm (.inl rfl)⟩
  have hfirst : Reachable (optioned .tabSizeA 12 plainEditor) :=
    hset rfl (by decide) (.init ⟨starts_plain, by decide⟩)
  have hpushed : Reachable (optioned .pushPrefsA 1 (optioned .tabSizeA 12 plainEditor)) :=
    .next hfirst ⟨.option (plainWorld []) .pushPrefsA 1 none, trivial, .option rfl (.inl rfl)⟩
  have hsecond := hset (c := 6) rfl (by decide) hpushed
  refine usable_of_reachable (.next (.next (.next (.next hsecond
    ⟨.popPrefs 1, fun opt hopt => ?_, .popPrefs rfl⟩)
    ⟨.newDoc 1, trivial, .newDoc rfl (by decide)⟩)
    ⟨.resize narrowTerminal, trivial, .resize⟩) ⟨.nextDoc, trivial, .nextDoc rfl⟩)
  obtain rfl := Option.some.inj hopt
  decide +kernel

/-- The smaller window leaves it a TAB size below 10. -/
example : ((busyEditor.resize narrowTerminal).nextDoc).tabSize 0 = 9 := by decide +kernel

/-- `TabSize 0` is accepted. -/
theorem not_usable :
    ¬ ∀ e : Editor, Reached Starts (fun e e' => ∃ event, Step e event e') e → Usable e := by
  intro h
  have husable := h _ (.next (.init starts_plain)
    ⟨.option (plainWorld []) .tabSizeA 0 none, .option rfl (.inl rfl)⟩)
  have hpos := husable.pos 0 List.mem_cons_self
  revert hpos
  decide +kernel

end NiceEditor.TabSizes
