import NiceEditor.Blocks
import NiceEditor.WriteCalls
import NiceEditor.Save

/-!
The block of `save_buffer_to_file`: where it is written to, and what is put into the
file (`buffer.c`).  A result of `none` is an access outside the block.
-/

namespace NiceEditor.SaveBlocks

open NiceEditor.Blocks
open NiceEditor.WriteCalls
open NiceEditor.Pools
open NiceEditor.BufferData
open NiceEditor.Load
open NiceEditor.Save (saveBlockLen Target terminator savedText)

/-- What `malloc(SAVE_BLOCK_LEN + 1)` gives. -/
abbrev SaveBlock := { m : List Byte // m.length = saveBlockLen + 1 }

/-- The block, the bytes in use of it and the file. -/
structure BlockState where
  block : List Byte
  used : Nat
  out : Output Byte

/-- `memcpy(p + used, l, len)` -/
def putBytes (s : BlockState) (l : List Byte) : Option BlockState :=
  (store s.block s.used l).map fun m => { s with block := m, used := s.used + l.length }

/-- `write(fd, p, n)`, and the block is empty again. -/
def writeBlock (s : BlockState) (n : Nat) : Option (Bool × BlockState) :=
  if n ≤ s.block.length then
    some ((write s.out (s.block.take n)).1,
      { s with used := 0, out := (write s.out (s.block.take n)).2 })
  else none

/-- The characters of a line are put into the block, which is written whenever it
is full. -/
def saveChars (l : List Byte) (s : BlockState) : Option (Status × BlockState) :=
  if l = [] then some (.ok, s)
  else if l.length < saveBlockLen - s.used then (putBytes s l).map fun s => (.ok, s)
  else if saveBlockLen < s.used then none
  else
    match putBytes s (l.take (saveBlockLen - s.used)) with
    | none => none
    | some full =>
        match writeBlock full saveBlockLen with
        | none => none
        | some (false, s') => some (.cannotSaveDiskFull, s')
        | some (true, s') =>
            saveChars (l.drop (saveBlockLen - s.used)) { s' with used := 0 }
termination_by (l.length, s.used)
decreasing_by
  simp only [List.length_drop, Prod.lex_def]
  have hlen : 0 < saveBlockLen := by decide
  omega

/-- `p[used++] = ...`, what ends a line -/
def putTerminator (b : Buffer) (s : BlockState) : Option BlockState :=
  if b.opt.binary then putBytes s [0]
  else if b.isCRLF then (putBytes s [cr]).bind fun s => putBytes s [lf]
  else putBytes s [lf]

/-- The lines are saved through the block; there is no line terminator after
the last one. -/
def saveLines (b : Buffer) : List (List Byte) → BlockState → Option (Status × BlockState)
  | [], s => some (.ok, s)
  | l :: rest, s =>
      match saveChars l s with
      | none => none
      | some (status, s) =>
          if status ≠ .ok then some (status, s)
          else
            match if rest = [] then some s else putTerminator b s with
            | none => none
            | some s =>
                if saveBlockLen ≤ s.used then
                  match writeBlock s s.used with
                  | none => none
                  | some (false, s) => some (.ioError, s)
                  | some (true, s) => saveLines b rest s
                else saveLines b rest s

/-- What is left in the block is written. -/
def writeRest (r : Status × BlockState) : Option (Status × Output Byte) :=
  if r.1 = .ok ∧ r.2.used ≠ 0 then
    (writeBlock r.2 r.2.used).map fun w => (if w.1 then .ok else .ioError, w.2.out)
  else some (r.1, r.2.out)

/-- A write that is made only when `c` holds. -/
def writeIf (c : Prop) [Decidable c] (o : Output Byte) (bytes : List Byte) : Bool × Output Byte :=
  if c then write o bytes else (true, o)

/-- Without a block every line is written by itself. -/
def saveLinesDirect (b : Buffer) : List (List Byte) → Output Byte → Status × Output Byte
  | [], o => (.ok, o)
  | l :: rest, o =>
      match writeIf (l ≠ []) o l with
      | (false, o) => (.ioError, o)
      | (true, o) =>
          match writeIf (rest ≠ [] ∧ b.opt.binary = false ∧ b.isCRLF = true) o [cr] with
          | (false, o) => (.ioError, o)
          | (true, o) =>
              match writeIf (rest ≠ []) o [if b.opt.binary then 0 else lf] with
              | (false, o) => (.ioError, o)
              | (true, o) => saveLinesDirect b rest o

/-- The lines are saved through the block that `malloc` gives, if it gives one. -/
def saveText (b : Buffer) (memory : Option SaveBlock) (o : Output Byte) :
    Option (Status × Output Byte) :=
  match memory with
  | some m => (saveLines b (lines b) ⟨m.1, 0, o⟩).bind writeRest
  | none => some (saveLinesDirect b (lines b) o)

/-- What the system says while a document is saved: about the name, to `open`, `malloc`,
every `write` and `close`. -/
structure System where
  target : Option Target
  opens : Bool
  memory : Option SaveBlock
  replies : Nat → WriteReply
  closes : Bool

/-- `save_buffer_to_file`: the error, the buffer and the file. -/
def saveBufferToFile (b : Buffer) (system : System) :
    Option (Status × Buffer × Output Byte) :=
  let fresh : Output Byte := ⟨[], system.replies⟩
  if b.opt.readOnly then some (.documentIsReadOnly, b, fresh)
  else
    match system.target with
    | none => some (.error, b, fresh)
    | some target =>
        if target.isDirectory then some (.fileIsDirectory, b, fresh)
        else if target.isMigrated then some (.fileIsMigrated, b, fresh)
        else if system.opens = false then some (.cantOpenFile, b, fresh)
        else
          (saveText b system.memory fresh).map fun r =>
            let status := if system.closes then r.1 else .ioError
            (status, if status = .ok then { b with isModified := false } else b, r.2)

variable {b : Buffer} {granted : Prop} {text l : List Byte} {s : BlockState} {o : Output Byte}

/-- The text put out so far: it is in the file and in the front of the block. -/
structure Saved (granted : Prop) (text : List Byte) (s : BlockState) : Prop where
  length : s.block.length = saveBlockLen + 1
  used_le : s.used ≤ saveBlockLen + 1
  complete : s.out.Complete
  willing : granted → s.out.Willing
  text_eq : s.out.file ++ s.block.take s.used = text

/-- Everything stays in the block; what ends well is in `P`, and what does not has
not been granted a write. -/
def Ends {α : Type} (x : Option (Status × α)) (out : α → Output Byte) (granted : Prop)
    (P : α → Prop) : Prop :=
  ∃ status a, x = some (status, a) ∧ (status = .ok → P a) ∧
    (status ≠ .ok → ¬ (out a).Complete ∧ ¬ granted)

theorem putBytes_spec (h : Saved granted text s) (hroom : s.used + l.length ≤ saveBlockLen + 1) :
    ∃ s', putBytes s l = some s' ∧ Saved granted (text ++ l) s' ∧ s'.used = s.used + l.length := by
  have hlen := h.length
  rw [putBytes, store_eq (by omega)]
  refine ⟨_, rfl, ⟨?_, hroom, h.complete, h.willing, ?_⟩, rfl⟩
  · exact (overwrite_length (by omega)).trans hlen
  · have htake : (overwrite s.block s.used l).take (s.used + l.length) =
        s.block.take s.used ++ l := overwrite_take (by omega)
    simp only [htake, ← h.text_eq, List.append_assoc]

theorem writeBlock_spec (h : Saved granted text s) :
    ∃ ok s', writeBlock s s.used = some (ok, s') ∧
      (ok = true → Saved granted text s' ∧ s'.used = 0) ∧
      (ok = false → ¬ s'.out.Complete ∧ ¬ granted) := by
  have hused := h.used_le
  have hlen := h.length
  rw [writeBlock, if_pos (by omega)]
  refine ⟨_, _, rfl, fun hok => ?_, fun hfailed => write_refused h.willing hfailed⟩
  refine ⟨⟨hlen, Nat.zero_le _, (write_complete h.complete).mp hok,
    fun hg n => h.willing hg (n + 1), ?_⟩, rfl⟩
  rw [write_file hok, List.take_zero, List.append_nil, h.text_eq]

theorem saveChars_spec (h : Saved granted text s) (hroom : s.used < saveBlockLen) :
    Ends (saveChars l s) BlockState.out granted
      fun s' => Saved granted (text ++ l) s' ∧ s'.used < saveBlockLen := by
  induction hn : l.length using Nat.strong_induction_on generalizing l s text with
  | _ n ih =>
      rw [saveChars]
      by_cases hnil : l = []
      · rw [if_pos hnil, hnil, List.append_nil]
        exact ⟨_, _, rfl, fun _ => ⟨h, hroom⟩, by simp⟩
      by_cases hfits : l.length < saveBlockLen - s.used
      · obtain ⟨s', hput, hsaved, hused⟩ := putBytes_spec (l := l) h (by omega)
        rw [if_neg hnil, if_pos hfits, hput]
        exact ⟨_, _, rfl, fun _ => ⟨hsaved, by omega⟩, by simp⟩
      · have hpos := List.length_pos_of_ne_nil hnil
        have htake : (l.take (saveBlockLen - s.used)).length = saveBlockLen - s.used := by
          rw [List.length_take]
          omega
        obtain ⟨s', hput, hsaved, hused⟩ := putBytes_spec (l := l.take (saveBlockLen - s.used)) h
          (by omega)
        have hfull : s'.used = saveBlockLen := by omega
        obtain ⟨ok, s₁, hwrite, hok, hfailed⟩ := writeBlock_spec hsaved
        rw [hfull] at hwrite
        rw [if_neg hnil, if_neg hfits, if_neg (by omega), hput]
        dsimp only
        rw [hwrite]
        cases ok with
        | false => exact ⟨_, _, rfl, by simp, fun _ => hfailed rfl⟩
        | true =>
            obtain ⟨hsaved₁, hused₁⟩ := hok rfl
            have hempty : ({ s₁ with used := 0 } : BlockState) = s₁ := by
              rw [← hused₁]
            have hrest := ih (l.drop (saveBlockLen - s.used)).length
              (by rw [List.length_drop]; omega) hsaved₁ (by rw [hused₁]; decide) rfl
            rw [List.append_assoc, List.take_append_drop] at hrest
            dsimp only
            rw [hempty]
            exact hrest

theorem putTerminator_spec (h : Saved granted text s) (hroom : s.used < saveBlockLen) :
    ∃ s', putTerminator b s = some s' ∧ Saved granted (text ++ terminator b) s' := by
  unfold putTerminator terminator
  by_cases hbinary : b.opt.binary = true
  · obtain ⟨s', hput, hsaved, -⟩ :=
      putBytes_spec (l := [0]) h (by simp only [List.length_singleton]; omega)
    rw [if_pos hbinary, if_pos hbinary]
    exact ⟨s', hput, hsaved⟩
  · rw [if_neg hbinary, if_neg hbinary]
    by_cases hcrlf : b.isCRLF = true
    · obtain ⟨s₁, hput₁, hsaved₁, hused₁⟩ := putBytes_spec (l := [cr]) h
        (by simp only [List.length_singleton]; omega)
      rw [List.length_singleton] at hused₁
      obtain ⟨s₂, hput₂, hsaved₂, -⟩ := putBytes_spec (l := [lf]) hsaved₁
        (by simp only [List.length_singleton]; omega)
      rw [List.append_assoc] at hsaved₂
      rw [if_pos hcrlf, if_pos hcrlf, hput₁]
      exact ⟨s₂, hput₂, hsaved₂⟩
    · obtain ⟨s', hput, hsaved, -⟩ := putBytes_spec (l := [lf]) h
        (by simp only [List.length_singleton]; omega)
      rw [if_neg hcrlf, if_neg hcrlf]
      exact ⟨s', hput, hsaved⟩

/-- The lines are put out one after the other, with a terminator between two of them. -/
theorem saveLines_spec {ls : List (List Byte)} (h : Saved granted text s)
    (hroom : s.used < saveBlockLen) :
    Ends (saveLines b ls s) BlockState.out granted
      (Saved granted (text ++ (terminator b).intercalate ls)) := by
  induction ls generalizing s text with
  | nil =>
      rw [List.intercalate_nil, List.append_nil]
      exact ⟨_, _, rfl, fun _ => h, by simp⟩
  | cons l rest ih =>
      obtain ⟨status, s₁, hchars, hsaved, hfailed⟩ := saveChars_spec (l := l) h hroom
      rw [saveLines, hchars]
      dsimp only
      by_cases hstatus : status = .ok
      · obtain ⟨hsaved₁, hroom₁⟩ := hsaved hstatus
        have hterminated : ∃ s₂, (if rest = [] then some s₁ else putTerminator b s₁) = some s₂ ∧
            Saved granted (text ++ l ++ if rest = [] then [] else terminator b) s₂ := by
          by_cases hrest : rest = []
          · simp only [if_pos hrest, List.append_nil]
            exact ⟨s₁, rfl, hsaved₁⟩
          · simp only [if_neg hrest]
            exact putTerminator_spec hsaved₁ hroom₁
        obtain ⟨s₂, hput, hsaved₂⟩ := hterminated
        have htext : text ++ (terminator b).intercalate (l :: rest) =
            text ++ l ++ (if rest = [] then [] else terminator b) ++
              (terminator b).intercalate rest := by
          by_cases hrest : rest = []
          · simp [hrest]
          · rw [List.intercalate_cons_of_ne_nil hrest, if_neg hrest]
            simp only [List.append_assoc]
        rw [if_neg (by simp [hstatus]), hput, htext]
        dsimp only
        by_cases hfull : saveBlockLen ≤ s₂.used
        · obtain ⟨ok, s₃, hwrite, hok, hrefused⟩ := writeBlock_spec hsaved₂
          rw [if_pos hfull, hwrite]
          cases ok with
          | false => exact ⟨_, _, rfl, by simp, fun _ => hrefused rfl⟩
          | true =>
              obtain ⟨hsaved₃, hused₃⟩ := hok rfl
              exact ih hsaved₃ (by rw [hused₃]; decide)
        · rw [if_neg hfull]
          exact ih hsaved₂ (by omega)
      · rw [if_pos (by simpa using hstatus)]
        exact ⟨_, _, rfl, fun hok => absurd hok hstatus, fun _ => hfailed hstatus⟩

theorem writeRest_spec {status : Status} (hstatus : status = .ok → Saved granted text s)
    (hfailed : status ≠ .ok → ¬ s.out.Complete ∧ ¬ granted) :
    Ends (writeRest (status, s)) id granted fun o => o.Complete ∧ o.file = text := by
  unfold writeRest
  by_cases hok : status = .ok
  · have hsaved := hstatus hok
    by_cases hused : s.used = 0
    · rw [if_neg (by simp [hused])]
      refine ⟨_, _, rfl, fun _ => ⟨hsaved.complete, ?_⟩, fun hne => absurd hok hne⟩
      have htext := hsaved.text_eq
      rwa [hused, List.take_zero, List.append_nil] at htext
    · obtain ⟨ok, s', hwrite, hgranted, hrefused⟩ := writeBlock_spec hsaved
      rw [if_pos ⟨hok, hused⟩, hwrite]
      cases ok with
      | false => exact ⟨_, _, rfl, by simp, fun _ => hrefused rfl⟩
      | true =>
          obtain ⟨hsaved', hused'⟩ := hgranted rfl
          refine ⟨_, _, rfl, fun _ => ⟨hsaved'.complete, ?_⟩, by simp⟩
          have htext := hsaved'.text_eq
          rwa [hused', List.take_zero, List.append_nil] at htext
  · rw [if_neg (by simp [hok])]
    exact ⟨_, _, rfl, fun heq => absurd heq hok, hfailed⟩

theorem writeIf_spec (c : Prop) [Decidable c] (hcomplete : o.Complete)
    (hwilling : granted → o.Willing) (bytes : List Byte) :
    ∃ ok o', writeIf c o bytes = (ok, o') ∧
      (ok = true → o'.Complete ∧ (granted → o'.Willing) ∧
        o'.file = o.file ++ if c then bytes else []) ∧
      (ok = false → ¬ o'.Complete ∧ ¬ granted) := by
  unfold writeIf
  by_cases hc : c
  · rw [if_pos hc, if_pos hc]
    refine ⟨_, _, rfl, fun hok => ?_, fun hfailed => write_refused hwilling hfailed⟩
    exact ⟨(write_complete hcomplete).mp hok, fun hg n => hwilling hg (n + 1), write_file hok⟩
  · rw [if_neg hc, if_neg hc]
    exact ⟨_, _, rfl, fun _ => ⟨hcomplete, hwilling, by simp⟩, by simp⟩

theorem saveLinesDirect_spec {ls : List (List Byte)} (hcomplete : o.Complete)
    (hwilling : granted → o.Willing) :
    Ends (some (saveLinesDirect b ls o)) id granted
      fun o' => o'.Complete ∧ o'.file = o.file ++ (terminator b).intercalate ls := by
  induction ls generalizing o with
  | nil => exact ⟨_, _, rfl, fun _ => ⟨hcomplete, by simp⟩, by simp⟩
  | cons l rest ih =>
      obtain ⟨ok₁, o₁, hline, hdone₁, hrefused₁⟩ := writeIf_spec (l ≠ []) hcomplete hwilling l
      rw [saveLinesDirect, hline]
      cases ok₁ with
      | false => exact ⟨_, _, rfl, by simp, fun _ => hrefused₁ rfl⟩
      | true =>
          obtain ⟨hcomplete₁, hwilling₁, hfile₁⟩ := hdone₁ rfl
          obtain ⟨ok₂, o₂, hcr, hdone₂, hrefused₂⟩ := writeIf_spec
            (rest ≠ [] ∧ b.opt.binary = false ∧ b.isCRLF = true) hcomplete₁ hwilling₁ [cr]
          dsimp only
          rw [hcr]
          cases ok₂ with
          | false => exact ⟨_, _, rfl, by simp, fun _ => hrefused₂ rfl⟩
          | true =>
              obtain ⟨hcomplete₂, hwilling₂, hfile₂⟩ := hdone₂ rfl
              obtain ⟨ok₃, o₃, hlf, hdone₃, hrefused₃⟩ := writeIf_spec (rest ≠ []) hcomplete₂
                hwilling₂ [if b.opt.binary then 0 else lf]
              dsimp only
              rw [hlf]
              cases ok₃ with
              | false => exact ⟨_, _, rfl, by simp, fun _ => hrefused₃ rfl⟩
              | true =>
                  obtain ⟨hcomplete₃, hwilling₃, hfile₃⟩ := hdone₃ rfl
                  obtain ⟨status, o', heq, hdone, hrefused⟩ := ih hcomplete₃ hwilling₃
                  refine ⟨status, o', heq, fun hok => ⟨(hdone hok).1, ?_⟩, hrefused⟩
                  have hl : (if l ≠ [] then l else []) = l := by
                    by_cases hnil : l = [] <;> simp [hnil]
                  rw [(hdone hok).2, hfile₃, hfile₂, hfile₁, hl]
                  by_cases hrest : rest = []
                  · simp [hrest]
                  · rw [List.intercalate_cons_of_ne_nil hrest]
                    cases hbinary : b.opt.binary <;> cases hcrlf : b.isCRLF <;>
                      simp [terminator, hbinary, hcrlf, hrest]

theorem saveText_spec (memory : Option SaveBlock) (hcomplete : o.Complete)
    (hwilling : granted → o.Willing) :
    Ends (saveText b memory o) id granted
      fun o' => o'.Complete ∧ o'.file = o.file ++ savedText b := by
  cases memory with
  | none => exact saveLinesDirect_spec hcomplete hwilling
  | some m =>
      have hstart : Saved granted o.file ⟨m.1, 0, o⟩ :=
        ⟨m.2, Nat.zero_le _, hcomplete, hwilling, by simp⟩
      obtain ⟨status, s, hlines, hsaved, hfailed⟩ :=
        saveLines_spec hstart (show 0 < saveBlockLen by decide)
      rw [saveText, hlines]
      exact writeRest_spec hsaved hfailed

/-- The document can be written, and its file is opened. -/
def System.Opened (b : Buffer) (system : System) : Prop :=
  b.opt.readOnly = false ∧ system.target = some ⟨false, false⟩ ∧ system.opens = true

theorem saveBufferToFile_spec (b : Buffer) (system : System) :
    ∃ status b' o, saveBufferToFile b system = some (status, b', o) ∧
      (¬ o.Complete → status ≠ .ok ∧ b' = b) ∧
      (system.Opened b → (∀ n, system.replies n = .complete) →
        o.file = savedText b ∧ status = if system.closes then .ok else .ioError) := by
  have hfresh : (⟨[], system.replies⟩ : Output Byte).Complete := fun w hw => by simp at hw
  obtain ⟨status, o, htext, hdone, hrefused⟩ := saveText_spec (b := b) system.memory hfresh
    (id : (∀ n, system.replies n = .complete) → _)
  have hearly : ∀ status : Status, ¬ system.Opened b → ∃ status' b' o,
      some (status, b, (⟨[], system.replies⟩ : Output Byte)) = some (status', b', o) ∧
      (¬ o.Complete → status' ≠ .ok ∧ b' = b) ∧
      (system.Opened b → (∀ n, system.replies n = .complete) →
        o.file = savedText b ∧ status' = if system.closes then .ok else .ioError) :=
    fun status hclosed => ⟨status, b, _, rfl, fun hno => absurd hfresh hno,
      fun hopened => absurd hopened hclosed⟩
  unfold saveBufferToFile
  dsimp only
  by_cases hread : b.opt.readOnly = true
  · rw [if_pos hread]
    exact hearly _ fun hopened => by simp [hopened.1] at hread
  rw [if_neg hread]
  cases htarget : system.target with
  | none => exact hearly _ fun hopened => by simp [hopened.2.1] at htarget
  | some target =>
      dsimp only
      by_cases hdirectory : target.isDirectory = true
      · rw [if_pos hdirectory]
        refine hearly _ fun hopened => ?_
        obtain rfl := Option.some.inj (htarget.symm.trans hopened.2.1)
        simp at hdirectory
      rw [if_neg hdirectory]
      by_cases hmigrated : target.isMigrated = true
      · rw [if_pos hmigrated]
        refine hearly _ fun hopened => ?_
        obtain rfl := Option.some.inj (htarget.symm.trans hopened.2.1)
        simp at hmigrated
      rw [if_neg hmigrated]
      by_cases hopens : system.opens = false
      · rw [if_pos hopens]
        exact hearly _ fun hopened => by simp [hopened.2.2] at hopens
      rw [if_neg hopens, htext]
      refine ⟨_, _, _, rfl, fun hno => ?_, fun _ hreplies => ?_⟩
      · have hstatus : status ≠ .ok := fun hok => hno (hdone hok).1
        have herror : (if system.closes then status else .ioError) ≠ Status.ok := by
          split
          · exact hstatus
          · simp
        exact ⟨herror, if_neg herror⟩
      · have hok : status = .ok := by
          by_contra hne
          exact (hrefused hne).2 hreplies
        exact ⟨(hdone hok).2, by rw [hok]⟩

/-- The file is the same with the block and without it; nothing is put outside the block,
and a save with a write that failed or fell short says so and leaves the document modified. -/
theorem saves_agree (b : Buffer) (system : System) (m : SaveBlock) :
    ∃ status b₁ o₁ status' b₂ o₂,
      saveBufferToFile b { system with memory := some m } = some (status, b₁, o₁) ∧
      saveBufferToFile b { system with memory := none } = some (status', b₂, o₂) ∧
      (¬ o₁.Complete → status ≠ .ok ∧ b₁.isModified = b.isModified) ∧
      (¬ o₂.Complete → status' ≠ .ok ∧ b₂.isModified = b.isModified) ∧
      (system.Opened b → (∀ n, system.replies n = .complete) →
        o₁.file = (terminator b).intercalate (lines b) ∧ o₂.file = o₁.file ∧
          status = (if system.closes then .ok else .ioError) ∧ status' = status) := by
  obtain ⟨status, b₁, o₁, hblock, hfailed₁, hdone₁⟩ := saveBufferToFile_spec b
    { system with memory := some m }
  obtain ⟨status', b₂, o₂, hdirect, hfailed₂, hdone₂⟩ := saveBufferToFile_spec b
    { system with memory := none }
  refine ⟨status, b₁, o₁, status', b₂, o₂, hblock, hdirect, fun hno => ?_, fun hno => ?_,
    fun hopened hreplies => ?_⟩
  · obtain ⟨hstatus, hsame⟩ := hfailed₁ hno
    exact ⟨hstatus, by rw [hsame]⟩
  · obtain ⟨hstatus, hsame⟩ := hfailed₂ hno
    exact ⟨hstatus, by rw [hsame]⟩
  · obtain ⟨hfile₁, hstatus₁⟩ := hdone₁ hopened hreplies
    obtain ⟨hfile₂, hstatus₂⟩ := hdone₂ hopened hreplies
    exact ⟨hfile₁, hfile₂.trans hfile₁.symm, hstatus₁, hstatus₂.trans hstatus₁.symm⟩

end NiceEditor.SaveBlocks
