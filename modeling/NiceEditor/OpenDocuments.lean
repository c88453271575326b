import NiceEditor.ChainRuns
import NiceEditor.Movement

/-!
The documents that are open (`ne.c`, `actions.c`, `request.c`), the stack of preferences and
bracketed pastes (`prefs.c`).
-/

namespace NiceEditor.OpenDocuments

open NiceEditor.Pools
open NiceEditor.BufferData
open NiceEditor.Load
open NiceEditor.Navigation
open NiceEditor.Commands
open NiceEditor.Sessions
open NiceEditor.ChainRuns
open NiceEditor.Movement

/-- The session, with the terminal, the list of the documents, the times at which they have
become current, and what bracketed pastes remember.  `opening` says that `OPEN_A` or
`OPENNEW_A` has made a document and has not decided yet which one to keep. -/
structure Editor where
  session : Session
  terminal : Terminal
  buffers : List Nat
  act : Nat → Nat
  bufferActuations : Nat
  bpasting : Nat → Bool
  bpasteOptCache : Options
  opening : Bool

/-- `PREFS_STACK_EMPTY` -/
def prefsStackEmpty : CommandStatus := .other 49

/-- `pop_prefs`, `c` times -/
def popPrefs (b : Nat) : Nat → Session → CommandStatus × Session
  | 0, s => (.ok, s)
  | c + 1, s =>
      match s.prefStack with
      | [] => (prefsStackEmpty, s)
      | opt :: rest => popPrefs b c ({ s with prefStack := rest }.setOpt b fun _ => opt)

/-- The document behind another one. -/
def following (buffers : List Nat) (b : Nat) : Option Nat :=
  (buffers.dropWhile (· ≠ b)).tail.head?

/-- The document before another one. -/
def preceding (buffers : List Nat) (b : Nat) : Option Nat :=
  (buffers.takeWhile (· ≠ b)).getLast?

/-- `add`: a document is linked behind another one. -/
def addAfter (buffers : List Nat) (b new : Nat) : List Nat :=
  buffers.flatMap fun x => if x = b then [x, new] else [x]

namespace Editor

/-- `cur_buffer` -/
def cur (e : Editor) : Nat := e.session.curBuffer

def setCur (e : Editor) (b : Nat) : Editor :=
  { e with session := { e.session with curBuffer := b } }

/-- The TAB size of a document. -/
def tabSize (e : Editor) (b : Nat) : Int := (e.session.documents b).buffer.opt.tabSize

/-- `act = ++buffer_actuations` -/
def actuate (e : Editor) (b : Nat) : Editor :=
  { e with
    act := Function.update e.act b (e.bufferActuations + 1)
    bufferActuations := e.bufferActuations + 1 }

/-- `keep_cursor_on_screen(cur_buffer)` -/
def keepOnScreen (e : Editor) : Editor :=
  { e with session := e.session.setDocument e.cur fun d =>
      { d with buffer := keepCursorOnScreen e.terminal d.buffer } }

/-- A document becomes current. -/
def switchTo (e : Editor) (b : Nat) : Editor := ((e.setCur b).actuate b).keepOnScreen

/-- `do_action` for `NextDoc` -/
def nextDoc (e : Editor) : Editor :=
  e.switchTo ((following e.buffers e.cur).getD (e.buffers.head?.getD e.cur))

/-- `do_action` for `PrevDoc` -/
def prevDoc (e : Editor) : Editor :=
  e.switchTo ((preceding e.buffers e.cur).getD (e.buffers.getLast?.getD e.cur))

/-- What `alloc_buffer` and `clear_buffer` make of a new document. -/
def newDocument (e : Editor) (answers : Answers) : Document :=
  let d := e.session.documents e.cur
  { buffer := newBuffer e.session.ioUtf8 (some d.buffer.opt) answers
    filename := none
    syn := none
    bpasteSupport := d.bpasteSupport
    bpasteMacroBefore := if d.bpasteSupport = 2 then d.bpasteMacroBefore else none
    bpasteMacroAfter := if d.bpasteSupport = 2 then d.bpasteMacroAfter else none
    curMacro := []
    execOnlyOptions := false
    atomicUndo := false
    findStringChanged := 0 }

/-- `new_buffer`; the new document is `b`. -/
def newBuffer (e : Editor) (b : Nat) (answers : Answers) : Editor :=
  let new := e.newDocument answers
  let e := { e with
    session := e.session.setDocument b fun _ => new
    buffers := addAfter e.buffers e.cur b
    bpasting := Function.update e.bpasting b false }
  (e.actuate b).setCur b

/-- `delete_buffer`, unless there is no other document -/
def deleteBuffer (e : Editor) : Option Editor :=
  let b :=
    match preceding e.buffers e.cur, following e.buffers e.cur with
    | none, next => next
    | prev, none => prev
    | some prev, some next => if e.act prev < e.act next then some next else some prev
  b.map fun b => { e with buffers := e.buffers.erase e.cur }.setCur b

/-- `do_action` for `CloseDoc`, unless the editor ends -/
def closeDoc (e : Editor) : Option Editor :=
  e.deleteBuffer.map fun e => (e.actuate e.cur).keepOnScreen

/-- `handle_closedoc`, for the document that it is called for -/
def handleClosedoc (e : Editor) (b : Nat) : Editor :=
  if b ∉ e.buffers ∨ (e.session.documents b).buffer.isModified ∨ e.buffers.length = 1 then e
  else
    let buffers := e.buffers.erase b
    let next := (following e.buffers b).getD (buffers.head?.getD b)
    let e' := { e with buffers := buffers }
    if b = e.cur then e'.setCur next else e'

/-- `do_action` for `SelectDoc`: the requester closes documents and ends without an answer,
or with an order of the documents and one of them. -/
def selectDoc (e : Editor) (closed : List Nat) : Option (List Nat × Nat) → Editor
  | none => closed.foldl handleClosedoc e
  | some (order, b) => { closed.foldl handleClosedoc e with buffers := order }.switchTo b

/-- The size of the terminal changes, and the cursor is kept on the screen. -/
def resize (e : Editor) (t : Terminal) : Editor := { e with terminal := t }.keepOnScreen

/-- `do_action` for `Refresh` -/
def refresh (e : Editor) (t : Terminal) : Editor := (e.resize t).actuate e.cur

/-- What the current document and bracketed pastes share. -/
def editing (e : Editor) : Editing := ⟨e.session, e.bpasting e.cur, e.bpasteOptCache⟩

def setEditing (e : Editor) (s : Editing) : Editor :=
  { e with
    session := s.session
    bpasting := Function.update e.bpasting e.cur s.bpasting
    bpasteOptCache := s.bpasteOptCache }

end Editor

end NiceEditor.OpenDocuments
