import NiceEditor.Flows
import NiceEditor.UndoChains
import NiceEditor.Commands

/-!
The functions that open and close undo chains.  Only the chains, the edits, the undos and
the flags that say whether a chain has been opened are kept of them.
-/

namespace NiceEditor.ChainedActions

open NiceEditor.BufferData
open NiceEditor.UndoSteps
open NiceEditor.EditStream
open NiceEditor.Undo
open NiceEditor.UndoChains
open NiceEditor.Flows
open NiceEditor.Navigation
open NiceEditor.Commands

/-- The local variables on which it depends whether a chain is closed: `chaining`, and
whether the user has answered `A`. -/
structure Locals where
  chaining : Bool
  all : Bool
deriving DecidableEq, Repr

/-- What the functions do. -/
inductive Call
  | startUndoChain | endUndoChain | edit | undo
  | assign (f : Locals → Locals)
  | assume (holds : Locals → Bool)

/-- The effect of a call on the buffer and on the local variables -/
inductive Does (t : Terminal) : Call → Buffer × Locals → Buffer × Locals → Prop
  | startUndoChain (b : Buffer) (v : Locals) :
      Does t .startUndoChain (b, v) (UndoSteps.startUndoChain b, v)
  | endUndoChain (b : Buffer) (v : Locals) :
      Does t .endUndoChain (b, v) (UndoSteps.endUndoChain b, v)
  | insertStream (b : Buffer) (v : Locals) (ld : Nat) (line : Int) (pos : Nat)
      (s : List Pools.Byte) :
      Does t .edit (b, v) ((insertStream b ld line pos s).2, v)
  | deleteStream (b : Buffer) (v : Locals) (ld : Nat) (line : Int) (pos len : Nat) :
      Does t .edit (b, v) ((deleteStream b ld line pos len).2, v)
  | undo (b : Buffer) (v : Locals) : Does t .undo (b, v) ((Undo.undo t b).2, v)
  | assign (f : Locals → Locals) (b : Buffer) (v : Locals) : Does t (.assign f) (b, v) (b, f v)
  | assume (holds : Locals → Bool) (b : Buffer) (v : Locals) (h : holds v = true) :
      Does t (.assume holds) (b, v) (b, v)

/-- A call, with what the function does to the cursor, the mark or the screen around it. -/
def Performs (t : Terminal) (c : Call) (s s' : Buffer × Locals) : Prop :=
  ∃ b b', Steady s.1 b ∧ Does t c (b, s.2) (b', s'.2) ∧ Steady b' s'.1

/-- A statement that is executed if a local variable is set -/
def when (holds : Locals → Bool) (p : Flow Call) : Flow Call :=
  .choose (block [.op (.assume holds), p]) (.op (.assume fun v => !holds v))

def start : Flow Call := .op .startUndoChain

def finish : Flow Call := .op .endUndoChain

def edit : Flow Call := .op .edit

def ret : Flow Call := .exit .ret

def brk : Flow Call := .exit .brk

def cont : Flow Call := .exit .cont

/-- `insert_spaces` -/
def insertSpaces : Flow Call := .loop edit

/-- `undelete_line` -/
def undeleteLine : Flow Call :=
  .body (block [optional ret, start, optional insertSpaces, edit, edit, finish])

/-- `delete_to_eol` -/
def deleteToEol : Flow Call := .body (block [optional ret, edit])

/-- `to_something` -/
def toSomething : Flow Call :=
  .body (block [optional ret, optional ret, optional ret,
    optional (block [optional ret, start, edit, optional edit, finish])])

/-- `word_wrap` -/
def wordWrap : Flow Call :=
  .body (block [optional ret, optional ret, start, edit, edit, finish])

def trimTrailingSpace : Flow Call := optional edit

/-- `paragraph` -/
def paragraph : Flow Call :=
  .body (block [optional ret, optional ret,
    -- `mark_for_undo`
    optional (block [edit, edit]),
    .loop (block [trimTrailingSpace,
      .loop (block [edit, optional edit, edit, trimTrailingSpace]),
      optional (optional (block [optional edit, edit,
        optional (block [optional edit, trimTrailingSpace])]))]),
    optional ret, .loop (.loop (optional ret))])

/-- `center` -/
def center : Flow Call :=
  .body (block [optional ret, optional ret, start, edit, edit, insertSpaces, finish])

/-- `auto_indent_line` -/
def autoIndentLine : Flow Call := .body (block [optional ret, optional edit])

/-- `shift` -/
def shift : Flow Call :=
  .body (block [
    .loop (block [optional ret, optional ret]),
    optional ret,
    optional (block [start,
      .loop (block [optional cont,
        .loop (.choose
          -- still too far right
          (.choose edit (.choose (.choose edit brk) brk))
          -- too far left
          (block [edit, optional brk]))]),
      finish])])

/-- `replace` -/
def replace : Flow Call := .body (block [start, edit, optional edit, finish])

/-- `replace_regexp` -/
def replaceRegexp : Flow Call :=
  .body (optional (block [
    .loop (block [optional brk, optional (block [optional ret]), optional ret]),
    optional ret,
    start, edit,
    .loop (block [optional edit, optional brk, optional edit]),
    finish]))

/-- `chaining` is set when the chain is opened. -/
def startChaining : Flow Call :=
  when (fun v => !v.chaining) (block [.op (.assign fun v => { v with chaining := true }), start])

def noChaining : Flow Call := .op (.assign fun v => { v with chaining := false })

/-- One of the two loops of `copy_to_clip` -/
def copyLoop (cut : Bool) : Flow Call :=
  block [noChaining,
    -- the measuring pass
    .loop (optional (if cut then block [startChaining, insertSpaces] else .skip)),
    optional (block [when (·.chaining) finish, ret]),
    -- the copying pass
    if cut then edit else .skip,
    when (·.chaining) finish,
    ret]

/-- `copy_to_clip` -/
def copyToClip (cut : Bool) : Flow Call :=
  .body (block [optional ret, optional ret, optional ret,
    .choose (copyLoop cut) (copyLoop cut),
    when (·.chaining) finish])

/-- `erase_block` -/
def eraseBlock : Flow Call :=
  .body (block [optional ret, optional ret, optional ret,
    noChaining,
    .choose (.loop (optional (block [startChaining, insertSpaces])))
      (.loop (optional (block [startChaining, insertSpaces]))),
    edit,
    when (·.chaining) finish])

/-- `paste_to_buffer` -/
def pasteToBuffer : Flow Call :=
  .body (block [optional ret, optional ret,
    optional (block [start, optional insertSpaces, edit, finish, ret])])

/-- One of the two loops of `copy_vert_to_clip`; `granted` says whether there is memory for
the clip. -/
def copyVertLoop (cut granted : Bool) : Flow Call :=
  block [if granted then .skip else ret,
    .loop (if cut then edit else .skip),
    if cut then finish else .skip,
    ret]

/-- `copy_vert_to_clip` -/
def copyVertToClip (cut granted : Bool) : Flow Call :=
  .body (block [optional ret, optional ret, optional ret,
    if cut then start else .skip,
    .choose (copyVertLoop cut granted) (copyVertLoop cut granted),
    if cut then finish else .skip])

/-- `erase_vert_block` -/
def eraseVertBlock : Flow Call :=
  .body (block [optional ret, optional ret, optional ret, start,
    .choose (.loop edit) (.loop edit), finish])

/-- `paste_vert_to_buffer` -/
def pasteVertToBuffer : Flow Call :=
  .body (block [optional ret, optional ret, optional ret, start,
    .loop (block [optional edit,
      optional (.choose (block [insertSpaces, edit]) edit)]),
    finish])

/-- `DeleteNextWord` and `DeletePrevWord`; `moved` says whether there was anything to
delete. -/
def deleteWord (prev moved : Bool) : Flow Call :=
  .body (block [optional ret, start,
    if prev then block [edit, edit] else .skip,
    if moved then block [eraseBlock, finish]
    else block [finish, if prev then .op .undo else .skip]])

/-- `InsertChar` -/
def insertChar : Flow Call :=
  .body (block [optional ret, optional ret, optional ret, optional ret, start,
    optional edit, optional insertSpaces, edit,
    optional wordWrap,
    optional (optional autoIndentLine),
    finish, ret])

/-- `InsertString` -/
def insertString : Flow Call :=
  .body (optional (block [start, optional (.loop insertChar), finish]))

/-- `InsertTab` -/
def insertTab : Flow Call :=
  .body (block [start, .choose (.loop insertChar) (.loop (.loop insertChar)), finish, ret])

/-- `Backspace` and `DeleteChar` -/
def deleteChar (backspace : Bool) : Flow Call :=
  .body (block [optional ret, start,
    .loop (block [
      if backspace then
        .choose (optional (block [finish, ret])) (optional cont)
      else .skip,
      -- a block of spaces is replaced by a tab
      optional (block [edit, edit]),
      optional (block [optional cont, optional autoIndentLine, insertSpaces]),
      .choose edit edit]),
    finish, ret])

/-- `InsertLine` -/
def insertLine : Flow Call :=
  .body (block [optional ret,
    .loop (block [start,
      .choose
        (block [edit, finish,
          .choose (optional (block [start, autoIndentLine, finish]))
            (optional (block [start, autoIndentLine, finish]))])
        (block [edit, finish])]),
    ret])

/-- `DeleteLine` -/
def deleteLine : Flow Call :=
  .body (block [optional ret, start, .loop (block [edit, optional brk]), finish, ret])

/-- `UndelLine` -/
def undelLine : Flow Call :=
  .body (block [optional ret, start, .loop (block [undeleteLine, optional brk]), finish,
    ret])

/-- `Replace`, `ReplaceOnce` and `ReplaceAll` -/
def replaceCommand (a : Action) : Flow Call :=
  let isAll := fun v : Locals => v.all || a == .replaceAllA
  .body (block [optional ret,
    optional (block [optional ret,
      optional (block [optional ret,
        .op (.assign fun v => { v with all := false }),
        if a = .replaceAllA then start else .skip,
        .loop (block [
          if a = .replaceAllA ∨ a = .replaceOnceA then .skip
          else when (fun v => !v.all) (block [optional brk,
            optional (block [.op (.assign fun v => { v with all := true }), start])]),
          optional (block [.choose replaceRegexp replace,
            optional brk,
            optional (block [when isAll finish, ret])]),
          optional brk]),
        when isAll finish,
        optional ret, ret])])])

/-- `RepeatLast` -/
def repeatLast : Flow Call :=
  .body (block [optional ret, optional ret, optional ret, optional ret,
    optional ret, start,
    .loop (optional (block [.choose replaceRegexp replace, optional brk])),
    finish, ret])

/-- `Through` -/
def through (granted : Bool) : Flow Call :=
  .body (block [optional ret,
    optional (block [
      optional (.choose (copyVertToClip false granted) (copyToClip false)),
      optional (block [start, optional (.choose eraseVertBlock eraseBlock),
        .choose pasteVertToBuffer pasteToBuffer, finish]),
      ret]),
    ret])

/-- `ToUpper`, `ToLower` and `Capitalize` -/
def changeCase : Flow Call :=
  .body (block [optional ret, start, .loop toSomething, finish, ret])

/-- `Center` -/
def centerCommand : Flow Call :=
  .body (block [optional ret, start, .loop (block [center, optional brk]), finish, ret])

/-- `Paragraph` -/
def paragraphCommand : Flow Call :=
  .body (block [optional ret, start, .loop paragraph, finish, ret])

/-- `AutoComplete`.  When the prefix is deleted there is a word in front of the cursor. -/
def autoComplete : Flow Call :=
  .body (block [optional ret,
    optional (block [start, optional (deleteWord true true), optional insertString, finish]),
    ret])

/-- What `do_action` does for an action that may edit.  `vertical` says whether the mark is
that of a vertical block, and `granted` whether there is memory for the clip of a vertical
block. -/
def actionFlow (vertical granted : Bool) : Action → Flow Call
  | .autoCompleteA => autoComplete
  | .backspaceA => deleteChar true
  | .capitalizeA | .toLowerA | .toUpperA => changeCase
  | .centerA => centerCommand
  | .copyA => if vertical then copyVertToClip false granted else copyToClip false
  | .cutA => .body (block [optional ret,
      if vertical then copyVertToClip true granted else copyToClip true])
  | .deleteCharA => deleteChar false
  | .deleteEOLA => .body (block [optional ret, deleteToEol])
  | .deleteLineA => deleteLine
  | .deleteNextWordA => .choose (deleteWord false true) (deleteWord false false)
  | .deletePrevWordA => .choose (deleteWord true true) (deleteWord true false)
  | .eraseA => .body (block [optional ret, if vertical then eraseVertBlock else eraseBlock])
  | .insertCharA => insertChar
  | .insertLineA => insertLine
  | .insertStringA => insertString
  | .insertTabA => insertTab
  | .paragraphA => paragraphCommand
  | .pasteA => .body (block [optional ret, pasteToBuffer])
  | .pasteVertA => .body (block [optional ret, pasteVertToBuffer])
  | .repeatLastA => repeatLast
  | .replaceA => replaceCommand .replaceA
  | .replaceAllA => replaceCommand .replaceAllA
  | .replaceOnceA => replaceCommand .replaceOnceA
  | .shiftA => .body (block [optional ret, shift])
  | .throughA => through granted
  | .undelLineA => undelLine
  | _ => .skip

/-- What describes the state after a call: the number of chains that the function has
opened and not closed, and its local variables.  A chain is not closed that the function
has not opened, and nothing is undone while one is open. -/
def after : Call → Nat × Locals → Option (List (Nat × Locals))
  | .startUndoChain, (opened, v) => some [(opened + 1, v)]
  | .endUndoChain, (opened, v) => if opened = 0 then none else some [(opened - 1, v)]
  | .edit, a => some [a]
  | .undo, (opened, v) => if opened = 0 then some [(opened, v)] else none
  | .assign f, (opened, v) => some [(opened, f v)]
  | .assume holds, (opened, v) => some (if holds v then [(opened, v)] else [])

def noLocals : Locals := ⟨false, false⟩

/-- However the function ends, it has closed the chains that it has opened. -/
def balanced (p : Flow Call) : Bool := always after p (0, noLocals) fun a => a.1 == 0

theorem actionFlow_balanced : ∀ vertical granted : Bool, ∀ a : Action,
    balanced (actionFlow vertical granted a) = true ↔
      ¬ (a = .cutA ∧ vertical = true ∧ granted = false) := by
  intro vertical granted a
  have hall : ∀ vertical granted : Bool, ∀ a ∈ actions,
      balanced (actionFlow vertical granted a) = true ↔
        ¬ (a = .cutA ∧ vertical = true ∧ granted = false) := by decide +kernel
  exact hall vertical granted a (mem_actions a)

end NiceEditor.ChainedActions
