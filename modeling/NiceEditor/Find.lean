import NiceEditor.LineSearch
import NiceEditor.Cursor
import NiceEditor.Commands

namespace NiceEditor.Find

open NiceEditor.Pools
open NiceEditor.BufferData
open NiceEditor.Encoding
open NiceEditor.Navigation
open NiceEditor.Cursor
open NiceEditor.Commands
open NiceEditor.LineSearch

/-- What a search returns. -/
inductive FindStatus where
  | ok
  | error
  | notFound
deriving DecidableEq, Repr

/-- The fields of a buffer that belong to searches, and the static data of `search.c`: the
serial number of the last compilation and the table `d`. -/
structure Finder where
  findString : Option (List Byte)
  findStringChanged : UInt32
  lastWasRegexp : Bool
  searchSerialNum : UInt32
  d : Byte → Nat

/-- `((search_serial_num & ~1) + 2)|2` -/
def nextSerial (n : UInt32) : UInt32 := ((n &&& ~~~1) + 2) ||| 2

/-- `CONV` -/
def conv (senseCase : Bool) (upCase : Byte → Byte) (c : Byte) : Byte :=
  if senseCase then c else upCase c

/-- The map of `find` for the encoding of a buffer; `localisedUpCase` is the map of the
locale. -/
def upCase (localisedUpCase : Byte → Byte) (encoding : EncodingType) : Byte → Byte :=
  if encoding = .utf8 then asciiUpCase else localisedUpCase

/-- `CONV` with the options and the encoding of a buffer -/
def convOf (localisedUpCase : Byte → Byte) (b : Buffer) : Byte → Byte :=
  conv b.opt.caseSearch (upCase localisedUpCase b.encoding)

/-- The table for a search forwards. -/
def forwardTable (conv : Byte → Byte) (pattern : List Byte) : Byte → Nat :=
  let m := pattern.length
  (List.range (m - 1)).foldl
    (fun d i => Function.update d (conv (pattern.getD i 0)) (m - i - 1)) fun _ => m

/-- The table for a search backwards. -/
def backwardTable (conv : Byte → Byte) (pattern : List Byte) : Byte → Nat :=
  let m := pattern.length
  (List.range' 1 (m - 1)).reverse.foldl
    (fun d i => Function.update d (conv (pattern.getD i 0)) i) fun _ => m

/-- The table that is compiled for the direction of a search. -/
def shiftTable (back : Bool) (conv : Byte → Byte) (pattern : List Byte) : Byte → Nat :=
  if back then backwardTable conv pattern else forwardTable conv pattern

/-- The scan of a line forwards; `p` is where the last character of the pattern is compared. -/
def scanForward (conv : Byte → Byte) (d : Byte → Nat) (pattern line : List Byte) :
    Nat → Int → Search Int
  | 0, _ => .running
  | turns + 1, p =>
      let m := pattern.length
      let firstChar := conv (pattern.getD (m - 1) 0)
      if p < line.length then
        let c := conv (byteAt line p)
        if c ≠ firstChar then scanForward conv d pattern line turns (p + d c)
        else if (List.range' 1 (m - 1)).all fun i =>
            conv (byteAt line (p - i)) = conv (pattern.getD (m - i - 1) 0) then
          .found (p - m + 1)
        else scanForward conv d pattern line turns (p + d c)
      else .missed

/-- The scan of a line backwards; `p` is where the first character of the pattern is
compared. -/
def scanBackward (conv : Byte → Byte) (d : Byte → Nat) (pattern line : List Byte) :
    Nat → Int → Search Int
  | 0, _ => .running
  | turns + 1, p =>
      let m := pattern.length
      let firstChar := conv (pattern.getD 0 0)
      if 0 ≤ p then
        let c := conv (byteAt line p)
        if c ≠ firstChar then scanBackward conv d pattern line turns (p - d c)
        else if (List.range' 1 (m - 1)).all fun i =>
            conv (byteAt line (p + i)) = conv (pattern.getD i 0) then
          .found p
        else scanBackward conv d pattern line turns (p - d c)
      else .missed

/-- Line `y` of the text is scanned from `p` on.  Every turn moves `p` when no shift is 0. -/
def scanLineFrom (back : Bool) (conv : Byte → Byte) (d : Byte → Nat) (pattern : List Byte)
    (b : Buffer) (y p : Int) : Search Int :=
  let line := (lines b).getD y.toNat []
  if pattern.length ≤ line.length then
    if back then scanBackward conv d pattern line (line.length + 1) p
    else scanForward conv d pattern line (line.length + 1) p
  else .missed

/-- Where the scan of the current line begins. -/
def startPos (back skipFirst : Bool) (m : Nat) (b : Buffer) : Int :=
  if back then
    let lineLen : Int := (lineOf b b.curLineDesc).length
    if lineLen - m < b.curPos then lineLen - m else b.curPos + if skipFirst then -1 else 0
  else b.curPos + m - 1 + if skipFirst then 1 else 0

/-- Where the scan of a whole line begins. -/
def freshPos (back : Bool) (m : Nat) (b : Buffer) (y : Int) : Int :=
  if back then ((lines b).getD y.toNat []).length - m else m - 1

/-- The search is compiled again. -/
def recompiles (f : Finder) (pattern : Option (List Byte)) : Bool :=
  match pattern with
  | none => f.findStringChanged ≠ f.searchSerialNum ∨ f.lastWasRegexp
  | some _ => true

/-- `find`, not interrupted; there is no result when a scan has not ended.  The descriptor
`ld` goes along with the line number `y`. -/
def find (t : Terminal) (localisedUpCase : Byte → Byte) (f : Finder) (b : Buffer)
    (pattern : Option (List Byte)) (skipFirst wrapOnce : Bool) :
    Option (FindStatus × Finder × Buffer) :=
  let recompile := recompiles f pattern
  let f := if recompile then
      { f with findStringChanged := 0, searchSerialNum := nextSerial f.searchSerialNum }
    else f
  match pattern.or f.findString with
  | none => some (.error, f, b)
  | some [] => some (.error, f, b)
  | some (c :: rest) =>
      let pattern := c :: rest
      let back := b.opt.searchBack
      let conv := convOf localisedUpCase b
      let f := if recompile then
          { f with d := shiftTable back conv pattern, findStringChanged := f.searchSerialNum }
        else f
      match searchLines (courseOf back b.numLines) (scanLineFrom back conv f.d pattern b)
          (freshPos back pattern.length b) (b.numLines + 1).toNat b.curLine
          (startPos back skipFirst pattern.length b) wrapOnce with
      | .found (y, pos) => some (.ok, f, gotoLinePos t b y pos)
      | .missed => some (.notFound, f, b)
      | .running => none

end NiceEditor.Find
