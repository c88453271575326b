import NiceEditor.CommandLine
import NiceEditor.Navigation
import NiceEditor.Streams

/-!
Recorded macros and their optimisation (`insertchar_val`, `vet_optimize_macro_stream`
and `optimize_macro` in `command.c`).
-/

namespace NiceEditor.Macros

open NiceEditor.Pools
open NiceEditor.BufferData
open NiceEditor.Encoding
open NiceEditor.Navigation
open NiceEditor.Commands
open NiceEditor.CommandLine
open NiceEditor.Streams

/-- The argument of a command line. -/
def argumentOf (line : List Byte) : List Byte :=
  ((line.dropWhile isAsciiSpace).dropWhile fun c => !isAsciiSpace c).dropWhile isAsciiSpace

/-- `insertchar_val` -/
def insertcharVal (p : List Byte) : Int :=
  let cmd := p.dropWhile isAsciiSpace
  if ¬ cmd.head?.any isAlpha then 0
  else if findCommand cmd = some .insertCharA then
    let h := toInt32 (strtoll (argumentOf p)).1
    if (strtoll (argumentOf p)).2 ≠ [] ∨ h < 0 then 0 else h
  else 0

/-- `isprint`, of a character below 128 -/
def isPrint (c : Int) : Bool := 32 ≤ c && c ≤ 126

/-- The loop of `vet_optimize_macro_stream`.  Every turn passes a byte at least,
so the length of the stream is enough. -/
def vetLoop (cs : List Byte) : Nat → Nat → Bool
  | 0, _ => true
  | turns + 1, pos =>
      if pos < cs.length then
        match parseCommandLine (cString cs pos) false with
        | .ok x =>
            if x.action = .undoA then false
            else vetLoop cs turns (pos + (cString cs pos).length + 1)
        | .error .noSuchCommand => false
        | .error _ => vetLoop cs turns (pos + (cString cs pos).length + 1)
      else true

/-- `vet_optimize_macro_stream` -/
def vetOptimizeMacroStream (cs : List Byte) (pos : Nat) : Bool := vetLoop cs cs.length pos

/-- The name of `InsertString`. -/
def insertStringName (verbose : Bool) : List Byte :=
  bytes (if verbose then (commands .insertStringA).name else (commands .insertStringA).shortName)

/-- The loop of `optimize_macro`; `building` is the place of the last character
of the `InsertString` that is being built, or zero.  A place of a stream is taken
to fit into an `int`. -/
def optimizeLoop (verbose : Bool) : Nat → List Byte → Nat → Nat → List Byte
  | 0, cs, _, _ => cs
  | turns + 1, cs, pos, building =>
      if pos < cs.length then
        let cmd := cString cs pos
        let chr := insertcharVal cmd
        if chr < 0x80 ∧ isPrint chr ∧ vetOptimizeMacroStream cs pos then
          let cs := deleteFromStream cs pos (cmd.length + 1)
          let two : Byte := .ofNat chr.toNat
          if building ≠ 0 then
            let cs := insertInStream cs [two] (building + 1)
            optimizeLoop verbose turns cs (pos + (cString cs pos).length + 1) (building + 1)
          else
            let insert := insertStringName verbose
            let cs := insertInStream cs [34, 0] pos
            let cs := insertInStream cs [two] pos
            let cs := insertInStream cs [32, 34] pos
            let cs := insertInStream cs insert pos
            optimizeLoop verbose turns cs (pos + (cString cs pos).length + 1)
              (pos + insert.length + 2)
        else optimizeLoop verbose turns cs (pos + cmd.length + 1) 0
      else cs

/-- `optimize_macro` -/
def optimizeMacro (cs : List Byte) (verbose : Bool) : List Byte :=
  optimizeLoop verbose cs.length cs 0 0

/-- `get_char` -/
def getChar (s : List Byte) (encoding : EncodingType) : Int :=
  if encoding = .utf8 then utf8char s else (s.getD 0 0).toNat

/-- The loop of `InsertString` over the characters of the string. -/
def insertedLoop (encoding : EncodingType) : Nat → List Byte → List Int
  | 0, _ => []
  | _ + 1, [] => []
  | turns + 1, c :: s =>
      getChar (c :: s) encoding ::
        insertedLoop encoding turns ((c :: s).drop (charLen encoding c).toNat)

/-- The characters for which `InsertString` executes `InsertChar`. -/
def insertedChars (s : List Byte) : List Int := insertedLoop (detectEncoding s) s.length s

end NiceEditor.Macros
