import NiceEditor.Commands
import Mathlib.Data.Nat.Digits.Lemmas
import Mathlib.Data.FinEnum

/-!
Command lines and recorded commands (`parse_command_line` and `record_action` in
`command.c`).
-/

namespace NiceEditor.CommandLine

open NiceEditor.Pools
open NiceEditor.Commands

/-- `isdigit` -/
def isDigit (c : Byte) : Bool := 48 ≤ c && c ≤ 57

/-- `isxdigit` -/
def isXDigit (c : Byte) : Bool := isDigit c || (65 ≤ c && c ≤ 70) || (97 ≤ c && c ≤ 102)

/-- The value of a character as a digit. -/
def digitVal (c : Byte) : Option Nat :=
  if isDigit c then some (c.toNat - 48)
  else if isAlpha c then some ((asciiUpCase c).toNat - 55)
  else none

/-- The character is a digit of the base. -/
def isDigitOf (base : Nat) (c : Byte) : Bool := (digitVal c).any (· < base)

/-- The number with the given digits, the first of which is the most significant one. -/
def readDigits (base : Nat) (digits : List Byte) : Nat :=
  digits.foldl (fun n c => n * base + (digitVal c).getD 0) 0

/-- `INT64_MAX` -/
def int64Max : Int := 9223372036854775807

/-- `INT64_MIN` -/
def int64Min : Int := -9223372036854775808

/-- The conversion of an `int64_t` to an `int`. -/
def toInt32 (n : Int) : Int := n.bmod 4294967296

/-- The base that `strtoll` finds when it is called with base 0, and the digits. -/
def numberBase : List Byte → Nat × List Byte
  | 48 :: x :: d :: s =>
      if (x = 120 ∨ x = 88) ∧ isDigitOf 16 d then (16, d :: s) else (8, 48 :: x :: d :: s)
  | 48 :: s => (8, 48 :: s)
  | s => (10, s)

/-- `strtoll` with base 0 (and `strtol`, which is the same on 64 bits): the
number, and what comes after it. -/
def strtoll (s : List Byte) : Int × List Byte :=
  let t := s.dropWhile isAsciiSpace
  let u := if t.head? = some 45 ∨ t.head? = some 43 then t.tail else t
  let (base, ds) := numberBase u
  let digits := ds.takeWhile (isDigitOf base)
  if digits = [] then (0, s)
  else
    let n : Int := readDigits base digits
    (if t.head? = some 45 then max int64Min (-n) else min int64Max n,
      ds.dropWhile (isDigitOf base))

/-- The errors of `parse_command_line`. -/
inductive ParseError
  | noSuchCommand | hasNoArgument | hasNumericArgument | canExecuteOnlyOptions
  | stringIsEmpty | notANumber
  deriving DecidableEq

/-- What `parse_command_line` passes back. -/
structure Parsed where
  action : Action
  number : Int
  string : Option (List Byte)
  deriving DecidableEq

/-- The string without the quotes around it. -/
def unquote (p : List Byte) : List Byte :=
  if 1 < p.length ∧ p.head? = some 34 ∧ p.getLast? = some 34 then p.tail.dropLast else p

/-- The argument of a command that is not empty. -/
def parseArgument (a : Action) (p : List Byte) : Except ParseError Parsed :=
  if a.has .argIsString then
    if unquote p = [] ∧ ¬ a.has .emptyStringOk then .error .stringIsEmpty
    else .ok ⟨a, -1, some (unquote p)⟩
  else if ∀ c ∈ (strtoll p).2.head?, isAsciiSpace c then .ok ⟨a, (strtoll p).1, none⟩
  else .error .notANumber

/-- What `parse_command_line` does once it has found the command; `p` is what
comes after the name. -/
def parseCommand (a : Action) (p : List Byte) (execOnlyOptions : Bool) :
    Except ParseError Parsed :=
  if p ≠ [] ∧ a.has .noArgs then .error .hasNoArgument
  else if p ≠ [] ∧ ¬ a.has .argIsString ∧ ¬ p.head?.any isXDigit ∧
      p.head? ≠ some 120 ∧ p.head? ≠ some 88 then .error .hasNumericArgument
  else if ¬ a.has .isOption ∧ execOnlyOptions then .error .canExecuteOnlyOptions
  else if p = [] then .ok ⟨a, -1, none⟩
  else parseArgument a p

/-- `parse_command_line` -/
def parseCommandLine (commandLine : List Byte) (execOnlyOptions : Bool) :
    Except ParseError Parsed :=
  if commandLine = [] then .ok ⟨.nopA, -1, none⟩
  else
    let line := commandLine.dropWhile isAsciiSpace
    if ¬ line.head?.any isAlpha then .ok ⟨.nopA, -1, some line⟩
    else match findCommand line with
      | none => .error .noSuchCommand
      | some a =>
          parseCommand a ((line.dropWhile fun c => !isAsciiSpace c).dropWhile isAsciiSpace)
            execOnlyOptions

/-- A number that is not negative, as `printf` prints it. -/
def decimal (n : Nat) : List Byte :=
  if n = 0 then [48] else (Nat.digits 10 n).reverse.map fun d => .ofNat (48 + d)

/-- What `record_action` writes after the name of the command. -/
def recordedArgument (c : Int) (p : Option (List Byte)) : List Byte :=
  if 0 ≤ c then 32 :: decimal c.toNat
  else match p with
    | none => []
    | some s =>
        if s.head?.all isAsciiSpace then 32 :: 34 :: (s ++ [34]) else 32 :: s

attribute [grind =] recordedArgument

/-- `record_action` -/
def recordAction (cs : List Byte) (a : Action) (c : Int) (p : Option (List Byte))
    (verbose : Bool) : List Byte :=
  if a.has .doNotRecord then cs
  else if a = .nopA then cs ++ (p.getD [] ++ [0])
  else
    let name := if verbose then (commands a).name else (commands a).shortName
    cs ++ (bytes name ++ recordedArgument c p ++ [0])

theorem parseCommand_action {a : Action} {p : List Byte} {e : Bool} {x : Parsed}
    (h : parseCommand a p e = .ok x) : x.action = a := by
  unfold parseCommand at h
  split at h
  · cases h
  split at h
  · cases h
  split at h
  · cases h
  split at h
  · cases h
    rfl
  unfold parseArgument at h
  split at h
  · split at h
    · cases h
    · cases h
      rfl
  · split at h
    · cases h
      rfl
    · cases h

end NiceEditor.CommandLine
