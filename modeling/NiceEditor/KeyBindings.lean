import NiceEditor.CommandLine

/-!
The key bindings loader (`get_key_bind` and `key_may_set` in `keys.c`, `parse_string` in
`syn_utils.c` and `escape` in `syn_regex.c`).

A pointer into the stream is the list of the bytes from there to the end of the
stream; a step that reads a byte behind the end yields nothing.
-/

namespace NiceEditor.KeyBindings

open NiceEditor.Pools
open NiceEditor.Commands
open NiceEditor.CommandLine

/-- A step that moves a pointer into the stream. -/
abbrev Reading := StateT (List Byte) Option

/-- Where a key or a binding comes from. -/
inductive ConfigSource
  | builtIn | globalPrefs | globalPrefsTerm | userPrefs | userPrefsTerm | curDir | curDirTerm
  deriving DecidableEq

/-- `NUM_KEYS` -/
def numKeys : Int := 256 + 256 + 2

/-- `MAX_TERM_KEY` -/
def maxTermKey : Nat := 256 + 256 + 2

/-- `term_key` -/
structure TermKey where
  string : List Byte
  code : Int
  source : ConfigSource
  deriving DecidableEq

/-- The `key` array up to `num_keys`, and the bindings. -/
structure KeyState where
  key : List TermKey
  keyBinding : Int → Option (List Byte)
  keyBindingSource : Int → ConfigSource

/-- The messages of `error_in_key_bindings`. -/
inductive KeyError
  | noCommandSpecified | cannotRedefine | codeOutOfRange | cannotReadCode
  | sequenceTableFull | cannotReadSequence
  deriving DecidableEq

def strcmp : List Byte → List Byte → Ordering
  | [], [] => .eq
  | [], _ :: _ => .lt
  | _ :: _, [] => .gt
  | c :: s, d :: t => (compare c d).then (strcmp s t)

/-- The loop of `binsearch`.  Every turn makes the interval shorter, so `num_keys` turns
are enough. -/
def binsearchLoop (key : List TermKey) (s : List Byte) : Nat → Int → Int → Int
  | 0, l, _ => l
  | turns + 1, l, r =>
      if r < l then l
      else
        let m := (l + r) / 2
        let t := (key[m.toNat]?.map TermKey.string).getD []
        if s.isPrefixOf t then -m - 1
        else match strcmp t s with
          | .gt => binsearchLoop key s turns (m + 1) r
          | .lt => binsearchLoop key s turns l (m - 1)
          | .eq => binsearchLoop key s turns l r

/-- `binsearch` -/
def binsearch (key : List TermKey) (s : List Byte) : Int :=
  binsearchLoop key s key.length 0 (key.length - 1)

/-- `key_may_set` -/
def keyMaySet (key : List TermKey) (capString : List Byte) (code : Int) (source : ConfigSource) :
    Int × List TermKey :=
  if maxTermKey - 1 ≤ key.length then (0, key)
  else
    let pos := binsearch key capString
    if pos < 0 then
      (pos, if code < 0 then
          key.modify (-pos - 1).toNat fun k => { k with code := -code - 1, source := source }
        else key)
    else
      let code := if code < 0 then -code - 1 else code
      (pos + 1, key.insertIdx pos.toNat ⟨capString, code, source⟩)

/-- The byte at the pointer. -/
def peek : Reading Byte
  | [] => none
  | c :: p => some (c, c :: p)

/-- The pointer is moved over the bytes that meet the condition. -/
def skipList (f : Byte → Bool) : List Byte → Option (List Byte)
  | [] => none
  | c :: p => if f c then skipList f p else some (c :: p)

def skipWhile (f : Byte → Bool) : Reading Unit := fun p => (skipList f p).map ((), ·)

/-- `while(isasciispace(*p)) p++` -/
def skipSpaces : Reading Unit := skipWhile isAsciiSpace

/-- `while(*p && !isasciispace(*p)) p++` -/
def skipWord : Reading Unit := skipWhile fun c => c != 0 && !isAsciiSpace c

/-- The string at the pointer is read to its NUL. -/
def readString : Reading (List Byte) := fun p =>
  if 0 ∈ p then some (p.takeWhile (· != 0), p) else none

/-- `cmdcmp`, in the stream -/
def cmdcmpList : List Byte → List Byte → Option Bool
  | [], [] => none
  | [], m :: _ => some (m == 0 || isAsciiSpace m)
  | _ :: _, [] => none
  | c :: cs, m :: ms =>
      if asciiUpCase c = asciiUpCase m then cmdcmpList cs ms else some false

/-- `*p && !cmdcmp(keyword, p)` -/
def startsWith (keyword : List Byte) : Reading Bool := fun p => do
  let (c, _) ← peek p
  if c = 0 then some (false, p) else (cmdcmpList keyword p).map (·, p)

/-- `sscanf` with `%x`: the number, if there is one, as an `int` -/
def scanHex (s : List Byte) : Option Int :=
  let t := s.dropWhile isAsciiSpace
  let u := if t.head? = some 45 ∨ t.head? = some 43 then t.tail else t
  let ds := if u.head? = some 48 ∧ (u.tail.head? = some 120 ∨ u.tail.head? = some 88)
    then u.drop 2 else u
  let digits := ds.takeWhile (isDigitOf 16)
  if digits = [] then none
  else
    let n : Int := readDigits 16 digits
    if 2 ^ 64 ≤ n then some (-1)
    else some (toInt32 (if t.head? = some 45 then -n else n))

/-- A further octal digit in `escape`.  The value is taken from the byte after it. -/
def octalDigit (c : Byte) : Reading Byte
  | [] => none
  | x :: s =>
      if 48 ≤ x ∧ x ≤ 55 then
        match s with
        | [] => none
        | y :: s => some (c * 8 + y - 48, y :: s)
      else some (c, x :: s)

/-- A hexadecimal digit in `escape` -/
def hexDigit (c : Byte) : Reading Byte
  | [] => none
  | x :: s =>
      if 48 ≤ x ∧ x ≤ 57 then some (c * 16 + x - 48, s)
      else if 65 ≤ x ∧ x ≤ 70 then some (c * 16 + x - 65 + 10, s)
      else if 97 ≤ x ∧ x ≤ 102 then some (c * 16 + x - 97 + 10, s)
      else some (c, x :: s)

/-- The escapes of one character. -/
def escapeChar (d : Byte) : Option Byte :=
  if d = 110 then some 10
  else if d = 116 then some 9
  else if d = 97 then some 7
  else if d = 98 then some 8
  else if d = 102 then some 12
  else if d = 101 then some 27
  else if d = 114 then some 13
  else if d = 56 then some 8
  else if d = 57 then some 9
  else none

/-- `escape`, not for UTF-8 and with 50 characters left; the character that is
escaped can be the NUL. -/
def escape : Reading Byte
  | [] => none
  | [92] => none
  | 92 :: d :: s =>
      match escapeChar d with
      | some c => some (c, s)
      | none =>
          if 48 ≤ d ∧ d ≤ 55 then (octalDigit (d - 48) >>= octalDigit).run s
          else if d = 120 ∨ d = 88 then (hexDigit 0 >>= hexDigit).run s
          else some (d, s)
  | c :: s => some (c, s)

/-- The first loop of `parse_string`, which yields the characters written to `buf`. -/
def parseChars : Nat → Reading (List Byte)
  | 0 | 1 => pure []
  | len + 2 => do
      let c ← peek
      if c = 0 ∨ c = 34 then pure []
      else do
        let x ← escape
        let buf ← parseChars (len + 1)
        pure (x :: buf)

/-- The second loop of `parse_string` -/
def skipToQuoteList : List Byte → Option (List Byte)
  | [] => none
  | c :: p =>
      if c = 0 ∨ c = 34 then some (c :: p)
      else if c = 92 then
        match p with
        | [] => none
        | d :: q => if d ≠ 0 then skipToQuoteList q else skipToQuoteList (d :: q)
      else skipToQuoteList p

def skipToQuote : Reading Unit := fun p => (skipToQuoteList p).map ((), ·)

/-- `parse_string`, which yields the contents of `buf` unless it fails.  If it fails
the pointer is left where the reading has ended. -/
def parseString (len : Nat) : Reading (Option (List Byte)) := do
  let c ← peek
  if c ≠ 34 then pure none
  else do
    modify List.tail
    let buf ← parseChars len
    skipToQuote
    let c ← peek
    if c = 34 then do
      modify List.tail
      pure (some buf)
    else pure none

/-- The code of a key -/
def keyCode (s : List Byte) : Except KeyError Int :=
  match scanHex s with
  | none => .error .cannotReadCode
  | some c =>
      if 0 ≤ c ∧ c < numKeys then
        if c ≠ 27 ∧ c ≠ 13 then .ok c else .error .cannotRedefine
      else .error .codeOutOfRange

/-- A `KEY` line -/
def keyLine (source : ConfigSource) (st : KeyState) : Reading (Except KeyError KeyState) := do
  skipWord
  let s ← readString
  match keyCode s with
  | .error e => pure (.error e)
  | .ok c => do
      skipSpaces
      skipWord
      skipSpaces
      let command ← readString
      if command = [] then pure (.error .noCommandSpecified)
      else pure (.ok { st with
        keyBinding := Function.update st.keyBinding c (some command)
        keyBindingSource := Function.update st.keyBindingSource c source })

/-- The key code of a `SEQ` line -/
def seqCode (source : ConfigSource) (st : KeyState) (buf : List Byte) :
    Reading (Except KeyError KeyState) := do
  skipSpaces
  let s ← readString
  match keyCode s with
  | .error e => pure (.error e)
  | .ok c =>
      let (set, key) := keyMaySet st.key (buf.takeWhile (· != 0)) (-c - 1) source
      if set = 0 then pure (.error .sequenceTableFull)
      else pure (.ok { st with key := key })

/-- A `SEQ` line -/
def seqLine (source : ConfigSource) (st : KeyState) : Reading (Except KeyError KeyState) := do
  skipWord
  skipSpaces
  let quoted ← readString
  match ← parseString quoted.length with
  | none => pure (.error .cannotReadSequence)
  | some buf =>
      if buf = [] then pure (.error .cannotReadSequence)
      else seqCode source st buf

/-- One line in `get_key_bind` -/
def bindLine (source : ConfigSource) (st : KeyState) : Reading (Except KeyError KeyState) := do
  if ← startsWith (bytes "KEY") then keyLine source st
  else if ← startsWith (bytes "SEQ") then seqLine source st
  else pure (.ok st)

/-- How `get_key_bind` ends. -/
inductive KeyOutcome
  | loaded (st : KeyState)
  | exit (line : Nat) (e : KeyError)
  | overrun

/-- The loop of `get_key_bind`, together with the text that every turn has parsed: it
goes from the pointer to the NUL where the turn ends.  Before every exit the string at
the pointer has been read to its NUL.  Every turn passes a byte at least, so as many turns as
there are bytes are enough. -/
def bindLines (source : ConfigSource) : Nat → Nat → KeyState → List Byte →
    KeyOutcome × List (List Byte)
  | 0, _, st, _ => (.loaded st, [])
  | turns + 1, line, st, p =>
      if p = [] then (.loaded st, [])
      else match (bindLine source st).run p with
        | none => (.overrun, [])
        | some (result, q) =>
            if 0 ∉ q then (.overrun, [])
            else
              let next := (q.dropWhile (· != 0)).tail
              let parsed := p.take (p.length - next.length - 1)
              match result with
              | .error e => (.exit line e, [parsed])
              | .ok st =>
                  let (outcome, rest) := bindLines source turns (line + 1) st next
                  (outcome, parsed :: rest)

/-- `get_key_bind`, once the file is in the stream -/
def getKeyBind (source : ConfigSource) (st : KeyState) (cs : List Byte) :
    KeyOutcome × List (List Byte) :=
  bindLines source cs.length 1 st cs

end NiceEditor.KeyBindings
