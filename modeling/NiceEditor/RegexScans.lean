import NiceEditor.Encoding

namespace NiceEditor.RegexScans

open NiceEditor.Pools
open NiceEditor.Encoding

/-- What a scan of a string ends with.  It is `passedEnd` when a byte behind the NUL is read. -/
inductive Scan (α : Type) where
  | done (a : α)
  | refused
  | passedEnd
  | running
deriving DecidableEq, Repr

/-- `f` goes on where a scan is done. -/
def Scan.bind {α β : Type} (scan : Scan α) (f : α → Scan β) : Scan β :=
  match scan with
  | .done a => f a
  | .refused => .refused
  | .passedEnd => .passedEnd
  | .running => .running

attribute [grind =] Scan.bind

instance : Monad Scan where
  pure := Scan.done
  bind := Scan.bind

def dot : Byte := 0x2e
def caret : Byte := 0x5e
def openBracket : Byte := 0x5b
def closeBracket : Byte := 0x5d
def openParen : Byte := 0x28
def closeParen : Byte := 0x29
def backslash : Byte := 0x5c
def capitalW : Byte := 0x57

/-- `UTF8DOT` -/
def utf8Dot : List Byte :=
  [0x28, 0x5b, 0x01, 0x2d, 0x7f, 0xc0, 0x2d, 0xff, 0x5d, 0x5b, 0x80, 0x2d, 0xbf, 0x5d, 0x2a, 0x29]

/-- `UTF8COMP` -/
def utf8Comp : List Byte :=
  [0x28, 0x5b, 0xc0, 0x2d, 0xff, 0x5d, 0x5b, 0x80, 0x2d, 0xbf, 0x5d, 0x2b, 0x7c, 0x5b, 0x5e]

/-- `UTF8NONWORD` -/
def utf8NonWord : List Byte :=
  [0x28, 0x5b, 0x01, 0x2d, 0x1e, 0x20, 0x2d, 0x2f, 0x3a, 0x2d, 0x40, 0x5b, 0x2d, 0x60, 0x7b, 0x2d,
    0x7f, 0x5d, 0x7c, 0x5b, 0xc0, 0x2d, 0xff, 0x5d, 0x5b, 0x80, 0x2d, 0xbf, 0x5d, 0x2b, 0x29]

/-- `RE_NREGS` -/
def reNRegs : Nat := 30

/-- A pointer into a string is the bytes from it on, the NUL with them; no byte is left
behind the NUL. -/
def charAt : List Byte → Scan Byte
  | [] => .passedEnd
  | c :: _ => .done c

/-- The state of the counting scan; the counters are taken to fit in an `int`. -/
structure Counting where
  s : List Byte
  escape : Bool
  dots : Nat
  comps : Nat
  nonwords : Nat
deriving DecidableEq, Repr

/-- The list is scanned up to `]`, and no non-US-ASCII characters may appear. -/
def scanList : List Byte → Scan (List Byte)
  | [] => .passedEnd
  | _ :: s => do
      let c ← charAt s
      if utf8len c ≠ 1 then .refused
      else if c ≠ 0 ∧ c ≠ closeBracket then scanList s
      else return s

/-- The body of the counting loop. -/
def countChar (st : Counting) : Scan Counting := do
  let c ← charAt st.s
  if st.escape then
    return { st with
      nonwords := if c = capitalW then st.nonwords + 1 else st.nonwords
      escape := false }
  else if c = dot then return { st with dots := st.dots + 1 }
  else if c = openBracket then
    let next ← charAt st.s.tail
    let (s, comps) := if next = caret then (st.s.tail, st.comps + 1) else (st.s, st.comps)
    let next ← charAt s.tail
    -- A literal ].
    let s := if next = closeBracket then s.tail else s
    let s ← scanList s
    return { st with s := s, comps := comps }
  else if c = backslash then return { st with escape := true }
  else return st

/-- The counting loop.  A turn takes a byte of the string at least. -/
def countLoop : Nat → Counting → Scan Counting
  | 0, _ => .running
  | turns + 1, st => do
      let st ← countChar st
      let c ← charAt st.s.tail
      if c = 0 then return { st with s := st.s.tail }
      else countLoop turns { st with s := st.s.tail }

/-- The counting scan of `find_regexp` -/
def countScan (regex : List Byte) : Scan Counting :=
  countLoop (regex.length + 1)
    { s := regex ++ [0], escape := false, dots := 0, comps := 0, nonwords := 0 }

/-- The size of the memory that is requested for the regular expression with the
substitutions. -/
def actualSize (regex : List Byte) (st : Counting) : Nat :=
  regex.length + 1 + (utf8Dot.length - 1) * st.dots + (utf8NonWord.length - 2) * st.nonwords +
    (utf8Comp.length - 1) * st.comps

/-- The bytes that have been written before `q`, and the number of bytes of the memory at
`actual_regex` that have been written to. -/
structure Output where
  written : List Byte
  high : Nat
deriving DecidableEq, Repr

/-- `*(q++) = c` -/
def Output.put (q : Output) (c : Byte) : Output where
  written := q.written ++ [c]
  high := max q.high (q.written.length + 1)

/-- `strcpy(q, string)`, which writes the NUL of the string also, and `q += strlen(string)` -/
def Output.putString (q : Output) (string : List Byte) : Output where
  written := q.written ++ string
  high := max q.high (q.written.length + string.length + 1)

/-- `q--` -/
def Output.back (q : Output) : Output where
  written := q.written.dropLast
  high := q.high

/-- The state of the rewriting scan. -/
structure Rewriting where
  s : List Byte
  escape : Bool
  q : Output
  virtualGroup : Nat
  realGroup : Nat
  mapGroup : Nat → Nat

/-- `do *(q++) = *(++s); while (*s && *s != ']')` -/
def copyList : List Byte → Output → Scan (List Byte × Output)
  | [], _ => .passedEnd
  | _ :: s, q => do
      let c ← charAt s
      if c ≠ 0 ∧ c ≠ closeBracket then copyList s (q.put c)
      else return (s, q.put c)

/-- A complemented list is embedded in `UTF8COMP`. -/
def rewriteComp (st : Rewriting) : Scan Rewriting := do
  let q := st.q.putString utf8Comp
  let s := st.s.tail
  let next ← charAt s.tail
  -- A literal ].
  let (s, q) := if next = closeBracket then (s.tail, q.put next) else (s, q)
  let (s, q) ← copyList s q
  let c ← charAt s
  let q := if c ≠ 0 then q.put closeParen else q
  return { st with s := s, q := q, realGroup := st.realGroup + 1, escape := false }

/-- A list is copied. -/
def rewriteList (st : Rewriting) : Scan Rewriting := do
  let q := st.q.put openBracket
  let next ← charAt st.s.tail
  -- A literal ].
  let (s, q) := if next = closeBracket then (st.s.tail, q.put next) else (st.s, q)
  let (s, q) ← copyList s q
  return { st with s := s, q := q, escape := false }

/-- The body of the rewriting loop. -/
def rewriteChar (st : Rewriting) : Scan Rewriting := do
  let c ← charAt st.s
  if st.escape ∨ (c ≠ dot ∧ c ≠ openParen ∧ c ≠ openBracket ∧ c ≠ backslash) then
    if st.escape ∧ c = capitalW then
      return { st with
        q := st.q.back.putString utf8NonWord
        realGroup := st.realGroup + 1
        escape := false }
    else return { st with q := st.q.put c, escape := false }
  else if c = backslash then return { st with escape := true, q := st.q.put backslash }
  else if c = dot then
    return { st with
      q := st.q.putString utf8Dot
      realGroup := st.realGroup + 1
      escape := false }
  else if c = openParen then
    if st.virtualGroup < reNRegs - 1 then
      return { st with
        q := st.q.put openParen
        virtualGroup := st.virtualGroup + 1
        realGroup := st.realGroup + 1
        mapGroup := Function.update st.mapGroup (st.virtualGroup + 1) (st.realGroup + 1)
        escape := false }
    else return { st with q := st.q.put openParen, escape := false }
  else
    let next ← charAt st.s.tail
    if next = caret then rewriteComp st else rewriteList st

/-- The rewriting loop.  A turn takes a byte of the string at least. -/
def rewriteLoop : Nat → Rewriting → Scan Rewriting
  | 0, _ => .running
  | turns + 1, st => do
      let st ← rewriteChar st
      let c ← charAt st.s
      if c = 0 then return { st with s := st.s.tail }
      else rewriteLoop turns { st with s := st.s.tail }

/-- The rewriting scan of `find_regexp`; `mapGroup` is what the last regular expression
has left in `map_group`. -/
def rewriteScan (mapGroup : Nat → Nat) (regex : List Byte) : Scan Rewriting :=
  rewriteLoop (regex.length + 1)
    { s := regex ++ [0]
      escape := false
      q := ⟨[], 0⟩
      virtualGroup := 0
      realGroup := 0
      mapGroup := mapGroup }

end NiceEditor.RegexScans
