import NiceEditor.Cells
import Mathlib.Logic.Function.Basic
import Mathlib.Data.UInt

/-!
The character pools of a buffer (`buffer.c`): memory, line segments, and the
functions that allocate and free the characters of a line.
-/

namespace NiceEditor.Pools

open NiceEditor.Cells

abbrev Byte := UInt8

/-- A pointer is a block of memory and an offset in it; two blocks are never
adjacent. -/
structure Ptr where
  block : Nat
  off : Nat
deriving DecidableEq, Repr

/-- `char_pool`: `pool` is the block that holds the characters. -/
structure CharPool where
  pool : Nat
  size : Nat
  firstUsed : Nat
  lastUsed : Nat
deriving DecidableEq, Repr

/-- The text part of a `line_desc`; `line = none` is the NULL pointer. -/
structure LineDesc where
  line : Option Ptr
  lineLen : Nat
deriving DecidableEq, Repr

/-- The fields of `buffer` that the character-pool functions read and write,
with the memory behind them.  `answers` holds the system's future answers to
requests for memory and for input and output. -/
structure CharPools where
  mem : Nat → Nat → Byte
  nextBlock : Nat
  answers : Nat → Bool
  charPoolList : List CharPool
  allocatedChars : Int
  freeChars : Int

def stdPoolSize : Nat := 16 * 1024

/-- The next answer of the system. -/
def request (b : CharPools) : Bool × CharPools :=
  (b.answers 0, { b with answers := fun n => b.answers (n + 1) })

/-- Every request will be granted. -/
def Granting (answers : Nat → Bool) : Prop := ∀ n, answers n = true

/-- `memcpy`: the source has been read beforehand. -/
def store (b : CharPools) (p : Ptr) (xs : List Byte) : CharPools :=
  { b with mem := Function.update b.mem p.block (writeCells (b.mem p.block) p.off xs) }

/-- `n` bytes of memory from `p` on. -/
def load (b : CharPools) (p : Ptr) (n : Nat) : List Byte :=
  readCells (b.mem p.block) p.off n

/-- `p + n` -/
def Ptr.add (p : Ptr) (n : Nat) : Ptr := { p with off := p.off + n }

/-- `p - n` -/
def Ptr.sub (p : Ptr) (n : Nat) : Ptr := { p with off := p.off - n }

/-- The characters of a line. -/
def lineBytes (b : CharPools) (ld : LineDesc) : List Byte :=
  match ld.line with
  | none => []
  | some p => load b p ld.lineLen

attribute [grind =] lineBytes

/-- `alloc_char_pool(size, 0, -1)`: a zeroed pool. -/
def allocCharPool (b : CharPools) (size : Nat) : Option CharPool × CharPools :=
  let size := if size < stdPoolSize then stdPoolSize else size
  let (granted, b) := request b
  if granted then
    (some { pool := b.nextBlock, size := size, firstUsed := 0, lastUsed := 0 },
      { b with
        mem := Function.update b.mem b.nextBlock fun _ => 0
        nextBlock := b.nextBlock + 1 })
  else (none, b)

/-- `get_char_pool` -/
def getCharPool (b : CharPools) (p : Ptr) : Option CharPool :=
  b.charPoolList.find? fun c => c.pool = p.block ∧ p.off < c.size

/-- Put back a pool whose `first_used` or `last_used` has changed. -/
def setCharPool (b : CharPools) (c : CharPool) : CharPools :=
  { b with charPoolList := b.charPoolList.map fun d => if d.pool = c.pool then c else d }

/-- One turn of the loop of `alloc_chars`: `len` characters before the first
used character of a pool, or after the last one. -/
def allocInPool (len : Nat) (cp : CharPool) : Option (Ptr × CharPool) :=
  if len ≤ cp.firstUsed then
    some (⟨cp.pool, cp.firstUsed - len⟩, { cp with firstUsed := cp.firstUsed - len })
  else if len < cp.size - cp.lastUsed then
    some (⟨cp.pool, cp.lastUsed + 1⟩, { cp with lastUsed := cp.lastUsed + len })
  else none

/-- The loop of `alloc_chars`; the pool found and the list of the others. -/
def scanPools (len : Nat) : List CharPool → Option (Ptr × CharPool × List CharPool)
  | [] => none
  | cp :: rest =>
      match allocInPool len cp with
      | some (p, cp) => some (p, cp, rest)
      | none => (scanPools len rest).map fun (p, found, others) => (p, found, cp :: others)

/-- `alloc_chars` -/
def allocChars (b : CharPools) (len : Nat) : Option Ptr × CharPools :=
  if len = 0 then (none, b)
  else
    match scanPools len b.charPoolList with
    | some (p, cp, others) =>
        -- The pool is moved to the head of the list to speed up the next try.
        (some p, { b with charPoolList := cp :: others, freeChars := b.freeChars - len })
    | none =>
        match allocCharPool b len with
        | (some cp, b) =>
            (some ⟨cp.pool, 0⟩,
              { b with
                charPoolList := { cp with lastUsed := len - 1 } :: b.charPoolList
                allocatedChars := b.allocatedChars + cp.size
                freeChars := b.freeChars + (cp.size - len) })
        | (none, b) => (none, b)

/-- The free characters found before and after a line, `n` at most in all. -/
def scanAround (m : Nat → Byte) (cp : CharPool) (off lineLen n : Nat)
    (checkFirstBefore : Bool) : Nat × Nat :=
  if checkFirstBefore then
    let before := zerosBefore m n off
    (before, zerosAfter m cp.size (n - before) (off + lineLen))
  else
    let after := zerosAfter m cp.size n (off + lineLen)
    (zerosBefore m (n - after) off, after)

/-- `alloc_chars_around`: the number of characters available after the line,
or `none` for `ERROR`. -/
def allocCharsAround (b : CharPools) (ld : LineDesc) (n : Nat)
    (checkFirstBefore : Bool) : Option Nat × CharPools :=
  match ld.line with
  | none => (none, b)
  | some p =>
      match getCharPool b p with
      | none => (none, b)
      | some cp =>
          let (before, after) :=
            scanAround (b.mem p.block) cp p.off ld.lineLen n checkFirstBefore
          if before + after = n then
            let first := if cp.firstUsed = p.off then p.off - before else cp.firstUsed
            let last := if cp.lastUsed + 1 = p.off + ld.lineLen
              then p.off + ld.lineLen + after - 1 else cp.lastUsed
            let b := setCharPool b { cp with firstUsed := first, lastUsed := last }
            (some after, { b with freeChars := b.freeChars - n })
          else (none, b)

/-- `free_chars` -/
def freeChars (b : CharPools) (ptr : Option Ptr) (len : Nat) : CharPools :=
  match ptr with
  | none => b
  | some p =>
      if len = 0 then b
      else
        match getCharPool b p with
        | none => b
        | some cp =>
            let b := store b p (List.replicate len 0)
            let b := { b with freeChars := b.freeChars + len }
            let m := b.mem p.block
            let first := if p.off = cp.firstUsed
              then cp.firstUsed +
                zerosAfter m (cp.lastUsed + 1) (cp.lastUsed + 1 - cp.firstUsed) cp.firstUsed
              else cp.firstUsed
            let back := if p.off + len = cp.lastUsed + 1
              then zerosBefore m (cp.lastUsed + 1 - first) (cp.lastUsed + 1)
              else 0
            -- `last_used < first_used` once `last_used` has stepped `back`.
            if cp.lastUsed < first + back then
              { b with
                charPoolList := b.charPoolList.filter fun d => d.pool ≠ cp.pool
                allocatedChars := b.allocatedChars - cp.size
                freeChars := b.freeChars - cp.size }
            else setCharPool b { cp with firstUsed := first, lastUsed := cp.lastUsed - back }

end NiceEditor.Pools
