import NiceEditor.CursorMotion

namespace NiceEditor.TerminalScreen

open NiceEditor.PathCosts
open NiceEditor.CursorMotion

/-- What a terminal shows in a column: a part of a character -/
structure Cell where
  code : Int
  part : Int
deriving DecidableEq

def blank : Cell := ⟨32, 0⟩

/-- A character that is sent, and the columns that it takes -/
structure Glyph where
  code : Int
  width : Nat
deriving DecidableEq

/-- What is sent to a terminal: a motion, a character, or one of the strings `ce`, `cd`, `cl`, `cs`,
`sf`, `sr`, `AL` and `DL` (for `al` and `dl` the number of lines is 1). -/
inductive Command
  | motion (m : Motion)
  | put (g : Glyph)
  | clrEol
  | clrEos
  | clearScreen
  | scrollRegion (start stop : Int)
  | scrollForward
  | scrollReverse
  | insertLines (n : Nat)
  | deleteLines (n : Nat)

/-- The capabilities that `term.c` looks at besides those of `cm.c`: `sf` and `sr` are those of
`term_init`, for which line down and line up stand in. The widths are those of the C library. -/
structure Capabilities where
  cm : Cm
  autoWrap : Bool
  magicWrap : Bool
  loseWrap : Bool
  clrEol : Bool
  clrEos : Bool
  clearScreen : Bool
  scrollRegionOk : Bool
  scrollForward : Bool
  scrollReverse : Bool
  insertLine : Bool
  parmInsertLine : Bool
  deleteLine : Bool
  parmDeleteLine : Bool
  memoryBelow : Bool
  transparentUnderline : Bool
  tildeGlitch : Bool
  specifiedWindow : Int
  ioUtf8 : Bool
  wcwidth : Int → Int

namespace Capabilities

variable (t : Capabilities)

def neLines : Int := t.cm.rows
def neColumns : Int := t.cm.cols

def lineInsDelOk : Bool :=
  (t.insertLine || t.parmInsertLine) && (t.deleteLine || t.parmDeleteLine) ||
    t.scrollRegionOk && t.scrollForward && t.scrollReverse

end Capabilities

/-- A terminal: what it shows, also in the memory below its screen, its cursor, when it is known
where that is, and its scroll region -/
structure Screen where
  cells : Int → Int → Cell
  cursor : Option Place
  region : Int × Int

section Device

variable (t : Capabilities)

/-- The scroll region that is the whole screen -/
def wholeScreen : Int × Int := (0, t.neLines - 1)

/-- Where the cursor is behind a character, unless the screen has scrolled -/
def afterPut (y x : Int) : Option Place :=
  if x < t.neColumns then some ⟨y, x⟩
  else if t.magicWrap then some ⟨y, t.neColumns⟩
  else if t.autoWrap then if y + 1 < t.neLines then some ⟨y + 1, 0⟩ else none
  else some ⟨y, t.neColumns - 1⟩

def overwrite (cells : Int → Int → Cell) (y x : Int) (g : Glyph) : Int → Int → Cell :=
  fun r c => if r = y ∧ x ≤ c ∧ c < x + g.width then ⟨g.code, c - x⟩ else cells r c

/-- Where a motion leads the cursor: when that is not known, the place has to be addressed, and also
when only a part of the screen scrolls. -/
def moved (s : Screen) : Motion → Option Place
  | .abs row col => perform t.cm (.abs row col) ⟨0, 0⟩
  | m => do
      let p ← s.cursor
      if s.region = wholeScreen t then perform t.cm m p else none

/-- A character appears as it is: no control character does, a terminal with `hz` has no tilde, and
on one with `ul` an underscore does not erase what is in its place. -/
def Prints (s : Screen) (p : Place) (g : Glyph) : Prop :=
  32 ≤ g.code ∧ ¬ (127 ≤ g.code ∧ g.code < 160) ∧ ¬ (t.tildeGlitch ∧ g.code = 126) ∧
    (t.transparentUnderline ∧ g.code = 95 → s.cells p.y p.x = blank)

instance (s : Screen) (p : Place) (g : Glyph) : Decidable (Prints t s p g) :=
  inferInstanceAs (Decidable (_ ∧ _))

/-- What a terminal does, as far as its description says so. -/
def apply (s : Screen) : Command → Option Screen
  | .motion m => (moved t s m).map fun p => { s with cursor := p }
  | .put g => do
      let p ← s.cursor
      if p.x + g.width > t.neColumns ∨ ¬ Prints t s p g then none
      else
        let q ← afterPut t p.y (p.x + g.width)
        some { s with cells := overwrite s.cells p.y p.x g, cursor := q }
  | .clrEol => do
      let p ← s.cursor
      if p.x ≥ t.neColumns then none
      else some { s with cells := fun r c => if r = p.y ∧ p.x ≤ c then blank else s.cells r c }
  | .clrEos => do
      let p ← s.cursor
      if p.x ≥ t.neColumns then none
      else some { s with
        cells := fun r c => if r > p.y ∨ r = p.y ∧ p.x ≤ c then blank else s.cells r c }
  | .clearScreen => some { s with cells := fun _ _ => blank, cursor := some ⟨0, 0⟩ }
  | .scrollRegion start stop =>
      if 0 ≤ start ∧ start < stop ∧ stop < t.neLines then
        some { s with cursor := none, region := (start, stop) }
      else none
  | .scrollForward => do
      let p ← s.cursor
      if p.y = s.region.2 then
        some { s with cells := fun r c =>
          if r = s.region.2 then blank
          else if s.region.1 ≤ r ∧ r < s.region.2 then s.cells (r + 1) c else s.cells r c }
      else none
  | .scrollReverse => do
      let p ← s.cursor
      if p.y = s.region.1 then
        some { s with cells := fun r c =>
          if r = s.region.1 then blank
          else if s.region.1 < r ∧ r ≤ s.region.2 then s.cells (r - 1) c else s.cells r c }
      else none
  | .insertLines n => do
      let p ← s.cursor
      if s.region = wholeScreen t then
        some { s with cells := fun r c =>
          if r < p.y then s.cells r c else if r < p.y + n then blank else s.cells (r - n) c }
      else none
  | .deleteLines n => do
      let p ← s.cursor
      if s.region = wholeScreen t then
        some { s with cells := fun r c =>
          if r < p.y then s.cells r c
          else if t.memoryBelow ∨ r + n < t.neLines then s.cells (r + n) c else blank }
      else none

def exec (s : Screen) (out : List Command) : Option Screen := out.foldlM (apply t) s

end Device

section Driver

variable (t : Capabilities)

/-- The cursor of `cm.c` when it is lost -/
def losecursor : Place := ⟨-1, -1⟩

/-- `cmplus` -/
def cmplus (n : Int) (cur : Place) : Place :=
  let x := cur.x + n
  if x ≥ t.neColumns ∧ ¬ t.magicWrap then
    if t.loseWrap then losecursor
    else if t.autoWrap then ⟨cur.y + 1, 0⟩
    else ⟨cur.y, x - 1⟩
  else ⟨cur.y, x⟩

/-- `move_cursor` -/
def moveCursor (row col : Int) (cur : Place) : Option (Place × List Command) :=
  if cur.y = row ∧ cur.x = col then some (cur, [])
  else
    (cmgoto { t.cm with curY := cur.y, curX := cur.x } row col).map fun (w, sent) =>
      (⟨w.curY, w.curX⟩, sent.map .motion)

/-- `output_width` -/
def outputWidth (c : Int) : Nat :=
  let width := t.wcwidth c
  if width > 0 then width.toNat else 1

/-- The character that `out` sends for another one -/
def printable (c : Int) : Int :=
  let c := if c ≥ 127 ∧ c < 160 then 63 else c
  let c := if c = 160 then 32 else c
  let c := if c < 32 then c + 64 else c
  let c := if c > 255 ∧ ¬ t.ioUtf8 then 63 else c
  if t.ioUtf8 ∧ t.wcwidth c ≤ 0 then 63 else c

/-- `out`: when the output is not in UTF-8 a byte is sent, which takes one column. -/
def out (c : Int) : Glyph :=
  let c := printable t c
  ⟨c, if t.ioUtf8 then (t.wcwidth c).toNat else 1⟩

/-- A character of a string as its width is taken: a byte is a signed `char` there. -/
def counted (utf8 : Bool) (c : Nat) : Int := if utf8 ∨ c < 128 then c else c - 256

/-- `string_output_width`: the characters that fit in a width, and theirs -/
def stringOutputWidth (utf8 : Bool) (maxWidth : Int) : Int → List Nat → List Nat × Int
  | width, [] => ([], width)
  | width, c :: string =>
      let charWidth := outputWidth t (counted utf8 c)
      if width + charWidth > maxWidth then ([], width)
      else
        let (fitting, total) := stringOutputWidth utf8 maxWidth (width + charWidth) string
        (c :: fitting, total)

/-- `output_chars`, with the characters of a UTF-8 string or with bytes -/
def outputChars (utf8 : Bool) (string : List Nat) (cur : Place) : Place × List Command :=
  if string = [] then (cur, [])
  else
    let maxWidth := t.neColumns - cur.x -
      if t.autoWrap ∧ ¬ t.magicWrap ∧ cur.y = t.neLines - 1 then 1 else 0
    let (fitting, width) := stringOutputWidth t utf8 maxWidth 0 string
    (cmplus t width cur,
      if ¬ t.transparentUnderline ∧ ¬ t.tildeGlitch then fitting.map fun c : Nat => .put (out t c)
      else fitting.flatMap fun c =>
        (if c = 95 ∧ t.transparentUnderline then [.put ⟨32, 1⟩, .motion .left] else []) ++
          [.put (out t (if t.tildeGlitch ∧ c = 126 then 96 else c))])

/-- `output_spaces`, which is `output_chars` without a string -/
def outputSpaces (n : Nat) (cur : Place) : Place × List Command :=
  if n = 0 then (cur, [])
  else
    let maxWidth := t.neColumns - cur.x -
      if t.autoWrap ∧ ¬ t.magicWrap ∧ cur.y = t.neLines - 1 then 1 else 0
    let len := min (n : Int) maxWidth
    (cmplus t len cur, List.replicate len.toNat (.put ⟨32, 1⟩))

/-- `clear_end_of_line` -/
def clearEndOfLine (firstUnusedHpos : Int) (cur : Place) : Place × List Command :=
  if cur.x ≥ firstUnusedHpos then (cur, [])
  else if t.clrEol then (cur, [.clrEol])
  else (cmplus t (firstUnusedHpos - cur.x) cur,
    List.replicate (firstUnusedHpos - cur.x).toNat (.put ⟨32, 1⟩))

/-- `clear_to_eol` -/
def clearToEol (cur : Place) : Place × List Command := clearEndOfLine t t.neColumns cur

/-- The lines that `clear_to_end` clears one by one -/
def clearLines : Nat → Int → Place → Option (Place × List Command)
  | 0, _, cur => some (cur, [])
  | turns + 1, i, cur => do
      let (cur, moves) ← moveCursor t i 0 cur
      let (cur, clears) := clearToEol t cur
      let (cur, rest) ← clearLines turns (i + 1) cur
      some (cur, moves ++ clears ++ rest)

/-- `clear_to_end` -/
def clearToEnd (cur : Place) : Option (Place × List Command) :=
  if t.clrEos then some (cur, [.clrEos])
  else clearLines t (t.neLines - cur.y).toNat cur.y cur

/-- `clear_entire_screen` -/
def clearEntireScreen (cur : Place) : Option (Place × List Command) :=
  if t.clearScreen then some (⟨0, 0⟩, [.clearScreen])
  else do
    let (cur, moves) ← moveCursor t 0 0 cur
    let (cur, clears) ← clearToEnd t cur
    some (cur, moves ++ clears)

/-- `do_multi_ins_del`, which is undefined when there is none of the two strings -/
def doMultiInsDel (multi single : Bool) (command : Nat → Command) (n : Nat) :
    Option (List Command) :=
  if multi then some [command n]
  else if single then some (List.replicate n (command 1)) else none

/-- The string with which `ins_del_lines` scrolls, which is undefined when there is none -/
def scrollCommand (n : Int) : Option Command :=
  if n < 0 then if t.scrollForward then some .scrollForward else none
  else if t.scrollReverse then some .scrollReverse else none

/-- The part of `ins_del_lines` for terminals with a scroll region -/
def scrollLines (vpos n : Int) (cur : Place) : Option (Place × List Command) := do
  let scroll ← scrollCommand t n
  let partly := t.specifiedWindow ≠ t.neLines
  let (cur, before) := if partly then
    (losecursor, [Command.scrollRegion vpos (t.specifiedWindow - 1)]) else (cur, [])
  let (cur, moves) ← moveCursor t (if n < 0 then t.specifiedWindow - 1 else vpos) 0 cur
  let scrolls := List.replicate n.natAbs scroll
  let (cur, behind) := if partly then
    (losecursor, [Command.scrollRegion 0 (t.neLines - 1)]) else (cur, [])
  some (cur, before ++ moves ++ scrolls ++ behind)

/-- The lines that `ins_del_lines` deletes, or inserts, from a row on -/
def deleteAt (row : Int) (n : Nat) (cur : Place) : Option (Place × List Command) := do
  let (cur, moves) ← moveCursor t row 0 cur
  let out ← doMultiInsDel t.parmDeleteLine t.deleteLine .deleteLines n
  some (cur, moves ++ out)

def insertAt (row : Int) (n : Nat) (cur : Place) : Option (Place × List Command) := do
  let (cur, moves) ← moveCursor t row 0 cur
  let out ← doMultiInsDel t.parmInsertLine t.insertLine .insertLines n
  some (cur, moves ++ out)

/-- The part of `ins_del_lines` for the other terminals -/
def replaceLines (vpos n : Int) (cur : Place) : Option (Place × List Command) := do
  if n > 0 then
    let (cur, deletes) ← if t.specifiedWindow ≠ t.neLines then
      deleteAt t (t.specifiedWindow - n.natAbs) n.natAbs cur else some (cur, [])
    let (cur, inserts) ← insertAt t vpos n.natAbs cur
    some (cur, deletes ++ inserts)
  else
    let (cur, deletes) ← deleteAt t vpos n.natAbs cur
    let (cur, inserts) ← if t.specifiedWindow ≠ t.neLines then
        insertAt t (t.specifiedWindow - n.natAbs) n.natAbs cur
      else if t.memoryBelow then do
        let (cur, moves) ← moveCursor t (t.neLines + n) 0 cur
        let (cur, clears) ← clearToEnd t cur
        some (cur, moves ++ clears)
      else some (cur, [])
    some (cur, deletes ++ inserts)

/-- `ins_del_lines`: it also says whether there has been an insertion or a deletion. -/
def insDelLines (vpos n : Int) (cur : Place) : Option (Bool × Place × List Command) :=
  if t.scrollRegionOk ∧ vpos + n.natAbs ≥ t.specifiedWindow then some (false, cur, [])
  else if ¬ t.memoryBelow ∧ vpos + n.natAbs ≥ t.neLines then some (false, cur, [])
  else if t.scrollRegionOk then (scrollLines t vpos n cur).map fun (cur, out) => (true, cur, out)
  else (replaceLines t vpos n cur).map fun (cur, out) => (true, cur, out)

end Driver

end NiceEditor.TerminalScreen
