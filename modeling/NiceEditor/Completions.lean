import NiceEditor.MaximalRuns
import NiceEditor.WordSearch

namespace NiceEditor.Completions

open NiceEditor.Pools
open NiceEditor.BufferData
open NiceEditor.Encoding
open NiceEditor.Navigation
open NiceEditor.Clips
open NiceEditor.InputLine
open NiceEditor.CharacterRows
open NiceEditor.InputRows
open NiceEditor.Characters
open NiceEditor.WordSearch
open NiceEditor.MaximalRuns

/-- `MAX_AUTOCOMPLETE_SCAN` -/
def maxAutocompleteScan : Nat := 1000000

/-- The strings passed to `req_list_add`, with `ext`; `count_scanned`; `buflen` of `strntmp`. -/
structure Scan where
  added : List (List Byte × Bool)
  countScanned : Nat
  buflen : Nat
deriving DecidableEq

/-- The arguments of `search_buff`, and whether its buffer is `cur_buffer`. -/
structure Query where
  p : List Byte
  encoding : EncodingType
  caseSearch : Bool
  ext : Bool
  current : Bool

/-- The classes of characters, `tolower`, and whether so many bytes are granted by `realloc`. -/
structure Setting where
  classes : Classes
  lower : Byte → Byte
  granted : Nat → Bool

/-- `strntmp`: the new size of its buffer, and the string; there is none if the terminator has
no place to go. -/
def strntmp (granted : Nat → Bool) (buflen : Nat) (s : List Byte) (len : Int) :
    Nat × Option (List Byte) :=
  let copied := fun n => (s.take n).takeWhile (· != 0)
  if len < 1 then (0, none)
  else if buflen ≤ len.toNat then
    if granted (len.toNat * 2 + 1) then (len.toNat * 2 + 1, some (copied len.toNat))
    else if buflen ≠ 0 then (buflen, some (copied (buflen - 1)))
    else (0, none)
  else (buflen, some (copied len.toNat))

/-- `add_string` -/
def addString (granted : Nat → Bool) (z : Scan) (s : List Byte) (len : Int) (ext : Bool) :
    Option Scan :=
  let (buflen, buf) := strntmp granted z.buflen s len
  if len < 1 then some { z with buflen := buflen }
  else buf.map fun word => { z with added := z.added ++ [(word, ext)], buflen := buflen }

/-- `strncmp` and `strncasecmp` find no difference; the latter compares what `lower` gives. -/
def sameBytes (fold : Byte → Byte) : List Byte → List Byte → Nat → Bool
  | _, _, 0 => true
  | p, s, n + 1 =>
      if fold (p.headD 0) ≠ fold (s.headD 0) then false
      else if p.headD 0 = 0 then true
      else sameBytes fold p.tail s.tail n

/-- `cmp` of `search_buff` -/
def Setting.fold (g : Setting) (caseSearch : Bool) : Byte → Byte :=
  if caseSearch then id else g.lower

/-- The loop for the left edge of a word -/
def leftEdge (k : Classes) (line : List Byte) (e : EncodingType) (limit : Int) :
    Nat → Int → Option Int
  | 0, _ => none
  | turns + 1, l =>
      if l < limit ∧ ¬ neIsword k (getChar (line.drop l.toNat) e) e then
        leftEdge k line e limit turns (nextPos line l e)
      else some l

/-- The loop for the right edge of a word -/
def rightEdge (k : Classes) (line : List Byte) (e : EncodingType) : Nat → Int → Option Int
  | 0, _ => none
  | turns + 1, r =>
      let ch := getChar (line.drop r.toNat) e
      if r < line.length ∧ (neIsword k ch e ∨ r + 1 < line.length ∧ ch = 39 ∧
          neIsword k (getChar (line.drop (r + 1).toNat) e) e) then
        rightEdge k line e turns (nextPos line r e)
      else some r

/-- The word from `l` to `r` on line `y` is added. -/
def isAdded (g : Setting) (b : Buffer) (q : Query) (y : Nat) (line : List Byte)
    (l r : Int) : Bool :=
  (!q.current || b.curLineDesc ≠ some y || b.curPos < l || r < b.curPos) &&
    q.p.length < r - l &&
    (b.encoding = q.encoding || ((line.drop l.toNat).take (r - l).toNat).all (· < 0x80)) &&
    sameBytes (g.fold q.caseSearch) q.p (line.drop l.toNat) q.p.length

/-- The call of `add_string` for the word from `l` to `r`, if there is one -/
def addWord (g : Setting) (b : Buffer) (q : Query) (y : Nat) (line : List Byte) (l r : Int)
    (z : Scan) : Option Scan :=
  if isAdded g b q y line l r then addString g.granted z (line.drop l.toNat) (r - l) q.ext
  else some z

/-- The first part of a turn of the loop over the words of a line: the new `l`. -/
def wordTurn (g : Setting) (b : Buffer) (q : Query) (y : Nat) (line : List Byte) (l : Int)
    (z : Scan) : Option (Int × Scan) := do
  let limit : Int := line.length - q.p.length
  let l ← leftEdge g.classes line b.encoding limit (line.length + 1) l
  if l < limit then
    let r ← rightEdge g.classes line b.encoding (line.length + 1) (nextPos line l b.encoding)
    let z ← addWord g b q y line l r z
    some (r, { z with countScanned := z.countScanned + 1 })
  else some (l, z)

/-- The loop over the words of a line, and whether `search_buff` returns there -/
def lineLoop (g : Setting) (b : Buffer) (q : Query) (y : Nat) (line : List Byte) :
    Nat → Int → Scan → Option (Bool × Scan)
  | 0, _, _ => none
  | turns + 1, l, z => do
      let (l, z) ← wordTurn g b q y line l z
      if maxAutocompleteScan ≤ z.countScanned then some (true, z)
      else if l < line.length - q.p.length then lineLoop g b q y line turns l z
      else some (false, z)

/-- The loop over the lines of `search_buff` -/
def linesLoop (g : Setting) (b : Buffer) (q : Query) :
    List (List Byte) → Nat → Scan → Option Scan
  | [], _, z => some z
  | line :: rest, y, z => do
      let (returns, z) ← lineLoop g b q y line (line.length + 1) 0 z
      if returns then some z else linesLoop g b q rest (y + 1) z

/-- `search_buff`, when it is not interrupted; there is no result when it does not end. -/
def searchBuff (g : Setting) (b : Buffer) (q : Query) (z : Scan) : Option Scan := do
  let z ← linesLoop g b q (lines b) 0 z
  addString g.granted z [] (-1) false

/-- What follows the first character of a word: word characters, and an apostrophe that is
followed by a word character. -/
def partOf (k : Classes) (e : EncodingType) (ch : List Byte) (c : List (List Byte)) : Bool :=
  isWordChar k e ch || (ch == [39] && headWord k e c)

/-- The place of a word: its line, and what is before it and behind it there. -/
abbrev Found := Nat × Occurrence (List Byte)

/-- A maximal word of a text. -/
def IsWord (k : Classes) (e : EncodingType) (rows : List (List (List Byte))) (o : Found) : Prop :=
  rows[o.1]? = some o.2.list ∧ Maximal (isWordChar k e) (partOf k e) o.2

/-- All the words of a text, in order. -/
structure Words (k : Classes) (e : EncodingType) (rows : List (List (List Byte)))
    (found : List Found) : Prop where
  mem : ∀ o, o ∈ found ↔ IsWord k e rows o
  ordered : found.Pairwise fun o o' =>
    o.1 < o'.1 ∨ o.1 = o'.1 ∧ o.2.before.length < o'.2.before.length

/-- More bytes than the prefix has are left where the word begins. -/
def hasRoom (q : Query) (o : Found) : Bool := q.p.length < bytes (o.2.word ++ o.2.behind)

/-- The words that are scanned.  The budget is looked at after each of them, and at the end of
each line. -/
def scanned (q : Query) (count : Nat) (found : List Found) : List Found :=
  ((found.filter fun o => hasRoom q o && (count < maxAutocompleteScan || o.1 = 0)).take
    (max (maxAutocompleteScan - count) 1))

/-- The word contains or touches the cursor. -/
def AtCursor (b : Buffer) (o : Found) : Prop :=
  b.curLineDesc = some o.1 ∧ bytes o.2.before ≤ b.curPos ∧
    b.curPos ≤ bytes (o.2.before ++ o.2.word)

/-- The word starts with the prefix and is longer, and it is one that the list may have. -/
def Completes (g : Setting) (b : Buffer) (q : Query) (o : Found) : Prop :=
  q.p.length < bytes o.2.word ∧
    q.p.map (g.fold q.caseSearch) <+: o.2.word.flatten.map (g.fold q.caseSearch) ∧
    ¬ (q.current = true ∧ AtCursor b o) ∧
    (b.encoding = q.encoding ∨ ∀ x ∈ o.2.word.flatten, x < 0x80)

instance (b : Buffer) (o : Found) : Decidable (AtCursor b o) :=
  inferInstanceAs (Decidable (_ ∧ _ ∧ _))

instance (g : Setting) (b : Buffer) (q : Query) (o : Found) : Decidable (Completes g b q o) :=
  inferInstanceAs (Decidable (_ ∧ _ ∧ _ ∧ _))

/-- No character is spelled in one of the redundant ways that `detect_encoding` refuses. -/
def Shortest (e : EncodingType) (rows : List (List (List Byte))) : Prop :=
  ∀ row ∈ rows, ∀ c tail, c :: tail ∈ row → e = .utf8 → tail ≠ [] →
    redundant (tail.length + 1) c (tail.headD 0) = false

variable {k : Classes} {e : EncodingType} {b : Buffer} {rows : List (List (List Byte))}
variable {a c w row : List (List Byte)} {ch : List Byte} {y turns : Nat} {limit : Int}
variable {g : Setting} {q : Query} {z : Scan}

theorem partOf_of_isWordChar (ch : List Byte) (c : List (List Byte))
    (h : isWordChar k e ch = true) : partOf k e ch c = true := by
  rw [partOf, h, Bool.true_or]

theorem getChar_at (h : IsCharacter e ch) :
    getChar ((a ++ ch :: c).flatten.drop (bytes a)) e = getChar ch e := by
  rw [drop_bytes, List.flatten_cons, getChar_character h]

theorem nextPos_at (h : IsCharacter e ch) :
    nextPos (a ++ ch :: c).flatten (bytes a) e = (bytes (a ++ [ch]) : Int) := by
  have hnext := nextPos_character h a.flatten c.flatten
  rw [List.flatten_append, List.flatten_cons, bytes, hnext, bytes_append, bytes_cons, bytes_nil,
    bytes, Nat.add_zero]

theorem append_cons_eq (a c : List (List Byte)) (ch : List Byte) :
    a ++ ch :: c = a ++ [ch] ++ c := by simp

/-- The loop passes the characters that are no word characters, up to the limit. -/
theorem leftEdge_spec (hchars : ∀ ch ∈ c, IsCharacter e ch) (hturns : bytes c < turns)
    (hlimit : limit ≤ bytes (a ++ c)) :
    ∃ n c', c = n ++ c' ∧
      leftEdge k (a ++ c).flatten e limit turns (bytes a) = some (bytes (a ++ n) : Int) ∧
      runsFrom (isWordChar k e) (partOf k e) a [] c =
        runsFrom (isWordChar k e) (partOf k e) (a ++ n) [] c' ∧
      (limit ≤ bytes (a ++ n) ∨ headWord k e c' = true) := by
  induction c generalizing a turns with
  | nil =>
      obtain ⟨turns, rfl⟩ : ∃ m, turns = m + 1 := ⟨turns - 1, by omega⟩
      rw [List.append_nil] at hlimit
      refine ⟨[], [], rfl, ?_, by simp, .inl (by simpa using hlimit)⟩
      rw [leftEdge, if_neg (by omega), List.append_nil]
  | cons ch c ih =>
      obtain ⟨turns, rfl⟩ : ∃ m, turns = m + 1 := ⟨turns - 1, by omega⟩
      obtain ⟨hch, hcs⟩ := List.forall_mem_cons.mp hchars
      have hpos := hch.length_pos
      by_cases hturn : (bytes a : Int) < limit ∧ isWordChar k e ch = false
      · obtain ⟨hlt, hword⟩ := hturn
        rw [bytes_cons] at hturns
        rw [append_cons_eq] at hlimit
        obtain ⟨n, c', rfl, hloop, hruns, hend⟩ := ih hcs (a := a ++ [ch])
          (show bytes c < turns by omega) hlimit
        refine ⟨ch :: n, c', rfl, ?_, ?_, ?_⟩
        · have hskip : ¬ neIsword k (getChar ((a ++ ch :: (n ++ c')).flatten.drop
              (bytes a : Int).toNat) e) e = true := by
            rw [Int.toNat_natCast, getChar_at hch, ← isWordChar, hword]
            exact Bool.false_ne_true
          rw [leftEdge, if_pos ⟨hlt, hskip⟩, nextPos_at hch, append_cons_eq a _ ch, hloop,
            append_cons_eq a n ch]
        · rw [runsFrom, if_neg (by rw [hword]; exact Bool.false_ne_true), hruns,
            append_cons_eq a n ch]
        · rw [append_cons_eq a n ch]
          exact hend
      · refine ⟨[], ch :: c, rfl, ?_, by simp, ?_⟩
        · rw [leftEdge, if_neg, List.append_nil]
          rw [Int.toNat_natCast, getChar_at hch]
          simpa [isWordChar] using hturn
        · rw [List.append_nil]
          by_cases hlt : (bytes a : Int) < limit
          · refine .inr (headWord_eq_true.mpr ⟨ch, rfl, ?_⟩)
            simpa [hlt] using hturn
          · exact .inl (by omega)

theorem right_test (hchars : ∀ x ∈ ch :: c, IsCharacter e x)
    (hapostrophe : getChar ch e = 39 → ch = [39]) :
    ((bytes a : Int) < (a ++ ch :: c).flatten.length ∧
      (neIsword k (getChar ((a ++ ch :: c).flatten.drop (bytes a : Int).toNat) e) e ∨
        (bytes a : Int) + 1 < (a ++ ch :: c).flatten.length ∧
        getChar ((a ++ ch :: c).flatten.drop (bytes a : Int).toNat) e = 39 ∧
        neIsword k (getChar ((a ++ ch :: c).flatten.drop ((bytes a : Int) + 1).toNat) e) e)) ↔
      partOf k e ch c = true := by
  obtain ⟨hch, hcs⟩ := List.forall_mem_cons.mp hchars
  have hpos := hch.length_pos
  have hlength : (a ++ ch :: c).flatten.length = bytes a + (ch.length + bytes c) := by
    rw [← bytes, bytes_append, bytes_cons]
  have hnat : ((bytes a : Int) + 1).toNat = bytes a + 1 := by omega
  rw [hlength, Int.toNat_natCast, getChar_at hch, hnat, partOf, Bool.or_eq_true, Bool.and_eq_true,
    beq_iff_eq, isWordChar, and_iff_right (by push_cast; omega)]
  refine or_congr_right ?_
  constructor
  · rintro ⟨hlt, h39, hword⟩
    obtain rfl := hapostrophe h39
    refine ⟨rfl, ?_⟩
    obtain _ | ⟨ch', c⟩ := c
    · simp at hlt
    · have hplace : bytes a + 1 = bytes (a ++ [[39]]) := by simp
      rw [append_cons_eq, hplace, getChar_at (hcs ch' List.mem_cons_self)] at hword
      exact headWord_eq_true.mpr ⟨ch', rfl, hword⟩
  · rintro ⟨rfl, hhead⟩
    obtain ⟨ch', hch', hword⟩ := headWord_eq_true.mp hhead
    obtain ⟨c, rfl⟩ := List.head?_eq_some_iff.mp hch'
    have hpos' := (hcs ch' List.mem_cons_self).length_pos
    have hplace : bytes a + 1 = bytes (a ++ [[39]]) := by simp
    refine ⟨?_, ?_, ?_⟩
    · rw [bytes_cons]
      push_cast
      simp only [List.length_singleton]
      omega
    · cases e <;> rfl
    · rw [append_cons_eq, hplace, getChar_at (hcs ch' List.mem_cons_self)]
      exact hword

theorem rightEdge_spec (hchars : ∀ ch ∈ c, IsCharacter e ch)
    (hapostrophe : ∀ ch ∈ c, getChar ch e = 39 → ch = [39]) (hw : w ≠ [])
    (hturns : bytes c < turns) :
    ∃ m c', c = m ++ c' ∧
      rightEdge k (a ++ w ++ c).flatten e turns (bytes (a ++ w)) =
        some (bytes (a ++ (w ++ m)) : Int) ∧
      runsFrom (isWordChar k e) (partOf k e) a w c =
        ⟨a, w ++ m, c'⟩ :: runsFrom (isWordChar k e) (partOf k e) (a ++ (w ++ m)) [] c' := by
  induction c generalizing w turns with
  | nil =>
      obtain ⟨turns, rfl⟩ : ∃ m, turns = m + 1 := ⟨turns - 1, by omega⟩
      obtain ⟨y, w, rfl⟩ := List.exists_cons_of_ne_nil hw
      refine ⟨[], [], rfl, ?_, by rw [List.append_nil, runsFrom, runsFrom]⟩
      rw [rightEdge, List.append_nil, List.append_nil, ← bytes, if_neg (by omega)]
  | cons ch c ih =>
      obtain ⟨turns, rfl⟩ : ∃ m, turns = m + 1 := ⟨turns - 1, by omega⟩
      obtain ⟨hch, hcs⟩ := List.forall_mem_cons.mp hchars
      obtain ⟨hone, hrest⟩ := List.forall_mem_cons.mp hapostrophe
      have htest := right_test (k := k) (a := a ++ w) hchars hone
      have hpos := hch.length_pos
      obtain ⟨x, w, rfl⟩ := List.exists_cons_of_ne_nil hw
      rw [rightEdge]
      by_cases hpart : partOf k e ch c = true
      · rw [bytes_cons] at hturns
        obtain ⟨m, c', rfl, hloop, hruns⟩ := ih hcs hrest (w := x :: w ++ [ch])
          (by simp) (show bytes c < turns by omega)
        refine ⟨ch :: m, c', rfl, ?_, ?_⟩
        · rw [if_pos (htest.mpr hpart), nextPos_at hch]
          simpa using hloop
        · rw [runsFrom, if_pos hpart, hruns]
          simp
      · refine ⟨[], ch :: c, rfl, ?_, ?_⟩
        · rw [if_neg (mt htest.mp hpart), List.append_nil]
        · have hnot : ¬ isWordChar k e ch = true := mt (partOf_of_isWordChar ch c) hpart
          have hrest : runsFrom (isWordChar k e) (partOf k e) (a ++ x :: w) [] (ch :: c) =
              runsFrom (isWordChar k e) (partOf k e) (a ++ (x :: w ++ [ch])) [] c := by
            rw [runsFrom, if_neg hnot, List.append_assoc]
          rw [List.append_nil, hrest, runsFrom, if_neg hpart]

theorem parts_zero_not_mem (hparts : Parts (partOf k e) w c)
    (hchars : ∀ ch ∈ w, IsCharacter e ch) : 0 ∉ w.flatten := by
  induction w with
  | nil => exact List.not_mem_nil
  | cons ch w ih =>
      obtain ⟨hch, hcs⟩ := List.forall_mem_cons.mp hchars
      obtain ⟨hpart, hrest⟩ := hparts
      rw [List.flatten_cons, List.mem_append, not_or]
      refine ⟨fun hzero => ?_, ih hrest hcs⟩
      obtain rfl := hch.eq_singleton hzero (by decide)
      have hcode : getChar [0] e = 0 := by
        cases e <;> rfl
      rw [partOf, isWordChar, hcode, neIsword_zero] at hpart
      exact absurd hpart Bool.false_ne_true

theorem takeWhile_ne_zero {s : List Byte} (h : 0 ∉ s) : s.takeWhile (· != 0) = s :=
  List.takeWhile_eq_self_iff.mpr fun x hx => by
    rw [bne_iff_ne]
    exact fun heq => h (heq ▸ hx)

theorem strntmp_whole {granted : Nat → Bool} (hgranted : ∀ n, granted n = true) {s : List Byte}
    (hzero : 0 ∉ s) (hpos : 0 < s.length) (buflen : Nat) (rest : List Byte) :
    (strntmp granted buflen (s ++ rest) s.length).2 = some s := by
  rw [strntmp, if_neg (by omega)]
  simp only [Int.toNat_natCast, List.take_left, takeWhile_ne_zero hzero]
  split
  · rw [if_pos (hgranted _)]
  · rfl

theorem addString_whole {granted : Nat → Bool} (hgranted : ∀ n, granted n = true)
    {s : List Byte} (hzero : 0 ∉ s) (hpos : 0 < s.length) (z : Scan) (rest : List Byte)
    (ext : Bool) :
    ∃ buflen, addString granted z (s ++ rest) s.length ext =
      some { z with added := z.added ++ [(s, ext)], buflen := buflen } := by
  have hwhole := strntmp_whole hgranted hzero hpos z.buflen rest
  rw [addString]
  rcases hresult : strntmp granted z.buflen (s ++ rest) s.length with ⟨buflen, buf⟩
  rw [hresult] at hwhole
  obtain rfl : buf = some s := hwhole
  refine ⟨buflen, ?_⟩
  dsimp only
  rw [if_neg (by omega)]
  rfl

theorem sameBytes_iff {fold : Byte → Byte} {p s : List Byte} (hzero : 0 ∉ p)
    (hle : p.length ≤ s.length) :
    sameBytes fold p s p.length = true ↔ p.map fold <+: s.map fold := by
  induction p generalizing s with
  | nil => simp [sameBytes]
  | cons x p ih =>
      obtain _ | ⟨y, s⟩ := s
      · simp at hle
      obtain ⟨hx, hp⟩ := List.ne_and_not_mem_of_not_mem_cons hzero
      rw [List.length_cons, List.length_cons] at hle
      rw [List.length_cons, sameBytes, List.headD_cons, List.headD_cons, List.map_cons,
        List.map_cons, List.cons_prefix_cons, List.tail_cons, List.tail_cons]
      by_cases hsame : fold x = fold y
      · rw [if_neg (not_not.mpr hsame), if_neg hx.symm, ih hp (by omega)]
        exact (and_iff_right hsame).symm
      · rw [if_pos hsame]
        exact iff_of_false Bool.false_ne_true fun h => hsame h.1

/-- The test of `search_buff` for a word -/
theorem isAdded_iff (hp : 0 ∉ q.p) :
    isAdded g b q y (a ++ (w ++ c)).flatten (bytes a) (bytes (a ++ w)) = true ↔
      Completes g b q (y, ⟨a, w, c⟩) := by
  have hdiff : ((bytes (a ++ w) : Int) - bytes a).toNat = w.flatten.length := by
    rw [bytes_append, bytes, bytes]
    omega
  have hword : ((w ++ c).flatten).take w.flatten.length = w.flatten := by
    rw [List.flatten_append, List.take_left]
  rw [isAdded, hdiff, Int.toNat_natCast, drop_bytes, hword, Completes, AtCursor]
  simp only [Bool.and_eq_true, Bool.or_eq_true, Bool.not_eq_true', decide_eq_true_eq,
    List.all_eq_true]
  have hlen : (q.p.length : Int) < bytes (a ++ w) - bytes a ↔ q.p.length < bytes w := by
    rw [bytes_append]
    omega
  rw [hlen]
  constructor
  · rintro ⟨⟨⟨hcursor, hlt⟩, henc⟩, hsame⟩
    refine ⟨hlt, ?_, ?_, henc⟩
    · rw [sameBytes_iff hp, List.flatten_append, List.map_append,
        List.isPrefix_append_of_length (by rw [List.length_map, List.length_map]; exact hlt.le)]
        at hsame
      · exact hsame
      · rw [List.flatten_append, List.length_append]
        exact hlt.le.trans (Nat.le_add_right _ _)
    · rintro ⟨hcurrent, hline, hleft, hright⟩
      rw [hcurrent, hline] at hcursor
      rcases hcursor with ((hcursor | hcursor) | hcursor) | hcursor
      · exact Bool.false_ne_true hcursor.symm
      · exact hcursor rfl
      · omega
      · omega
  · rintro ⟨hlt, hprefix, hcursor, henc⟩
    refine ⟨⟨⟨?_, hlt⟩, henc⟩, ?_⟩
    · by_contra hnot
      simp only [not_or, Bool.not_eq_false, not_not, not_lt] at hnot
      obtain ⟨⟨⟨hcurrent, hline⟩, hleft⟩, hright⟩ := hnot
      exact hcursor ⟨hcurrent, hline, hleft, hright⟩
    · rw [sameBytes_iff hp, List.flatten_append, List.map_append]
      · exact hprefix.trans (List.prefix_append _ _)
      · rw [List.flatten_append, List.length_append]
        exact hlt.le.trans (Nat.le_add_right _ _)

/-- What a stretch of `search_buff` leaves when the words `taken` are scanned in it. -/
structure Took (g : Setting) (b : Buffer) (q : Query) (z : Scan) (taken : List Found) (z' : Scan) :
    Prop where
  added : z'.added = z.added ++
    ((taken.filter fun o => Completes g b q o).map fun o => (o.2.word.flatten, q.ext))
  countScanned : z'.countScanned = z.countScanned + taken.length

theorem Took.nil (g : Setting) (b : Buffer) (q : Query) (z : Scan) : Took g b q z [] z :=
  ⟨by simp, rfl⟩

theorem Took.append {z₁ z₂ : Scan} {taken taken' : List Found} (h : Took g b q z taken z₁)
    (h' : Took g b q z₁ taken' z₂) : Took g b q z (taken ++ taken') z₂ := by
  constructor
  · rw [h'.added, h.added, List.filter_append, List.map_append, List.append_assoc]
  · rw [h'.countScanned, h.countScanned, List.length_append, Nat.add_assoc]

/-- The words of the rest of a line. -/
def wordsAt (k : Classes) (e : EncodingType) (y : Nat) (a c : List (List Byte)) : List Found :=
  (runsFrom (isWordChar k e) (partOf k e) a [] c).map fun o => (y, o)

/-- A row of characters in which an apostrophe is one byte. -/
structure Plain (e : EncodingType) (row : List (List Byte)) : Prop where
  chars : ∀ ch ∈ row, IsCharacter e ch
  apostrophe : ∀ ch ∈ row, getChar ch e = 39 → ch = [39]

theorem Plain.right (h : Plain e (a ++ c)) : Plain e c :=
  ⟨fun ch hch => h.chars ch (List.mem_append_right a hch),
    fun ch hch => h.apostrophe ch (List.mem_append_right a hch)⟩

theorem hasRoom_iff (o : Found) :
    hasRoom q o = true ↔ (bytes o.2.before : Int) < o.2.list.flatten.length - q.p.length := by
  have hlength : o.2.list.flatten.length = bytes o.2.before + bytes (o.2.word ++ o.2.behind) := by
    rw [Occurrence.list, ← bytes, bytes_append]
  rw [hasRoom, decide_eq_true_eq, hlength]
  push_cast
  omega

theorem wordsAt_filter_eq_nil
    (h : ((a ++ c).flatten.length : Int) - q.p.length ≤ bytes a) :
    (wordsAt k e y a c).filter (hasRoom q) = [] := by
  refine List.filter_eq_nil_iff.mpr fun o ho hroom => ?_
  obtain ⟨o, hmem, rfl⟩ := List.mem_map.mp ho
  obtain ⟨hlist, u, hu⟩ := runsFrom_place hmem
  rw [hasRoom_iff, hlist, ← hu, bytes_append] at hroom
  push_cast at hroom
  rw [List.nil_append] at hroom
  omega

theorem addWord_spec (hgranted : ∀ n, g.granted n = true) (hp : 0 ∉ q.p)
    (hchars : ∀ ch ∈ w, IsCharacter b.encoding ch)
    (hparts : Parts (partOf g.classes b.encoding) w c) :
    ∃ z', addWord g b q y (a ++ (w ++ c)).flatten (bytes a) (bytes (a ++ w)) z = some z' ∧
      Took g b q z [(y, ⟨a, w, c⟩)] { z' with countScanned := z'.countScanned + 1 } := by
  by_cases hadded : Completes g b q (y, ⟨a, w, c⟩)
  · have hlen : (bytes (a ++ w) : Int) - bytes a = w.flatten.length := by
      rw [bytes_append, bytes, bytes]
      omega
    have hpos : 0 < w.flatten.length := Nat.zero_lt_of_lt hadded.1
    obtain ⟨buflen, hadd⟩ :=
      addString_whole hgranted (parts_zero_not_mem hparts hchars) hpos z c.flatten q.ext
    rw [addWord, if_pos ((isAdded_iff hp).mpr hadded), Int.toNat_natCast, drop_bytes,
      List.flatten_append, hlen, hadd]
    refine ⟨_, rfl, ⟨?_, rfl⟩⟩
    rw [List.filter_cons_of_pos (by simpa using hadded)]
    rfl
  · rw [addWord, if_neg (mt (isAdded_iff hp).mp hadded)]
    refine ⟨z, rfl, ⟨?_, rfl⟩⟩
    rw [List.filter_cons_of_neg (by simpa using hadded)]
    simp

/-- One turn of the loop over the words of a line -/
theorem wordTurn_spec (hgranted : ∀ n, g.granted n = true) (hp : 0 ∉ q.p)
    (hplain : Plain b.encoding (a ++ c)) :
    (∃ l : Int, wordTurn g b q y (a ++ c).flatten (bytes a) z = some (l, z) ∧
        ((a ++ c).flatten.length : Int) - q.p.length ≤ l ∧
        (wordsAt g.classes b.encoding y a c).filter (hasRoom q) = []) ∨
      ∃ a' w c' z', a ++ c = a' ++ w ++ c' ∧ bytes a < bytes (a' ++ w) ∧
        wordTurn g b q y (a ++ c).flatten (bytes a) z = some ((bytes (a' ++ w) : Int), z') ∧
        Took g b q z [(y, ⟨a', w, c'⟩)] z' ∧
        (wordsAt g.classes b.encoding y a c).filter (hasRoom q) =
          (y, ⟨a', w, c'⟩) ::
            (wordsAt g.classes b.encoding y (a' ++ w) c').filter (hasRoom q) := by
  have hturns : bytes c < (a ++ c).flatten.length + 1 := by
    rw [← bytes, bytes_append]
    omega
  have hlimit : ((a ++ c).flatten.length : Int) - q.p.length ≤ bytes (a ++ c) := by
    rw [← bytes]
    omega
  obtain ⟨n, c', rfl, hleft, hruns, hend⟩ :=
    leftEdge_spec (k := g.classes) hplain.right.chars hturns hlimit
  rw [← List.append_assoc] at hplain hleft hlimit hend ⊢
  rw [wordTurn, hleft, wordsAt, hruns, ← wordsAt]
  by_cases hlt : (bytes (a ++ n) : Int) < ((a ++ n ++ c').flatten.length : Int) - q.p.length
  · obtain ⟨ch, hch, hword⟩ := headWord_eq_true.mp (hend.resolve_left (by omega))
    obtain ⟨c, rfl⟩ := List.head?_eq_some_iff.mp hch
    have hright := hplain.right
    obtain ⟨hone, hrest⟩ := List.forall_mem_cons.mp hright.chars
    have hfuel : bytes c < (a ++ n ++ ch :: c).flatten.length + 1 := by
      rw [← bytes, bytes_append, bytes_cons]
      omega
    obtain ⟨m, c', rfl, hloop, hword'⟩ :=
      rightEdge_spec (k := g.classes) (a := a ++ n) (w := [ch]) hrest
        (fun x hx => hright.apostrophe x (List.mem_cons_of_mem ch hx)) (List.cons_ne_nil ch [])
          hfuel
    rw [← append_cons_eq] at hloop
    have hruns' : runsFrom (isWordChar g.classes b.encoding) (partOf g.classes b.encoding) (a ++ n)
        [] (ch :: (m ++ c')) = ⟨a ++ n, [ch] ++ m, c'⟩ ::
          runsFrom (isWordChar g.classes b.encoding) (partOf g.classes b.encoding)
            (a ++ n ++ ([ch] ++ m)) [] c' := by
      rw [runsFrom, if_pos hword, hword']
    have hmem : (⟨a ++ n, [ch] ++ m, c'⟩ : Occurrence (List Byte)) ∈
        runsFrom (isWordChar g.classes b.encoding) (partOf g.classes b.encoding) (a ++ n) []
          (ch :: (m ++ c')) := by
      rw [hruns']
      exact List.mem_cons_self
    have hparts : Parts (partOf g.classes b.encoding) ([ch] ++ m) c' :=
      runsFrom_parts partOf_of_isWordChar (w := []) trivial hmem
    have hsplit : a ++ n ++ ch :: (m ++ c') = a ++ n ++ (([ch] ++ m) ++ c') := by simp
    obtain ⟨z', hadd, htook⟩ := addWord_spec (g := g) (b := b) (q := q) (z := z) (y := y)
      (a := a ++ n) (w := [ch] ++ m) (c := c') hgranted hp
      (fun x hx => hright.chars x (by simp at hx ⊢; tauto)) hparts
    refine .inr ⟨a ++ n, [ch] ++ m, c', _, ?_, ?_, ?_, htook, ?_⟩
    · simp
    · simp only [bytes_append, bytes_cons]
      have := hone.length_pos
      omega
    · dsimp only [Option.bind_eq_bind, Option.bind_some]
      rw [if_pos hlt, nextPos_at hone, hloop, Option.bind_some, hsplit, hadd]
      rfl
    · rw [wordsAt, hruns', List.map_cons, List.filter_cons_of_pos]
      · rfl
      · rw [hasRoom_iff, Occurrence.list, ← hsplit]
        exact hlt
  · refine .inl ⟨_, ?_, not_lt.mp hlt, wordsAt_filter_eq_nil (not_lt.mp hlt)⟩
    dsimp only [Option.bind_eq_bind, Option.bind_some]
    rw [if_neg hlt]

theorem lineLoop_spec (hgranted : ∀ n, g.granted n = true) (hp : 0 ∉ q.p)
    (hplain : Plain b.encoding (a ++ c)) (hturns : bytes c < turns) :
    ∃ z', lineLoop g b q y (a ++ c).flatten turns (bytes a) z =
        some (decide (maxAutocompleteScan ≤ z'.countScanned), z') ∧
      Took g b q z (((wordsAt g.classes b.encoding y a c).filter (hasRoom q)).take
        (max (maxAutocompleteScan - z.countScanned) 1)) z' := by
  induction turns generalizing a c z with
  | zero => omega
  | succ turns ih =>
      rw [lineLoop]
      rcases wordTurn_spec (y := y) (z := z) hgranted hp hplain with
        ⟨l, hturn, hbehind, hnone⟩ | ⟨a', w, c', z₁, hsplit, hprogress, hturn, htook, hwords⟩
      · rw [hturn, hnone, List.take_nil]
        refine ⟨z, ?_, .nil g b q z⟩
        dsimp only [Option.bind_eq_bind, Option.bind_some]
        by_cases hspent : maxAutocompleteScan ≤ z.countScanned
        · rw [if_pos hspent, decide_eq_true hspent]
        · rw [if_neg hspent, if_neg (by omega), decide_eq_false hspent]
      · have hcount := htook.countScanned
        rw [List.length_singleton] at hcount
        rw [hturn, hwords]
        dsimp only [Option.bind_eq_bind, Option.bind_some]
        by_cases hspent : maxAutocompleteScan ≤ z₁.countScanned
        · have hone : max (maxAutocompleteScan - z.countScanned) 1 = 1 := by omega
          rw [if_pos hspent, hone, List.take_succ_cons, List.take_zero]
          exact ⟨z₁, by rw [decide_eq_true hspent], htook⟩
        · have hmore : max (maxAutocompleteScan - z.countScanned) 1 =
              max (maxAutocompleteScan - z₁.countScanned) 1 + 1 := by omega
          rw [if_neg hspent, hmore, List.take_succ_cons, ← List.singleton_append]
          rw [hsplit] at hplain ⊢
          by_cases hlimit : (bytes (a' ++ w) : Int) <
              ((a' ++ w ++ c').flatten.length : Int) - q.p.length
          · have hbytes := congrArg bytes hsplit
            rw [bytes_append, bytes_append] at hbytes
            obtain ⟨z', hloop, htook'⟩ := ih (z := z₁) hplain (by omega)
            exact ⟨z', by rw [if_pos hlimit, hloop], htook.append htook'⟩
          · rw [if_neg hlimit, wordsAt_filter_eq_nil (not_lt.mp hlimit), List.take_nil]
            exact ⟨z₁, by rw [decide_eq_false hspent], htook.append (.nil g b q z₁)⟩

/-- The words of the lines from line `y` on. -/
def wordsFrom (k : Classes) (e : EncodingType) : Nat → List (List (List Byte)) → List Found
  | _, [] => []
  | y, row :: rows => wordsAt k e y [] row ++ wordsFrom k e (y + 1) rows

attribute [grind =] wordsFrom

theorem lineLoop_row (hgranted : ∀ n, g.granted n = true) (hp : 0 ∉ q.p)
    (hplain : Plain b.encoding row) (y : Nat) (z : Scan) :
    ∃ z', lineLoop g b q y row.flatten (row.flatten.length + 1) 0 z =
        some (decide (maxAutocompleteScan ≤ z'.countScanned), z') ∧
      Took g b q z (((wordsAt g.classes b.encoding y [] row).filter (hasRoom q)).take
        (max (maxAutocompleteScan - z.countScanned) 1)) z' :=
  lineLoop_spec (a := []) hgranted hp hplain (Nat.lt_succ_self _)

theorem linesLoop_spec (hgranted : ∀ n, g.granted n = true) (hp : 0 ∉ q.p)
    (hplain : ∀ row ∈ rows, Plain b.encoding row) (hbudget : z.countScanned < maxAutocompleteScan) :
    ∃ z', linesLoop g b q (rows.map List.flatten) y z = some z' ∧
      Took g b q z (((wordsFrom g.classes b.encoding y rows).filter (hasRoom q)).take
        (maxAutocompleteScan - z.countScanned)) z' := by
  induction rows generalizing y z with
  | nil => exact ⟨z, rfl, by rw [wordsFrom, List.filter_nil, List.take_nil]; exact .nil g b q z⟩
  | cons row rows ih =>
      obtain ⟨hrow, hrest⟩ := List.forall_mem_cons.mp hplain
      obtain ⟨z₁, hline, htook⟩ := lineLoop_row hgranted hp hrow y z
      have hleft : max (maxAutocompleteScan - z.countScanned) 1 =
          maxAutocompleteScan - z.countScanned := by omega
      have hcount := htook.countScanned
      rw [hleft] at htook hcount
      rw [List.map_cons, linesLoop, hline, wordsFrom, List.filter_append, List.take_append]
      dsimp only [Option.bind_eq_bind, Option.bind_some]
      rw [List.length_take] at hcount
      by_cases hspent : maxAutocompleteScan ≤ z₁.countScanned
      · rw [if_pos (decide_eq_true hspent)]
        refine ⟨z₁, rfl, ?_⟩
        have hnone : maxAutocompleteScan - z.countScanned -
            ((wordsAt g.classes b.encoding y [] row).filter (hasRoom q)).length = 0 := by omega
        rw [hnone, List.take_zero, List.append_nil]
        exact htook
      · rw [if_neg (by rw [decide_eq_true_eq]; exact hspent)]
        obtain ⟨z', hloop, htook'⟩ := ih hrest (y := y + 1) (z := z₁) (by omega)
        refine ⟨z', hloop, ?_⟩
        have hsame : maxAutocompleteScan - z.countScanned -
            ((wordsAt g.classes b.encoding y [] row).filter (hasRoom q)).length =
              maxAutocompleteScan - z₁.countScanned := by omega
        rw [hsame]
        exact htook.append htook'

theorem linesLoop_spent (hgranted : ∀ n, g.granted n = true) (hp : 0 ∉ q.p)
    (hplain : Plain b.encoding row) (hspent : maxAutocompleteScan ≤ z.countScanned) :
    ∃ z', linesLoop g b q ((row :: rows).map List.flatten) y z = some z' ∧
      Took g b q z (((wordsAt g.classes b.encoding y [] row).filter (hasRoom q)).take
        (max (maxAutocompleteScan - z.countScanned) 1)) z' := by
  obtain ⟨z', hline, htook⟩ := lineLoop_row hgranted hp hplain y z
  have hcount := htook.countScanned
  rw [List.map_cons, linesLoop, hline]
  dsimp only [Option.bind_eq_bind, Option.bind_some]
  exact ⟨z', by rw [if_pos (decide_eq_true (by omega))], htook⟩

theorem mem_wordsFrom {o : Found} :
    o ∈ wordsFrom k e y rows ↔
      y ≤ o.1 ∧ rows[o.1 - y]? = some o.2.list ∧ Maximal (isWordChar k e) (partOf k e) o.2 := by
  induction rows generalizing y with
  | nil => simp [wordsFrom]
  | cons row rows ih =>
      have hrow : o ∈ wordsAt k e y [] row ↔
          o.1 = y ∧ Maximal (isWordChar k e) (partOf k e) o.2 ∧ o.2.list = row := by
        rw [wordsAt, List.mem_map, ← runs]
        constructor
        · rintro ⟨o, hmem, rfl⟩
          exact ⟨rfl, (mem_runs partOf_of_isWordChar).mp hmem⟩
        · rintro ⟨rfl, hruns⟩
          exact ⟨o.2, (mem_runs partOf_of_isWordChar).mpr hruns, rfl⟩
      rw [wordsFrom, List.mem_append, hrow, ih]
      rcases Nat.lt_trichotomy o.1 y with hlt | heq | hlt
      · exact iff_of_false (by omega) (by omega)
      · rw [heq, Nat.sub_self, List.getElem?_cons_zero, Option.some_inj]
        refine ⟨?_, ?_⟩
        · rintro (⟨-, hmaximal, hlist⟩ | ⟨hle, -⟩)
          · exact ⟨le_rfl, hlist.symm, hmaximal⟩
          · omega
        · rintro ⟨-, hlist, hmaximal⟩
          exact .inl ⟨rfl, hmaximal, hlist.symm⟩
      · have hsub : o.1 - y = o.1 - (y + 1) + 1 := by omega
        rw [hsub, List.getElem?_cons_succ]
        refine ⟨?_, ?_⟩
        · rintro (⟨heq, -⟩ | ⟨-, hrest⟩)
          · omega
          · exact ⟨hlt.le, hrest⟩
        · rintro ⟨-, hrest⟩
          exact .inr ⟨hlt, hrest⟩

theorem wordsFrom_ordered (k : Classes) (e : EncodingType) (y : Nat)
    (rows : List (List (List Byte))) :
    (wordsFrom k e y rows).Pairwise fun o o' =>
      o.1 < o'.1 ∨ o.1 = o'.1 ∧ o.2.before.length < o'.2.before.length := by
  induction rows generalizing y with
  | nil => exact .nil
  | cons row rows ih =>
      rw [wordsFrom, List.pairwise_append]
      refine ⟨?_, ih (y + 1), fun o ho o' ho' => ?_⟩
      · rw [wordsAt, List.pairwise_map]
        exact (runsFrom_ordered _ _ [] [] row).imp fun hlt => .inr ⟨rfl, hlt⟩
      · obtain ⟨o, -, rfl⟩ := List.mem_map.mp ho
        exact .inl (mem_wordsFrom.mp ho').1

theorem words_wordsFrom (k : Classes) (e : EncodingType) (rows : List (List (List Byte))) :
    Words k e rows (wordsFrom k e 0 rows) := by
  refine ⟨fun o => ?_, wordsFrom_ordered k e 0 rows⟩
  rw [mem_wordsFrom, IsWord, Nat.sub_zero, and_iff_right (Nat.zero_le _)]

theorem scanned_open {count : Nat} (h : count < maxAutocompleteScan) (found : List Found) :
    scanned q count found =
      (found.filter (hasRoom q)).take (maxAutocompleteScan - count) := by
  have hmax : max (maxAutocompleteScan - count) 1 = maxAutocompleteScan - count := by omega
  have hfilter : (fun o : Found => hasRoom q o && (count < maxAutocompleteScan || o.1 = 0)) =
      hasRoom q := by
    funext o
    rw [decide_eq_true h, Bool.true_or, Bool.and_true]
  rw [scanned, hmax, hfilter]

theorem scanned_spent {count : Nat} (h : maxAutocompleteScan ≤ count) (k : Classes)
    (e : EncodingType) (row : List (List Byte)) (rows : List (List (List Byte))) :
    scanned q count (wordsFrom k e 0 (row :: rows)) =
      ((wordsAt k e 0 [] row).filter (hasRoom q)).take (max (maxAutocompleteScan - count) 1) := by
  have hfirst : ∀ o ∈ wordsAt k e 0 [] row,
      (hasRoom q o && (count < maxAutocompleteScan || o.1 = 0)) = hasRoom q o := by
    intro o ho
    obtain ⟨o, -, rfl⟩ := List.mem_map.mp ho
    simp
  have hrest : ∀ o ∈ wordsFrom k e 1 rows,
      ¬ (hasRoom q o && (count < maxAutocompleteScan || o.1 = 0)) = true := by
    intro o ho
    have hle := (mem_wordsFrom.mp ho).1
    simp only [Bool.and_eq_true, Bool.or_eq_true, decide_eq_true_eq]
    omega
  rw [scanned, wordsFrom, List.filter_append, List.filter_congr hfirst,
    List.filter_eq_nil_iff.mpr hrest, List.append_nil]

theorem foldl_continuation_ge {s : List Byte} {n x : Nat} (hn : 2 ≤ n)
    (h : 1 ≤ x ∨ 4 ≤ continuation s 1) :
    0x80 ≤ (List.range n).foldl (fun x i => x * 64 + continuation s (i + 1)) x := by
  induction n, hn using Nat.le_induction with
  | base =>
      simp only [List.range_succ, List.range_zero, List.nil_append, List.foldl_append,
        List.foldl_cons, List.foldl_nil, Nat.zero_add]
      omega
  | succ n hn ih =>
      rw [List.range_succ, List.foldl_append, List.foldl_cons, List.foldl_nil]
      omega

theorem lead_bits : ∀ c : Byte,
    (c &&& 0x1E ≠ 0 → 2 ≤ (c &&& 0x1F).toNat) ∧
    (c.toNat &&& 15 ≠ 0 → 1 ≤ (c &&& 0xF).toNat) ∧ (c.toNat &&& 7 ≠ 0 → 1 ≤ (c &&& 0x7).toNat) ∧
    (c.toNat &&& 3 ≠ 0 → 1 ≤ (c &&& 0x3).toNat) ∧ (c.toNat &&& 1 ≠ 0 → 1 ≤ (c &&& 0x1).toNat) :=
  Commands.forall_byte (by decide +kernel)

theorem next_bits : ∀ x : Byte,
    (x.toNat &&& 32 ≠ 0 ∨ x.toNat &&& 48 ≠ 0 ∨ x.toNat &&& 56 ≠ 0 ∨ x.toNat &&& 60 ≠ 0) →
      4 ≤ (x &&& 0x3F).toNat :=
  Commands.forall_byte (by decide +kernel)

/-- A character that is spelled in the shortest way in several bytes is not in ASCII. -/
theorem utf8char_ge {c : Byte} {tail : List Byte} (hlen : utf8len c = tail.length + 1)
    (hne : tail ≠ []) (hshort : redundant (tail.length + 1) c (tail.headD 0) = false) :
    0x80 ≤ utf8char (c :: tail) := by
  obtain ⟨h2, h3, h4, h5, h6⟩ := lead_bits c
  have hpos := List.length_pos_of_ne_nil hne
  have hnext : continuation (c :: tail) 1 = (tail.headD 0 &&& 0x3F).toNat := by
    obtain ⟨x, tail, rfl⟩ := List.exists_cons_of_ne_nil hne
    rfl
  unfold utf8len at hlen
  unfold redundant at hshort
  unfold utf8char
  simp only [List.getD_cons_zero]
  by_cases hc1 : c < 0x80
  · rw [if_pos hc1] at hlen
    omega
  by_cases hc2 : c < 0xC0
  · rw [if_neg hc1, if_pos hc2] at hlen
    omega
  rw [if_neg hc1, if_neg hc2] at hlen ⊢
  by_cases hc3 : c < 0xE0
  · rw [if_pos hc3] at hlen ⊢
    rw [if_pos (by omega)] at hshort
    have hbits := h2 (by simpa using hshort)
    simp only [List.range_succ, List.range_zero, List.nil_append, List.foldl_cons, List.foldl_nil]
    omega
  rw [if_neg hc3] at hlen ⊢
  have hthree : 3 ≤ tail.length + 1 := by
    split at hlen <;> omega
  rw [if_neg (by omega), Bool.and_eq_false_iff, beq_eq_false_iff_ne, beq_eq_false_iff_ne]
    at hshort
  -- the bits that may not all be 0 are of the first byte, or the high ones of the next
  by_cases hc4 : c < 0xF0
  · rw [if_pos hc4] at hlen ⊢
    rw [show tail.length = 2 by omega] at hshort
    have hbits := hshort.imp h3 fun h => next_bits _ (.inl h)
    exact mod_cast foldl_continuation_ge (by decide) (hnext ▸ hbits)
  rw [if_neg hc4] at hlen ⊢
  by_cases hc5 : c < 0xF8
  · rw [if_pos hc5] at hlen ⊢
    rw [show tail.length = 3 by omega] at hshort
    have hbits := hshort.imp h4 fun h => next_bits _ (.inr (.inl h))
    exact mod_cast foldl_continuation_ge (by decide) (hnext ▸ hbits)
  rw [if_neg hc5] at hlen ⊢
  by_cases hc6 : c < 0xFC
  · rw [if_pos hc6] at hlen ⊢
    rw [show tail.length = 4 by omega] at hshort
    have hbits := hshort.imp h5 fun h => next_bits _ (.inr (.inr (.inl h)))
    exact mod_cast foldl_continuation_ge (by decide) (hnext ▸ hbits)
  · rw [if_neg hc6] at hlen ⊢
    rw [show tail.length = 5 by omega] at hshort
    have hbits := hshort.imp h6 fun h => next_bits _ (.inr (.inr (.inr h)))
    exact mod_cast foldl_continuation_ge (by decide) (hnext ▸ hbits)

theorem plain_row (hchars : ∀ row ∈ rows, ∀ ch ∈ row, IsCharacter e ch) (hshort : Shortest e rows)
    (hrow : row ∈ rows) : Plain e row := by
  refine ⟨hchars row hrow, fun ch hch hcode => ?_⟩
  cases hchars row hrow ch hch with
  | @mk c tail hlen htail =>
      by_cases hnil : tail = []
      · subst hnil
        have hbyte : ∀ c : Byte, ((c.toNat : Int) = 39 → c = 39) ∧ (utf8char [c] = 39 → c = 39) :=
          Commands.forall_byte (by decide +kernel)
        rw [getChar] at hcode
        split at hcode
        · rw [(hbyte c).2 hcode]
        · rw [(hbyte c).1 hcode]
      · have he : e = .utf8 := by
          by_contra he
          exact hnil (IsCharacter.tail_eq_nil (.mk hlen htail) he)
        rw [charLen, if_pos he] at hlen
        have hge := utf8char_ge hlen hnil (hshort row hrow c tail hch he hnil)
        rw [getChar, if_pos he] at hcode
        omega

/-- `search_buff` ends, and what it passes to the list are the words that complete the prefix, in
order, among those that the budget lets it scan. -/
theorem searchBuff_words (hgranted : ∀ n, g.granted n = true) (hp : 0 ∉ q.p) (hrows : Rows b rows)
    (hshort : Shortest b.encoding rows) (z : Scan) :
    ∃ found z', Words g.classes b.encoding rows found ∧ searchBuff g b q z = some z' ∧
      z'.added = z.added ++ (((scanned q z.countScanned found).filter fun o =>
        Completes g b q o).map fun o => (o.2.word.flatten, q.ext)) := by
  have hplain : ∀ row ∈ rows, Plain b.encoding row := fun row => plain_row hrows.chars hshort
  obtain ⟨z', hloop, htook⟩ : ∃ z', linesLoop g b q (lines b) 0 z = some z' ∧
      Took g b q z (scanned q z.countScanned (wordsFrom g.classes b.encoding 0 rows)) z' := by
    rw [hrows.lines]
    by_cases hbudget : z.countScanned < maxAutocompleteScan
    · rw [scanned_open hbudget]
      exact linesLoop_spec hgranted hp hplain hbudget
    · obtain _ | ⟨row, rows⟩ := rows
      · refine ⟨z, rfl, ?_⟩
        rw [wordsFrom, scanned, List.filter_nil, List.take_nil]
        exact .nil g b q z
      · rw [scanned_spent (not_lt.mp hbudget)]
        exact linesLoop_spent hgranted hp (hplain row List.mem_cons_self) (not_lt.mp hbudget)
  exact ⟨_, { z' with buflen := 0 }, words_wordsFrom g.classes b.encoding rows,
    by rw [searchBuff, hloop]; rfl,
    htook.added⟩

/-- The C locale, as far as blanks, apostrophes and letters go; there is memory enough. -/
def plainSetting : Setting where
  classes := { neIsspace := fun c _ => c == 32, neIspunct := fun c _ => c == 39 }
  lower x := if 65 ≤ x ∧ x ≤ 90 then x + 32 else x
  granted _ := true

/-- The prefix `do` is completed from `do Don't 'é`. -/
theorem searchBuff_words_document :
    ∃ found z', Words plainSetting.classes .utf8
        [[[100], [111], [32], [68], [111], [110], [39], [116], [32], [39], [0xC3, 0xA9]]] found ∧
      searchBuff plainSetting
        (document [100, 111, 32, 68, 111, 110, 39, 116, 32, 39, 0xC3, 0xA9] .utf8 0 0)
        ⟨[100, 111], .utf8, false, true, true⟩ ⟨[], 0, 0⟩ = some z' ∧
      z'.added = [([68, 111, 110, 39, 116], true)] := by
  have hrows : Rows (document [100, 111, 32, 68, 111, 110, 39, 116, 32, 39, 0xC3, 0xA9] .utf8 0 0)
      [[[100], [111], [32], [68], [111], [110], [39], [116], [32], [39], [0xC3, 0xA9]]] :=
    ⟨by decide +kernel, by decide⟩
  have hshort : Shortest .utf8
      [[[100], [111], [32], [68], [111], [110], [39], [116], [32], [39], [0xC3, 0xA9]]] := by
    intro row hrow c tail hmem he hne
    simp only [List.mem_cons, List.not_mem_nil, or_false] at hrow
    subst hrow
    simp only [List.mem_cons, List.cons.injEq, List.not_mem_nil, or_false, hne, and_false,
      false_or] at hmem
    obtain ⟨rfl, rfl⟩ := hmem
    decide
  have hfound : (searchBuff plainSetting
      (document [100, 111, 32, 68, 111, 110, 39, 116, 32, 39, 0xC3, 0xA9] .utf8 0 0)
      ⟨[100, 111], .utf8, false, true, true⟩ ⟨[], 0, 0⟩).map Scan.added =
        some [([68, 111, 110, 39, 116], true)] := by decide +kernel
  obtain ⟨found, z', hwords, hresult, -⟩ := searchBuff_words (g := plainSetting)
    (q := ⟨[100, 111], .utf8, false, true, true⟩) (fun _ => rfl) (by decide) hrows hshort
    ⟨[], 0, 0⟩
  rw [hresult] at hfound
  exact ⟨found, z', hwords, hresult, Option.some.inj hfound⟩

end NiceEditor.Completions
