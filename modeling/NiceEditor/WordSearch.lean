import Mathlib.Data.List.DropRight
import NiceEditor.Characters
import NiceEditor.Cursor
import NiceEditor.LineSearch
import NiceEditor.UndoRuns

namespace NiceEditor.WordSearch

open NiceEditor.Pools
open NiceEditor.BufferData
open NiceEditor.Encoding
open NiceEditor.Navigation
open NiceEditor.Clips
open NiceEditor.Cursor
open NiceEditor.UndoRuns
open NiceEditor.LineSearch
open NiceEditor.InputLine
open NiceEditor.CharacterRows
open NiceEditor.InputRows
open NiceEditor.Characters

/-- The classes of characters of the locale: `ne_isspace` and `ne_ispunct`. -/
structure Classes where
  neIsspace : Int → EncodingType → Bool
  neIspunct : Int → EncodingType → Bool

/-- `ne_isword` -/
def neIsword (k : Classes) (c : Int) (encoding : EncodingType) : Bool :=
  c == 95 || !(c == 0 || k.neIsspace c encoding || k.neIspunct c encoding)

/-- Line `y` of a text. -/
def lineAt (b : Buffer) (y : Int) : List Byte := (lines b).getD y.toNat []

/-- `next_spot`; the line descriptor goes along with the line number `y`. -/
def nextSpot (forward : Bool) (b : Buffer) (y pos : Int) : Option (Int × Int) :=
  let line := lineAt b y
  if forward then
    if pos < line.length then some (y, nextPos line pos b.encoding)
    else if y + 1 < b.lineDescList.length then some (y + 1, 0)
    else none
  else if 0 < pos then
    some (y, if pos ≤ line.length then prevPos line pos b.encoding else line.length)
  else if y - 1 < 0 then none
  else some (y - 1, (lineAt b (y - 1)).length)

/-- Whether the character at a spot is one of a word.  Behind the end of a line it is NUL. -/
def wordAt (k : Classes) (b : Buffer) (y pos : Int) : Bool :=
  let line := lineAt b y
  neIsword k (if pos < line.length then getChar (line.drop pos.toNat) b.encoding else 0) b.encoding

/-- The transitions that `search_word` has to see. -/
def transitions (forward start inWord : Bool) : Int :=
  if start then
    if ¬ forward then if inWord then 1 else 2
    else if inWord then 2 else 1
  else if ¬ forward then if inWord then 2 else 1
  else if inWord then 1 else 2

/-- The loop of `search_word` -/
def searchWordLoop (k : Classes) (b : Buffer) (forward : Bool) :
    Nat → Int → Int → Bool → Int → Search (Int × Int)
  | 0, _, _, _, _ => .running
  | turns + 1, y, pos, inWord, transitionsLeft =>
      if y < b.numLines ∧ 0 ≤ y then
        let newspot := nextSpot forward b y pos
        if newspot = none ∧ forward then .missed
        else
          let word := match newspot with
            | some (y, pos) => wordAt k b y pos
            | none => neIsword k 0 b.encoding
          let left := if word ≠ inWord then transitionsLeft - 1 else transitionsLeft
          if word ≠ inWord ∧ left < 1 then
            .found (if forward then newspot.getD (y, pos) else (y, pos))
          else match newspot with
            | some (y, pos) => searchWordLoop k b forward turns y pos word left
            | none => .missed
      else .missed

/-- The spots of a text. -/
def spotCount (b : Buffer) : Nat := ((lines b).map fun line => line.length + 1).sum

/-- The cursor goes where the loop of `search_word` ends; there is no result when it has not
ended. -/
def searched (t : Terminal) (b : Buffer) : Search (Int × Int) → Option (Status × Buffer)
  | .found (y, pos) => some (.ok, gotoLinePos t b y pos)
  | .missed => some (.error, b)
  | .running => none

/-- `search_word` -/
def searchWord (t : Terminal) (k : Classes) (forward start : Bool) (b : Buffer) :
    Option (Status × Buffer) :=
  match nextSpot forward b b.curLine b.curPos with
  | none => some (.error, b)
  | some spot =>
      let (y, pos) := if forward then (b.curLine, b.curPos) else spot
      let inWord := wordAt k b y pos
      searched t b (searchWordLoop k b forward (spotCount b) y pos inWord
        (transitions forward start inWord))

/-- A character of a word. -/
def isWordChar (k : Classes) (e : EncodingType) (ch : List Byte) : Bool :=
  neIsword k (getChar ch e) e

/-- A word: a row of word characters that cannot be made longer within its line. -/
structure Word (k : Classes) (e : EncodingType) (before word behind : List (List Byte)) : Prop where
  ne_nil : word ≠ []
  chars : ∀ ch ∈ word, isWordChar k e ch = true
  before : ∀ ch ∈ before.getLast?, isWordChar k e ch = false
  behind : ∀ ch ∈ behind.head?, isWordChar k e ch = false

/-- A word starts, or ends, at a place. -/
def WordPlace (k : Classes) (e : EncodingType) (rows : List (List (List Byte))) (start : Bool)
    (p : Nat × Nat) : Prop :=
  ∃ before word behind, rows[p.1]? = some (before ++ (word ++ behind)) ∧
    Word k e before word behind ∧
    p.2 = if start then bytes before else bytes (before ++ word)

/-- Whether a row of characters starts, or ends, with one of a word. -/
def headWord (k : Classes) (e : EncodingType) (cs : List (List Byte)) : Bool :=
  cs.head?.elim false (isWordChar k e)

def lastWord (k : Classes) (e : EncodingType) (cs : List (List Byte)) : Bool :=
  cs.getLast?.elim false (isWordChar k e)

/-- The places between the characters of a text, and at the ends of its lines. -/
def Spot (rows : List (List (List Byte))) (p : Nat × Nat) : Prop :=
  ∃ a c, rows[p.1]? = some (a ++ c) ∧ p.2 = bytes a

variable {k : Classes} {e : EncodingType} {b : Buffer} {rows : List (List (List Byte))}
variable {row a c cs : List (List Byte)} {ch : List Byte} {x y : Nat} {p q r : Nat × Nat}
variable {start : Bool} {t : Terminal}

theorem neIsword_zero (k : Classes) (e : EncodingType) : neIsword k 0 e = false := rfl

theorem lineAt_row (h : Rows b rows) (hrow : rows[y]? = some row) : lineAt b y = row.flatten :=
  h.getD hrow

theorem getChar_character (h : IsCharacter e ch) (l : List Byte) :
    getChar (ch ++ l) e = getChar ch e := by
  cases h with
  | @mk c tail hlen htail =>
      rw [getChar, getChar]
      by_cases he : e = .utf8
      · rw [charLen, if_pos he] at hlen
        rw [if_pos he, if_pos he, utf8char_char hlen]
      · rw [if_neg he, if_neg he]
        rfl

theorem nextSpot_char (h : Rows b rows) (hrow : rows[y]? = some (a ++ ch :: c)) :
    nextSpot true b y (bytes a) = some ((y : Int), ((bytes a + ch.length : Nat) : Int)) := by
  have hch : IsCharacter b.encoding ch := h.chars_row hrow ch (by simp)
  have hpos := hch.length_pos
  have hline := lineAt_row h hrow
  have hnext := nextPos_character hch a.flatten c.flatten
  rw [List.flatten_append, List.flatten_cons] at hline
  rw [nextSpot, hline, if_pos rfl, if_pos, bytes, hnext]
  rw [bytes, List.length_append, List.length_append]
  omega

theorem nextSpot_end (h : Rows b rows) (hrow : rows[y]? = some row) (hle : bytes row ≤ x) :
    nextSpot true b y x = if y + 1 < rows.length then some ((y : Int) + 1, 0) else none := by
  rw [nextSpot, lineAt_row h hrow, if_pos rfl, if_neg, ← h.length]
  · norm_cast
  · rw [bytes] at hle
    omega

theorem prevSpot_char (h : Rows b rows) (hrow : rows[y]? = some (a ++ ch :: c)) :
    nextSpot false b y ((bytes a + ch.length : Nat) : Int) = some ((y : Int), (bytes a : Int)) := by
  have hch : IsCharacter b.encoding ch := h.chars_row hrow ch (by simp)
  have hpos := hch.length_pos
  have hline := lineAt_row h hrow
  have hprev := prevPos_character hch a.flatten c.flatten
  rw [List.flatten_append, List.flatten_cons] at hline
  rw [nextSpot, hline, if_neg Bool.false_ne_true, if_pos (by omega), if_pos, bytes, hprev]
  rw [bytes, List.length_append, List.length_append]
  omega

theorem prevSpot_beyond (h : Rows b rows) (hrow : rows[y]? = some row) (hlt : bytes row < x) :
    nextSpot false b y x = some ((y : Int), (bytes row : Int)) := by
  rw [bytes] at hlt
  rw [nextSpot, lineAt_row h hrow, if_neg Bool.false_ne_true, if_pos (by omega), if_neg (by omega),
    bytes]

theorem prevSpot_start (h : Rows b rows) (hrow : rows[y]? = some row) :
    nextSpot false b ((y + 1 : Nat) : Int) 0 = some ((y : Int), (bytes row : Int)) := by
  have hy : ((y + 1 : Nat) : Int) - 1 = y := by omega
  rw [nextSpot, if_neg Bool.false_ne_true, if_neg (by omega), if_neg (by omega), hy,
    lineAt_row h hrow, bytes]

theorem prevSpot_zero : nextSpot false b 0 0 = none := rfl

theorem wordAt_spot (h : Rows b rows) (hrow : rows[y]? = some (a ++ c)) :
    wordAt k b y (bytes a) = headWord k b.encoding c := by
  have hline := lineAt_row h hrow
  rw [List.flatten_append] at hline
  rw [wordAt, hline, Int.toNat_natCast, bytes, List.drop_left]
  obtain _ | ⟨ch, c⟩ := c
  · rw [if_neg (by simp)]
    rfl
  · have hch : IsCharacter b.encoding ch := h.chars_row hrow ch (by simp)
    have hpos := hch.length_pos
    rw [if_pos, List.flatten_cons, getChar_character hch]
    · rfl
    · rw [List.flatten_cons, List.length_append, List.length_append]
      omega

theorem wordAt_beyond (h : Rows b rows) (hrow : rows[y]? = some row) (hle : bytes row ≤ x) :
    wordAt k b y x = false := by
  rw [bytes] at hle
  rw [wordAt, lineAt_row h hrow, if_neg (by omega), neIsword_zero]

theorem lastWord_append_singleton : lastWord k e (a ++ [ch]) = isWordChar k e ch := by
  rw [lastWord, List.getLast?_concat]
  rfl

theorem headWord_eq_false :
    headWord k e cs = false ↔ ∀ ch ∈ cs.head?, isWordChar k e ch = false := by
  rw [headWord]
  cases cs.head? <;> simp

theorem headWord_eq_true :
    headWord k e cs = true ↔ ∃ ch ∈ cs.head?, isWordChar k e ch = true := by
  rw [headWord]
  cases cs.head? <;> simp

theorem lastWord_eq_false :
    lastWord k e cs = false ↔ ∀ ch ∈ cs.getLast?, isWordChar k e ch = false := by
  rw [lastWord]
  cases cs.getLast? <;> simp

theorem lastWord_eq_true :
    lastWord k e cs = true ↔ ∃ ch ∈ cs.getLast?, isWordChar k e ch = true := by
  rw [lastWord]
  cases cs.getLast? <;> simp

theorem Word.headWord {before word behind : List (List Byte)} (h : Word k e before word behind) :
    headWord k e (word ++ behind) = true := by
  obtain ⟨ch, word, rfl⟩ := List.exists_cons_of_ne_nil h.ne_nil
  exact headWord_eq_true.mpr ⟨ch, rfl, h.chars ch List.mem_cons_self⟩

theorem Word.lastWord {before word behind : List (List Byte)} (h : Word k e before word behind) :
    lastWord k e (before ++ word) = true := by
  refine lastWord_eq_true.mpr ⟨word.getLast h.ne_nil, ?_, h.chars _ (List.getLast_mem h.ne_nil)⟩
  rw [List.getLast?_append_of_ne_nil _ h.ne_nil, List.getLast?_eq_getLast_of_ne_nil h.ne_nil]
  rfl

theorem split_eq {a' c' : List (List Byte)} (h : ∀ ch ∈ a ++ c, IsCharacter e ch)
    (heq : a ++ c = a' ++ c') (hbytes : bytes a = bytes a') : a = a' ∧ c = c' := by
  obtain ⟨m, rfl, rfl⟩ := exists_between h heq hbytes.le
  have hm : ∀ ch ∈ m, IsCharacter e ch := fun ch hch => h ch (by simp [hch])
  rw [bytes_append] at hbytes
  obtain rfl := bytes_eq_zero hm (by omega)
  exact ⟨by simp, rfl⟩

/-- A word starts where a word character follows another one, or the start of the line, and it
ends where the word characters end. -/
theorem wordPlace_iff (h : Rows b rows) (hrow : rows[y]? = some (a ++ c)) :
    WordPlace k b.encoding rows start (y, bytes a) ↔
      headWord k b.encoding c = start ∧ lastWord k b.encoding a = !start := by
  have hchars := h.chars_row hrow
  constructor
  · rintro ⟨before, word, behind, hrow', hword, hplace⟩
    have heq : a ++ c = before ++ (word ++ behind) := by
      rw [hrow] at hrow'
      exact Option.some.inj hrow'
    cases start with
    | true =>
        obtain ⟨rfl, rfl⟩ := split_eq hchars heq hplace
        exact ⟨hword.headWord, lastWord_eq_false.mpr hword.before⟩
    | false =>
        rw [← List.append_assoc] at heq
        obtain ⟨rfl, rfl⟩ := split_eq hchars heq hplace
        exact ⟨headWord_eq_false.mpr hword.behind, hword.lastWord⟩
  · rintro ⟨hhead, hlast⟩
    cases start with
    | true =>
        refine ⟨a, c.takeWhile (isWordChar k b.encoding), c.dropWhile (isWordChar k b.encoding),
          ?_, ⟨?_, ?_, lastWord_eq_false.mp hlast, ?_⟩, rfl⟩
        · rw [List.takeWhile_append_dropWhile]
          exact hrow
        · obtain ⟨ch, hch, hword⟩ := headWord_eq_true.mp hhead
          obtain ⟨c, rfl⟩ := List.head?_eq_some_iff.mp hch
          rw [List.takeWhile_cons_of_pos hword]
          exact List.cons_ne_nil _ _
        · exact fun ch hch => List.mem_takeWhile_imp hch
        · intro ch hch
          have hnot := List.head?_dropWhile_not (isWordChar k b.encoding) c
          rw [Option.mem_def.mp hch] at hnot
          exact hnot
    | false =>
        refine ⟨a.rdropWhile (isWordChar k b.encoding), a.rtakeWhile (isWordChar k b.encoding), c,
          ?_, ⟨?_, ?_, ?_, headWord_eq_false.mp hhead⟩, ?_⟩
        · rw [← List.append_assoc, List.rdropWhile_append_rtakeWhile]
          exact hrow
        · obtain ⟨ch, hch, hword⟩ := lastWord_eq_true.mp hlast
          intro hnil
          obtain ⟨a, rfl⟩ := List.getLast?_eq_some_iff.mp hch
          rw [List.rtakeWhile_concat_pos _ _ _ hword] at hnil
          simp at hnil
        · exact fun ch hch => List.mem_rtakeWhile_imp hch
        · intro ch hch
          have hne : a.rdropWhile (isWordChar k b.encoding) ≠ [] := by
            intro hnil
            rw [hnil] at hch
            exact absurd hch nofun
          have hnot := List.rdropWhile_last_not _ _ hne
          rw [List.getLast?_eq_getLast_of_ne_nil hne, Option.mem_def, Option.some.injEq] at hch
          rw [hch] at hnot
          simpa using hnot
        · rw [if_neg Bool.false_ne_true, List.rdropWhile_append_rtakeWhile]

/-- The cursor is at a spot, or behind the end of a line. -/
def CursorSpot (rows : List (List (List Byte))) (p : Nat × Nat) : Prop :=
  ∃ a c, rows[p.1]? = some (a ++ c) ∧ (p.2 = bytes a ∨ (c = [] ∧ bytes a < p.2))

/-- Spot `q` is the next one ahead of a place. -/
structure Next (back : Bool) (rows : List (List (List Byte))) (p q : Nat × Nat) : Prop where
  spot : Spot rows q
  ahead : Ahead back p q
  nearest : ∀ r, Spot rows r → Ahead back p r → r = q ∨ Ahead back q r

theorem Spot.cursorSpot (h : Spot rows p) : CursorSpot rows p := by
  obtain ⟨a, c, hrow, hp⟩ := h
  exact ⟨a, c, hrow, .inl hp⟩

theorem Spot.le (h : Spot rows p) (hrow : rows[p.1]? = some row) : p.2 ≤ bytes row := by
  obtain ⟨a, c, hrow', hp⟩ := h
  rw [hrow, Option.some.injEq] at hrow'
  rw [hp, hrow', bytes_append]
  omega

theorem Spot.lt_length (h : Spot rows p) : p.1 < rows.length := by
  obtain ⟨a, c, hrow, -⟩ := h
  exact (List.getElem?_eq_some_iff.mp hrow).1

/-- Forwards, `next_spot` goes to the next spot: there a word starts or ends if the characters
at the two spots say so. -/
theorem nextSpot_forward (h : Rows b rows) (hp : CursorSpot rows p) :
    (∃ q : Nat × Nat, nextSpot true b p.1 p.2 = some ((q.1 : Int), (q.2 : Int)) ∧
      Next false rows p q ∧ ∀ start, WordPlace k b.encoding rows start q ↔
        wordAt k b q.1 q.2 = start ∧ wordAt k b p.1 p.2 = !start) ∨
    (nextSpot true b p.1 p.2 = none ∧ ∀ r, Spot rows r → ¬ Ahead false p r) := by
  obtain ⟨y, x⟩ := p
  obtain ⟨a, c, hrow, hx⟩ := hp
  dsimp only at hrow hx ⊢
  by_cases hinside : x = bytes a ∧ c ≠ []
  · obtain ⟨rfl, hc⟩ := hinside
    obtain ⟨ch, c, rfl⟩ := List.exists_cons_of_ne_nil hc
    left
    have hch : 0 < ch.length := (h.chars_row hrow ch (by simp)).length_pos
    have hrow' : rows[y]? = some ((a ++ [ch]) ++ c) := by simpa using hrow
    have hbytes : bytes (a ++ [ch]) = bytes a + ch.length := by simp
    refine ⟨(y, bytes (a ++ [ch])), ?_, ⟨⟨a ++ [ch], c, hrow', rfl⟩, ?_, ?_⟩, fun start => ?_⟩
    · rw [nextSpot_char h hrow, hbytes]
    · simp only [Ahead, hbytes]
      simp
      omega
    · rintro ⟨y', x'⟩ ⟨a', c', hrow'', hx'⟩ hahead
      simp only [Ahead, Bool.false_eq_true, if_false] at hahead hrow'' hx' ⊢
      rcases hahead with hlt | ⟨rfl, hlt⟩
      · exact .inr (.inl hlt)
      · have heq : a ++ ch :: c = a' ++ c' := by
          rw [hrow] at hrow''
          exact Option.some.inj hrow''
        obtain ⟨m, rfl, hm⟩ := exists_between (h.chars_row hrow) heq (by omega)
        obtain _ | ⟨ch', m⟩ := m
        · simp at hx'
          omega
        · obtain ⟨rfl, rfl⟩ := List.cons_eq_cons.mp hm
          simp only [bytes_append, bytes_cons, bytes_nil] at hx' ⊢
          rcases Nat.eq_zero_or_pos (bytes m) with hzero | hpos
          · left
            congr 1
            omega
          · right
            right
            exact ⟨trivial, by omega⟩
    · rw [wordPlace_iff h hrow', wordAt_spot h hrow', wordAt_spot h hrow, lastWord_append_singleton]
      rfl
  · have hend : c = [] ∧ bytes a ≤ x := by
      rcases hx with rfl | ⟨rfl, hlt⟩
      · exact ⟨by simpa using hinside, le_rfl⟩
      · exact ⟨rfl, hlt.le⟩
    obtain ⟨rfl, hle⟩ := hend
    rw [List.append_nil] at hrow
    have hword := wordAt_beyond (k := k) h hrow hle
    by_cases hlast : y + 1 < rows.length
    · left
      have hrow' : rows[y + 1]? = some ([] ++ rows[y + 1]) := List.getElem?_eq_getElem hlast
      refine ⟨(y + 1, bytes []), ?_, ⟨⟨[], _, hrow', rfl⟩, .inl (Nat.lt_succ_self y), ?_⟩,
        fun start => ?_⟩
      · rw [nextSpot_end h hrow hle, if_pos hlast]
        rfl
      · rintro ⟨y', x'⟩ hr hahead
        simp only [Ahead, Bool.false_eq_true, if_false, bytes_nil, Prod.mk.injEq] at hahead ⊢
        rcases hahead with hlt | ⟨rfl, hlt⟩
        · omega
        · have := hr.le hrow
          dsimp only at this
          omega
      · rw [wordPlace_iff h hrow', wordAt_spot h hrow', hword]
        rfl
    · right
      refine ⟨by rw [nextSpot_end h hrow hle, if_neg hlast], ?_⟩
      rintro ⟨y', x'⟩ hr hahead
      simp only [Ahead, Bool.false_eq_true, if_false] at hahead
      have hlt := hr.lt_length
      dsimp only at hlt
      rcases hahead with hlt' | ⟨rfl, hlt'⟩
      · omega
      · have := hr.le hrow
        dsimp only at this
        omega

/-- Backwards, `next_spot` goes to the spot before: where it comes from a word starts or ends if
the characters at the two spots say so.  There is none before the first one. -/
theorem nextSpot_backward (h : Rows b rows) (hp : CursorSpot rows p) :
    (∃ q : Nat × Nat, nextSpot false b p.1 p.2 = some ((q.1 : Int), (q.2 : Int)) ∧
      Next true rows p q ∧ (Spot rows p → ∀ start, WordPlace k b.encoding rows start p ↔
        wordAt k b p.1 p.2 = start ∧ wordAt k b q.1 q.2 = !start)) ∨
    (nextSpot false b p.1 p.2 = none ∧ (∀ r, Spot rows r → ¬ Ahead true p r) ∧
      ∀ start, WordPlace k b.encoding rows start p ↔
        wordAt k b p.1 p.2 = start ∧ false = !start) := by
  obtain ⟨y, x⟩ := p
  obtain ⟨a, c, hrow, hx⟩ := hp
  dsimp only at hrow hx ⊢
  rcases hx with rfl | ⟨rfl, hlt⟩
  · rcases List.eq_nil_or_concat a with rfl | ⟨a, ch, rfl⟩
    · obtain _ | y := y
      · right
        refine ⟨prevSpot_zero, ?_, fun start => ?_⟩
        · rintro ⟨y', x'⟩ - hahead
          simp [Ahead] at hahead
        · rw [wordPlace_iff h hrow, wordAt_spot h hrow]
          rfl
      · left
        have hy : y < rows.length := by
          have := (List.getElem?_eq_some_iff.mp hrow).1
          omega
        have hrow' : rows[y]? = some rows[y] := List.getElem?_eq_getElem hy
        have hrow'' : rows[y]? = some (rows[y] ++ []) := by rw [List.append_nil, hrow']
        refine ⟨(y, bytes rows[y]), prevSpot_start h hrow', ⟨⟨rows[y], [], hrow'', rfl⟩, ?_, ?_⟩,
          fun _ start => ?_⟩
        · exact .inl (Nat.lt_succ_self y)
        · rintro ⟨y', x'⟩ hr hahead
          simp only [Ahead, if_true, bytes_nil, Prod.mk.injEq] at hahead ⊢
          rcases Nat.lt_or_ge y' y with hlt | hge
          · exact .inr (.inl hlt)
          · obtain rfl : y' = y := by omega
            have := hr.le hrow'
            dsimp only at this
            omega
        · rw [wordPlace_iff h hrow, wordAt_spot h hrow, wordAt_spot h hrow'']
          rfl
    · left
      rw [List.concat_eq_append] at hrow
      have hrow' : rows[y]? = some (a ++ ch :: c) := by simpa using hrow
      have hch : 0 < ch.length := (h.chars_row hrow ch (by simp)).length_pos
      have hbytes : bytes (a.concat ch) = bytes a + ch.length := by simp
      refine ⟨(y, bytes a), ?_, ⟨⟨a, ch :: c, hrow', rfl⟩, ?_, ?_⟩, fun _ start => ?_⟩
      · rw [hbytes, prevSpot_char h hrow']
      · refine .inr ⟨rfl, ?_⟩
        rw [hbytes]
        omega
      · rintro ⟨y', x'⟩ ⟨a', c', hrow'', hx'⟩ hahead
        simp only [Ahead, if_true, hbytes, Prod.mk.injEq] at hahead hrow'' hx' ⊢
        rcases hahead with hlt | ⟨rfl, hlt⟩
        · exact .inr (.inl hlt)
        · have heq : a' ++ c' = a ++ ch :: c := by
            rw [hrow'] at hrow''
            exact (Option.some.inj hrow'').symm
          rcases Nat.lt_or_ge (bytes a) (bytes a') with hbehind | hle
          · have heq' := heq.symm
            obtain ⟨m, rfl, hm⟩ := exists_between (h.chars_row hrow') heq' hbehind.le
            obtain _ | ⟨ch', m⟩ := m
            · simp at hbehind
            · obtain ⟨rfl, rfl⟩ := List.cons_eq_cons.mp hm
              simp only [bytes_append, bytes_cons] at hx' hbehind
              omega
          · omega
      · have hplace := @wordPlace_iff k b _ _ _ _ start h hrow
        rw [← List.concat_eq_append] at hplace
        rw [hplace, List.concat_eq_append, wordAt_spot h hrow, wordAt_spot h hrow',
          lastWord_append_singleton]
        rfl
  · left
    rw [List.append_nil] at hrow
    have hrow' : rows[y]? = some (a ++ []) := by rw [List.append_nil, hrow]
    refine ⟨(y, bytes a), prevSpot_beyond h hrow hlt, ⟨⟨a, [], hrow', rfl⟩, .inr ⟨rfl, hlt⟩, ?_⟩,
      fun hspot => ?_⟩
    · rintro ⟨y', x'⟩ hr hahead
      simp only [Ahead, if_true, Prod.mk.injEq] at hahead ⊢
      rcases hahead with hlt' | ⟨rfl, hlt'⟩
      · exact .inr (.inl hlt')
      · have := hr.le hrow
        dsimp only at this
        omega
    · have := hspot.le hrow
      dsimp only at this
      omega

/-- The spots before a place. -/
def rank (rows : List (List (List Byte))) (p : Nat × Nat) : Nat :=
  ((rows.take p.1).map fun row => bytes row + 1).sum + min p.2 (bytes (rows.getD p.1 []))

theorem sum_take_succ (hrow : rows[y]? = some row) :
    ((rows.take (y + 1)).map fun row => bytes row + 1).sum =
      ((rows.take y).map fun row => bytes row + 1).sum + (bytes row + 1) := by
  rw [List.take_add_one, hrow, Option.toList_some, List.map_append, List.sum_append]
  simp

theorem sum_take_mono {y' : Nat} (hle : y ≤ y') :
    ((rows.take y).map fun row => bytes row + 1).sum ≤
      ((rows.take y').map fun row => bytes row + 1).sum := by
  have htake : rows.take y = (rows.take y').take y := by rw [List.take_take, min_eq_left hle]
  conv_rhs => rw [← List.take_append_drop y (rows.take y'), ← htake]
  rw [List.map_append, List.sum_append]
  omega

theorem rank_lt (hp : p.1 < rows.length) (hq : Spot rows q) (hahead : Ahead false p q) :
    rank rows p < rank rows q := by
  have hrow : rows[p.1]? = some rows[p.1] := List.getElem?_eq_getElem hp
  have hgetD : rows.getD p.1 [] = rows[p.1] := List.getD_eq_getElem _ _ hp
  rw [rank, rank, hgetD]
  rcases hahead with hlt | ⟨heq, hlt⟩
  · have hmono := @sum_take_mono rows (p.1 + 1) q.1 hlt
    rw [sum_take_succ hrow] at hmono
    omega
  · have hrow' : rows[q.1]? = some rows[p.1] := by rw [heq, hrow]
    have hle := hq.le hrow'
    rw [heq, hgetD]
    omega

theorem rank_lt_spotCount (h : Rows b rows) (hlt : q.1 < rows.length) :
    rank rows q < spotCount b := by
  have hrow : rows[q.1]? = some rows[q.1] := List.getElem?_eq_getElem hlt
  have hmono := @sum_take_mono rows (q.1 + 1) rows.length hlt
  have hcount : spotCount b = (rows.map fun row => bytes row + 1).sum := by
    rw [spotCount, h.lines, List.map_map]
    rfl
  rw [sum_take_succ hrow, List.take_length] at hmono
  rw [hcount, rank, List.getD_eq_getElem _ _ hlt]
  omega

theorem ahead_swap : Ahead true p q ↔ Ahead false q p := by
  simp only [Ahead, if_true, Bool.false_eq_true, if_false]
  constructor
  · rintro (hlt | ⟨heq, hlt⟩)
    · exact .inl hlt
    · exact .inr ⟨heq.symm, hlt⟩
  · rintro (hlt | ⟨heq, hlt⟩)
    · exact .inl hlt
    · exact .inr ⟨heq.symm, hlt⟩

theorem ahead_trans {back : Bool} (h : Ahead back p q) (h' : Ahead back q r) : Ahead back p r := by
  unfold Ahead at *
  split at h <;> simp_all <;> omega

/-- What is the nearest of the places where words start, or end, ahead of a place. -/
structure Nearest (back : Bool) (k : Classes) (e : EncodingType) (rows : List (List (List Byte)))
    (start : Bool) (p q : Nat × Nat) : Prop where
  place : WordPlace k e rows start q
  ahead : Ahead back p q
  nearest : ∀ r, WordPlace k e rows start r → Ahead back p r → r = q ∨ Ahead back q r

theorem WordPlace.spot (h : WordPlace k e rows start p) : Spot rows p := by
  obtain ⟨before, word, behind, hrow, -, hp⟩ := h
  cases start with
  | true => exact ⟨before, word ++ behind, hrow, hp⟩
  | false => exact ⟨before ++ word, behind, by rw [List.append_assoc]; exact hrow, hp⟩

/-- The loop of `search_word` forwards: no word starts, or ends, from the cursor up to where it
is. -/
theorem searchWordLoop_forward (h : Rows b rows) (hnum : b.numLines = b.lineDescList.length)
    {cursor : Nat × Nat} (turns : Nat) (hp : CursorSpot rows p)
    (hseen : ∀ r, WordPlace k b.encoding rows start r → Ahead false cursor r → Ahead false p r)
    (hbehind : ∀ r, Ahead false p r → Ahead false cursor r)
    (hturns : spotCount b ≤ turns + rank rows p) :
    (∃ q, searchWordLoop k b true turns p.1 p.2 (wordAt k b p.1 p.2)
        (if wordAt k b p.1 p.2 = start then 2 else 1) = .found ((q.1 : Int), (q.2 : Int)) ∧
      Nearest false k b.encoding rows start cursor q) ∨
    (searchWordLoop k b true turns p.1 p.2 (wordAt k b p.1 p.2)
        (if wordAt k b p.1 p.2 = start then 2 else 1) = .missed ∧
      ∀ r, WordPlace k b.encoding rows start r → ¬ Ahead false cursor r) := by
  have hlt : p.1 < rows.length := by
    obtain ⟨a, c, hrow, -⟩ := hp
    exact (List.getElem?_eq_some_iff.mp hrow).1
  have hrank := rank_lt_spotCount h hlt
  induction turns generalizing p with
  | zero => omega
  | succ turns ih =>
      have hinside : (p.1 : Int) < b.numLines ∧ 0 ≤ (p.1 : Int) := by
        rw [hnum, ← h.length]
        omega
      rw [searchWordLoop, if_pos hinside]
      rcases nextSpot_forward (k := k) h hp with ⟨q, hnext, hstep, hplaces⟩ | ⟨hnext, hnone⟩
      · have hfurther := rank_lt hlt hstep.spot hstep.ahead
        have hrest := fun hseen' => ih hstep.spot.cursorSpot hseen'
          (fun r hahead => hbehind r (ahead_trans hstep.ahead hahead)) (by omega)
          hstep.spot.lt_length (rank_lt_spotCount h hstep.spot.lt_length)
        have hpass : ¬ WordPlace k b.encoding rows start q → ∀ r,
            WordPlace k b.encoding rows start r → Ahead false cursor r → Ahead false q r := by
          intro hnot r hr hahead
          rcases hstep.nearest r hr.spot (hseen r hr hahead) with rfl | hfar
          · exact absurd hr hnot
          · exact hfar
        rw [hnext, if_neg (by simp)]
        dsimp only
        by_cases hword : wordAt k b q.1 q.2 = wordAt k b p.1 p.2
        · have hnot : ¬ WordPlace k b.encoding rows start q := by
            rw [hplaces, hword]
            cases wordAt k b p.1 p.2 <;> cases start <;> simp
          rw [if_neg (not_not.mpr hword), if_neg (fun hand => hand.1 hword), ← hword]
          exact hrest (hpass hnot)
        · rw [if_pos hword]
          by_cases hstart : wordAt k b p.1 p.2 = start
          · -- the other kind of transition
            have hother : ¬ wordAt k b q.1 q.2 = start := fun heq => hword (heq.trans hstart.symm)
            have hnot : ¬ WordPlace k b.encoding rows start q := by
              rw [hplaces]
              exact fun hand => hother hand.1
            have hloop := hrest (hpass hnot)
            rw [if_neg hother] at hloop
            rw [if_pos hstart, if_neg (by simp)]
            exact hloop
          · left
            have hplace : WordPlace k b.encoding rows start q := by
              rw [hplaces]
              revert hstart hword
              cases wordAt k b p.1 p.2 <;> cases wordAt k b q.1 q.2 <;> cases start <;> simp
            refine ⟨q, ?_, hplace, hbehind q hstep.ahead, fun r hr hahead =>
              hstep.nearest r hr.spot (hseen r hr hahead)⟩
            rw [if_neg hstart, if_pos ⟨hword, by decide⟩, if_pos rfl]
            rfl
      · right
        rw [hnext]
        refine ⟨if_pos ⟨rfl, rfl⟩, fun r hr hahead => hnone r hr.spot (hseen r hr hahead)⟩

/-- The loop of `search_word` backwards: no word starts, or ends, from where it is up to the
cursor. -/
theorem searchWordLoop_backward (h : Rows b rows) (hnum : b.numLines = b.lineDescList.length)
    {cursor : Nat × Nat} (turns : Nat) (hp : Spot rows p) (hahead : Ahead true cursor p)
    (hseen : ∀ r, WordPlace k b.encoding rows start r → Ahead true cursor r →
      r = p ∨ Ahead true p r)
    (hturns : rank rows p < turns) :
    (∃ q, searchWordLoop k b false turns p.1 p.2 (wordAt k b p.1 p.2)
        (if wordAt k b p.1 p.2 = start then 1 else 2) = .found ((q.1 : Int), (q.2 : Int)) ∧
      Nearest true k b.encoding rows start cursor q) ∨
    (searchWordLoop k b false turns p.1 p.2 (wordAt k b p.1 p.2)
        (if wordAt k b p.1 p.2 = start then 1 else 2) = .missed ∧
      ∀ r, WordPlace k b.encoding rows start r → ¬ Ahead true cursor r) := by
  induction turns generalizing p with
  | zero => omega
  | succ turns ih =>
      have hlt := hp.lt_length
      have hinside : (p.1 : Int) < b.numLines ∧ 0 ≤ (p.1 : Int) := by
        rw [hnum, ← h.length]
        omega
      have hfound : WordPlace k b.encoding rows start p →
          Nearest true k b.encoding rows start cursor p := fun hplace => ⟨hplace, hahead, hseen⟩
      rw [searchWordLoop, if_pos hinside]
      rcases nextSpot_backward (k := k) h hp.cursorSpot with
        ⟨q, hnext, hstep, hplaces⟩ | ⟨hnext, hnone, hplaces⟩
      · replace hplaces := hplaces hp start
        have hfurther := rank_lt hstep.spot.lt_length hp (ahead_swap.mp hstep.ahead)
        have hrest := fun hseen' => ih hstep.spot (ahead_trans hahead hstep.ahead) hseen' (by omega)
        have hpass : ¬ WordPlace k b.encoding rows start p → ∀ r,
            WordPlace k b.encoding rows start r → Ahead true cursor r →
              r = q ∨ Ahead true q r := by
          intro hnot r hr hr'
          rcases hseen r hr hr' with rfl | hfar
          · exact absurd hr hnot
          · exact hstep.nearest r hr.spot hfar
        rw [hnext, if_neg (by simp)]
        dsimp only
        by_cases hword : wordAt k b q.1 q.2 = wordAt k b p.1 p.2
        · have hnot : ¬ WordPlace k b.encoding rows start p := by
            rw [hplaces, hword]
            cases wordAt k b p.1 p.2 <;> cases start <;> simp
          rw [if_neg (not_not.mpr hword), if_neg (fun hand => hand.1 hword), ← hword]
          exact hrest (hpass hnot)
        · rw [if_pos hword]
          by_cases hstart : wordAt k b p.1 p.2 = start
          · left
            have hplace : WordPlace k b.encoding rows start p := by
              rw [hplaces]
              revert hstart hword
              cases wordAt k b p.1 p.2 <;> cases wordAt k b q.1 q.2 <;> cases start <;> simp
            refine ⟨p, ?_, hfound hplace⟩
            rw [if_pos hstart, if_pos ⟨hword, by decide⟩, if_neg Bool.false_ne_true]
          · -- the other kind of transition
            have hsame : wordAt k b q.1 q.2 = start := by
              revert hstart hword
              cases wordAt k b p.1 p.2 <;> cases wordAt k b q.1 q.2 <;> cases start <;> simp
            have hnot : ¬ WordPlace k b.encoding rows start p := by
              rw [hplaces]
              exact fun hand => hstart hand.1
            have hloop := hrest (hpass hnot)
            rw [if_pos hsame] at hloop
            rw [if_neg hstart, if_neg (by simp)]
            exact hloop
      · -- before the first spot
        rw [hnext, if_neg (by simp), neIsword_zero]
        dsimp only
        by_cases hplace : WordPlace k b.encoding rows start p
        · left
          refine ⟨p, ?_, hfound hplace⟩
          rw [hplaces] at hplace
          obtain ⟨hword, hstart⟩ := hplace
          have htrue : start = true := by simpa using hstart.symm
          rw [hword, htrue, if_pos rfl, if_pos (by simp), if_neg Bool.false_ne_true]
        · right
          refine ⟨?_, fun r hr hr' => ?_⟩
          · rw [if_neg]
            rw [hplaces] at hplace
            revert hplace
            cases wordAt k b p.1 p.2 <;> cases start <;> simp
          · rcases hseen r hr hr' with rfl | hfar
            · exact hplace hr
            · exact hnone r hr.spot hfar

theorem gotoLinePos_spot (t : Terminal) (hok : CursorOk b) (h : Rows b rows) (hq : Spot rows q) :
    Moved b (gotoLinePos t b q.1 q.2) ∧ CursorOk (gotoLinePos t b q.1 q.2) ∧
      (gotoLinePos t b q.1 q.2).curLine = q.1 ∧ (gotoLinePos t b q.1 q.2).curPos = q.2 := by
  obtain ⟨a, c, hrow, hplace⟩ := hq
  have hline : (lines b)[q.1]? = some (a.flatten ++ c.flatten) := by
    rw [h.lines, List.getElem?_map, hrow, Option.map_some, List.flatten_append]
  have hle : q.2 ≤ (a.flatten ++ c.flatten).length := by
    rw [hplace, bytes, List.length_append]
    omega
  refine gotoLinePos_spec t hok hline hle ?_
  rw [hplace, bytes, List.take_left]
  exact wholeChars_flatten fun ch hch => h.chars_row hrow ch (List.mem_append_left c hch)

/-- `search_word` moves to the nearest place ahead where a word starts, or ends, and reports an
error if there is none. -/
theorem searchWord_nearest (t : Terminal) (k : Classes) (forward start : Bool) (hok : CursorOk b)
    (h : Rows b rows) (hp : CursorSpot rows p) (hline : b.curLine = p.1) (hpos : b.curPos = p.2) :
    (∃ q b', searchWord t k forward start b = some (.ok, b') ∧
      Nearest (!forward) k b.encoding rows start p q ∧
      Moved b b' ∧ CursorOk b' ∧ b'.curLine = q.1 ∧ b'.curPos = q.2) ∨
    (searchWord t k forward start b = some (.error, b) ∧
      ∀ q, WordPlace k b.encoding rows start q → ¬ Ahead (!forward) p q) := by
  have hlt : p.1 < rows.length := by
    obtain ⟨a, c, hrow, -⟩ := hp
    exact (List.getElem?_eq_some_iff.mp hrow).1
  -- where the loop ends decides
  have hends : ∀ {s : Search (Int × Int)},
      ((∃ q : Nat × Nat, s = .found ((q.1 : Int), (q.2 : Int)) ∧
          Nearest (!forward) k b.encoding rows start p q) ∨
        (s = .missed ∧ ∀ q, WordPlace k b.encoding rows start q → ¬ Ahead (!forward) p q)) →
      (∃ q b', searched t b s = some (.ok, b') ∧ Nearest (!forward) k b.encoding rows start p q ∧
        Moved b b' ∧ CursorOk b' ∧ b'.curLine = q.1 ∧ b'.curPos = q.2) ∨
      (searched t b s = some (.error, b) ∧
        ∀ q, WordPlace k b.encoding rows start q → ¬ Ahead (!forward) p q) := by
    rintro s (⟨q, rfl, hnearest⟩ | ⟨rfl, hnone⟩)
    · exact .inl ⟨q, _, rfl, hnearest, gotoLinePos_spot t hok h hnearest.place.spot⟩
    · exact .inr ⟨rfl, hnone⟩
  cases forward with
  | true =>
      rw [searchWord, hline, hpos]
      rcases nextSpot_forward (k := k) h hp with ⟨q, hnext, hstep, -⟩ | ⟨hnext, hnone⟩
      · rw [hnext]
        have htransitions : transitions true start (wordAt k b p.1 p.2) =
            if wordAt k b p.1 p.2 = start then 2 else 1 := by
          cases wordAt k b p.1 p.2 <;> cases start <;> rfl
        dsimp only
        rw [if_pos rfl, htransitions]
        exact hends (searchWordLoop_forward h hok.numLines (spotCount b) hp (fun _ _ hr => hr)
          (fun _ hr => hr) (Nat.le_add_right _ _))
      · rw [hnext]
        exact .inr ⟨rfl, fun q hq => hnone q hq.spot⟩
  | false =>
      rw [searchWord, hline, hpos]
      rcases nextSpot_backward (k := k) h hp with ⟨q, hnext, hstep, -⟩ | ⟨hnext, hnone, -⟩
      · rw [hnext]
        have htransitions : transitions false start (wordAt k b q.1 q.2) =
            if wordAt k b q.1 q.2 = start then 1 else 2 := by
          cases wordAt k b q.1 q.2 <;> cases start <;> rfl
        dsimp only
        rw [if_neg Bool.false_ne_true, htransitions]
        exact hends (searchWordLoop_backward h hok.numLines (spotCount b) hstep.spot hstep.ahead
          (fun r hr hahead => hstep.nearest r hr.spot hahead)
          (rank_lt_spotCount h hstep.spot.lt_length))
      · rw [hnext]
        exact .inr ⟨rfl, fun q hq => hnone q hq.spot⟩

/-- Only blanks separate words. -/
def blanks : Classes where
  neIsspace c _ := c == 32
  neIspunct _ _ := false

/-- The cursor is on the first word of `a é`, and the other one is found. -/
theorem searchWord_nearest_document :
    ∃ q b', searchWord plainTerminal blanks true true (document [97, 32, 0xC3, 0xA9] .utf8 0 0) =
        some (.ok, b') ∧
      Nearest false blanks .utf8 [[[97], [32], [0xC3, 0xA9]]] true (0, 0) q ∧ b'.curPos = q.2 := by
  have hrows : Rows (document [97, 32, 0xC3, 0xA9] .utf8 0 0) [[[97], [32], [0xC3, 0xA9]]] :=
    ⟨by decide +kernel, by decide⟩
  have hok : CursorOk (document [97, 32, 0xC3, 0xA9] .utf8 0 0) :=
    ⟨by decide +kernel, by decide +kernel, by decide +kernel, by decide +kernel, rfl,
      by decide +kernel⟩
  have hfound : (searchWord plainTerminal blanks true true
      (document [97, 32, 0xC3, 0xA9] .utf8 0 0)).map Prod.fst = some .ok := by decide +kernel
  rcases searchWord_nearest (p := (0, 0)) plainTerminal blanks true true hok hrows
    ⟨[], _, rfl, .inl rfl⟩ rfl rfl with ⟨q, b', hb', hnearest, -, -, -, hpos⟩ | ⟨herror, -⟩
  · exact ⟨q, b', hb', hnearest, hpos⟩
  · rw [herror] at hfound
    exact absurd hfound (by decide)

end NiceEditor.WordSearch
