import NiceEditor.Utf8Detection

namespace NiceEditor.InputRows

open NiceEditor.Pools
open NiceEditor.BufferData
open NiceEditor.Encoding
open NiceEditor.Navigation
open NiceEditor.Clips
open NiceEditor.Streams
open NiceEditor.InputLine
open NiceEditor.CharacterRows
open NiceEditor.Utf8Detection

/-- The bytes of a row of characters. -/
def bytes (cs : List (List Byte)) : Nat := cs.flatten.length

/-- The memory of the buffer: it has one byte more than the line can have, which is 0. -/
structure Sized (buf : List Byte) : Prop where
  length : buf.length = maxInputLineLen + 1
  last : buf.getLast? = some 0

/-- Characters that the line may hold: in UTF-8 none of them starts with FE or FF. -/
structure Valid (e : EncodingType) (cs : List (List Byte)) : Prop where
  chars : Chars e cs
  low : e = .utf8 → ∀ x ∈ cs.flatten, x < 0xFE

/-- The line is a row of characters. -/
structure Row (ib : InputBuf) (row : List (List Byte)) : Prop where
  valid : Valid ib.encoding row
  sized : Sized ib.buf
  ends : ∃ junk, ib.buf = row.flatten ++ 0 :: junk
  len : ib.len = bytes row

/-- The line is what is hidden before the window, what is shown from there to the cursor, and
the rest. -/
structure Holds (ib : InputBuf) (hidden shown rest : List (List Byte)) : Prop where
  row : Row ib (hidden ++ (shown ++ rest))
  offset : ib.offset = bytes hidden
  pos : ib.pos = bytes hidden + bytes shown

/-- The cursor is in the column of its place, and in the window. -/
structure Placed (t : Terminal) (ib : InputBuf) (shown : List (List Byte)) : Prop where
  x : ib.x = ib.startX + columns t ib.encoding shown
  lt : ib.x < t.neColumns

/-- Characters that take as many columns as bytes. -/
def Even (t : Terminal) (e : EncodingType) (cs : List (List Byte)) : Prop :=
  ∀ ch ∈ cs, getCharWidth t ch e = ch.length

/-- The characters of the line that start between two places of it take as many columns as
bytes. -/
def EvenBetween (t : Terminal) (ib : InputBuf) (a b : Int) : Prop :=
  ∀ front ch back, Chars ib.encoding (front ++ ch :: back) →
    ib.text = (front ++ ch :: back).flatten → a ≤ bytes front → bytes front < b →
      getCharWidth t ch ib.encoding = ch.length

/-- The characters at the end of a text that get into a window take as many columns as bytes. -/
def EvenAtEnd (t : Terminal) (e : EncodingType) (s : List Byte) (width : Int) : Prop :=
  ∀ front ch back, Chars e (front ++ ch :: back) → s = (front ++ ch :: back).flatten →
    columns t e (ch :: back) < width → getCharWidth t ch e = ch.length

variable {t : Terminal} {p : Prompt} {ib : InputBuf} {e : EncodingType} {width : Int} {ok : Prop}
variable {hidden shown rest row cs cs' front back : List (List Byte)} {ch a b s buf : List Byte}

theorem Valid.nil : Valid e [] := ⟨Chars.nil, fun _ _ h => absurd h List.not_mem_nil⟩

theorem valid_append : Valid e (cs ++ cs') ↔ Valid e cs ∧ Valid e cs' := by
  constructor
  · rintro ⟨hchars, hlow⟩
    rw [List.flatten_append] at hlow
    obtain ⟨hcs, hcs'⟩ := chars_append.mp hchars
    exact ⟨⟨hcs, fun he x hx => hlow he x (List.mem_append_left _ hx)⟩,
      ⟨hcs', fun he x hx => hlow he x (List.mem_append_right _ hx)⟩⟩
  · rintro ⟨⟨hcs, hlow⟩, hcs', hlow'⟩
    refine ⟨chars_append.mpr ⟨hcs, hcs'⟩, fun he => ?_⟩
    rw [List.flatten_append]
    exact List.forall_mem_append.mpr ⟨hlow he, hlow' he⟩

theorem valid_of_ascii (h : Chars .ascii cs) (e : EncodingType) : Valid e cs := by
  refine ⟨h.of_ascii e, fun _ x hx => ?_⟩
  obtain ⟨ch, hch, hmem⟩ := List.mem_flatten.mp hx
  cases h ch hch with
  | ascii hne hc =>
      rw [List.mem_singleton.mp hmem]
      exact UInt8.lt_trans hc (by decide)

theorem Valid.to_ascii (h : Valid e cs) (hlow : ∀ x ∈ cs.flatten, x < 0x80) : Valid .ascii cs :=
  valid_of_ascii (h.chars.to_ascii hlow) .ascii

theorem Valid.isEncodings (h : Valid .utf8 cs) : IsEncodings cs.flatten :=
  isEncodings_iff.mpr ⟨⟨cs, h.chars.sequences, rfl⟩, h.low rfl⟩

theorem exists_valid (hzero : 0 ∉ s) (hexact : Exact s) :
    ∃ cs, Valid (detectEncoding s) cs ∧ cs.flatten = s := by
  obtain ⟨cs, hcs, rfl⟩ := exists_chars hzero
  exact ⟨cs, ⟨hcs, fun he => (isEncodings_iff.mp (hexact.2.1.mp he).2).2⟩, rfl⟩

@[simp] theorem bytes_nil : bytes [] = 0 := rfl

@[simp] theorem bytes_cons : bytes (ch :: cs) = ch.length + bytes cs := by
  simp [bytes]

@[simp] theorem bytes_append : bytes (cs ++ cs') = bytes cs + bytes cs' := by
  simp [bytes]

theorem drop_bytes : (cs ++ cs').flatten.drop (bytes cs) = cs'.flatten := by
  rw [List.flatten_append, bytes, List.drop_left]

theorem write_append (a b s : List Byte) :
    write (a ++ b) a.length s = a ++ (s ++ b.drop s.length) := by
  rw [write, Int.toNat_natCast, List.take_left, List.drop_append, List.drop_of_length_le (by omega)]
  simp

theorem Sized.write (h : Sized buf) {pos : Nat}
    (hfits : pos + s.length < buf.length ∨ pos + s.length ≤ buf.length ∧ s.getLast? = some 0) :
    Sized (write buf pos s) := by
  have hlength := h.length
  have hsame : (InputLine.write buf pos s).length = buf.length := by
    simp only [InputLine.write, Int.toNat_natCast, List.length_append, List.length_take,
      List.length_drop]
    omega
  refine ⟨hsame.trans hlength, ?_⟩
  rw [InputLine.write, Int.toNat_natCast, List.getLast?_append, List.getLast?_append,
    List.getLast?_drop]
  rcases hfits with hfits | ⟨hfits, hs⟩
  · rw [if_neg (by omega), h.last]
    rfl
  · split
    · rw [hs]
      rfl
    · rw [h.last]
      rfl

theorem memmove_append (a b c junk : List Byte) :
    memmove (a ++ (c ++ (b ++ 0 :: junk))) a.length (a.length + c.length)
        (b.length + 1) =
      a ++ (b ++ 0 :: (c ++ (b ++ 0 :: junk)).drop (b.length + 1)) := by
  have hmoved : ((a ++ (c ++ (b ++ 0 :: junk))).drop (a.length + c.length)).take (b.length + 1) =
      b ++ [0] := by
    rw [← List.append_assoc, ← List.length_append, List.drop_left, List.append_cons,
      List.take_left' (by simp)]
  have hplace : ((a.length : Int) + c.length).toNat = a.length + c.length := by omega
  have hcount : ((b.length : Int) + 1).toNat = b.length + 1 := by omega
  rw [memmove, hplace, hcount, hmoved, write_append]
  simp

theorem Row.chars (h : Row ib row) : Chars ib.encoding row := h.valid.chars

theorem Row.zero_not_mem (h : Row ib row) : 0 ∉ row.flatten := h.chars.zero_not_mem

theorem Row.len_le (h : Row ib row) : ib.len ≤ maxInputLineLen := by
  obtain ⟨junk, hbuf⟩ := h.ends
  have hlength := h.sized.length
  rw [hbuf, List.length_append, List.length_cons] at hlength
  rw [h.len, bytes]
  omega

theorem Row.text (h : Row ib row) : ib.text = row.flatten := by
  obtain ⟨junk, hbuf⟩ := h.ends
  rw [InputBuf.text, h.len, hbuf, Int.toNat_natCast, bytes, List.take_left]

theorem Row.cString (h : Row ib row) : cString ib.buf 0 = row.flatten := by
  obtain ⟨junk, hbuf⟩ := h.ends
  rw [hbuf]
  exact (@cString_middle []) h.zero_not_mem

theorem Row.drop (h : Row ib (cs ++ cs')) :
    ∃ junk, ib.buf.drop (bytes cs) = cs'.flatten ++ 0 :: junk := by
  obtain ⟨junk, hbuf⟩ := h.ends
  refine ⟨junk, ?_⟩
  rw [hbuf, List.flatten_append, List.append_assoc, bytes, List.drop_left]

theorem Row.next (h : Row ib (cs ++ ch :: cs')) : ib.next (bytes cs) = bytes cs + ch.length := by
  obtain ⟨junk, hbuf⟩ := h.ends
  have hch : IsChar ib.encoding ch := h.chars ch (by simp)
  have hnext := nextPos_char hch cs.flatten (cs'.flatten ++ 0 :: junk)
  rw [InputBuf.next, hbuf, List.flatten_append, List.flatten_cons, List.append_assoc,
    List.append_assoc]
  exact_mod_cast hnext

theorem Row.prev (h : Row ib (cs ++ ch :: cs')) :
    ib.prev ((bytes cs + ch.length : Nat) : Int) = bytes cs := by
  obtain ⟨junk, hbuf⟩ := h.ends
  have hch : IsChar ib.encoding ch := h.chars ch (by simp)
  rw [InputBuf.prev, hbuf, List.flatten_append, List.flatten_cons, List.append_assoc,
    List.append_assoc]
  exact prevPos_char hch cs.flatten (cs'.flatten ++ 0 :: junk)

theorem Row.widthAt (h : Row ib (cs ++ ch :: cs')) :
    ib.widthAt t (bytes cs) = getCharWidth t ch ib.encoding := by
  obtain ⟨junk, hbuf⟩ := h.drop
  have hch : IsChar ib.encoding ch := h.chars ch (by simp)
  rw [InputBuf.widthAt, Int.toNat_natCast, hbuf, List.flatten_cons, List.append_assoc,
    getCharWidth_char hch]

theorem Row.stringWidth (h : Row ib (cs ++ (row ++ cs'))) :
    getStringWidth t (ib.buf.drop (bytes cs)) (bytes row) ib.encoding =
      columns t ib.encoding row := by
  obtain ⟨junk, hbuf⟩ := h.drop
  have hrow : Chars ib.encoding row := (chars_append.mp (chars_append.mp h.chars).2).1
  rw [hbuf, List.flatten_append, List.append_assoc]
  exact getStringWidth_chars hrow _

theorem Holds.len_eq (h : Holds ib hidden shown rest) :
    ib.len = bytes hidden + bytes shown + bytes rest := by
  rw [h.row.len, bytes_append, bytes_append]
  omega

theorem Holds.chars_shown (h : Holds ib hidden shown rest) : Chars ib.encoding shown :=
  (chars_append.mp (chars_append.mp h.row.chars).2).1

theorem bytes_pos (h : Chars e cs) (hne : cs ≠ []) : 0 < bytes cs := by
  obtain ⟨ch, cs, rfl⟩ := List.exists_cons_of_ne_nil hne
  have := (chars_cons.mp h).1.length_pos
  rw [bytes_cons]
  omega

theorem length_le_bytes (h : Chars e cs) : cs.length ≤ bytes cs := by
  induction cs with
  | nil => exact le_rfl
  | cons ch cs ih =>
      obtain ⟨hch, hcs⟩ := chars_cons.mp h
      have := hch.length_pos
      have := ih hcs
      rw [bytes_cons, List.length_cons]
      omega

theorem columns_pos (hne : cs ≠ []) : 0 < columns t e cs := by
  have := length_le_columns t e cs
  have := List.length_pos_iff.mpr hne
  omega

theorem Even.columns_eq (h : Even t e cs) : columns t e cs = bytes cs := by
  induction cs with
  | nil => rfl
  | cons ch cs ih =>
      obtain ⟨hch, hcs⟩ := List.forall_mem_cons.mp h
      rw [columns_cons, bytes_cons, hch, ih hcs]
      push_cast
      rfl

theorem even_of_ascii (h : Chars .ascii cs) (e : EncodingType) : Even t e cs := by
  intro ch hch
  cases h ch hch with
  | ascii hne hc => exact if_pos hc

theorem EvenBetween.even {from₀ to₀ : Int} (h : EvenBetween t ib from₀ to₀)
    (hrow : Row ib (front ++ (cs ++ back))) (hfrom : from₀ ≤ bytes front)
    (hto : bytes front + bytes cs ≤ to₀) : Even t ib.encoding cs := by
  intro ch hch
  obtain ⟨l, r, rfl⟩ := List.append_of_mem hch
  have hrow : Row ib ((front ++ l) ++ ch :: (r ++ back)) := by simpa using hrow
  have hpos := (hrow.chars ch (by simp)).length_pos
  simp only [bytes_append, bytes_cons] at hto
  refine h (front ++ l) ch (r ++ back) hrow.chars hrow.text ?_ ?_
  · rw [bytes_append]
    omega
  · rw [bytes_append]
    omega

theorem EvenAtEnd.even (h : EvenAtEnd t e s width) (hchars : Chars e (front ++ cs))
    (hs : s = (front ++ cs).flatten) (hlt : columns t e cs < width) : Even t e cs := by
  intro ch hch
  obtain ⟨l, r, rfl⟩ := List.append_of_mem hch
  have hfront := columns_nonneg t e l
  rw [columns_append] at hlt
  exact h (front ++ l) ch r (by simpa using hchars) (by simpa using hs) (by omega)

theorem evenAtEnd_of_ascii (h : ∀ x ∈ s, x < 0x80) : EvenAtEnd t e s width := by
  rintro front ch back hchars rfl -
  have hch : Chars e [ch] := chars_singleton.mpr (hchars ch (by simp))
  refine even_of_ascii (hch.to_ascii fun x hx => h x ?_) e ch (List.mem_singleton_self ch)
  rw [List.flatten_singleton] at hx
  exact List.mem_flatten.mpr ⟨ch, by simp, hx⟩

theorem evenBetween_of_ascii (h : ∀ x ∈ ib.text, x < 0x80) (from₀ to₀ : Int) :
    EvenBetween t ib from₀ to₀ := by
  intro front ch back hchars htext _ _
  exact evenAtEnd_of_ascii (t := t) (htext ▸ h)
    front ch back hchars rfl (lt_add_one _)

theorem Holds.even (h : Holds ib hidden shown rest)
    (heven : EvenBetween t ib ib.offset ib.pos) : Even t ib.encoding shown :=
  heven.even h.row h.offset.le h.pos.ge

theorem Row.moved (h : Row ib row) (x pos offset : Int) :
    Row { ib with x := x, pos := pos, offset := offset } row :=
  ⟨h.valid, h.sized, h.ends, h.len⟩

/-- `input_move_left`, one character back.  The code tells by the column whether anything is
shown before the cursor. -/
theorem stepLeft_holds (h : Holds ib hidden shown rest) (hx : ib.x = ib.startX ↔ shown = []) :
    ∃ hidden' shown' rest', hidden' ++ (shown' ++ rest') = hidden ++ (shown ++ rest) ∧
      Holds (ib.stepLeft t).1 hidden' shown' rest' ∧ shown' <+: shown ∧
      ((ib.stepLeft t).2 = true → shown' = []) ∧
      (ib.x = ib.startX + columns t ib.encoding shown →
        (ib.stepLeft t).1.x = ib.startX + columns t ib.encoding shown' ∧
          (ib.stepLeft t).1.x ≤ ib.x) := by
  rcases List.eq_nil_or_concat shown with rfl | ⟨shown, ch, rfl⟩
  · rcases List.eq_nil_or_concat hidden with rfl | ⟨hidden, ch, rfl⟩
    · have hstay : ib.stepLeft t = (ib, false) := by
        rw [InputBuf.stepLeft, if_neg (by rw [h.pos]; simp)]
      rw [hstay]
      exact ⟨[], [], rest, rfl, h, List.prefix_rfl, fun _ => rfl, fun hcolumns =>
        ⟨hcolumns, le_rfl⟩⟩
    · -- the character before the window is shown
      have hrow : Row ib (hidden ++ ch :: rest) := by simpa using h.row
      have hch : 0 < ch.length := (hrow.chars ch (by simp)).length_pos
      have hpos : ib.pos = ((bytes hidden + ch.length : Nat) : Int) := by
        rw [h.pos]
        simp
      have hstep : ib.stepLeft t =
          ({ ib with pos := bytes hidden, offset := bytes hidden }, true) := by
        rw [InputBuf.stepLeft, if_pos (by omega), if_pos (hx.mpr rfl), hpos, hrow.prev]
      rw [hstep]
      exact ⟨hidden, [], ch :: rest, by simp,
        ⟨hrow.moved ib.x (bytes hidden) (bytes hidden), rfl, by simp⟩, List.prefix_rfl,
          fun _ => rfl,
        fun hcolumns => ⟨hcolumns, le_rfl⟩⟩
  · have hrow : Row ib ((hidden ++ shown) ++ ch :: rest) := by simpa using h.row
    have hch : 0 < ch.length := (hrow.chars ch (by simp)).length_pos
    have hpos : ib.pos = ((bytes (hidden ++ shown) + ch.length : Nat) : Int) := by
      rw [h.pos]
      simp
      omega
    have hwidth := getCharWidth_pos t ch ib.encoding
    have hne : ib.x ≠ ib.startX := fun heq => by simpa using hx.mp heq
    have hstep : ib.stepLeft t = ({ ib with
        pos := bytes (hidden ++ shown), x := ib.x - getCharWidth t ch ib.encoding }, false) := by
      rw [InputBuf.stepLeft, if_pos (by omega), if_neg hne, hpos, hrow.prev, hrow.widthAt]
    rw [hstep]
    refine ⟨hidden, shown, ch :: rest, by simp, ⟨?_, h.offset, by simp⟩, by simp, nofun,
      fun hcolumns => ?_⟩
    · simpa using hrow.moved (ib.x - getCharWidth t ch ib.encoding) (bytes (hidden ++ shown))
        ib.offset
    · rw [List.concat_eq_append, columns_append, columns_cons, columns_nil] at hcolumns
      constructor
      · dsimp only
        omega
      · dsimp only
        omega

/-- The loop of `input_move_right`: characters that take enough columns are shifted out of
the window. -/
theorem shiftLoop_row {shift width : Int} {front back : List (List Byte)} (turns : Nat)
    (h : Row ib (front ++ (cs ++ back))) (hturns : cs.length ≤ turns) (hlow : width < shift)
    (hshift : shift ≤ width + columns t ib.encoding cs) :
    ∃ out left, cs = out ++ left ∧ out ≠ [] ∧
      shift ≤ width + columns t ib.encoding out ∧
      ib.shiftLoop t shift turns (bytes front) width =
        (((bytes front + bytes out : Nat) : Int), width + columns t ib.encoding out) := by
  induction turns generalizing front cs width with
  | zero =>
      rw [List.length_eq_zero_iff.mp (Nat.le_zero.mp hturns), columns_nil] at hshift
      omega
  | succ turns ih =>
      obtain _ | ⟨ch, cs⟩ := cs
      · rw [columns_nil] at hshift
        omega
      rw [columns_cons] at hshift
      rw [InputBuf.shiftLoop, h.widthAt, h.next]
      by_cases hmore : width + getCharWidth t ch ib.encoding < shift
      · have hrow : Row ib ((front ++ [ch]) ++ (cs ++ back)) := by simpa using h
        obtain ⟨out, left, rfl, -, hout, hloop⟩ :=
          ih hrow (by simpa using hturns) hmore (by omega)
        have hne : out ++ left ≠ [] := by
          intro heq
          rw [heq, columns_nil] at hshift
          omega
        have hinside : (bytes front + ch.length : Int) < ib.len := by
          have hpos := bytes_pos (chars_append.mp (chars_append.mp hrow.chars).2).1 hne
          rw [h.len]
          simp only [bytes_append, bytes_cons] at hpos ⊢
          push_cast
          omega
        rw [if_pos ⟨hmore, hinside⟩]
        have hfront : (bytes (front ++ [ch]) : Int) = bytes front + ch.length := by simp
        rw [hfront] at hloop
        refine ⟨ch :: out, left, rfl, List.cons_ne_nil _ _, ?_, ?_⟩
        · rw [columns_cons]
          omega
        · rw [hloop, columns_cons]
          simp only [bytes_append, bytes_cons, bytes_nil]
          congr 1
          · push_cast
            omega
          · omega
      · rw [if_neg (fun hand => hmore hand.1)]
        refine ⟨[ch], cs, rfl, List.cons_ne_nil _ _, ?_, ?_⟩
        · rw [columns_cons, columns_nil]
          omega
        · simp

/-- `input_move_right`, one character on -/
theorem stepRight_holds (h : Holds ib hidden shown rest) (hx : Placed t ib shown) :
    ∃ out shown', out ++ shown' = shown ++ rest.take 1 ∧
      Holds (ib.stepRight t).1 (hidden ++ out) shown' (rest.drop 1) ∧
        Placed t (ib.stepRight t).1 shown' := by
  obtain _ | ⟨ch, rest⟩ := rest
  · have hstay : ib.stepRight t = (ib, false) := by
      rw [InputBuf.stepRight, if_neg (by rw [h.pos, h.len_eq]; simp)]
    rw [hstay]
    exact ⟨[], shown, by simp, by simpa using h, hx⟩
  have hrow : Row ib ((hidden ++ shown) ++ ch :: rest) := by simpa using h.row
  have hch : 0 < ch.length := (hrow.chars ch (by simp)).length_pos
  have hpos : ib.pos = bytes (hidden ++ shown) := by simpa using h.pos
  have hlt : ib.pos < ib.len := by
    rw [h.pos, h.len_eq, bytes_cons]
    push_cast
    omega
  have hwidth := getCharWidth_pos t ch ib.encoding
  have hcolumns := columns_nonneg t ib.encoding shown
  have hplaced := hx.x
  have hlast := hx.lt
  rw [InputBuf.stepRight, if_pos hlt]
  dsimp only
  rw [hpos, hrow.widthAt, hrow.next]
  split
  case isFalse hin =>
      refine ⟨[], shown ++ [ch], by simp, ⟨?_, by simpa using h.offset, by simp; omega⟩, ?_,
        not_le.mp hin⟩
      · simpa using hrow.moved (ib.x + getCharWidth t ch ib.encoding)
          (bytes (hidden ++ shown) + ch.length) ib.offset
      · simp only [columns_append, columns_cons, columns_nil]
        omega
  case isTrue hout =>
      have hmoved := hrow.moved (ib.x + getCharWidth t ch ib.encoding)
        (bytes (hidden ++ shown) + ch.length) ib.offset
      have hwindow : Row { ib with
          x := ib.x + getCharWidth t ch ib.encoding
          pos := bytes (hidden ++ shown) + ch.length } (hidden ++ ((shown ++ [ch]) ++ rest)) := by
        simpa using hmoved
      have hturns : (shown ++ [ch]).length ≤ (ib.len - ib.offset).toNat := by
        have hbytes : (shown ++ [ch]).length ≤ bytes (shown ++ [ch]) :=
          length_le_bytes (chars_append.mp (chars_append.mp hwindow.chars).2).1
        rw [h.len_eq, h.offset]
        simp only [bytes_append, bytes_cons, bytes_nil] at hbytes ⊢
        omega
      obtain ⟨out, left, hsplit, -, hshift, hloop⟩ := shiftLoop_row (t := t)
        (ib.len - ib.offset).toNat hwindow hturns
        (show 0 < ib.x + getCharWidth t ch ib.encoding - (t.neColumns - 1) by omega)
        (by
          simp only [columns_append, columns_cons, columns_nil]
          omega)
      rw [h.offset] at hloop ⊢
      rw [hloop]
      have hbytes := congrArg bytes hsplit
      have hwidths := congrArg (columns t ib.encoding) hsplit
      simp only [bytes_append, bytes_cons, bytes_nil, columns_append, columns_cons,
        columns_nil] at hbytes hwidths
      refine ⟨out, left, ?_, ⟨?_, by simp, ?_⟩, ?_, ?_⟩
      · rw [← hsplit]
        simp
      · have hleft : hidden ++ out ++ (left ++ rest) = hidden ++ ((shown ++ [ch]) ++ rest) := by
          rw [hsplit]
          simp
        rw [List.drop_one, List.tail_cons, hleft]
        exact hwindow.moved _ _ _
      · simp only [bytes_append]
        omega
      · dsimp only
        omega
      · dsimp only at hshift ⊢
        omega

/-- The cursor is on a character of the line, in its column. -/
def At (t : Terminal) (ib : InputBuf) (row : List (List Byte)) : Prop :=
  ∃ hidden shown rest, hidden ++ (shown ++ rest) = row ∧ Holds ib hidden shown rest ∧
    Placed t ib shown

/-- The line is a row of characters, and the window and the cursor start with one of them. -/
def Rowed (ib : InputBuf) : Prop := ∃ hidden shown rest, Holds ib hidden shown rest

theorem At.toRow (h : At t ib row) : Row ib row := by
  obtain ⟨hidden, shown, rest, rfl, hholds, -⟩ := h
  exact hholds.row

theorem At.startX_lt (h : At t ib row) : ib.startX < t.neColumns := by
  obtain ⟨hidden, shown, rest, -, -, hplaced⟩ := h
  have := columns_nonneg t ib.encoding shown
  have := hplaced.x
  have := hplaced.lt
  omega

theorem Holds.refresh (h : Holds ib hidden shown rest) : Holds ib.refresh hidden shown rest :=
  ⟨h.row.moved _ _ _, h.offset, h.pos⟩

theorem Holds.started (h : Holds ib hidden shown rest) (startX : Int) :
    Holds { ib with startX := startX } hidden shown rest :=
  ⟨⟨h.row.valid, h.row.sized, h.row.ends, h.row.len⟩, h.offset, h.pos⟩

theorem Placed.x_eq_iff (h : Placed t ib shown) : ib.x = ib.startX ↔ shown = [] := by
  have hx := h.x
  constructor
  · intro heq
    by_contra hne
    have := columns_pos (t := t) (e := ib.encoding) hne
    omega
  · rintro rfl
    simpa using hx

theorem stepRight_frame (t : Terminal) (ib : InputBuf) :
    (ib.stepRight t).1.startX = ib.startX ∧ (ib.stepRight t).1.encoding = ib.encoding := by
  unfold InputBuf.stepRight
  split
  · dsimp only
    split <;> exact ⟨rfl, rfl⟩
  · exact ⟨rfl, rfl⟩

theorem stepLeft_frame (t : Terminal) (ib : InputBuf) :
    (ib.stepLeft t).1.startX = ib.startX ∧ (ib.stepLeft t).1.encoding = ib.encoding := by
  unfold InputBuf.stepLeft
  split
  · dsimp only
    split <;> exact ⟨rfl, rfl⟩
  · exact ⟨rfl, rfl⟩

theorem stepToEol_frame (t : Terminal) (ib : InputBuf) :
    (ib.stepToEol t).1.startX = ib.startX ∧ (ib.stepToEol t).1.encoding = ib.encoding := by
  have hloop : ∀ turns i (ib : InputBuf), (ib.eolLoop t turns i).startX = ib.startX ∧
      (ib.eolLoop t turns i).encoding = ib.encoding := by
    intro turns
    induction turns with
    | zero => exact fun _ _ => ⟨rfl, rfl⟩
    | succ turns ih =>
        intro i ib
        rw [InputBuf.eolLoop]
        split
        · exact ⟨rfl, rfl⟩
        · exact ih _ _
  unfold InputBuf.stepToEol
  dsimp only
  split
  · exact ⟨rfl, rfl⟩
  · exact hloop _ _ _

theorem stepLeft_at (h : At t ib row) : At t (ib.stepLeft t).1 row := by
  obtain ⟨hidden, shown, rest, rfl, hholds, hplaced⟩ := h
  obtain ⟨hidden', shown', rest', hrow, hholds', -, -, hmoved⟩ :=
    stepLeft_holds hholds hplaced.x_eq_iff
  obtain ⟨hx, hle⟩ := hmoved hplaced.x
  obtain ⟨hstart, hencoding⟩ := stepLeft_frame t ib
  refine ⟨hidden', shown', rest', hrow, hholds', ?_, hle.trans_lt hplaced.lt⟩
  rw [hstart, hencoding]
  exact hx

theorem stepRight_at (h : At t ib row) : At t (ib.stepRight t).1 row := by
  obtain ⟨hidden, shown, rest, rfl, hholds, hplaced⟩ := h
  obtain ⟨out, shown', hsplit, hholds', hplaced'⟩ := stepRight_holds hholds hplaced
  refine ⟨hidden ++ out, shown', rest.drop 1, ?_, hholds', hplaced'⟩
  rw [List.append_assoc, ← List.append_assoc out, hsplit, List.append_assoc, List.take_append_drop]

theorem stepRight_offset_le (h : At t ib row) : ib.offset ≤ (ib.stepRight t).1.offset := by
  obtain ⟨hidden, shown, rest, rfl, hholds, hplaced⟩ := h
  obtain ⟨out, shown', -, hholds', -⟩ := stepRight_holds hholds hplaced
  rw [hholds.offset, hholds'.offset, bytes_append]
  omega

theorem moveLeft_false (ib : InputBuf) : ib.moveLeft t p false = (ib.stepLeft t).1 := by
  simp [InputBuf.moveLeft]

theorem moveRight_false (ib : InputBuf) : ib.moveRight t p false = (ib.stepRight t).1 := by
  simp [InputBuf.moveRight]

theorem nextWordLoop_at (turns : Nat) (spaceSkipped : Bool) (h : At t ib row) :
    At t (ib.nextWordLoop t p turns spaceSkipped) row ∧
      ib.offset ≤ (ib.nextWordLoop t p turns spaceSkipped).offset ∧
      (ib.nextWordLoop t p turns spaceSkipped).encoding = ib.encoding := by
  induction turns generalizing ib spaceSkipped with
  | zero => exact ⟨h, le_rfl, rfl⟩
  | succ turns ih =>
      rw [InputBuf.nextWordLoop]
      split
      · dsimp only
        split
        · exact ⟨h, le_rfl, rfl⟩
        · rw [moveRight_false]
          obtain ⟨hat, hle, hencoding⟩ := ih _ (stepRight_at h)
          exact ⟨hat, (stepRight_offset_le h).trans hle, hencoding.trans (stepRight_frame t ib).2⟩
      · exact ⟨h, le_rfl, rfl⟩

theorem At.scrolled (h : At t ib row) :
    At t { ib with offset := ib.pos, x := ib.startX } row := by
  have hstart := h.startX_lt
  obtain ⟨hidden, shown, rest, rfl, hholds, hplaced⟩ := h
  refine ⟨hidden ++ shown, [], rest, by simp, ⟨?_, ?_, ?_⟩, by simp, hstart⟩
  · simpa using hholds.row.moved ib.startX ib.pos ib.pos
  · simpa using hholds.pos
  · simpa using hholds.pos

theorem At.pos_nonneg (h : At t ib row) : 0 ≤ ib.pos := by
  obtain ⟨hidden, shown, rest, -, hholds, -⟩ := h
  rw [hholds.pos]
  omega

theorem At.offset_le (h : At t ib row) : ib.offset ≤ ib.pos := by
  obtain ⟨hidden, shown, rest, -, hholds, -⟩ := h
  rw [hholds.offset, hholds.pos]
  omega

theorem toNextWord_at (h : At t ib row) :
    At t (ib.toNextWord t p) row ∧ ib.offset ≤ (ib.toNextWord t p).offset ∧
      (ib.toNextWord t p).encoding = ib.encoding := by
  obtain ⟨hat, hle, hencoding⟩ := nextWordLoop_at (p := p) (ib.len - ib.pos).toNat false h
  rw [InputBuf.toNextWord]
  split
  · exact ⟨hat.scrolled, hle.trans hat.offset_le, hencoding⟩
  · exact ⟨hat, hle, hencoding⟩

theorem stepLeft_pos (h : At t ib row) (hpos : 0 < ib.pos) :
    ∃ front ch back, row = front ++ ch :: back ∧ ib.pos = bytes front + ch.length ∧
      (ib.stepLeft t).1.pos = bytes front := by
  obtain ⟨hidden, shown, rest, rfl, hholds, -⟩ := h
  rcases List.eq_nil_or_concat (hidden ++ shown) with hnil | ⟨front, ch, hsplit⟩
  · obtain ⟨rfl, rfl⟩ := List.append_eq_nil_iff.mp hnil
    have := hholds.pos
    simp only [bytes_nil] at this
    omega
  · have hrow : hidden ++ (shown ++ rest) = front ++ ch :: rest := by
      rw [← List.append_assoc, hsplit]
      simp
    have hplace : ib.pos = bytes front + ch.length := by
      have hbytes := congrArg bytes hsplit
      simp only [List.concat_eq_append, bytes_append, bytes_cons, bytes_nil] at hbytes
      have := hholds.pos
      omega
    refine ⟨front, ch, rest, hrow, hplace, ?_⟩
    have hprev := (hrow ▸ hholds.row).prev
    rw [Nat.cast_add, ← hplace] at hprev
    rw [InputBuf.stepLeft, if_pos hpos]
    dsimp only
    split <;> exact hprev

theorem stepRight_pos (h : At t ib (front ++ ch :: back)) (hpos : ib.pos = bytes front) :
    (ib.stepRight t).1.pos = bytes front + ch.length := by
  have hrow := h.toRow
  have hlt : ib.pos < ib.len := by
    have := (hrow.chars ch (by simp)).length_pos
    rw [hrow.len, hpos, bytes_append, bytes_cons]
    push_cast
    omega
  rw [InputBuf.stepRight, if_pos hlt, hpos, hrow.next]
  dsimp only
  split <;> rfl

theorem toPrevWord_at (turns : Nat) (wordSkipped : Bool) (h : At t ib row) :
    At t (ib.toPrevWord t p turns wordSkipped) row ∧
      (ib.toPrevWord t p turns wordSkipped).pos ≤ ib.pos ∧
      (ib.toPrevWord t p turns wordSkipped).encoding = ib.encoding := by
  induction turns generalizing ib wordSkipped with
  | zero => exact ⟨h, le_rfl, rfl⟩
  | succ turns ih =>
      rw [InputBuf.toPrevWord]
      split
      case isFalse => exact ⟨h, le_rfl, rfl⟩
      case isTrue hpos =>
          obtain ⟨front, ch, back, rfl, hplace, hleft⟩ := stepLeft_pos h hpos
          have hat := stepLeft_at h
          have hencoding := (stepLeft_frame t ib).2
          have hback : ∀ wordSkipped, At t ((ib.stepLeft t).1.toPrevWord t p turns wordSkipped)
              (front ++ ch :: back) ∧
              ((ib.stepLeft t).1.toPrevWord t p turns wordSkipped).pos ≤ ib.pos ∧
              ((ib.stepLeft t).1.toPrevWord t p turns wordSkipped).encoding = ib.encoding := by
            intro wordSkipped
            obtain ⟨hdone, hle, hsame⟩ := ih wordSkipped hat
            exact ⟨hdone, by omega, hsame.trans hencoding⟩
          dsimp only
          rw [moveLeft_false, moveRight_false]
          split
          · exact hback true
          · split
            · exact ⟨stepRight_at hat, (stepRight_pos hat hleft).trans hplace.symm |>.le,
                (stepRight_frame t _).2.trans hencoding⟩
            · exact hback false

theorem moveToSol_holds (h : Row ib row) : Holds ib.moveToSol [] [] row := by
  rw [InputBuf.moveToSol]
  split
  case isTrue hzero => exact ⟨h.moved _ _ _, hzero, rfl⟩
  case isFalse => exact (⟨h.moved ib.startX 0 0, rfl, rfl⟩ : Holds _ [] [] row).refresh

/-- The loop of `input_move_to_eol`: the window takes characters before it as long as they
fit, and not all of the line does. -/
theorem eolLoop_holds {i : Int} (turns : Nat) (h : Row ib (hidden ++ shown))
    (hoffset : ib.offset = bytes hidden) (hpos : ib.pos = bytes hidden + bytes shown)
    (hx : ib.x = ib.startX + columns t ib.encoding shown) (hturns : (i + 1).toNat ≤ turns)
    (hwide : i < columns t ib.encoding hidden) :
    ∃ hidden' shown', hidden' ++ shown' = hidden ++ shown ∧
      Holds (ib.eolLoop t turns i) hidden' shown' [] ∧
      (ib.eolLoop t turns i).x = ib.startX + columns t ib.encoding shown' ∧
      (0 ≤ i → columns t ib.encoding shown' ≤ i + columns t ib.encoding shown) := by
  have hdone : Holds ib hidden shown [] := ⟨by simpa using h, hoffset, hpos⟩
  induction turns generalizing ib i hidden shown with
  | zero => exact ⟨hidden, shown, rfl, hdone, hx, fun hi => by omega⟩
  | succ turns ih =>
      rw [InputBuf.eolLoop]
      split
      · exact ⟨hidden, shown, rfl, hdone, hx, fun hi => by omega⟩
      case isFalse hmore =>
          have hwidth : 1 ≤ ib.widthAt t (ib.prev ib.offset) := getCharWidth_pos _ _ _
          rcases List.eq_nil_or_concat hidden with rfl | ⟨hidden, ch, rfl⟩
          · rw [columns_nil] at hwide
            omega
          have hrow : Row ib (hidden ++ ch :: shown) := by simpa using h
          have hplace : ib.offset = ((bytes hidden + ch.length : Nat) : Int) := by
            rw [hoffset]
            simp
          rw [hplace, hrow.prev, hrow.widthAt] at hmore hwidth ⊢
          rw [List.concat_eq_append, columns_append, columns_cons, columns_nil] at hwide
          simp only [List.concat_eq_append, bytes_append, bytes_cons, bytes_nil] at hpos
          have hmoved := hrow.moved (ib.x + getCharWidth t ch ib.encoding) ib.pos (bytes hidden)
          obtain ⟨hidden', shown', heq, hholds, hplaced, hfits⟩ := ih hmoved rfl
            (by
              rw [bytes_cons]
              push_cast at hpos ⊢
              omega)
            (by
              rw [columns_cons]
              dsimp only
              omega)
            (show (i - getCharWidth t ch ib.encoding + 1).toNat ≤ turns by omega)
            (show i - getCharWidth t ch ib.encoding < columns t ib.encoding hidden by omega)
            ⟨by simpa using hmoved, rfl, by
              rw [bytes_cons]
              push_cast at hpos ⊢
              omega⟩
          refine ⟨hidden', shown', by simpa using heq, hholds, hplaced, fun _ => ?_⟩
          have hfits := hfits (by omega)
          rw [columns_cons] at hfits
          dsimp only at hfits
          omega

/-- `input_move_to_eol`, before the line is drawn again -/
theorem stepToEol_holds (h : Holds ib hidden shown rest)
    (hx : ib.x = ib.startX + columns t ib.encoding shown) :
    ∃ hidden' shown', hidden' ++ shown' = hidden ++ (shown ++ rest) ∧
      Holds (ib.stepToEol t).1 hidden' shown' [] ∧
      (ib.stepToEol t).1.x = ib.startX + columns t ib.encoding shown' ∧
      (ib.startX < t.neColumns → (ib.stepToEol t).1.x < t.neColumns) := by
  have hrow : Row ib ((hidden ++ shown) ++ (rest ++ [])) := by simpa using h.row
  have hwidth := hrow.stringWidth (t := t)
  have hpos : ib.pos = bytes (hidden ++ shown) := by simpa using h.pos
  have hcount : ib.len - ib.pos = bytes rest := by
    rw [h.len_eq, h.pos]
    omega
  rw [InputBuf.stepToEol]
  dsimp only
  rw [hcount, hpos, Int.toNat_natCast, hwidth]
  split
  case isTrue hnear =>
      refine ⟨hidden, shown ++ rest, rfl, ⟨?_, h.offset, ?_⟩, ?_, fun _ => hnear⟩
      · simpa using h.row.moved (ib.x + columns t ib.encoding rest) ib.len ib.offset
      · rw [bytes_append]
        push_cast
        have := h.len_eq
        omega
      · rw [columns_append]
        dsimp only
        omega
  case isFalse hfar =>
      have hwhole := columns_nonneg t ib.encoding hidden
      have hend := h.row.moved ib.startX ib.len ib.len
      obtain ⟨hidden', shown', heq, hholds, hplaced, hfits⟩ :=
        (@eolLoop_holds t _ (hidden ++ (shown ++ rest)) []) (i := t.neColumns - 1 - ib.startX)
        (t.neColumns - 1 - ib.startX + 1).toNat (by simpa using hend) h.row.len
        (by simpa using h.row.len) (by simp) le_rfl
        (by
          rw [columns_append, columns_append]
          dsimp only
          omega)
      refine ⟨hidden', shown', by simpa using heq, hholds, hplaced, fun hstart => ?_⟩
      have hfits := hfits (by omega)
      rw [columns_nil] at hfits
      dsimp only at hplaced hfits ⊢
      omega

/-- Characters are inserted at the cursor. -/
theorem insert_holds (h : Holds ib hidden shown rest) (hcs : Valid ib.encoding cs)
    (hfits : ib.len + bytes cs ≤ maxInputLineLen) :
    Holds (ib.insert cs.flatten) hidden shown (cs ++ rest) := by
  obtain ⟨junk, hbuf⟩ := h.row.ends
  have hsplit : ib.buf = (hidden ++ shown).flatten ++ ([] ++ (rest.flatten ++ 0 :: junk)) := by
    rw [hbuf]
    simp
  have hlen := h.len_eq
  have hpos : ib.pos = ((hidden ++ shown).flatten.length : Nat) := by
    rw [h.pos, ← Nat.cast_add, ← bytes_append]
    rfl
  have hcount : ib.len - ib.pos + 1 = ((rest.flatten.length + 1 : Nat) : Int) := by
    rw [hlen, h.pos]
    simp only [bytes]
    push_cast
    omega
  have hplace : ib.pos + cs.flatten.length =
      (((hidden ++ shown).flatten.length + cs.flatten.length : Nat) : Int) := by
    rw [hpos]
    push_cast
    rfl
  have hsize := h.row.sized.length
  rw [h.row.len] at hfits
  simp only [bytes_append] at hfits
  -- the rest and the 0 are moved behind the place of the new characters
  have hread : (ib.buf.drop (hidden ++ shown).flatten.length).take (rest.flatten.length + 1) =
      rest.flatten ++ [0] := by
    rw [hsplit, List.drop_left, List.nil_append, List.append_cons, List.take_left' (by simp)]
  have hroom : (hidden ++ shown).flatten.length + cs.flatten.length + (rest.flatten ++ [0]).length ≤
      ib.buf.length := by
    rw [hsize]
    simp only [bytes] at hfits
    simp only [List.flatten_append, List.length_append, List.length_singleton]
    omega
  have hmoved : memmove ib.buf (ib.pos + cs.flatten.length) ib.pos (ib.len - ib.pos + 1) =
      write ib.buf (((hidden ++ shown).flatten.length + cs.flatten.length : Nat) : Int)
        (rest.flatten ++ [0]) := by
    rw [memmove, hcount, hplace, hpos, Int.toNat_natCast, Int.toNat_natCast, hread]
  have hsized := h.row.sized.write (.inr ⟨hroom, by simp⟩)
  obtain ⟨front, hfront⟩ : ∃ front, front.length = cs.flatten.length ∧
      write ib.buf (((hidden ++ shown).flatten.length + cs.flatten.length : Nat) : Int)
          (rest.flatten ++ [0]) =
        (hidden ++ shown).flatten ++ (front ++ (rest.flatten ++ 0 ::
          ib.buf.drop ((hidden ++ shown).flatten.length + cs.flatten.length +
            (rest.flatten ++ [0]).length))) := by
    refine ⟨(ib.buf.drop (hidden ++ shown).flatten.length).take cs.flatten.length, ?_, ?_⟩
    · rw [List.length_take, List.length_drop]
      omega
    · rw [write, Int.toNat_natCast, List.take_add, ← List.append_assoc]
      have htake : ib.buf.take (hidden ++ shown).flatten.length = (hidden ++ shown).flatten := by
        rw [hsplit, List.take_left]
      rw [htake]
      simp
  obtain ⟨junk', hwritten⟩ : ∃ junk', (ib.insert cs.flatten).buf =
      (hidden ++ shown).flatten ++ (cs.flatten ++ (rest.flatten ++ 0 :: junk')) := by
    apply Exists.intro
    rw [InputBuf.insert]
    dsimp only
    rw [hmoved, hfront.2, hpos, write_append, ← hfront.1, List.drop_left]
  refine ⟨⟨?_, ?_, ?_, ?_⟩, h.offset, h.pos⟩
  · obtain ⟨hhidden, hvisible⟩ := valid_append.mp h.row.valid
    obtain ⟨hshown, hrest⟩ := valid_append.mp hvisible
    exact valid_append.mpr ⟨hhidden, valid_append.mpr ⟨hshown, valid_append.mpr ⟨hcs, hrest⟩⟩⟩
  · rw [InputBuf.insert]
    dsimp only
    rw [hmoved, hpos]
    refine hsized.write (.inl ?_)
    rw [hsized.length, ← hsize]
    simp only [List.length_append, List.length_singleton] at hroom ⊢
    omega
  · refine ⟨junk', ?_⟩
    rw [hwritten]
    simp
  · rw [InputBuf.insert]
    dsimp only
    rw [hlen]
    simp only [bytes_append]
    rw [show cs.flatten.length = bytes cs from rfl]
    push_cast
    omega

theorem cutAt_row (h : Row ib (cs ++ cs')) : Row (ib.cutAt (bytes cs)) cs := by
  obtain ⟨junk, hbuf⟩ := h.ends
  have hlen := h.len_le
  have hsize := h.sized.length
  have hplace : bytes cs + [(0 : Byte)].length ≤ ib.buf.length := by
    rw [h.len, bytes_append] at hlen
    rw [hsize, List.length_singleton]
    omega
  refine ⟨(valid_append.mp h.valid).1, h.sized.write (.inr ⟨hplace, rfl⟩), ?_, rfl⟩
  refine ⟨(cs'.flatten ++ 0 :: junk).drop 1, ?_⟩
  rw [InputBuf.cutAt]
  dsimp only
  rw [hbuf, List.flatten_append, List.append_assoc, bytes, write_append]
  rfl

theorem cutAt_holds (h : Holds ib hidden shown rest) :
    Holds (ib.cutAt ib.pos) hidden shown [] := by
  have hrow : Row ib ((hidden ++ shown) ++ rest) := by simpa using h.row
  have hpos : ib.pos = bytes (hidden ++ shown) := by simpa using h.pos
  refine ⟨?_, h.offset, h.pos⟩
  rw [hpos]
  simpa using cutAt_row hrow

theorem clear_row (h : Row ib row) : Row (ib.cutAt 0) [] := (@cutAt_row _ []) h

/-- The characters before the cursor are deleted, from a place on. -/
theorem deleteBack_row (h : Row ib (cs ++ (row ++ cs'))) (hpos : ib.pos = bytes (cs ++ row)) :
    Row (ib.deleteBack (bytes cs)) (cs ++ cs') := by
  obtain ⟨junk, hbuf⟩ := h.ends
  have hlen := h.len
  simp only [bytes_append] at hpos hlen
  have hcount : ib.len - ib.pos + 1 = (cs'.flatten.length : Int) + 1 := by
    rw [hlen, hpos]
    simp only [bytes]
    push_cast
    omega
  have hsplit : ib.buf = cs.flatten ++ (row.flatten ++ (cs'.flatten ++ 0 :: junk)) := by
    rw [hbuf]
    simp
  have hmoved : memmove ib.buf (bytes cs) ib.pos (ib.len - ib.pos + 1) = cs.flatten ++
      (cs'.flatten ++ 0 :: (row.flatten ++ (cs'.flatten ++ 0 :: junk)).drop
        (cs'.flatten.length + 1)) := by
    rw [hcount, hpos, hsplit]
    exact_mod_cast memmove_append cs.flatten cs'.flatten row.flatten junk
  obtain ⟨hfront, hback⟩ := valid_append.mp h.valid
  have hsize := h.sized.length
  refine ⟨?_, ?_, ?_, ?_⟩
  · exact valid_append.mpr ⟨hfront, (valid_append.mp hback).2⟩
  · rw [InputBuf.deleteBack]
    dsimp only
    rw [memmove]
    refine h.sized.write (.inr ?_)
    have hread : (ib.buf.drop ib.pos.toNat).take (ib.len - ib.pos + 1).toNat =
        cs'.flatten ++ [0] := by
      have hplace : ib.pos.toNat = (cs.flatten ++ row.flatten).length := by
        rw [hpos, List.length_append]
        rfl
      have htoNat : ((cs'.flatten.length : Int) + 1).toNat = cs'.flatten.length + 1 := by omega
      rw [hcount, htoNat, hplace, hsplit, ← List.append_assoc, List.drop_left, List.append_cons,
        List.take_left' (by simp)]
    rw [hread]
    refine ⟨?_, by simp⟩
    have hlengths := congrArg List.length hsplit
    simp only [List.length_append, List.length_cons, List.length_nil] at hlengths ⊢
    rw [hlengths, bytes]
    omega
  · apply Exists.intro
    rw [InputBuf.deleteBack]
    dsimp only
    rw [hmoved, List.flatten_append, List.append_assoc]
  · rw [InputBuf.deleteBack]
    dsimp only
    rw [hlen, hpos, bytes_append]
    push_cast
    omega

theorem deleteAt_holds (h : Holds ib hidden shown (ch :: rest)) :
    Holds ib.deleteAt hidden shown rest := by
  have hrow : Row ib ((hidden ++ shown) ++ ([ch] ++ rest)) := by simpa using h.row
  have hch : IsChar ib.encoding ch := hrow.chars ch (by simp)
  obtain ⟨junk, hbuf⟩ := hrow.ends
  have hcLen : charLen ib.encoding (ib.buf.getD ib.pos.toNat 0) = ch.length := by
    have hplace : ib.pos.toNat = (hidden ++ shown).flatten.length := by
      rw [h.pos, ← Nat.cast_add, ← bytes_append]
      rfl
    have hsplit : ib.buf = (hidden ++ shown).flatten ++ (ch ++ (rest.flatten ++ 0 :: junk)) := by
      rw [hbuf]
      simp
    rw [hplace, hsplit, List.getD_append_right _ _ _ _ le_rfl, Nat.sub_self, charLen_char hch]
  -- the deletion is one back from the end of the character
  have hback : ib.deleteAt =
      { { ib with pos := ib.pos + ch.length }.deleteBack ib.pos with pos := ib.pos } := by
    rw [InputBuf.deleteAt, hcLen, InputBuf.deleteBack]
    dsimp only
    have hcount : ib.len - ib.pos - ch.length + 1 = ib.len - (ib.pos + ch.length) + 1 := by omega
    have hless : ib.len - ch.length = ib.len - (ib.pos + ch.length - ib.pos) := by omega
    rw [hcount, hless]
  have hpos : ib.pos = bytes (hidden ++ shown) := by simpa using h.pos
  have hdeleted := (@deleteBack_row ({ ib with pos := ib.pos + ch.length }))
    (hrow.moved ib.x (ib.pos + ch.length) ib.offset) (by
      dsimp only
      rw [hpos]
      simp only [bytes_append, bytes_cons, bytes_nil]
      push_cast
      rfl)
  rw [hback, ← hpos] at *
  refine ⟨?_, h.offset, h.pos⟩
  rw [List.append_assoc] at hdeleted
  exact ⟨hdeleted.valid, hdeleted.sized, hdeleted.ends, hdeleted.len⟩

theorem takeWhile_zero_not_mem (l : List Byte) : 0 ∉ l.takeWhile (· != 0) :=
  fun hmem => by simpa using List.mem_takeWhile_imp hmem

theorem exists_row {junk : List Byte} (x pos offset start : Int) (hsized : Sized buf)
    (hbuf : buf = s ++ 0 :: junk) (hzero : 0 ∉ s) (hexact : Exact s) :
    ∃ row, row.flatten = s ∧ Row ⟨start, strlen buf, x, pos, offset,
      detectEncoding (buf.take (strlen buf)), buf⟩ row := by
  have hlen : strlen buf = s.length := by
    rw [strlen, hbuf]
    exact congrArg List.length ((@cString_middle []) hzero)
  have htake : buf.take (strlen buf) = s := by rw [hlen, hbuf, List.take_left]
  obtain ⟨row, hvalid, hflatten⟩ := exists_valid hzero hexact
  refine ⟨row, hflatten, ?_, hsized, ⟨junk, ?_⟩, ?_⟩
  · rw [htake]
    exact hvalid
  · rw [hflatten]
    exact hbuf
  · rw [hlen, bytes, hflatten]

/-- The part of a string that there is room for in the line. -/
def copied (s : List Byte) : List Byte := (s.take maxInputLineLen).takeWhile (· != 0)

theorem strncpy_eq (s : List Byte) (n : Nat) :
    ∃ zeros, strncpy s n = (s.take n).takeWhile (· != 0) ++ zeros ∧ (∀ x ∈ zeros, x = 0) ∧
      (strncpy s n).length = n := by
  have hle := (List.takeWhile_sublist (· != 0) (l := s.take n)).length_le
  rw [List.length_take] at hle
  refine ⟨_, rfl, fun x hx => List.eq_of_mem_replicate hx, ?_⟩
  rw [strncpy, List.length_append, List.length_replicate]
  omega

theorem zeros_append {zeros : List Byte} (h : ∀ x ∈ zeros, x = 0) (l : List Byte) :
    ∃ junk, zeros ++ 0 :: l = 0 :: junk := by
  cases zeros with
  | nil => exact ⟨l, rfl⟩
  | cons x zeros =>
      obtain rfl := h x List.mem_cons_self
      exact ⟨_, rfl⟩

theorem setLine_row (hsized : Sized ib.buf) (hexact : Exact (copied s)) :
    ∃ row, Row (ib.setLine s) row := by
  obtain ⟨zeros, heq, hzeros, hlength⟩ := strncpy_eq s maxInputLineLen
  have hfits : 0 + (strncpy s maxInputLineLen).length < ib.buf.length := by
    rw [hlength, hsized.length]
    omega
  have hwritten := hsized.write (.inl hfits)
  obtain ⟨front, hfront⟩ : ∃ front, ib.buf = front ++ [0] :=
    List.getLast?_eq_some_iff.mp hsized.last
  have hlast : ib.buf.drop (strncpy s maxInputLineLen).length = [0] := by
    have hfrontlength : front.length = maxInputLineLen := by
      have := congrArg List.length hfront
      rw [hsized.length, List.length_append, List.length_singleton] at this
      omega
    rw [hlength, hfront, ← hfrontlength, List.drop_left]
  obtain ⟨junk, hjunk⟩ := zeros_append hzeros []
  obtain ⟨row, -, hrow⟩ := (@exists_row (copied s) _ junk) ib.x ib.pos ib.offset ib.startX hwritten
    (by
      rw [write, Int.toNat_natCast, List.take_zero, List.nil_append, Nat.zero_add, hlast, heq,
        List.append_assoc, hjunk, copied])
    (takeWhile_zero_not_mem _) hexact
  exact ⟨row, hrow⟩

theorem setHistoryLine_holds (hsized : Sized ib.buf) (hexact : Exact (copied line)) :
    ∃ row, Holds (ib.setHistoryLine line) [] [] row := by
  rw [InputBuf.setHistoryLine]
  by_cases hempty : line = []
  · have hroom : 0 + [(0 : Byte)].length ≤ ib.buf.length := by
      rw [hsized.length]
      exact Nat.succ_le_succ (Nat.zero_le _)
    refine ⟨[], ⟨?_, rfl, rfl⟩⟩
    rw [if_pos hempty]
    exact ⟨Valid.nil, hsized.write (.inr ⟨hroom, rfl⟩),
      ⟨ib.buf.drop 1, by simp [InputBuf.cutAt, write]⟩, rfl⟩
  · rw [if_neg hempty]
    dsimp only
    generalize hn : min line.length maxInputLineLen = n
    have hnle : n ≤ maxInputLineLen := hn ▸ min_le_right _ _
    obtain ⟨zeros, heq, hzeros, hlength⟩ := strncpy_eq line n
    have hcopied : (line.take n).takeWhile (· != 0) = copied line := by
      rw [copied, ← hn, min_comm, ← List.take_eq_take_min]
    rw [hcopied] at heq
    have hroom : 0 + (strncpy line n).length < ib.buf.length := by
      rw [hlength, hsized.length]
      omega
    have hcopied := hsized.write (.inl hroom)
    have hroom : n + [(0 : Byte)].length ≤ (write ib.buf (0 : Nat) (strncpy line n)).length := by
      rw [hcopied.length, List.length_singleton]
      omega
    have hended := hcopied.write (.inr ⟨hroom, rfl⟩)
    obtain ⟨junk, hjunk⟩ := zeros_append hzeros ((ib.buf.drop n).drop 1)
    have hfirst : write ib.buf ((0 : Nat) : Int) (strncpy line n) =
        strncpy line n ++ ib.buf.drop n := by
      rw [write, Int.toNat_natCast, List.take_zero, List.nil_append, Nat.zero_add, hlength]
    have hbuf : write (write ib.buf ((0 : Nat) : Int) (strncpy line n)) n [0] =
        copied line ++ 0 :: junk := by
      have hplace : (n : Int) = (strncpy line n).length := by rw [hlength]
      rw [hfirst, hplace, write_append, heq, List.append_assoc, List.singleton_append,
        List.length_singleton, hjunk]
    obtain ⟨row, -, hrow⟩ := exists_row ib.startX 0 0 ib.startX hended hbuf
      (takeWhile_zero_not_mem _) hexact
    exact ⟨row, hrow, rfl, rfl⟩

theorem isAscii_iff (s : List Byte) : isAscii s = true ↔ ∀ x ∈ s, x < 0x80 := by
  simp [isAscii]

theorem columns_ascii (h : Chars .ascii cs) (e e' : EncodingType) :
    columns t e cs = columns t e' cs := by
  have hwidth : ∀ e, ∀ ch ∈ cs, getCharWidth t ch e = 1 := by
    intro e ch hch
    cases h ch hch with
    | ascii hne hc => exact if_pos hc
  rw [columns, columns, List.map_congr_left (hwidth e), List.map_congr_left (hwidth e')]

theorem Holds.encoding (h : Holds ib hidden shown rest)
    (he : Valid e (hidden ++ (shown ++ rest))) :
    Holds { ib with encoding := e } hidden shown rest :=
  ⟨⟨he, h.row.sized, h.row.ends, h.row.len⟩, h.offset, h.pos⟩

theorem toAscii_holds (h : Holds ib hidden shown rest) : Holds ib.toAscii hidden shown rest := by
  rw [InputBuf.toAscii]
  split
  case isTrue hascii =>
      rw [isAscii_iff, h.row.text] at hascii
      exact h.encoding (h.row.valid.to_ascii hascii)
  case isFalse => exact h

theorem toAscii_placed (h : Holds ib hidden shown rest) (hx : Placed t ib shown) :
    Placed t ib.toAscii shown := by
  rw [InputBuf.toAscii]
  split
  case isTrue hascii =>
      rw [isAscii_iff, h.row.text] at hascii
      have hchars := h.row.chars.to_ascii hascii
      have hshown := (chars_append.mp (chars_append.mp hchars).2).1
      exact ⟨by rw [columns_ascii hshown .ascii ib.encoding]; exact hx.x, hx.lt⟩
  case isFalse => exact hx

theorem upTo_split (s : List Byte) (q : Byte) :
    (s.reverse.dropWhile (· != q)).reverse = [] ∨
      ∃ front back, s = front ++ q :: back ∧
        (s.reverse.dropWhile (· != q)).reverse = front ++ [q] := by
  cases hdrop : s.reverse.dropWhile (· != q) with
  | nil => exact .inl rfl
  | cons x l =>
      right
      have hx : x = q := by
        have hhead := List.head_dropWhile_not (· != q) (l := s.reverse) (by rw [hdrop]; simp)
        simp only [hdrop, List.head_cons] at hhead
        simpa using hhead
      have hsplit := List.takeWhile_append_dropWhile (p := (· != q)) (l := s.reverse)
      rw [hdrop, hx] at hsplit
      refine ⟨l.reverse, (s.reverse.takeWhile (· != q)).reverse, ?_, by simp [hx]⟩
      have hreverse := congrArg List.reverse hsplit
      rw [List.reverse_append, List.reverse_cons, List.reverse_reverse, List.append_assoc,
        List.singleton_append] at hreverse
      exact hreverse.symm

theorem Row.split_place (h : Row ib row) {x : Byte} (hflatten : row.flatten = a ++ x :: b)
    (hlow : x < 0x80) : ∃ cs cs', row = cs ++ cs' ∧ cs.flatten = a ++ [x] := by
  obtain ⟨front, back, rfl, hfront, -⟩ := h.chars.split_ascii hflatten hlow
  exact ⟨front ++ [[x]], back, by simp, by simp [hfront]⟩

theorem Row.unquoted (h : Row ib row) {q : Byte} (hflatten : row.flatten = s ++ [q]) :
    ∃ junk, ib.buf = s ++ q :: 0 :: junk ∧ write ib.buf (ib.len - 1) [0] = s ++ 0 :: 0 :: junk := by
  obtain ⟨junk, hbuf⟩ := h.ends
  have hplace : ib.len - 1 = s.length := by
    rw [h.len, bytes, hflatten, List.length_append, List.length_singleton]
    omega
  rw [hflatten, List.append_assoc] at hbuf
  refine ⟨junk, hbuf, ?_⟩
  rw [hbuf, hplace, write_append]
  rfl

theorem Row.cString_unquoted (h : Row ib row) {q : Byte} (hflatten : row.flatten = s ++ [q]) :
    Streams.cString (write ib.buf (ib.len - 1) [0]) 0 = s := by
  obtain ⟨junk, -, hwritten⟩ := h.unquoted hflatten
  have hzero : 0 ∉ s := by
    intro hmem
    exact h.zero_not_mem (hflatten ▸ List.mem_append_left [q] hmem)
  rw [hwritten]
  exact (@cString_middle []) hzero

/-- A line that a completion is inserted in between quotes ends with one, and has another one
before it. -/
theorem Row.quoted (h : Row ib row) {place : Nat} (hquoted : ib.quotedPrefix = some place) :
    ∃ before back, row.flatten = before ++ 34 :: back ++ [34] ∧
      place = (before ++ [(34 : Byte)]).length := by
  rw [InputBuf.quotedPrefix] at hquoted
  split at hquoted
  case isFalse => exact absurd hquoted nofun
  case isTrue hquote =>
      obtain ⟨front, q, hflatten⟩ : ∃ front q, row.flatten = front ++ [q] := by
        have hne : row.flatten ≠ [] := by
          intro heq
          rw [h.len, bytes, heq] at hquote
          exact absurd hquote.1 (by decide)
        exact ⟨_, _, (List.dropLast_append_getLast hne).symm⟩
      obtain ⟨junk, hbuf, -⟩ := h.unquoted hflatten
      have hq : q = 34 := by
        have hplace : (ib.len - 1).toNat = front.length := by
          rw [h.len, bytes, hflatten, List.length_append, List.length_singleton]
          omega
        have hlast := hquote.2
        rw [hplace, hbuf, List.getD_append_right _ _ _ _ le_rfl, Nat.sub_self] at hlast
        exact hlast
      rw [h.cString_unquoted hflatten] at hquoted
      dsimp only at hquoted
      rcases upTo_split front 34 with hnone | ⟨before, back, hfront, hupTo⟩
      · rw [if_pos hnone] at hquoted
        exact absurd hquoted nofun
      · rw [hupTo, if_neg (by simp)] at hquoted
        exact ⟨before, back, by rw [hflatten, hfront, hq], (Option.some.inj hquoted).symm⟩

/-- The quote that is put back is the one that the line has ended with. -/
theorem Row.requoted (h : Row ib row) : ib.requoted = ib := by
  rw [InputBuf.requoted]
  split
  case isFalse => rfl
  case isTrue hsome =>
      obtain ⟨place, hplace⟩ := Option.isSome_iff_exists.mp hsome
      obtain ⟨before, back, hflatten, -⟩ := h.quoted hplace
      obtain ⟨junk, hbuf, hwritten⟩ := h.unquoted hflatten
      have hunquoted : ib.unquoted.buf = write ib.buf (ib.len - 1) [0] := by
        rw [InputBuf.unquoted, if_pos hsome]
      have hstrlen : strlen ib.unquoted.buf = (before ++ 34 :: back).length := by
        rw [hunquoted, strlen, h.cString_unquoted hflatten]
      have hput : write ib.unquoted.buf (strlen ib.unquoted.buf) [34, 0] = ib.buf := by
        rw [hstrlen, hunquoted, hwritten, write_append, hbuf]
        rfl
      rw [hput]

/-- A completion is written between two characters of the line. -/
theorem completionPlace_row (h : Row ib row) :
    ∃ cs cs', row = cs ++ cs' ∧ ib.completionPlace = bytes cs ∧
      Sized ib.unquoted.buf ∧ ∃ back, ib.unquoted.buf = cs.flatten ++ back := by
  have hplain : ∃ cs cs', row = cs ++ cs' ∧ ib.plainPrefix = bytes cs := by
    rw [InputBuf.plainPrefix, h.cString]
    dsimp only
    split
    case isFalse => exact ⟨[], row, rfl, rfl⟩
    case isTrue hmem =>
        -- the line is a word, blanks, of which there is one at least, and the rest
        generalize hword : row.flatten.takeWhile (· != 32) = word
        have hsplit := List.takeWhile_append_dropWhile (p := (· != (32 : Byte))) (l := row.flatten)
        rw [hword] at hsplit
        have hdrop : row.flatten.drop word.length = row.flatten.dropWhile (· != 32) := by
          conv_lhs => rw [← hsplit]
          rw [List.drop_left]
        rw [hdrop]
        cases hrest : row.flatten.dropWhile (· != 32) with
        | nil =>
            rw [List.dropWhile_eq_nil_iff] at hrest
            simpa using hrest 32 hmem
        | cons x l =>
            have hx : x = 32 := by
              have hhead := List.head_dropWhile_not (· != (32 : Byte)) (l := row.flatten)
                (by rw [hrest]; simp)
              simp only [hrest, List.head_cons] at hhead
              simpa using hhead
            obtain ⟨k, hk⟩ : ∃ k, l.takeWhile (· == (32 : Byte)) = List.replicate k 32 := by
              refine ⟨_, List.eq_replicate_of_mem fun y hy => ?_⟩
              simpa using List.mem_takeWhile_imp hy
            have hblanks : (x :: l).takeWhile (· == (32 : Byte)) = List.replicate k 32 ++ [32] := by
              rw [hx, List.takeWhile_cons_of_pos (by simp), hk, ← List.replicate_succ,
                List.replicate_succ']
            have hl := List.takeWhile_append_dropWhile (p := (· == (32 : Byte))) (l := x :: l)
            rw [hblanks] at hl
            have hline : row.flatten =
                (word ++ List.replicate k 32) ++ 32 :: (x :: l).dropWhile (· == 32) := by
              conv_lhs => rw [← hsplit, hrest, ← hl]
              simp
            obtain ⟨cs, cs', hrow, hcs⟩ := h.split_place hline (by decide)
            refine ⟨cs, cs', hrow, ?_⟩
            rw [hblanks, bytes, hcs]
            simp
  obtain ⟨junk, hbuf⟩ := h.ends
  rw [InputBuf.completionPlace, InputBuf.unquoted]
  cases hquoted : ib.quotedPrefix with
  | none =>
      obtain ⟨cs, cs', rfl, hplace⟩ := hplain
      refine ⟨cs, cs', rfl, hplace, h.sized, cs'.flatten ++ 0 :: junk, ?_⟩
      rw [← List.append_assoc, ← List.flatten_append]
      exact hbuf
  | some place =>
      obtain ⟨before, back, hflatten, hplace⟩ := h.quoted hquoted
      obtain ⟨junk, -, hwritten⟩ := h.unquoted hflatten
      obtain ⟨cs, cs', hrow, hcs⟩ := h.split_place
        (hflatten.trans (List.append_assoc before (34 :: back) [34])) (by decide)
      refine ⟨cs, cs', hrow, ?_, ?_, back ++ 0 :: 0 :: junk, ?_⟩
      · rw [Option.getD_some, bytes, hcs, hplace]
      · have hlength := h.sized.length
        have hlen := h.len_le
        have hnonneg : 0 ≤ ib.len - 1 := by
          rw [h.len, bytes, hflatten, List.length_append, List.length_singleton]
          omega
        rw [if_pos Option.isSome_some, ← Int.toNat_of_nonneg hnonneg]
        exact h.sized.write (.inl (by rw [List.length_singleton, hlength]; omega))
      · rw [if_pos Option.isSome_some, hcs]
        dsimp only
        rw [hwritten]
        simp

/-- The text of the line with a completion. -/
def completedText (ib : InputBuf) (s : List Byte) : List Byte :=
  ib.text.take ib.completionPlace ++ (s ++ if ib.quotedPrefix.isSome then [34] else [])

/-- A completion is written to the line. -/
theorem withCompletion_holds (h : Row ib row) (hzero : 0 ∉ s) (hexact : Exact s)
    (hfits : ib.completionFits s = true)
    (hcompatible : ib.compatibleWith (detectEncoding s) = true) :
    ∃ row', row'.flatten = completedText ib s ∧ Holds (ib.withCompletion s) [] [] row' := by
  obtain ⟨cs, cs', rfl, hplace, hunquoted, back, hbuf⟩ := completionPlace_row h
  obtain ⟨completed, hcompleted, hflatten⟩ := exists_valid hzero hexact
  generalize hquote : (if ib.quotedPrefix.isSome then [34] else [] : List Byte) = quote
  have hquotelength : quote.length ≤ 1 := by
    rw [← hquote]
    split <;> simp
  have hquotechars : Chars .ascii (quote.map fun x => [x]) := by
    rw [← hquote]
    split
    · exact chars_singleton.mpr (.ascii (by decide) (by decide))
    · exact Chars.nil
  have hroom : bytes cs + (s ++ (quote ++ [0])).length ≤ ib.unquoted.buf.length := by
    rw [InputBuf.completionFits, hplace, decide_eq_true_eq] at hfits
    rw [hunquoted.length]
    simp only [List.length_append, List.length_singleton]
    omega
  have hsized := hunquoted.write (.inr ⟨hroom, by simp⟩)
  have hwritten : write ib.unquoted.buf (bytes cs : Int) (s ++ (quote ++ [0])) =
      (cs.flatten ++ (s ++ quote)) ++
        0 :: ib.unquoted.buf.drop (bytes cs + (s ++ (quote ++ [0])).length) := by
    rw [write, Int.toNat_natCast]
    have htake : ib.unquoted.buf.take (bytes cs) = cs.flatten := by
      rw [hbuf, bytes, List.take_left]
    rw [htake]
    simp
  have hrowflatten : (cs ++ (completed ++ quote.map fun x => [x])).flatten =
      cs.flatten ++ (s ++ quote) := by
    rw [List.flatten_append, List.flatten_append, hflatten, flatten_bytes]
  -- the line, the completion and the quote are characters of the encoding of the result
  have hvalid : Valid (if ib.encoding = .ascii then detectEncoding s else ib.encoding)
      (cs ++ (completed ++ quote.map fun x => [x])) := by
    have hcs := (valid_append.mp h.valid).1
    rw [InputBuf.compatibleWith, decide_eq_true_eq] at hcompatible
    refine valid_append.mpr ⟨?_, valid_append.mpr ⟨?_, valid_of_ascii hquotechars _⟩⟩
    · split
      case isTrue hascii => exact valid_of_ascii (hascii ▸ hcs.chars) _
      case isFalse => exact hcs
    · split
      case isTrue => exact hcompleted
      case isFalse hascii =>
          rcases hcompatible with hline | hcompletion | hsame
          · exact absurd hline hascii
          · exact valid_of_ascii (hcompletion ▸ hcompleted.chars) _
          · exact hsame ▸ hcompleted
  have hnozero : 0 ∉ cs.flatten ++ (s ++ quote) := by
    rw [← hrowflatten]
    exact hvalid.chars.zero_not_mem
  have hlen : strlen (write ib.unquoted.buf (bytes cs : Int) (s ++ (quote ++ [0]))) =
      (cs.flatten ++ (s ++ quote)).length := by
    rw [strlen, hwritten]
    exact congrArg List.length ((@cString_middle []) hnozero)
  have hfront : ib.text.take (bytes cs) = cs.flatten := by
    rw [h.text, List.flatten_append, bytes, List.take_left]
  refine ⟨cs ++ (completed ++ quote.map fun x => [x]), ?_, ⟨?_, ?_, ?_, ?_⟩, rfl, rfl⟩
  · rw [hrowflatten, completedText, hplace, hfront, hquote]
  · exact hvalid
  · rw [InputBuf.withCompletion, hplace, hquote]
    exact hsized
  · refine ⟨ib.unquoted.buf.drop (bytes cs + (s ++ (quote ++ [0])).length), ?_⟩
    rw [InputBuf.withCompletion, hplace, hquote]
    dsimp only
    rw [hwritten]
    simp only [List.nil_append]
    rw [hrowflatten]
  · rw [InputBuf.withCompletion, hplace, hquote]
    dsimp only
    rw [hlen, ← hrowflatten]
    rfl

/-- The line is a row of characters.  Where `ok` holds the cursor is in its column, too. -/
def Kept (t : Terminal) (ok : Prop) (ib : InputBuf) : Prop :=
  ∃ hidden shown rest, Holds ib hidden shown rest ∧ (ok → Placed t ib shown)

theorem Kept.rowed (h : Kept t ok ib) : Rowed ib := by
  obtain ⟨hidden, shown, rest, hholds, -⟩ := h
  exact ⟨hidden, shown, rest, hholds⟩

theorem At.kept (h : At t ib row) (ok : Prop) : Kept t ok ib := by
  obtain ⟨hidden, shown, rest, -, hholds, hplaced⟩ := h
  exact ⟨hidden, shown, rest, hholds, fun _ => hplaced⟩

theorem Rowed.kept (h : Rowed ib) (hkept : ok → Kept t True ib) : Kept t ok ib := by
  by_cases hok : ok
  · obtain ⟨hidden, shown, rest, hholds, hplaced⟩ := hkept hok
    exact ⟨hidden, shown, rest, hholds, fun _ => hplaced trivial⟩
  · obtain ⟨hidden, shown, rest, hholds⟩ := h
    exact ⟨hidden, shown, rest, hholds, fun hyes => absurd hyes hok⟩

theorem Kept.of_ok (h : Kept t ok ib) (hok : ok) : Kept t True ib := by
  obtain ⟨hidden, shown, rest, hholds, hplaced⟩ := h
  exact ⟨hidden, shown, rest, hholds, fun _ => hplaced hok⟩

theorem Kept.at (h : Kept t True ib) : ∃ row, At t ib row := by
  obtain ⟨hidden, shown, rest, hholds, hplaced⟩ := h
  exact ⟨_, hidden, shown, rest, rfl, hholds, hplaced trivial⟩

theorem Holds.shown_width (h : Holds ib hidden shown rest) :
    getStringWidth t (ib.buf.drop ib.offset.toNat) (ib.pos - ib.offset) ib.encoding =
      columns t ib.encoding shown := by
  have hcount : ib.pos - ib.offset = bytes shown := by
    rw [h.pos, h.offset]
    omega
  rw [hcount, h.offset, Int.toNat_natCast]
  exact h.row.stringWidth

theorem Holds.drawn (h : Holds ib hidden shown rest)
    (heven : ok → Even t ib.encoding shown ∧ ib.startX + (ib.pos - ib.offset) < t.neColumns) :
    Kept t ok ib.refresh := by
  refine ⟨hidden, shown, rest, h.refresh, fun hok => ?_⟩
  obtain ⟨heven, hlt⟩ := heven hok
  have hx : ib.refresh.x = ib.startX + (ib.pos - ib.offset) := by
    rw [InputBuf.refresh]
    dsimp only
    omega
  have hshown : ib.pos - ib.offset = bytes shown := by
    rw [h.pos, h.offset]
    omega
  refine ⟨?_, hx ▸ hlt⟩
  rw [hx, hshown, ← heven.columns_eq]
  rfl

theorem Holds.prompt_drawn (h : Holds ib hidden shown rest)
    (heven : ok → Even t ib.encoding shown ∧
      p.promptLen + 2 + (ib.pos - ib.offset) < t.neColumns) : Kept t ok (ib.refreshPrompt p) :=
  (h.started (p.promptLen + 2)).drawn heven

theorem Holds.fits (h : Holds ib hidden shown rest) (hplaced : Placed t ib shown)
    (heven : Even t ib.encoding shown) : ib.startX + (ib.pos - ib.offset) < t.neColumns := by
  have hlt := hplaced.lt
  rw [hplaced.x, heven.columns_eq] at hlt
  rw [h.pos, h.offset]
  omega

theorem Holds.redrawn (h : Holds ib hidden shown rest)
    (heven : ok → Placed t ib shown ∧ Even t ib.encoding shown) : Kept t ok ib.refresh :=
  h.drawn fun hok => ⟨(heven hok).2, h.fits (heven hok).1 (heven hok).2⟩

theorem Holds.refresh_eq (h : Holds ib hidden shown rest) (hplaced : Placed t ib shown)
    (heven : Even t ib.encoding shown) : ib.refresh = ib := by
  have hx : ib.startX + ib.pos - ib.offset = ib.x := by
    rw [hplaced.x, heven.columns_eq, h.pos, h.offset]
    omega
  rw [InputBuf.refresh, hx]

theorem Holds.at_start (h : Holds ib [] [] row) (hx : ib.x = ib.startX)
    (hlt : ok → ib.startX < t.neColumns) : Kept t ok ib :=
  ⟨[], [], row, h, fun hok => ⟨by simpa using hx, hx ▸ hlt hok⟩⟩

theorem Kept.startX_lt (h : Kept t ok ib) (hok : ok) : ib.startX < t.neColumns := by
  obtain ⟨hidden, shown, rest, hholds, hplaced⟩ := h
  exact At.startX_lt ⟨hidden, shown, rest, rfl, hholds, hplaced hok⟩

end NiceEditor.InputRows
