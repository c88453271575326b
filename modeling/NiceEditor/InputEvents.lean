import NiceEditor.InputRows

namespace NiceEditor.InputEvents

open NiceEditor.Pools
open NiceEditor.BufferData
open NiceEditor.Encoding
open NiceEditor.Navigation
open NiceEditor.UndoSteps
open NiceEditor.Clips
open NiceEditor.Streams
open NiceEditor.InputLine
open NiceEditor.CharacterRows
open NiceEditor.Utf8Encodings
open NiceEditor.Utf8Detection
open NiceEditor.InputRows

variable {t : Terminal} {p : Prompt} {ib : InputBuf} {e : EncodingType} {ok : Prop}
variable {hidden shown rest row cs : List (List Byte)} {s line : List Byte} {c : Nat}

theorem moveLeft_at (h : At t ib row) (doRefresh : Bool) :
    At t (ib.moveLeft t p doRefresh) row := by
  simp only [InputBuf.moveLeft]
  split
  case isFalse => exact stepLeft_at h
  case isTrue hdrawn =>
      have hstart := h.startX_lt
      obtain ⟨hidden, shown, rest, rfl, hholds, hplaced⟩ := h
      obtain ⟨hidden', shown', rest', hrow, hholds', -, hnone, -⟩ :=
        stepLeft_holds hholds hplaced.x_eq_iff
      obtain rfl := hnone hdrawn.1
      obtain ⟨hsame, -⟩ := stepLeft_frame t ib
      have hx : (ib.stepLeft t).1.refresh.x = ib.startX := by
        rw [InputBuf.refresh, hsame, hholds'.pos, hholds'.offset]
        simp
      refine ⟨hidden', [], rest', hrow, hholds'.refresh, ?_, ?_⟩
      · rw [columns_nil, hx]
        simp [InputBuf.refresh, hsame]
      · rw [hx]
        exact hstart

theorem evenBetween_moveLeft (hpos : 0 < ib.pos)
    (h : EvenBetween t ib ib.offset (ib.prev ib.pos)) :
    EvenBetween t (ib.moveLeft t p true) (ib.moveLeft t p true).offset
      (ib.moveLeft t p true).pos := by
  have hmoved : ∀ ib', ib'.buf = ib.buf → ib'.len = ib.len → ib'.encoding = ib.encoding →
      ib'.pos = ib.prev ib.pos → ib'.offset = ib.offset ∨ ib'.offset = ib'.pos →
        EvenBetween t ib' ib'.offset ib'.pos := by
    intro ib' hbuf hlen hencoding hpos' hoffset front ch back hchars htext hfrom hto
    rw [InputBuf.text, hbuf, hlen] at htext
    rw [hencoding] at hchars ⊢
    rw [hpos'] at hto
    refine h front ch back hchars htext ?_ hto
    rcases hoffset with hoffset | hoffset <;> omega
  simp only [InputBuf.moveLeft, InputBuf.stepLeft, if_pos hpos]
  by_cases hx : ib.x = ib.startX
  · rw [if_pos hx]
    dsimp only
    split <;> exact hmoved _ rfl rfl rfl rfl (.inr rfl)
  · rw [if_neg hx]
    dsimp only
    split <;> exact hmoved _ rfl rfl rfl rfl (.inl rfl)

theorem moveRight_holds (h : Holds ib hidden shown rest) (hplaced : Placed t ib shown)
    (heven : ok → p.charInsDelOk = false → (ib.stepRight t).2 = true →
      Even t ib.encoding (shown ++ rest.take 1)) : Kept t ok (ib.moveRight t p true) := by
  obtain ⟨out, shown', hsplit, hholds', hplaced'⟩ := stepRight_holds h hplaced
  simp only [InputBuf.moveRight]
  split
  case isFalse => exact ⟨_, _, _, hholds', fun _ => hplaced'⟩
  case isTrue hdrawn =>
      refine hholds'.redrawn fun hok => ⟨hplaced', ?_⟩
      have hall := heven hok (by simpa using hdrawn.2.1) hdrawn.1
      rw [← hsplit] at hall
      rw [(stepRight_frame t ib).2]
      exact (List.forall_mem_append.mp hall).2

theorem stepRight_drawn (h : (ib.stepRight t).2 = true) :
    ib.pos < ib.len ∧ t.neColumns ≤ ib.x + ib.widthAt t ib.pos := by
  rw [InputBuf.stepRight] at h
  split at h
  case isFalse => exact absurd h Bool.false_ne_true
  case isTrue hlt =>
      dsimp only at h
      split at h
      case isFalse => exact absurd h Bool.false_ne_true
      case isTrue hout => exact ⟨hlt, hout⟩

theorem moveRight_kept (h : At t ib row)
    (heven : ok → p.charInsDelOk = false → ib.pos < ib.len →
      t.neColumns ≤ ib.x + ib.widthAt t ib.pos →
        EvenBetween t ib ib.offset (ib.next ib.pos)) : Kept t ok (ib.moveRight t p true) := by
  obtain ⟨hidden, shown, rest, rfl, hholds, hplaced⟩ := h
  refine moveRight_holds hholds hplaced fun hok hins hdrawn => ?_
  obtain ⟨hlt, hout⟩ := stepRight_drawn hdrawn
  obtain _ | ⟨ch, rest⟩ := rest
  · rw [hholds.len_eq, hholds.pos, bytes_nil] at hlt
    omega
  have hpos : ib.pos = bytes (hidden ++ shown) := by simpa using hholds.pos
  have hrow : Row ib ((hidden ++ shown) ++ ch :: rest) := by simpa using hholds.row
  have hnext := heven hok hins hlt hout
  rw [hpos, hrow.next] at hnext
  have hsplit : Row ib (hidden ++ ((shown ++ [ch]) ++ rest)) := by simpa using hholds.row
  change Even t ib.encoding (shown ++ [ch])
  refine hnext.even hsplit hholds.offset.le ?_
  simp only [bytes_append, bytes_cons, bytes_nil]
  push_cast
  omega

theorem moveToEol_kept (h : At t ib row)
    (heven : ok → t.neColumns ≤ ib.x +
        getStringWidth t (ib.buf.drop ib.pos.toNat) (ib.len - ib.pos) ib.encoding →
      EvenAtEnd t ib.encoding ib.text (t.neColumns - ib.startX)) :
    Kept t ok (ib.moveToEol t) := by
  have hstart := h.startX_lt
  obtain ⟨hidden, shown, rest, rfl, hholds, hplaced⟩ := h
  obtain ⟨hidden', shown', hrow, hholds', hx, hlt⟩ := stepToEol_holds hholds hplaced.x
  obtain ⟨hsame, hencoding⟩ := stepToEol_frame t ib
  have hplaced' : Placed t (ib.stepToEol t).1 shown' :=
    ⟨by rw [hsame, hencoding, hx], hlt hstart⟩
  simp only [InputBuf.moveToEol]
  split
  case isFalse => exact ⟨hidden', shown', [], hholds', fun _ => hplaced'⟩
  case isTrue hdrawn =>
      refine hholds'.redrawn fun hok => ⟨hplaced', ?_⟩
      have hfar : t.neColumns ≤ ib.x +
          getStringWidth t (ib.buf.drop ib.pos.toNat) (ib.len - ib.pos) ib.encoding := by
        rw [InputBuf.stepToEol] at hdrawn
        dsimp only at hdrawn
        split at hdrawn
        case isTrue => exact absurd hdrawn Bool.false_ne_true
        case isFalse hfar => exact not_lt.mp hfar
      have hlt := hplaced'.lt
      rw [hencoding]
      have hchars : Chars ib.encoding (hidden' ++ shown') := by
        rw [hrow]
        exact hholds.row.chars
      exact (heven hok hfar).even hchars (by rw [hrow, hholds.row.text]) (by omega)

theorem moveToSol_kept (h : Kept t ok ib) : Kept t ok ib.moveToSol := by
  have hlt := h.startX_lt
  obtain ⟨hidden, shown, rest, hholds, -⟩ := h
  refine Holds.at_start (moveToSol_holds hholds.row) ?_ fun hok => ?_
  · rw [InputBuf.moveToSol]
    split
    · rfl
    · simp [InputBuf.refresh]
  · rw [InputBuf.moveToSol]
    split <;> exact hlt hok

theorem moveIncUp_kept (h : Kept t ok ib) : Kept t ok ib.moveIncUp := by
  rw [InputBuf.moveIncUp]
  split
  case isFalse => exact moveToSol_kept h
  case isTrue =>
      have hlt := h.startX_lt
      obtain ⟨hidden, shown, rest, hholds, -⟩ := h
      refine ⟨hidden, [], shown ++ rest, ⟨hholds.row.moved _ _ _, hholds.offset, ?_⟩, fun hok =>
        ⟨by simp, hlt hok⟩⟩
      rw [bytes_nil]
      exact hholds.offset

/-- The loop of `MoveIncDown`: the cursor passes characters that are in the window. -/
theorem visibleLoop_row {i : Int} {front : List (List Byte)} (turns : Nat)
    (h : Row ib (front ++ cs)) (hi : i < t.neColumns) :
    ∃ passed left, cs = passed ++ left ∧ i + columns t ib.encoding passed < t.neColumns ∧
      ib.visibleLoop t turns (i, bytes front) =
        (i + columns t ib.encoding passed, ((bytes front + bytes passed : Nat) : Int)) ∧
      (∀ ch cs', cs = ch :: cs' → turns ≠ 0 → i + getCharWidth t ch ib.encoding < t.neColumns →
        passed ≠ []) := by
  induction turns generalizing front cs i with
  | zero =>
      exact ⟨[], cs, rfl, by simpa using hi, by simp [InputBuf.visibleLoop], fun _ _ _ h =>
        absurd rfl h⟩
  | succ turns ih =>
      rw [InputBuf.visibleLoop]
      split
      case isFalse hmore =>
          refine ⟨[], cs, rfl, by simpa using hi, by simp, fun ch cs' heq _ hin => ?_⟩
          subst heq
          have hpos := (h.chars ch (by simp)).length_pos
          rw [h.widthAt] at hmore
          refine absurd ⟨?_, hin⟩ hmore
          rw [h.len, bytes_append, bytes_cons]
          push_cast
          omega
      case isTrue hmore =>
          obtain _ | ⟨ch, cs⟩ := cs
          · have hlen := h.len
            rw [List.append_nil] at hlen
            omega
          rw [h.widthAt] at hmore ⊢
          rw [h.next]
          have hrow : Row ib ((front ++ [ch]) ++ cs) := by simpa using h
          obtain ⟨passed, left, rfl, hlt, hloop, -⟩ := ih hrow hmore.2
          have hfront : (bytes (front ++ [ch]) : Int) = bytes front + ch.length := by simp
          rw [hfront] at hloop
          refine ⟨ch :: passed, left, rfl, ?_, ?_, fun _ _ _ _ _ => List.cons_ne_nil _ _⟩
          · rw [columns_cons]
            omega
          · rw [hloop, columns_cons]
            simp only [bytes_append, bytes_cons, bytes_nil]
            congr 1
            · omega
            · push_cast
              omega

/-- `MoveIncDown` goes to the end of a line that does not fit only if the character at the cursor
is not in the window. -/
theorem lastVisible_none (h : At t ib row) (hnone : ib.lastVisible t = none)
    (hfar : t.neColumns ≤ ib.x +
      getStringWidth t (ib.buf.drop ib.pos.toNat) (ib.len - ib.pos) ib.encoding) :
    ib.pos < ib.len ∧ t.neColumns ≤ ib.x + ib.widthAt t ib.pos := by
  obtain ⟨hidden, shown, rest, rfl, hholds, hplaced⟩ := h
  have hrow : Row ib ((hidden ++ shown) ++ rest) := by simpa using hholds.row
  have hend : Row ib ((hidden ++ shown) ++ (rest ++ [])) := by simpa using hholds.row
  have hpos : ib.pos = bytes (hidden ++ shown) := by simpa using hholds.pos
  have hlen := hholds.len_eq
  have hcount : ib.len - ib.pos = bytes rest := by
    rw [hlen, hholds.pos]
    omega
  rw [hcount, hpos, Int.toNat_natCast, hend.stringWidth] at hfar
  obtain _ | ⟨ch, rest⟩ := rest
  · have hlt := hplaced.lt
    rw [columns_nil] at hfar
    omega
  have hch := (hrow.chars ch (by simp)).length_pos
  rw [bytes_cons] at hcount hlen
  refine ⟨by omega, ?_⟩
  by_contra hin
  rw [hpos, hrow.widthAt, not_le] at hin
  obtain ⟨passed, left, hsplit, hlt, hloop, hmoved⟩ :=
    visibleLoop_row (ib.len - ib.pos).toNat hrow hplaced.lt
  have hne := hmoved ch rest rfl (by omega) hin
  rw [← hpos] at hloop
  rw [InputBuf.lastVisible, hloop] at hnone
  dsimp only at hnone
  have hbytes := congrArg bytes hsplit
  rw [bytes_cons, bytes_append] at hbytes
  have hchars := (chars_append.mp hrow.chars).2
  rw [hsplit] at hchars hfar
  obtain ⟨hpassed, hleft⟩ := chars_append.mp hchars
  have hpassed := bytes_pos hpassed hne
  -- all of the line would be in the window
  obtain rfl : left = [] := by
    by_contra hmore
    have hmore := bytes_pos hleft hmore
    rw [if_pos (by omega)] at hnone
    exact absurd hnone nofun
  rw [List.append_nil] at hfar
  omega

theorem moveIncDown_kept (h : At t ib row)
    (heven : ok → ib.pos < ib.len → t.neColumns ≤ ib.x + ib.widthAt t ib.pos →
      EvenAtEnd t ib.encoding ib.text (t.neColumns - ib.startX)) :
    Kept t ok (ib.moveIncDown t) := by
  rw [InputBuf.moveIncDown]
  split
  case h_2 hnone =>
      refine moveToEol_kept h fun hok hfar => ?_
      obtain ⟨hlt, hout⟩ := lastVisible_none h hnone hfar
      exact heven hok hlt hout
  case h_1 i j hsome =>
      obtain ⟨hidden, shown, rest, rfl, hholds, hplaced⟩ := h
      have hrow : Row ib ((hidden ++ shown) ++ rest) := by simpa using hholds.row
      obtain ⟨passed, left, rfl, hlt, hloop, -⟩ :=
        visibleLoop_row (ib.len - ib.pos).toNat hrow hplaced.lt
      have hpos : ib.pos = bytes (hidden ++ shown) := by simpa using hholds.pos
      rw [← hpos] at hloop
      rw [InputBuf.lastVisible, hloop] at hsome
      dsimp only at hsome
      split at hsome
      case isFalse => exact absurd hsome nofun
      case isTrue =>
          obtain ⟨rfl, rfl⟩ := Prod.mk.inj (Option.some.inj hsome)
          refine ⟨hidden, shown ++ passed, left, ⟨?_, hholds.offset, ?_⟩, fun _ => ⟨?_, hlt⟩⟩
          · simpa using hrow.moved (ib.x + columns t ib.encoding passed) _ ib.offset
          · simp only [bytes_append]
            omega
          · have hx := hplaced.x
            rw [columns_append]
            dsimp only
            omega

theorem nextWord_kept (h : At t ib row) (heven : ok → EvenBetween t ib ib.offset ib.len) :
    Kept t ok (ib.nextWord t p) := by
  have hrow := h.toRow
  obtain ⟨⟨hidden, shown, rest, rfl, hholds, hplaced⟩, hle, hencoding⟩ := toNextWord_at (p := p) h
  refine hholds.redrawn fun hok => ⟨hplaced, ?_⟩
  rw [hencoding]
  refine (heven hok).even hrow (hholds.offset ▸ hle) ?_
  rw [hrow.len, bytes_append, bytes_append]
  push_cast
  omega

theorem prevWord_kept (h : At t ib row) (heven : ok → EvenBetween t ib 0 ib.pos) :
    Kept t ok (ib.prevWord t p) := by
  have hrow := h.toRow
  obtain ⟨⟨hidden, shown, rest, rfl, hholds, hplaced⟩, hle, hencoding⟩ :=
    toPrevWord_at (p := p) ib.pos.toNat false h
  refine hholds.redrawn fun hok => ⟨hplaced, ?_⟩
  rw [hencoding]
  exact (heven hok).even hrow (Int.natCast_nonneg _) (hholds.pos ▸ hle)

theorem clearIfFirst_holds {first : Bool} (h : Holds ib hidden shown rest)
    (hplaced : Placed t ib shown)
    (hfirst : first = true → ib.pos = 0 ∧ ib.offset = 0) :
    ∃ hidden' rest', Holds (ib.clearIfFirst first) hidden' shown rest' ∧
      Placed t (ib.clearIfFirst first) shown := by
  cases first with
  | false => exact ⟨hidden, rest, h, hplaced⟩
  | true =>
      obtain ⟨hpos, hoffset⟩ := hfirst rfl
      obtain rfl : shown = [] := by
        by_contra hne
        have := bytes_pos h.chars_shown hne
        have := h.pos
        omega
      exact ⟨[], [], ⟨clear_row h.row, hoffset, hpos⟩, hplaced.x, hplaced.lt⟩

theorem clearIfFirst_rowed {first : Bool} (h : Rowed ib)
    (hfirst : first = true → ib.pos = 0 ∧ ib.offset = 0) : Rowed (ib.clearIfFirst first) := by
  cases first with
  | false => exact h
  | true =>
      obtain ⟨hpos, hoffset⟩ := hfirst rfl
      obtain ⟨hidden, shown, rest, hholds⟩ := h
      exact ⟨[], [], [], clear_row hholds.row, hoffset, hpos⟩

theorem charBytes_valid (hpos : 0 < c) (hmax : c < 2 ^ 31)
    (hlow : ¬ (0xFF < c ∧ e = .eightBit)) (hib : ib.encoding = InputBuf.typedEncoding p e c) :
    Valid ib.encoding [ib.charBytes c] := by
  have hbyte : c < 256 → UInt8.ofNat c ≠ 0 := by
    intro hc heq
    have hnat : (UInt8.ofNat c).toNat = c := UInt8.toNat_ofNat_of_lt' (hc.trans_le (by decide))
    rw [heq] at hnat
    exact hpos.ne hnat
  have height : c ≤ 0xFF → ib.encoding = .eightBit → Valid ib.encoding [ib.charBytes c] := by
    intro hc heq
    rw [InputBuf.charBytes, heq, if_neg nofun]
    exact ⟨chars_singleton.mpr (.eightBit (hbyte (by omega))), nofun⟩
  have hutf8 : ib.encoding = .utf8 → Valid ib.encoding [ib.charBytes c] := by
    intro heq
    rw [InputBuf.charBytes, heq, if_pos rfl]
    refine ⟨chars_singleton.mpr (utf8str_isChar hpos hmax), fun _ => ?_⟩
    rw [List.flatten_singleton]
    exact (utf8str_sequence (Nat.le_of_lt_succ hmax)).2
  rw [InputBuf.typedEncoding] at hib
  split at hib
  case isTrue hwide =>
      split at hib
      case isTrue => exact hutf8 hib
      case isFalse hnarrow => exact height (by omega) hib
  case isFalse hsame =>
      cases he : e with
      | utf8 => exact hutf8 (hib.trans he)
      | eightBit => exact height (by simpa [he] using hlow) (hib.trans he)
      | ascii =>
          rw [he] at hib
          have hc : c < 0x80 := by
            by_contra hge
            exact hsame ⟨he, by omega⟩
          have hnat : (UInt8.ofNat c).toNat = c :=
            UInt8.toNat_ofNat_of_lt' (hc.trans_le (by decide))
          rw [InputBuf.charBytes, hib, if_neg nofun]
          exact valid_of_ascii (chars_singleton.mpr (.ascii (hbyte (by omega))
            (UInt8.lt_iff_toNat_lt.mpr (by rw [hnat]; exact hc)))) .ascii

theorem prepare_encoding (first : Bool) :
    (ib.prepare p first c).encoding = InputBuf.typedEncoding p ib.encoding c := by
  cases first <;> rfl

theorem prepare_holds {first : Bool} (h : Holds ib hidden shown rest) (hplaced : Placed t ib shown)
    (hfirst : first = true → ib.pos = 0 ∧ ib.offset = 0) (p : Prompt) (c : Nat) :
    ∃ hidden' rest', Holds (ib.prepare p first c) hidden' shown rest' ∧
      Placed t (ib.prepare p first c) shown ∧
      (Even t ib.encoding shown → Even t (ib.prepare p first c).encoding shown) := by
  obtain ⟨hidden', rest', hclear, hplaced'⟩ := clearIfFirst_holds h hplaced hfirst
  have hsame : (ib.clearIfFirst first).encoding = ib.encoding := by
    cases first <;> rfl
  refine ⟨hidden', rest', ?_⟩
  rw [InputBuf.prepare]
  dsimp only
  rw [hsame]
  by_cases hascii : ib.encoding = .ascii
  · have hrow := hclear.row.chars
    have hshown := h.chars_shown
    rw [hsame, hascii] at hrow
    rw [hascii] at hshown
    refine ⟨hclear.encoding (valid_of_ascii hrow _), ⟨?_, hplaced'.lt⟩, fun _ =>
      even_of_ascii hshown _⟩
    dsimp only
    rw [columns_ascii hshown _ (ib.clearIfFirst first).encoding]
    exact hplaced'.x
  · have hnone : InputBuf.typedEncoding p ib.encoding c = ib.encoding := by
      rw [InputBuf.typedEncoding, if_neg fun hand => hascii hand.1]
    rw [hnone, ← hsame]
    exact ⟨hclear, hplaced', id⟩

/-- The line that a character has been inserted into. -/
def inserted (p : Prompt) (first : Bool) (c : Nat) (ib : InputBuf) : InputBuf :=
  (ib.prepare p first c).insert ((ib.prepare p first c).charBytes c)

theorem inserted_x (first : Bool) : (inserted p first c ib).x = ib.x := by
  cases first <;> rfl

/-- A character is typed.  On a terminal that cannot insert characters the line is drawn again
before the cursor moves, if it is in the middle of the line, and after it has got out of the
window. -/
theorem typeChar_kept {first : Bool} (h : At t ib row)
    (hfirst : first = true → ib.pos = 0 ∧ ib.offset = 0) (hpos : 0 < c) (hmax : c < 2 ^ 31)
    (hdrawn : p.charInsDelOk = false → ib.x < t.neColumns - outputWidth t c → ib.pos ≠ ib.len →
      EvenBetween t ib ib.offset ib.pos)
    (heven : ok → p.charInsDelOk = false →
      t.neColumns ≤ ib.x + getCharWidth t ((ib.prepare p first c).charBytes c)
          (ib.prepare p first c).encoding →
        EvenBetween t ib ib.offset ib.pos ∧
          Even t (ib.prepare p first c).encoding [(ib.prepare p first c).charBytes c]) :
    Kept t ok (ib.typeChar t p first c) := by
  rw [InputBuf.typeChar]
  by_cases hlow : 0xFF < c ∧ ib.encoding = .eightBit
  · rw [if_pos hlow]
    exact h.kept ok
  rw [if_neg hlow]
  dsimp only
  obtain ⟨hidden, shown, rest, rfl, hholds, hplaced⟩ := h
  obtain ⟨hidden', rest', hprepared, hplaced', hsame⟩ :=
    prepare_holds hholds hplaced hfirst p c
  split
  case isFalse => exact ⟨_, _, _, hprepared, fun _ => hplaced'⟩
  case isTrue haccepts =>
      rw [InputBuf.accepts, Bool.and_eq_true, decide_eq_true_eq] at haccepts
      have hch : Valid (ib.prepare p first c).encoding [(ib.prepare p first c).charBytes c] :=
        charBytes_valid hpos hmax hlow (prepare_encoding first)
      have hinserted := insert_holds hprepared hch (by
        simp only [bytes_cons, bytes_nil]
        push_cast
        omega)
      rw [List.flatten_singleton] at hinserted
      change Holds (inserted p first c ib) hidden' shown _ at hinserted
      have hcolumn : Placed t (inserted p first c ib) shown := ⟨hplaced'.x, hplaced'.lt⟩
      -- the line is drawn where that changes nothing
      have hstay : (if (inserted p first c ib).drawnBefore t c = true ∧ ¬p.charInsDelOk = true then
          (inserted p first c ib).refresh else inserted p first c ib) = inserted p first c ib := by
        split
        case isFalse => rfl
        case isTrue hand =>
            refine hinserted.refresh_eq hcolumn ?_
            obtain ⟨hbefore, hins⟩ := hand
            rw [InputBuf.drawnBefore, Bool.and_eq_true, decide_eq_true_eq, bne_iff_ne] at hbefore
            obtain ⟨hin, hmiddle⟩ := hbefore
            have hbytes : (inserted p first c ib).charBytes c =
                (ib.prepare p first c).charBytes c :=
              rfl
            rw [hbytes] at hmiddle
            cases first with
            | true =>
                refine absurd ?_ hmiddle
                change ib.pos = 0 + _ - _
                rw [(hfirst rfl).1, Int.add_sub_cancel]
            | false =>
                refine hsame (hholds.even (hdrawn (by simpa using hins) hin fun heq => hmiddle ?_))
                change ib.pos = ib.len + _ - _
                rw [heq, Int.add_sub_cancel]
      rw [← inserted, hstay]
      refine moveRight_holds hinserted hcolumn fun hok hins hmoved => ?_
      obtain ⟨-, hout⟩ := stepRight_drawn hmoved
      have hrow : Row (inserted p first c ib)
          ((hidden' ++ shown) ++ (ib.prepare p first c).charBytes c :: rest') := by
        simpa using hinserted.row
      have hplace : (inserted p first c ib).pos = bytes (hidden' ++ shown) := by
        simpa using hinserted.pos
      rw [hplace, hrow.widthAt, inserted_x] at hout
      obtain ⟨hbetween, hbytes⟩ := heven hok hins hout
      exact List.forall_mem_append.mpr ⟨hsame (hholds.even hbetween), hbytes⟩

theorem toAscii_even (h : Holds ib hidden shown rest) (heven : Even t ib.encoding shown) :
    Even t ib.toAscii.encoding shown := by
  rw [InputBuf.toAscii]
  split
  case isFalse => exact heven
  case isTrue hascii =>
      rw [isAscii_iff, h.row.text] at hascii
      have hchars := h.row.chars.to_ascii hascii
      exact even_of_ascii (chars_append.mp (chars_append.mp hchars).2).1 _

theorem deleteChar_kept (h : Kept t ok ib)
    (heven : ok → p.charInsDelOk = false → ib.pos < ib.len →
      EvenBetween t ib ib.offset ib.pos) : Kept t ok (ib.deleteChar p) := by
  rw [InputBuf.deleteChar]
  split
  case isFalse => exact h
  case isTrue hinside =>
      obtain ⟨hidden, shown, rest, hholds, hplaced⟩ := h
      obtain _ | ⟨ch, rest⟩ := rest
      · have := hholds.len_eq
        have := hholds.pos
        rw [bytes_nil] at *
        omega
      have hdeleted := deleteAt_holds hholds
      have hascii := toAscii_holds hdeleted
      have hcolumn : ok → Placed t ib.deleteAt.toAscii shown := fun hok =>
        toAscii_placed hdeleted ⟨(hplaced hok).x, (hplaced hok).lt⟩
      dsimp only
      split
      case isTrue => exact ⟨hidden, shown, rest, hascii, hcolumn⟩
      case isFalse hins =>
          refine hascii.redrawn fun hok => ⟨hcolumn hok, toAscii_even hdeleted ?_⟩
          exact hholds.even (heven hok (by simpa using hins) hinside.2)

theorem backspace_kept (h : At t ib row)
    (heven : ok → p.charInsDelOk = false → ib.pos ≠ 0 →
      EvenBetween t ib ib.offset (ib.prev ib.pos)) : Kept t ok (ib.backspace t p) := by
  rw [InputBuf.backspace]
  split
  case isTrue => exact h.kept ok
  case isFalse hne =>
      refine deleteChar_kept ((moveLeft_at h true).kept ok) fun hok hins _ => ?_
      exact evenBetween_moveLeft (h.pos_nonneg.lt_of_ne' hne) (heven hok hins hne)

theorem deleteLine_kept (h : Kept t ok ib) : Kept t ok ib.deleteLine := by
  have hlt := h.startX_lt
  obtain ⟨hidden, shown, rest, hholds, -⟩ := h
  have hrow := clear_row hholds.row
  have hempty : Holds ib.deleteLine [] [] [] :=
    ⟨⟨Valid.nil, hrow.sized, hrow.ends, hrow.len⟩, rfl, rfl⟩
  exact hempty.at_start rfl hlt

theorem deleteEol_kept (h : Kept t ok ib) : Kept t ok ib.deleteEol := by
  obtain ⟨hidden, shown, rest, hholds, hplaced⟩ := h
  have hcut := cutAt_holds hholds
  refine ⟨hidden, shown, [], toAscii_holds hcut, fun hok => ?_⟩
  exact toAscii_placed hcut ⟨(hplaced hok).x, (hplaced hok).lt⟩

theorem historyLine_kept (h : Kept t ok ib) (hexact : Exact (copied line)) :
    Kept t ok (ib.setHistoryLine line).refresh := by
  have hlt := h.startX_lt
  obtain ⟨hidden, shown, rest, hholds, -⟩ := h
  obtain ⟨row, hset⟩ := setHistoryLine_holds hholds.row.sized hexact
  have hstart : (ib.setHistoryLine line).startX = ib.startX := by
    rw [InputBuf.setHistoryLine]
    dsimp only
    split <;> rfl
  refine Holds.at_start hset.refresh ?_ fun hok => ?_
  · rw [InputBuf.refresh, hset.pos, hset.offset]
    simp
  · exact hstart ▸ hlt hok

/-- A text is valid in an encoding. -/
def ValidIn (e : EncodingType) (s : List Byte) : Prop :=
  0 ∉ s ∧ (e = .ascii → isAscii s = true) ∧ (e = .utf8 → IsEncodings s)

theorem ValidIn.valid (h : ValidIn e s) : ∃ cs, Valid e cs ∧ cs.flatten = s := by
  obtain ⟨hzero, hascii, hutf8⟩ := h
  cases e with
  | ascii =>
      have hchars := chars_bytes hzero (.inr ⟨rfl, (isAscii_iff s).mp (hascii rfl)⟩)
      exact ⟨_, valid_of_ascii hchars .ascii, flatten_bytes s⟩
  | utf8 =>
      obtain ⟨hsequences, hlow⟩ := isEncodings_iff.mp (hutf8 rfl)
      obtain ⟨cs, hcs, rfl⟩ := exists_utf8 true hzero (isSequences_iff.mp hsequences)
      exact ⟨cs, ⟨hcs, fun _ => hlow⟩, rfl⟩
  | eightBit => exact ⟨_, ⟨chars_bytes hzero (.inl rfl), nofun⟩, flatten_bytes s⟩

/-- The encoding of a clip, for `input_paste`. -/
def clipEncoding (clip : Option ClipDesc) : EncodingType :=
  (clip.map fun cd => cd.cs.encoding).getD .ascii

/-- A clip and the line are in the same encoding, or one of them is in ASCII. -/
def Joins (clip : Option ClipDesc) (ib : InputBuf) : Prop :=
  ¬ (clipEncoding clip ≠ .ascii ∧ ib.encoding ≠ .ascii ∧ clipEncoding clip ≠ ib.encoding)

/-- What `input_paste` inserts. -/
def pasteSource (str : Option (List Byte)) (clip : Option ClipDesc) : Option (List Byte) :=
  str.orElse fun _ => clip.map fun cd => (streamBytes cd.cs).takeWhile (· != 0)

/-- The part of a text that there is room for. -/
def fitting (ib : InputBuf) (s : List Byte) : List Byte :=
  s.take (min (s.length : Int) (maxInputLineLen - ib.len)).toNat

/-- What is pasted, after the cut to the size of the line, is valid in the encoding that the
line will have: that of the clip, unless it is in ASCII.  Without a clip everything has to be
in ASCII. -/
def Pastes (str : Option (List Byte)) (clip : Option ClipDesc) (ib : InputBuf) : Prop :=
  ∀ s, pasteSource str clip = some s →
    Joins clip ib →
      ValidIn (if clipEncoding clip ≠ .ascii then clipEncoding clip else ib.encoding)
          (fitting ib s) ∧
        (clip = none → isAscii (ib.text ++ fitting ib s) = true)

theorem pasted_holds {str : Option (List Byte)} {clip : Option ClipDesc} {ib' : InputBuf}
    (h : Holds ib hidden shown rest) (hpastes : Pastes str clip ib)
    (hpasted : ib.pasted str clip = some ib') :
    ∃ rest', Holds ib' hidden shown rest' := by
  rw [InputBuf.pasted] at hpasted
  dsimp only at hpasted
  rw [← pasteSource, ← clipEncoding] at hpasted
  cases hsource : pasteSource str clip with
  | none =>
      rw [hsource] at hpasted
      exact absurd hpasted nofun
  | some s =>
      rw [hsource] at hpasted
      dsimp only at hpasted
      split at hpasted
      case isTrue => exact absurd hpasted nofun
      case isFalse hcompatible =>
          obtain ⟨hvalid, -⟩ := hpastes s hsource hcompatible
          obtain ⟨cs, hcs, hflatten⟩ := hvalid.valid
          have hlen := h.row.len_le
          have hroom : ib.len + bytes cs ≤ maxInputLineLen := by
            rw [bytes, hflatten, fitting, List.length_take]
            omega
          generalize hnew : (if clipEncoding clip ≠ .ascii then clipEncoding clip
            else ib.encoding) = e at hcs
          -- the line in the encoding that it will have if it is not in ASCII
          have hline : Valid e (hidden ++ (shown ++ rest)) := by
            have hchars := h.row.valid
            rw [← hnew]
            split
            case isFalse => exact hchars
            case isTrue hclip =>
                by_cases hascii : ib.encoding = .ascii
                · exact valid_of_ascii (hascii ▸ hchars.chars) _
                · have hsame : clipEncoding clip = ib.encoding := by
                    by_contra hne
                    exact hcompatible ⟨hclip, hascii, hne⟩
                  rw [hsame]
                  exact hchars
          have hinsert := insert_holds (h.encoding hline) hcs hroom
          refine ⟨cs ++ rest, ?_⟩
          rw [← fitting, ← hflatten] at hpasted
          have hsome := Option.some.inj hpasted
          have hbuf : ib'.buf = (ib.insert cs.flatten).buf ∧ ib'.len = (ib.insert cs.flatten).len ∧
              ib'.pos = ib.pos ∧ ib'.offset = ib.offset := by
            rw [← hsome]
            split <;> exact ⟨rfl, rfl, rfl, rfl⟩
          obtain ⟨hbuf, hlen', hpos', hoffset'⟩ := hbuf
          have hchars : Valid ib'.encoding (hidden ++ (shown ++ (cs ++ rest))) := by
            have hall := hinsert.row.valid
            have htext : (ib.insert cs.flatten).text =
                (hidden ++ (shown ++ (cs ++ rest))).flatten :=
              hinsert.row.text
            rw [← hsome]
            split
            case isTrue hclip =>
                rw [if_pos hclip.2] at hnew
                rw [hnew]
                exact hall
            case isFalse hclip =>
                by_cases hascii : isAscii (ib.insert cs.flatten).text = true
                · rw [isAscii_iff, htext] at hascii
                  exact valid_of_ascii (hall.to_ascii hascii).chars _
                · have hnone : ¬ clipEncoding clip ≠ .ascii := fun hne =>
                    hclip ⟨by simpa using hascii, hne⟩
                  rw [if_neg hnone] at hnew
                  rw [← hnew] at hall
                  exact hall
          exact ⟨⟨hchars, hbuf ▸ hinsert.row.sized, hbuf ▸ hinsert.row.ends,
            hlen'.trans hinsert.row.len⟩, hoffset'.trans h.offset, hpos'.trans h.pos⟩

theorem pasted_frame {str : Option (List Byte)} {clip : Option ClipDesc} {ib' : InputBuf}
    (hpasted : ib.pasted str clip = some ib') :
    ib'.x = ib.x ∧ ib'.startX = ib.startX ∧
      (ib'.encoding = ib.encoding ∨ ib.encoding = .ascii) ∧
      (pasteSource str clip).isSome = true ∧ Joins clip ib := by
  rw [InputBuf.pasted] at hpasted
  dsimp only at hpasted
  rw [← pasteSource, ← clipEncoding] at hpasted
  cases hsource : pasteSource str clip with
  | none =>
      rw [hsource] at hpasted
      exact absurd hpasted nofun
  | some s =>
      rw [hsource] at hpasted
      dsimp only at hpasted
      split at hpasted
      case isTrue => exact absurd hpasted nofun
      case isFalse hjoins =>
          rw [← Option.some.inj hpasted]
          split
          case isFalse => exact ⟨rfl, rfl, .inl rfl, rfl, hjoins⟩
          case isTrue hclip =>
              refine ⟨rfl, rfl, ?_, rfl, hjoins⟩
              by_contra hneither
              obtain ⟨hne, hascii⟩ := not_or.mp hneither
              exact hjoins ⟨hclip.2, hascii, hne⟩

theorem pasted_even {str : Option (List Byte)} {clip : Option ClipDesc} {ib' : InputBuf}
    (h : Holds ib hidden shown rest) (hpasted : ib.pasted str clip = some ib')
    (heven : Even t ib.encoding shown) : Even t ib'.encoding shown := by
  obtain ⟨-, -, hsame | hascii, -⟩ := pasted_frame hpasted
  · rw [hsame]
    exact heven
  · exact even_of_ascii (hascii ▸ h.chars_shown) _

theorem paste_kept {str : Option (List Byte)} {clip : Option ClipDesc} (h : Kept t ok ib)
    (hpastes : Pastes str clip ib)
    (heven : ok → (pasteSource str clip).isSome = true → Joins clip ib →
      EvenBetween t ib ib.offset ib.pos) : Kept t ok (ib.paste str clip) := by
  rw [InputBuf.paste]
  split
  case h_1 => exact h
  case h_2 ib' hpasted =>
      obtain ⟨hidden, shown, rest, hholds, hplaced⟩ := h
      obtain ⟨rest', hholds'⟩ := pasted_holds hholds hpastes hpasted
      obtain ⟨hx, hstart, -, hsome, hjoins⟩ := pasted_frame hpasted
      refine hholds'.drawn fun hok => ?_
      have hshown := hholds.even (heven hok hsome hjoins)
      have hlt := hholds.fits (hplaced hok) hshown
      rw [hholds.pos, hholds.offset] at hlt
      refine ⟨pasted_even hholds hpasted hshown, ?_⟩
      rw [hstart, hholds'.pos, hholds'.offset]
      exact hlt

/-- What is before the cursor fits in the window behind the prompt, and takes as many columns as
bytes. -/
def Redrawable (t : Terminal) (p : Prompt) (ib : InputBuf) : Prop :=
  EvenBetween t ib ib.offset ib.pos ∧ p.promptLen + 2 + (ib.pos - ib.offset) < t.neColumns

theorem refreshPrompt_kept (h : Rowed ib) (heven : ok → Redrawable t p ib) :
    Kept t ok (ib.refreshPrompt p) := by
  obtain ⟨hidden, shown, rest, hholds⟩ := h
  refine hholds.prompt_drawn fun hok => ?_
  obtain ⟨heven, hlt⟩ := heven hok
  exact ⟨hholds.even heven, hlt⟩

theorem Redrawable.clearIfFirst {first : Bool} (h : Redrawable t p ib)
    (hfirst : first = true → ib.pos = 0 ∧ ib.offset = 0) :
    Redrawable t p (ib.clearIfFirst first) := by
  cases first with
  | false => exact h
  | true =>
      obtain ⟨hpos, hoffset⟩ := hfirst rfl
      refine ⟨fun front ch back hchars htext hfrom hto => ?_, h.2⟩
      change bytes front < ib.pos at hto
      omega

theorem find_kept {first : Bool} {clip : Option ClipDesc} {answer : Option (Bool × List Byte)}
    (h : Rowed ib) (hfirst : first = true → ib.pos = 0 ∧ ib.offset = 0)
    (hexact : ∀ line, answer = some (true, line) → Exact (copied line))
    (hpastes : ∀ line, answer = some (false, line) →
      Pastes (some line) clip (ib.clearIfFirst first))
    (hstart : ok → (p.promptLen + 2 : Int) < t.neColumns)
    (heven : ok → (∀ line, answer ≠ some (true, line)) → Redrawable t p ib) :
    Kept t ok (((ib.clearIfFirst first).requestHistory clip answer).refreshPrompt p) := by
  have hcleared := clearIfFirst_rowed h hfirst
  have hredrawable : ok → (∀ line, answer ≠ some (true, line)) →
      Redrawable t p (ib.clearIfFirst first) := fun hok hno => (heven hok hno).clearIfFirst hfirst
  generalize ib.clearIfFirst first = ib at hcleared hpastes hredrawable
  unfold InputBuf.requestHistory
  split
  case h_1 => exact refreshPrompt_kept hcleared fun hok => hredrawable hok nofun
  case h_2 line =>
      obtain ⟨hidden, shown, rest, hholds⟩ := hcleared
      obtain ⟨row, hrow⟩ := setLine_row hholds.row.sized (hexact line rfl)
      refine (moveToSol_holds hrow).prompt_drawn fun hok => ⟨nofun, ?_⟩
      rw [(moveToSol_holds hrow).pos, (moveToSol_holds hrow).offset]
      simpa using hstart hok
  case h_3 line =>
      rw [InputBuf.paste]
      split
      case h_1 => exact refreshPrompt_kept hcleared fun hok => hredrawable hok nofun
      case h_2 ib' hpasted =>
          obtain ⟨hidden, shown, rest, hholds⟩ := hcleared
          obtain ⟨rest', hholds'⟩ := pasted_holds hholds (hpastes line rfl) hpasted
          refine hholds'.refresh.prompt_drawn fun hok => ?_
          obtain ⟨heven, hlt⟩ := hredrawable hok nofun
          have hshown := pasted_even hholds hpasted (hholds.even heven)
          refine ⟨hshown, ?_⟩
          rw [hholds.pos, hholds.offset] at hlt
          rw [hholds'.refresh.pos, hholds'.refresh.offset]
          exact hlt

/-- The line that a completion has been written to, before it is drawn. -/
def completed (t : Terminal) (p : Prompt) (s : List Byte) (ib : InputBuf) : InputBuf :=
  let ib' := (ib.withCompletion s).moveToEol t
  if ib.quotedPrefix.isSome then ib'.moveLeft t p false else ib'

theorem completed_at (h : Holds (ib.withCompletion s) [] [] row)
    (hstart : ib.startX < t.neColumns)
    (heven : EvenAtEnd t (ib.withCompletion s).encoding row.flatten (t.neColumns - ib.startX)) :
    Kept t True (completed t p s ib).refresh := by
  have hx : (ib.withCompletion s).x = (ib.withCompletion s).startX +
      columns t (ib.withCompletion s).encoding [] := (Int.add_zero _).symm
  obtain ⟨hidden, shown, hrow, hholds, hcolumn, hlt⟩ := stepToEol_holds h hx
  obtain ⟨hsame, hencoding⟩ := stepToEol_frame t (ib.withCompletion s)
  have hplaced : Placed t ((ib.withCompletion s).stepToEol t).1 shown :=
    ⟨by rw [hsame, hencoding, hcolumn], hlt hstart⟩
  have hshown : Even t ((ib.withCompletion s).stepToEol t).1.encoding shown := by
    have hlt := hplaced.lt
    have hchars : Chars (ib.withCompletion s).encoding (hidden ++ shown) := by
      rw [hrow]
      exact h.row.chars
    rw [hcolumn] at hlt
    rw [hencoding]
    refine heven.even hchars (by rw [hrow]; rfl) ?_
    change ib.startX + _ < _ at hlt
    omega
  have hmoved : (ib.withCompletion s).moveToEol t = ((ib.withCompletion s).stepToEol t).1 := by
    simp only [InputBuf.moveToEol]
    split
    · exact hholds.refresh_eq hplaced hshown
    · rfl
  rw [completed, hmoved]
  split
  case isFalse => exact hholds.redrawn fun _ => ⟨hplaced, hshown⟩
  case isTrue =>
      rw [moveLeft_false]
      obtain ⟨hidden', shown', rest', -, hholds', hshorter, -, hback⟩ :=
        stepLeft_holds (t := t) hholds hplaced.x_eq_iff
      obtain ⟨hx', hle⟩ := hback hplaced.x
      obtain ⟨hstart', hencoding'⟩ := stepLeft_frame t ((ib.withCompletion s).stepToEol t).1
      refine hholds'.redrawn fun _ =>
        ⟨⟨by rw [hstart', hencoding', hx'], hle.trans_lt hplaced.lt⟩, ?_⟩
      rw [hencoding']
      exact fun ch hch => hshown ch (hshorter.subset hch)

theorem completed_rowed (h : Holds (ib.withCompletion s) [] [] row) :
    Rowed (completed t p s ib) := by
  have hx : (ib.withCompletion s).x = (ib.withCompletion s).startX +
      columns t (ib.withCompletion s).encoding [] := (Int.add_zero _).symm
  obtain ⟨hidden, shown, -, hholds, hcolumn, -⟩ := stepToEol_holds h hx
  obtain ⟨hstart, hencoding⟩ := stepToEol_frame t (ib.withCompletion s)
  -- at the end of the line, the column tells whether something is shown before the cursor
  have hend : Holds ((ib.withCompletion s).moveToEol t) hidden shown [] ∧
      (((ib.withCompletion s).moveToEol t).x = ((ib.withCompletion s).moveToEol t).startX ↔
        shown = []) := by
    simp only [InputBuf.moveToEol]
    split
    · refine ⟨hholds.refresh, ?_⟩
      simp only [InputBuf.refresh]
      rw [hholds.pos, hholds.offset]
      constructor
      · intro heq
        by_contra hne
        have := bytes_pos hholds.chars_shown hne
        omega
      · rintro rfl
        simp
    · refine ⟨hholds, ?_⟩
      rw [hcolumn, hstart]
      constructor
      · intro heq
        by_contra hne
        have := @columns_pos t (ib.withCompletion s).encoding shown hne
        omega
      · rintro rfl
        simp
  rw [completed]
  split
  case isFalse => exact ⟨hidden, shown, [], hend.1⟩
  case isTrue =>
      rw [moveLeft_false]
      obtain ⟨hidden', shown', rest', -, hholds', -⟩ := stepLeft_holds (t := t) hend.1 hend.2
      exact ⟨hidden', shown', rest', hholds'⟩

/-- A completion is a string that `detect_encoding` is right about, and when it is in another
encoding than the line there is no quote that it has removed. -/
def Completes (completion : Option (List Byte)) (ib : InputBuf) : Prop :=
  ∀ s ∈ completion, 0 ∉ s ∧ Exact s ∧ (ib.completionFits s = true →
    ib.compatibleWith (detectEncoding s) = false → ib.quotedPrefix = none)

/-- The completion that gets into the line. -/
def taken (completion : Option (List Byte)) (ib : InputBuf) : Option (List Byte) :=
  completion.filter fun s => ib.completionFits s && ib.compatibleWith (detectEncoding s)

/-- The encoding of the line with a completion. -/
def completedEncoding (ib : InputBuf) (s : List Byte) : EncodingType :=
  if ib.encoding = .ascii then detectEncoding s else ib.encoding

theorem complete_kept {completion : Option (List Byte)} (h : Rowed ib)
    (hcompletes : Completes completion ib)
    (hstays : ok → taken completion ib = none → Kept t True ib)
    (heven : ok → ∀ s ∈ taken completion ib, ib.startX < t.neColumns ∧
      EvenAtEnd t (completedEncoding ib s) (completedText ib s) (t.neColumns - ib.startX)) :
    Kept t ok (ib.complete t p completion) := by
  have hstay : taken completion ib = none → Kept t ok ib := fun hnone =>
    h.kept fun hok => hstays hok hnone
  rw [InputBuf.complete]
  split
  case h_1 hnone =>
      obtain ⟨hidden, shown, rest, hholds⟩ := h
      rw [hholds.row.requoted]
      refine hstay (Option.filter_eq_none_iff.mpr fun s hs htaken => ?_)
      rw [Bool.and_eq_true] at htaken
      exact Option.filter_eq_none_iff.mp hnone s hs htaken.1
  case h_2 s hsome =>
      obtain ⟨hcompletion, hfits⟩ := Option.filter_eq_some_iff.mp hsome
      obtain ⟨hzero, hexact, hquoted⟩ := hcompletes s hcompletion
      split
      case isTrue hcompatible =>
          obtain ⟨hidden, shown, rest, hholds⟩ := h
          obtain ⟨row, hflatten, hwith⟩ :=
            withCompletion_holds hholds.row hzero hexact hfits hcompatible
          have htaken : s ∈ taken completion ib :=
            Option.filter_eq_some_iff.mpr ⟨hcompletion, by rw [hfits, hcompatible]; rfl⟩
          have hrowed : Rowed (completed t p s ib).refresh := by
            obtain ⟨hidden', shown', rest', hholds'⟩ := completed_rowed (t := t) (p := p) hwith
            exact ⟨hidden', shown', rest', hholds'.refresh⟩
          refine hrowed.kept fun hok => ?_
          obtain ⟨hstart, heven⟩ := heven hok s htaken
          exact completed_at hwith hstart (hflatten ▸ heven)
      case isFalse hcompatible =>
          rw [InputBuf.unquoted, hquoted hfits (by simpa using hcompatible)]
          refine hstay (Option.filter_eq_none_iff.mpr fun s' hs htaken => ?_)
          obtain rfl : s' = s := Option.some.inj (hs.symm.trans hcompletion)
          rw [Bool.and_eq_true] at htaken
          exact hcompatible htaken.2

/-- Every byte of a text is a character that takes one column. -/
def Plain (t : Terminal) (e : EncodingType) (s : List Byte) : Prop :=
  ∀ x ∈ s, x < 0x80 ∨ e = .eightBit ∧ outputWidth t x.toNat = 1

theorem plain_width {x : Byte} (h : x < 0x80 ∨ e = .eightBit ∧ outputWidth t x.toNat = 1) :
    getCharWidth t [x] e = 1 := by
  rw [getCharWidth]
  rw [List.getD_cons_zero]
  split
  · rfl
  case isFalse hhigh =>
      obtain ⟨rfl, hwidth⟩ := h.resolve_left hhigh
      exact hwidth

theorem plain_valid (h : Plain t e s) (hzero : 0 ∉ s) : Valid e (s.map fun x => [x]) := by
  refine ⟨fun ch hch => ?_, fun he x hx => ?_⟩
  · obtain ⟨x, hx, rfl⟩ := List.mem_map.mp hch
    have hne : x ≠ 0 := fun heq => hzero (heq ▸ hx)
    by_cases hlow : x < 0x80
    · exact (IsChar.ascii hne hlow).of_ascii e
    · obtain ⟨rfl, -⟩ := (h x hx).resolve_left hlow
      exact .eightBit hne
  · rw [flatten_bytes] at hx
    have hlow := (h x hx).resolve_right fun hand => by simp [he] at hand
    exact UInt8.lt_trans hlow (by decide)

theorem bytes_map (s : List Byte) : bytes (s.map fun x => [x]) = s.length := by
  rw [bytes, flatten_bytes]

theorem plain_next {x : Byte} {a b : List Byte}
    (h : Row ib ((a ++ x :: b).map fun x => [x])) : ib.next a.length = a.length + 1 := by
  rw [List.map_append, List.map_cons] at h
  have hnext := h.next
  rw [bytes_map] at hnext
  exact hnext

theorem plain_prev {x : Byte} {a b : List Byte}
    (h : Row ib ((a ++ x :: b).map fun x => [x])) :
    ib.prev ((a.length : Int) + 1) = a.length := by
  rw [List.map_append, List.map_cons] at h
  have hprev := h.prev
  rw [bytes_map] at hprev
  exact_mod_cast hprev

theorem wordStartLoop_plain (h : Row ib (s.map fun x => [x])) (turns : Nat) (place dx : Int)
    (hplace : 0 ≤ place) (hlt : place < s.length) :
    0 ≤ (ib.wordStartLoop p turns (place, dx)).1 ∧
      (ib.wordStartLoop p turns (place, dx)).1 ≤ place ∧
      (ib.wordStartLoop p turns (place, dx)).2 - (ib.wordStartLoop p turns (place, dx)).1 =
        dx - place := by
  induction turns generalizing place dx with
  | zero => exact ⟨hplace, le_rfl, rfl⟩
  | succ turns ih =>
      rw [InputBuf.wordStartLoop]
      split
      case isFalse => exact ⟨hplace, le_rfl, rfl⟩
      case isTrue hmore =>
          obtain ⟨n, rfl⟩ : ∃ n : Nat, place = n + 1 := ⟨(place - 1).toNat, by omega⟩
          have hsplit : s = s.take n ++ s[n] :: s.drop (n + 1) := by
            rw [← List.drop_eq_getElem_cons, List.take_append_drop]
          have hlength : (s.take n).length = n := List.length_take_of_le (by omega)
          rw [hsplit] at h
          have hprev := plain_prev h
          rw [hlength] at hprev
          rw [hprev]
          rw [← hsplit] at h
          obtain ⟨hge, hle, hdx⟩ := ih n (dx - 1) (by omega) (by omega)
          exact ⟨hge, by omega, by omega⟩

theorem wordStart_plain (h : Row ib (s.map fun x => [x])) (hpos : 0 ≤ ib.pos)
    (hle : ib.pos ≤ s.length) :
    0 ≤ (ib.wordStart p).1 ∧ (ib.wordStart p).1 ≤ ib.pos ∧
      (ib.wordStart p).2 = (ib.wordStart p).1 - ib.pos := by
  rw [InputBuf.wordStart]
  split
  case isFalse => exact ⟨hpos, le_rfl, by simp⟩
  case isTrue hne =>
      obtain ⟨n, hn⟩ : ∃ n : Nat, ib.pos = n + 1 := ⟨(ib.pos - 1).toNat, by omega⟩
      have hsplit : ∀ k (hk : k < s.length), s = s.take k ++ s[k] :: s.drop (k + 1) := by
        intro k hk
        rw [← List.drop_eq_getElem_cons, List.take_append_drop]
      have hlength : (s.take n).length = n := List.length_take_of_le (by omega)
      have hprev : ib.prev (n + 1) = n := by
        have hrow := h
        rw [hsplit n (by omega)] at hrow
        have hprev := plain_prev hrow
        rwa [hlength] at hprev
      rw [hn, hprev]
      obtain ⟨hge, hplace, hdx⟩ := wordStartLoop_plain (p := p) h ((n : Int) + 1).toNat n (-1)
        (by omega) (by omega)
      generalize ib.wordStartLoop p ((n : Int) + 1).toNat ((n : Int), -1) = found at hge hplace hdx
      obtain ⟨place, dx⟩ := found
      dsimp only at hge hplace hdx ⊢
      split
      case isTrue => exact ⟨hge, by dsimp only; omega, by dsimp only; omega⟩
      case isFalse =>
          obtain ⟨k, rfl⟩ := Int.eq_ofNat_of_zero_le hge
          have hnext : ib.next k = k + 1 := by
            have hrow := h
            rw [hsplit k (by omega)] at hrow
            have hnext := plain_next hrow
            rwa [List.length_take_of_le (by omega)] at hnext
          rw [hnext]
          exact ⟨by dsimp only; omega, by dsimp only; omega, by dsimp only; omega⟩

theorem advanceLoop_plain {a b : List Byte} (turns : Nat)
    (h : Row ib ((a ++ (s ++ b)).map fun x => [x])) (hplain : Plain t ib.encoding s)
    (hturns : s.length ≤ turns) (dx : Int) :
    ib.advanceLoop t turns s.length (a.length, dx) =
      ((a.length + s.length : Int), dx + s.length) := by
  induction s generalizing a turns dx with
  | nil => cases turns <;> simp [InputBuf.advanceLoop]
  | cons x s ih =>
      obtain ⟨hx, hs⟩ := List.forall_mem_cons.mp hplain
      rw [List.length_cons] at hturns ⊢
      obtain _ | turns := turns
      · omega
      have hrow : Row ib (((a ++ [x]) ++ (s ++ b)).map fun x => [x]) := by simpa using h
      have hsplit := h
      rw [List.map_append, List.cons_append, List.map_cons] at hsplit
      have hwidth : ib.widthAt t a.length = 1 := by
        have hwidth := hsplit.widthAt (t := t)
        rwa [bytes_map, plain_width hx] at hwidth
      have hnext := plain_next h
      have hrest := ih turns hrow hs (by omega) (dx + 1)
      rw [List.length_append, List.length_singleton] at hrest
      push_cast at hrest
      rw [InputBuf.advanceLoop, if_pos (by push_cast; omega), hwidth, hnext]
      push_cast
      rw [Int.add_sub_cancel, hrest]
      congr 1
      · omega
      · omega

theorem iterate_next (h : Row ib (s.map fun x => [x])) (n k : Nat) (hk : k + n ≤ s.length) :
    ib.next^[n] k = ((k + n : Nat) : Int) := by
  induction n generalizing k with
  | zero => rfl
  | succ n ih =>
      have hsplit : s = s.take k ++ s[k] :: s.drop (k + 1) := by
        rw [← List.drop_eq_getElem_cons, List.take_append_drop]
      have hnext : ib.next k = ((k + 1 : Nat) : Int) := by
        have hrow := h
        rw [hsplit] at hrow
        have hnext := plain_next hrow
        rwa [List.length_take_of_le (by omega)] at hnext
      rw [Function.iterate_succ_apply, hnext, ih (k + 1) (by omega)]
      congr 1
      omega

theorem eq_map_flatten (h : ∀ ch ∈ cs, ∃ x, ch = [x]) : cs = cs.flatten.map fun x => [x] := by
  induction cs with
  | nil => rfl
  | cons ch cs ih =>
      obtain ⟨⟨x, rfl⟩, hcs⟩ := List.forall_mem_cons.mp h
      rw [List.flatten_cons, List.singleton_append, List.map_cons, ← ih hcs]

theorem row_plain (h : Row ib row) (hplain : Plain t e row.flatten)
    (hcompatible : e = .eightBit → ib.encoding ≠ .utf8) :
    ∀ ch ∈ row, ∃ x, ch = [x] ∧ getCharWidth t ch ib.encoding = 1 := by
  intro ch hch
  have hwidth : ∀ x, ch = [x] → ∃ x, ch = [x] ∧ getCharWidth t ch ib.encoding = 1 := by
    rintro x rfl
    refine ⟨x, rfl, ?_⟩
    have hx := hplain x (List.mem_flatten.mpr ⟨_, hch, List.mem_singleton_self x⟩)
    rcases hx with hlow | ⟨he, hwide⟩
    · exact plain_width (.inl hlow)
    · rw [getCharWidth]
      rw [List.getD_cons_zero, if_neg (hcompatible he), hwide]
      split <;> rfl
  by_cases he : e = .eightBit
  · have hchar := h.chars ch hch
    have hne := hcompatible he
    cases hib : ib.encoding with
    | utf8 => exact absurd hib hne
    | ascii =>
        rw [hib] at hchar
        cases hchar with
        | ascii => rw [← hib]; exact hwidth _ rfl
    | eightBit =>
        rw [hib] at hchar
        cases hchar with
        | eightBit => rw [← hib]; exact hwidth _ rfl
  · have hlow : ∀ x ∈ row.flatten, x < 0x80 := fun x hx =>
      (hplain x hx).resolve_right fun hand => he hand.1
    cases h.chars.to_ascii hlow ch hch with
    | ascii => exact hwidth _ rfl

theorem single_columns (h : ∀ ch ∈ cs, ∃ x, ch = [x] ∧ getCharWidth t ch e = 1) :
    columns t e cs = bytes cs := by
  induction cs with
  | nil => rfl
  | cons ch cs ih =>
      obtain ⟨⟨x, rfl, hwidth⟩, hcs⟩ := List.forall_mem_cons.mp h
      rw [columns_cons, bytes_cons, hwidth, ih hcs, List.length_singleton]
      push_cast
      rfl

/-- A completion is in one-column characters of one byte, and so is the line; it is not so
short that the cursor gets before the window. -/
def Autocompletes (t : Terminal) (p : Prompt) (s : List Byte) (ib : InputBuf) : Prop :=
  0 ∉ s ∧
    (¬ (detectEncoding s ≠ .ascii ∧ ib.encoding ≠ .ascii ∧ detectEncoding s ≠ ib.encoding) →
      Plain t (detectEncoding s) (ib.text ++ s) ∧ ib.offset ≤ (ib.wordStart p).1 + s.length)

theorem wordStart_refreshPrompt (p : Prompt) (ib : InputBuf) :
    (ib.refreshPrompt p).wordStart p = ib.wordStart p := by
  have hloop : ∀ turns s, (ib.refreshPrompt p).wordStartLoop p turns s =
      ib.wordStartLoop p turns s := by
    intro turns
    induction turns with
    | zero => exact fun _ => rfl
    | succ turns ih =>
        rintro ⟨place, dx⟩
        rw [InputBuf.wordStartLoop, InputBuf.wordStartLoop, ih]
        rfl
  rw [InputBuf.wordStart, InputBuf.wordStart, hloop]
  rfl

theorem Autocompletes.refreshPrompt (h : Autocompletes t p s ib) :
    Autocompletes t p s (ib.refreshPrompt p) := by
  rw [Autocompletes, wordStart_refreshPrompt]
  exact h

theorem wordDeleted_row {k m : Nat} (h : Row ib (line.map fun x => [x])) (hpos : ib.pos = m)
    (hkm : k ≤ m) (hm : m ≤ line.length) :
    Row (if (k : Int) < ib.pos then ib.deleteBack k else ib)
      ((line.take k ++ line.drop m).map fun x => [x]) := by
  split
  case isFalse hsame =>
      have hkm : k = m := by omega
      rw [hkm, List.take_append_drop]
      exact h
  case isTrue =>
      have hsplit : line = line.take k ++ ((line.take m).drop k ++ line.drop m) := by
        have htake : line.take k = (line.take m).take k := by
          rw [List.take_take, min_eq_left hkm]
        rw [← List.append_assoc, htake, List.take_append_drop, List.take_append_drop]
      have hback := h
      rw [hsplit, List.map_append, List.map_append] at hback
      have hplace : ib.pos = bytes ((line.take k).map (fun x => [x]) ++
          ((line.take m).drop k).map fun x => [x]) := by
        rw [bytes_append, bytes_map, bytes_map, hpos]
        simp only [List.length_take, List.length_drop]
        omega
      have hdeleted := deleteBack_row hback hplace
      rw [bytes_map, List.length_take_of_le (by omega), ← List.map_append] at hdeleted
      exact hdeleted

theorem wordDeleted_frame (ib : InputBuf) {k : Int} (hle : k ≤ ib.pos) :
    (if k < ib.pos then ib.deleteBack k else ib).pos = k ∧
      (if k < ib.pos then ib.deleteBack k else ib).x = ib.x ∧
      (if k < ib.pos then ib.deleteBack k else ib).startX = ib.startX ∧
      (if k < ib.pos then ib.deleteBack k else ib).offset = ib.offset ∧
      (if k < ib.pos then ib.deleteBack k else ib).encoding = ib.encoding := by
  split
  case isTrue => exact ⟨rfl, rfl, rfl, rfl, rfl⟩
  case isFalse hsame => exact ⟨by omega, rfl, rfl, rfl, rfl⟩

theorem completionInserted_row {a b : List Byte} {n : Nat}
    (h : Row ib ((a ++ b).map fun x => [x])) (hpos : ib.pos = a.length)
    (hs : Valid ib.encoding ((s.take n).map fun x => [x]))
    (hfits : ib.len + (s.take n).length ≤ maxInputLineLen) :
    Row (ib.insert (s.take n)) ((a ++ (s.take n ++ b)).map fun x => [x]) := by
  have hholds : Holds { ib with offset := 0 } [] (a.map fun x => [x]) (b.map fun x => [x]) := by
    refine ⟨?_, rfl, ?_⟩
    · rw [List.nil_append, ← List.map_append]
      exact h.moved _ _ _
    · rw [bytes_nil, bytes_map, hpos]
      simp
  have hinsert := insert_holds hholds hs (by
    rw [bytes_map]
    exact hfits)
  have hrow := hinsert.row
  rw [flatten_bytes, List.nil_append, ← List.map_append, ← List.map_append] at hrow
  exact ⟨hrow.valid, hrow.sized, hrow.ends, hrow.len⟩

theorem plain_holds (h : Row ib (s.map fun x => [x])) (hplain : Plain t ib.encoding s)
    (hoffset : 0 ≤ ib.offset) (hpos : ib.offset ≤ ib.pos) (hle : ib.pos ≤ s.length) :
    ∃ hidden shown rest, Holds ib hidden shown rest ∧ Even t ib.encoding shown := by
  obtain ⟨a, ha⟩ := Int.eq_ofNat_of_zero_le hoffset
  obtain ⟨b, hb⟩ := Int.eq_ofNat_of_zero_le (hoffset.trans hpos)
  have hsplit : s = s.take a ++ ((s.take b).drop a ++ s.drop b) := by
    have htake : s.take a = (s.take b).take a := by rw [List.take_take, min_eq_left (by omega)]
    rw [← List.append_assoc, htake, List.take_append_drop, List.take_append_drop]
  refine ⟨(s.take a).map fun x => [x], ((s.take b).drop a).map fun x => [x],
    (s.drop b).map fun x => [x], ⟨?_, ?_, ?_⟩, fun ch hch => ?_⟩
  · rw [← List.map_append, ← List.map_append, ← hsplit]
    exact h
  · rw [bytes_map, List.length_take_of_le (by omega), ha]
  · rw [bytes_map, bytes_map, List.length_take_of_le (by omega), List.length_drop,
      List.length_take_of_le (by omega), hb]
    omega
  · obtain ⟨x, hx, rfl⟩ := List.mem_map.mp hch
    exact plain_width (hplain x (List.mem_of_mem_take (List.mem_of_mem_drop hx)))

/-- A line that is compatible with a plain completion is a row of single bytes itself. -/
theorem plainLine_of_at {e : EncodingType} (h : At t ib row) (hline : Plain t e ib.text)
    (hcompatible : e = .eightBit → ib.encoding ≠ .utf8) :
    Row ib (ib.text.map fun x => [x]) ∧ 0 ∉ ib.text ∧ ib.len = ib.text.length ∧
      ib.x = ib.startX + (ib.pos - ib.offset) ∧ 0 ≤ ib.offset ∧ ib.offset ≤ ib.pos ∧
      ib.pos ≤ ib.len := by
  obtain ⟨hidden, shown, rest, rfl, hholds, hplaced⟩ := h
  have htext := hholds.row.text
  rw [htext] at hline
  have hsingle := row_plain hholds.row hline hcompatible
  have hrow := eq_map_flatten fun ch hch => (hsingle ch hch).imp fun x hx => hx.1
  have hcolumns := single_columns fun ch hch =>
    hsingle ch (List.mem_append_right hidden (List.mem_append_left rest hch))
  have hx := hplaced.x
  rw [hcolumns] at hx
  have hpos := hholds.pos
  have hoffset := hholds.offset
  have hlen := hholds.len_eq
  rw [htext, ← hrow]
  exact ⟨hholds.row, hholds.row.zero_not_mem, hholds.row.len, by omega, by omega, by omega,
    by omega⟩

/-- The cursor has been put behind a completion, and the line is scrolled where it has to be. -/
theorem behind_holds {pos x : Int} (h : Row ib (line.map fun x => [x]))
    (hplain : Plain t ib.encoding line) (hoffset : 0 ≤ ib.offset) (hle : ib.offset ≤ pos)
    (hpos : pos ≤ line.length) (hx : x = ib.startX + (pos - ib.offset))
    (hstart : ib.startX < t.neColumns) :
    let moved := { ib with pos := pos, x := x }
    let ib' := if t.neColumns ≤ x then
        { moved with
          offset := moved.next^[(x - t.neColumns + 1).toNat] moved.offset
          x := t.neColumns - 1 }
      else moved
    ib'.startX = ib.startX ∧ ib.startX + (ib'.pos - ib'.offset) < t.neColumns ∧
      ∃ hidden shown rest, Holds ib' hidden shown rest ∧ Even t ib'.encoding shown := by
  have hmoved := fun x offset => plain_holds (h.moved x pos offset) hplain
  dsimp only
  split
  case isFalse hin =>
      exact ⟨rfl, by dsimp only; omega, hmoved _ _ (by dsimp only; omega) hle (by dsimp only; omega)⟩
  case isTrue hwide =>
      obtain ⟨from₀, hfrom⟩ := Int.eq_ofNat_of_zero_le hoffset
      have hshift := iterate_next h (x - t.neColumns + 1).toNat from₀ (by omega)
      have hnext : InputBuf.next { ib with pos := pos, x := x } = ib.next := rfl
      rw [hnext, hfrom, hshift]
      exact ⟨rfl, by dsimp only; omega,
        hmoved _ _ (by dsimp only; omega) (by dsimp only; omega) (by dsimp only; omega)⟩

/-- `input_autocomplete`, before the line is drawn -/
theorem autocompleted_holds {ib' : InputBuf} (h : At t ib row)
    (hcompletes : Autocompletes t p s ib) (hsome : ib.autocompleted t p s = some ib') :
    ib'.startX = ib.startX ∧ ib.startX + (ib'.pos - ib'.offset) < t.neColumns ∧
      ∃ hidden shown rest, Holds ib' hidden shown rest ∧ Even t ib'.encoding shown := by
  obtain ⟨hzero, hcompletes⟩ := hcompletes
  rw [InputBuf.autocompleted] at hsome
  dsimp only at hsome
  split at hsome
  case isTrue => exact absurd hsome nofun
  case isFalse hcompatible =>
      obtain ⟨hplain, hoffset⟩ := hcompletes hcompatible
      obtain ⟨hline, hs⟩ := List.forall_mem_append.mp hplain
      have hstartX := h.startX_lt
      have height : detectEncoding s = .eightBit → ib.encoding ≠ .utf8 := by
        intro heq hutf8
        exact hcompatible ⟨by simp [heq], by simp [hutf8], by simp [heq, hutf8]⟩
      obtain ⟨hrow, hnozero, hlength, hx, hnonneg, hbefore, hposle⟩ := plainLine_of_at h hline height
      generalize ib.text = line at hline hrow hnozero hlength
      obtain ⟨hstart, hle, hdx⟩ := wordStart_plain (p := p) hrow (by omega) (by omega)
      generalize ib.wordStart p = found at hsome hstart hle hdx hoffset
      obtain ⟨start, dx⟩ := found
      dsimp only at hsome hstart hle hdx hoffset
      obtain ⟨k, rfl⟩ := Int.eq_ofNat_of_zero_le hstart
      obtain ⟨m, hm⟩ := Int.eq_ofNat_of_zero_le (show 0 ≤ ib.pos by omega)
      have hencoded : Row { ib with encoding := detectEncoding s } (line.map fun x => [x]) :=
        ⟨plain_valid hline hnozero, hrow.sized, hrow.ends, hrow.len⟩
      have hdeleted := @wordDeleted_row { ib with encoding := detectEncoding s } line k m hencoded
        hm (by omega) (by omega)
      obtain ⟨hpos₂, hx₂, hstartX₂, hoffset₂, hencoding₂⟩ := wordDeleted_frame
        { ib with encoding := detectEncoding s } hle
      generalize hib₂ : (if ((k : Nat) : Int) < ib.pos then
        InputBuf.deleteBack { ib with encoding := detectEncoding s } k
          else { ib with encoding := detectEncoding s }) = ib₂ at hsome
      rw [show (({ ib with encoding := detectEncoding s } : InputBuf).pos) = ib.pos from rfl,
        hib₂] at hdeleted hpos₂ hx₂ hstartX₂ hoffset₂ hencoding₂
      dsimp only at hx₂ hstartX₂ hoffset₂ hencoding₂
      have hlen₂ : ib₂.len = (line.take k ++ line.drop m).length := by
        rw [hdeleted.len, bytes_map]
      have hlow := hdeleted.len_le
      have hfull := hrow.len_le
      have htake : (line.take k).length = k := List.length_take_of_le (by omega)
      -- the completion is cut to what fits
      generalize hac : (if ((maxInputLineLen : Nat) : Int) ≤ s.length + ib₂.len then
        (maxInputLineLen : Int) - ib₂.len else s.length) = acLen at hsome
      obtain ⟨n, rfl⟩ := Int.eq_ofNat_of_zero_le (show 0 ≤ acLen by split at hac <;> omega)
      have hn : n ≤ s.length := by split at hac <;> omega
      have hstaken : (s.take n).length = n := List.length_take_of_le hn
      rw [Int.toNat_natCast] at hsome
      have hplainTake : Plain t ib₂.encoding (s.take n) := by
        rw [hencoding₂]
        exact fun x hx => hs x (List.mem_of_mem_take hx)
      have hinserted := @completionInserted_row ib₂ s (line.take k) (line.drop m) n hdeleted
        (by rw [hpos₂, htake]) (plain_valid hplainTake fun hx => hzero (List.mem_of_mem_take hx))
        (by rw [hstaken]; split at hac <;> omega)
      have hadvance := advanceLoop_plain (t := t) n hinserted hplainTake hstaken.le dx
      rw [hstaken, htake] at hadvance
      -- the cursor is behind the completion
      rw [show (ib₂.insert (s.take n)).pos = k from hpos₂,
        show (ib₂.insert (s.take n)).x = ib.x from hx₂, hadvance] at hsome
      dsimp only at hsome
      rw [Option.some.injEq] at hsome
      rw [List.length_append, htake, List.length_drop] at hlen₂
      have hend : (k : Int) + n ≤ (line.take k ++ (s.take n ++ line.drop m)).length := by
        rw [List.length_append, List.length_append, htake, hstaken]
        omega
      have hplainAll : Plain t ib₂.encoding (line.take k ++ (s.take n ++ line.drop m)) := by
        refine List.forall_mem_append.mpr ⟨?_, List.forall_mem_append.mpr ⟨hplainTake, ?_⟩⟩
        · rw [hencoding₂]
          exact fun x hx => hline x (List.mem_of_mem_take hx)
        · rw [hencoding₂]
          exact fun x hx => hline x (List.mem_of_mem_drop hx)
      have hoffset₃ : (ib₂.insert (s.take n)).offset = ib.offset := hoffset₂
      have hstartX₃ : (ib₂.insert (s.take n)).startX = ib.startX := hstartX₂
      have hwindow : ib.offset ≤ k + n := by split at hac <;> omega
      have hbehind := @behind_holds _ _ _ (k + n) (ib.x + (dx + n)) hinserted hplainAll
        (by omega) (by omega) hend (by omega) (by omega)
      rw [← hsome, ← hstartX₃]
      exact hbehind

/-- The completion is in another encoding than the line. -/
def Foreign (s : List Byte) (ib : InputBuf) : Prop :=
  detectEncoding s ≠ .ascii ∧ ib.encoding ≠ .ascii ∧ detectEncoding s ≠ ib.encoding

theorem getCharWidth_congr {t' : Terminal} (h : t'.wcwidth = t.wcwidth) (s : List Byte)
    (e : EncodingType) : getCharWidth t' s e = getCharWidth t s e := by
  rw [getCharWidth, getCharWidth, outputWidth, outputWidth, outputWidth, outputWidth, h]

/-- `input_autocomplete`: the line is drawn on the terminal `t'`, with the prompt, if it has been
read again. -/
theorem autocomplete_kept {completion : Option (List Byte)} {t' : Option Terminal}
    (h : Rowed ib) (hcolumn : ok ∨ (∃ s, s ∈ completion) → Kept t True ib)
    (hcompletes : ∀ s ∈ completion, Autocompletes t p s ib)
    (heven : ok → (∀ s ∈ completion, Foreign s ib) → EvenBetween t ib ib.offset ib.pos)
    (hwindow : ok → ∀ t₁ ∈ t', t₁.wcwidth = t.wcwidth ∧
      t.neColumns - ib.startX ≤ t₁.neColumns - (p.promptLen + 2)) :
    Kept (t'.getD t) ok (if t'.isSome then (ib.autocomplete t p completion).refreshPrompt p
      else (ib.autocomplete t p completion).refresh) := by
  have hcompleted : ∃ hidden shown rest,
      Holds (ib.autocomplete t p completion) hidden shown rest ∧
        (ib.autocomplete t p completion).startX = ib.startX ∧
        (ok → Even t (ib.autocomplete t p completion).encoding shown ∧
          ib.startX + ((ib.autocomplete t p completion).pos -
            (ib.autocomplete t p completion).offset) < t.neColumns) := by
    rw [InputBuf.autocomplete]
    cases hsome : completion.bind fun s => ib.autocompleted t p s with
    | some ib' =>
        obtain ⟨s, hs, hib'⟩ := Option.bind_eq_some_iff.mp hsome
        obtain ⟨row, hrow⟩ := (hcolumn (.inr ⟨s, hs⟩)).at
        obtain ⟨hstart, hlt, hidden, shown, rest, hholds, hshown⟩ :=
          autocompleted_holds hrow (hcompletes s hs) hib'
        exact ⟨hidden, shown, rest, hholds, hstart, fun _ => ⟨hshown, hlt⟩⟩
    | none =>
        have hforeign : ∀ s ∈ completion, Foreign s ib := by
          intro s hs
          rw [Option.mem_def] at hs
          rw [hs, Option.bind_some, InputBuf.autocompleted] at hsome
          dsimp only at hsome
          split at hsome
          case isTrue hforeign => exact hforeign
          case isFalse => exact absurd hsome nofun
        obtain ⟨hidden, shown, rest, hholds, hplaced⟩ := h.kept fun hok => hcolumn (.inl hok)
        refine ⟨hidden, shown, rest, hholds, rfl, fun hok => ?_⟩
        have hshown := hholds.even (heven hok hforeign)
        exact ⟨hshown, hholds.fits (hplaced hok) hshown⟩
  obtain ⟨hidden, shown, rest, hholds, hstart, hshown⟩ := hcompleted
  cases t' with
  | none =>
      refine hholds.drawn fun hok => ?_
      obtain ⟨hshown, hlt⟩ := hshown hok
      exact ⟨hshown, hstart ▸ hlt⟩
  | some t' =>
      refine hholds.prompt_drawn fun hok => ?_
      obtain ⟨hshown, hlt⟩ := hshown hok
      obtain ⟨hwidths, hwindow⟩ := hwindow hok t' rfl
      refine ⟨fun ch hch => ?_, ?_⟩
      · rw [Option.getD_some, getCharWidth_congr hwidths]
        exact hshown ch hch
      · rw [Option.getD_some]
        omega

end NiceEditor.InputEvents
