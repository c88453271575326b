import Mathlib.Data.List.GetD
import NiceEditor.Clips
import NiceEditor.Commands
import NiceEditor.InputLine
import NiceEditor.Sequences

namespace NiceEditor.CharacterRows

open NiceEditor.Pools
open NiceEditor.BufferData
open NiceEditor.Encoding
open NiceEditor.Navigation
open NiceEditor.Clips
open NiceEditor.InputLine
open NiceEditor.Sequences

/-- The bytes of a character. -/
inductive IsChar : EncodingType → List Byte → Prop
  | ascii {c : Byte} (hne : c ≠ 0) (hc : c < 0x80) : IsChar .ascii [c]
  | eightBit {c : Byte} (hne : c ≠ 0) : IsChar .eightBit [c]
  | utf8 {c : Byte} {tail : List Byte} (hne : c ≠ 0) (hlen : utf8len c = tail.length + 1)
      (htail : ∀ x ∈ tail, x &&& 0xC0 = 0x80)
      (hshort : tail ≠ [] → redundant (tail.length + 1) c (tail.headD 0) = false) :
      IsChar .utf8 (c :: tail)

/-- A row of characters. -/
def Chars (e : EncodingType) (cs : List (List Byte)) : Prop := ∀ ch ∈ cs, IsChar e ch

/-- The columns that a row of characters takes. -/
def columns (t : Terminal) (e : EncodingType) (cs : List (List Byte)) : Int :=
  (cs.map fun ch => getCharWidth t ch e).sum

variable {e e' : EncodingType} {t : Terminal} {ch ch' a b l : List Byte}
variable {cs cs' : List (List Byte)}

theorem Chars.nil : Chars e [] := fun _ h => absurd h List.not_mem_nil

theorem chars_append : Chars e (cs ++ cs') ↔ Chars e cs ∧ Chars e cs' := List.forall_mem_append

theorem chars_cons : Chars e (ch :: cs) ↔ IsChar e ch ∧ Chars e cs := List.forall_mem_cons

theorem chars_singleton : Chars e [ch] ↔ IsChar e ch := List.forall_mem_singleton

@[simp] theorem columns_nil : columns t e [] = 0 := rfl

@[simp] theorem columns_append : columns t e (cs ++ cs') = columns t e cs + columns t e cs' := by
  simp [columns]

@[simp] theorem columns_cons : columns t e (ch :: cs) = getCharWidth t ch e + columns t e cs := rfl

theorem IsChar.length_pos (h : IsChar e ch) : 0 < ch.length := by
  cases h <;> simp

theorem continuation_ne_zero {x : Byte} (h : x &&& 0xC0 = 0x80) : x ≠ 0 := by
  rintro rfl
  exact absurd h (by decide)

theorem IsChar.zero_not_mem (h : IsChar e ch) : 0 ∉ ch := by
  cases h with
  | ascii hne hc => simpa using hne.symm
  | eightBit hne => simpa using hne.symm
  | utf8 hne hlen htail hshort =>
      intro hmem
      rcases List.mem_cons.mp hmem with heq | hmem
      · exact hne heq.symm
      · exact continuation_ne_zero (htail 0 hmem) rfl

theorem Chars.zero_not_mem (h : Chars e cs) : 0 ∉ cs.flatten := by
  intro hmem
  obtain ⟨ch, hch, hzero⟩ := List.mem_flatten.mp hmem
  exact (h ch hch).zero_not_mem hzero

theorem charLen_char (h : IsChar e ch) : charLen e ((ch ++ l).getD 0 0) = ch.length := by
  cases h with
  | ascii hne hc => rfl
  | eightBit hne => rfl
  | utf8 hne hlen htail hshort =>
      simpa [charLen] using hlen

theorem nextPos_char (h : IsChar e ch) (a b : List Byte) :
    nextPos (a ++ (ch ++ b)) a.length e = (a.length + ch.length : Nat) := by
  have hbyte : byteAt (a ++ (ch ++ b)) a.length = (ch ++ b).getD 0 0 := by
    rw [byteAt, Int.toNat_natCast, List.getD_append_right _ _ _ _ le_rfl, Nat.sub_self]
  rw [nextPos, hbyte, charLen_char h]
  push_cast
  rfl

theorem sequenceStart_char {c : Byte} {tail : List Byte} (hc : ¬ c &&& 0xC0 = 0x80 ∨ a = [])
    (htail : ∀ x ∈ tail, x &&& 0xC0 = 0x80) (b : List Byte) (k : Nat) (hk : k ≤ tail.length) :
    sequenceStart (a ++ (c :: tail ++ b)) (a.length + k) = a.length := by
  induction k with
  | zero =>
      rcases a with _ | ⟨x, a⟩
      · rfl
      · have hget : (x :: a ++ (c :: tail ++ b)).getD (a.length + 1) 0 = c := by
          simp [List.getD_eq_getElem?_getD]
        have hlead := hc.resolve_right nofun
        rw [Nat.add_zero, List.length_cons, sequenceStart, hget, if_neg hlead]
  | succ k ih =>
      have hget : (a ++ (c :: tail ++ b)).getD (a.length + k + 1) 0 = tail[k] := by
        rw [List.getD_append_right _ _ _ _ (by omega)]
        have hsub : a.length + k + 1 - a.length = k + 1 := by omega
        rw [hsub, List.cons_append, List.getD_cons_succ, List.getD_append _ _ _ _ (by omega),
          List.getD_eq_getElem _ _ (by omega)]
      rw [← Nat.add_assoc, sequenceStart, hget, if_pos (htail _ (List.getElem_mem _))]
      exact ih (by omega)

theorem lead_not_continuation {c : Byte} {n : Nat} (h : utf8len c = n + 1) :
    ¬ c &&& 0xC0 = 0x80 := by
  intro hc
  obtain ⟨hge, hlt⟩ := continuation_ge c hc
  rw [utf8len, if_neg (UInt8.not_lt.mpr hge), if_pos hlt] at h
  omega

theorem prevPos_char (h : IsChar e ch) (a b : List Byte) :
    prevPos (a ++ (ch ++ b)) (a.length + ch.length : Nat) e = a.length := by
  have hpos := h.length_pos
  have hne : a ++ (ch ++ b) ≠ [] := by
    intro heq
    have := congrArg List.length heq
    simp only [List.length_append, List.length_nil] at this
    omega
  rw [prevPos, if_neg (by omega), if_neg hne]
  cases h with
  | ascii hne hc => simp
  | eightBit hne => simp
  | @utf8 c tail hne hlen htail hshort =>
      have hplace : (((a.length + (c :: tail).length : Nat) : Int) - 1).toNat =
          a.length + tail.length := by
        rw [List.length_cons]
        omega
      rw [if_pos rfl, hplace,
        sequenceStart_char (.inl (lead_not_continuation hlen)) htail b tail.length le_rfl]

theorem utf8char_char {c : Byte} {tail : List Byte} (hlen : utf8len c = tail.length + 1)
    (b : List Byte) : utf8char (c :: tail ++ b) = utf8char (c :: tail) := by
  have hsame : ∀ i, i < tail.length →
      continuation (c :: tail ++ b) (i + 1) = continuation (c :: tail) (i + 1) := by
    intro i hi
    rw [continuation, continuation, List.cons_append, List.getD_cons_succ, List.getD_cons_succ,
      List.getD_append _ _ _ _ hi]
  have hfold : ∀ n x, n ≤ tail.length →
      (List.range n).foldl (fun x i => x * 64 + continuation (c :: tail ++ b) (i + 1)) x =
        (List.range n).foldl (fun x i => x * 64 + continuation (c :: tail) (i + 1)) x := by
    intro n x hn
    refine List.foldl_ext _ _ _ fun y i hi => ?_
    rw [hsame i ((List.mem_range.mp hi).trans_le hn)]
  unfold utf8len at hlen
  unfold utf8char
  simp only [List.cons_append, List.getD_cons_zero] at hfold ⊢
  by_cases h1 : c < 0x80
  · rw [if_pos h1, if_pos h1]
  by_cases h2 : c < 0xC0
  · rw [if_neg h1, if_neg h1, if_pos h2, if_pos h2]
  rw [if_neg h1, if_neg h2] at hlen
  rw [if_neg h1, if_neg h1, if_neg h2, if_neg h2]
  -- the lead byte says how many bytes are read, and so many there are
  by_cases h3 : c < 0xE0
  · rw [if_pos h3] at hlen
    rw [if_pos h3, if_pos h3, hfold 1 _ (by omega)]
  by_cases h4 : c < 0xF0
  · rw [if_neg h3, if_pos h4] at hlen
    rw [if_neg h3, if_neg h3, if_pos h4, if_pos h4, hfold 2 _ (by omega)]
  by_cases h5 : c < 0xF8
  · rw [if_neg h3, if_neg h4, if_pos h5] at hlen
    rw [if_neg h3, if_neg h3, if_neg h4, if_neg h4, if_pos h5, if_pos h5, hfold 3 _ (by omega)]
  rw [if_neg h3, if_neg h4, if_neg h5] at hlen
  rw [if_neg h3, if_neg h3, if_neg h4, if_neg h4, if_neg h5, if_neg h5]
  by_cases h6 : c < 0xFC
  · rw [if_pos h6] at hlen
    rw [if_pos h6, if_pos h6, hfold 4 _ (by omega)]
  · rw [if_neg h6] at hlen
    rw [if_neg h6, if_neg h6, hfold 5 _ (by omega)]

theorem getCharWidth_char (h : IsChar e ch) (b : List Byte) :
    getCharWidth t (ch ++ b) e = getCharWidth t ch e := by
  cases h with
  | ascii hne hc => rfl
  | eightBit hne => rfl
  | utf8 hne hlen htail hshort =>
      rw [getCharWidth, getCharWidth, utf8char_char hlen]
      rfl

theorem getCharWidth_pos (t : Terminal) (s : List Byte) (e : EncodingType) :
    1 ≤ getCharWidth t s e := by
  have houtput : ∀ c, 1 ≤ outputWidth t c := by
    intro c
    unfold outputWidth
    split
    · omega
    · exact le_rfl
  unfold getCharWidth
  dsimp only
  split
  · exact le_rfl
  · split
    · exact houtput _
    · exact houtput _

theorem length_le_columns (t : Terminal) (e : EncodingType) (cs : List (List Byte)) :
    (cs.length : Int) ≤ columns t e cs := by
  induction cs with
  | nil => exact le_rfl
  | cons ch cs ih =>
      have := getCharWidth_pos t ch e
      rw [columns_cons, List.length_cons]
      push_cast
      omega

theorem columns_nonneg (t : Terminal) (e : EncodingType) (cs : List (List Byte)) :
    0 ≤ columns t e cs := (Int.natCast_nonneg _).trans (length_le_columns t e cs)

theorem isChar_utf8_iff : IsChar .utf8 ch ↔ Sequence ch ∧ 0 ∉ ch := by
  constructor
  · intro h
    refine ⟨?_, h.zero_not_mem⟩
    cases h with
    | utf8 hne hlen htail hshort => exact .mk hlen htail hshort
  · rintro ⟨⟨hlen, htail, hshort⟩, hzero⟩
    exact .utf8 (fun hc => hzero (hc ▸ List.mem_cons_self)) hlen htail hshort

theorem Chars.sequences (h : Chars .utf8 cs) : ∀ ch ∈ cs, Sequence ch :=
  fun ch hch => (isChar_utf8_iff.mp (h ch hch)).1

theorem exists_utf8 (isAscii : Bool) (hzero : 0 ∉ l)
    (h : detectLoop isAscii l 0 ≠ .eightBit) : ∃ cs, Chars .utf8 cs ∧ cs.flatten = l := by
  obtain ⟨cs, hcs, rfl⟩ := exists_sequences isAscii h
  refine ⟨cs, fun ch hch => isChar_utf8_iff.mpr ⟨hcs ch hch, fun hmem => ?_⟩, rfl⟩
  exact hzero (List.mem_flatten.mpr ⟨ch, hch, hmem⟩)

theorem chars_bytes (hzero : 0 ∉ l) (h : e = .eightBit ∨ e = .ascii ∧ ∀ x ∈ l, x < 0x80) :
    Chars e (l.map fun x => [x]) := by
  intro ch hch
  obtain ⟨x, hx, rfl⟩ := List.mem_map.mp hch
  have hne : x ≠ 0 := fun heq => hzero (heq ▸ hx)
  rcases h with rfl | ⟨rfl, hall⟩
  · exact .eightBit hne
  · exact .ascii hne (hall x hx)

theorem flatten_bytes (l : List Byte) : (l.map fun x => [x]).flatten = l := by
  induction l with
  | nil => rfl
  | cons x l ih => rw [List.map_cons, List.flatten_cons, ih, List.singleton_append]

theorem exists_chars (hzero : 0 ∉ l) : ∃ cs, Chars (detectEncoding l) cs ∧ cs.flatten = l := by
  cases hencoding : detectEncoding l with
  | ascii =>
      have hall := (detectEncoding_eq_ascii_iff l).mp hencoding
      exact ⟨_, chars_bytes hzero (.inr ⟨rfl, hall⟩), flatten_bytes l⟩
  | utf8 => exact exists_utf8 true hzero (by rw [← detectEncoding, hencoding]; nofun)
  | eightBit => exact ⟨_, chars_bytes hzero (.inl rfl), flatten_bytes l⟩

theorem IsChar.of_ascii (h : IsChar .ascii ch) (e : EncodingType) : IsChar e ch := by
  cases h with
  | @ascii c hne hc =>
      cases e with
      | ascii => exact .ascii hne hc
      | utf8 =>
          exact .utf8 hne (by rw [utf8len, if_pos hc]; rfl) (fun _ hx => absurd hx List.not_mem_nil)
            fun hne => absurd rfl hne
      | eightBit => exact .eightBit hne

theorem Chars.of_ascii (h : Chars .ascii cs) (e : EncodingType) : Chars e cs :=
  fun ch hch => (h ch hch).of_ascii e

theorem IsChar.of_mem_ascii {x : Byte} (h : IsChar e ch) (hx : x ∈ ch) (hlow : x < 0x80) :
    ch = [x] := by
  cases h with
  | ascii hne hc => rw [List.mem_singleton.mp hx]
  | eightBit hne => rw [List.mem_singleton.mp hx]
  | @utf8 c tail hne hlen htail hshort =>
      rcases List.mem_cons.mp hx with rfl | hmem
      · rw [utf8len, if_pos hlow] at hlen
        rw [List.length_eq_zero_iff.mp (show tail.length = 0 by omega)]
      · exact absurd hlow (UInt8.not_lt.mpr (continuation_ge x (htail x hmem)).1)

theorem Chars.to_ascii (h : Chars e cs) (hlow : ∀ x ∈ cs.flatten, x < 0x80) : Chars .ascii cs := by
  intro ch hch
  have hzero := (h ch hch).zero_not_mem
  obtain ⟨x, ch, rfl⟩ := List.exists_cons_of_ne_nil
    (List.ne_nil_of_length_pos (h ch hch).length_pos)
  have hx : x < 0x80 := hlow x (List.mem_flatten.mpr ⟨_, hch, List.mem_cons_self⟩)
  rw [(h _ hch).of_mem_ascii List.mem_cons_self hx] at hzero ⊢
  exact .ascii (fun heq => hzero (heq ▸ List.mem_cons_self)) hx

theorem Chars.split_ascii {x : Byte} (h : Chars e cs) (hflatten : cs.flatten = a ++ x :: b)
    (hlow : x < 0x80) :
    ∃ front rest, cs = front ++ [x] :: rest ∧ front.flatten = a ∧ rest.flatten = b :=
  split_singleton (fun ch hch hx => (h ch hch).of_mem_ascii hx hlow) hflatten

theorem continuationByte_tail (c shift : Nat) : continuationByte c shift &&& 0xC0 = 0x80 := by
  have hall : ∀ x : Byte, (x &&& 0x3F ||| 0x80) &&& 0xC0 = 0x80 :=
    Commands.forall_byte (by decide +kernel)
  exact hall _

theorem lead_short : ∀ l ∈ ([3, 4, 5, 6] : List Nat), ∀ n < 2 ^ (7 - l), ∀ m < 256,
    2 ^ (8 - l) ≤ m % 64 + 64 * n →
      utf8len (UInt8.ofNat n ||| UInt8.ofNat (256 - 2 ^ (8 - l))) = l ∧
        redundant l (UInt8.ofNat n ||| UInt8.ofNat (256 - 2 ^ (8 - l)))
          (UInt8.ofNat m &&& 0x3F ||| 0x80) = false := by
  have hlow : ∀ m < 256, UInt8.ofNat m &&& 0x3F = UInt8.ofNat (m % 64) := by decide +kernel
  have hall : (([3, 4, 5, 6] : List Nat).all fun l => (List.range (2 ^ (7 - l))).all fun n =>
      (List.range 64).all fun r => decide (2 ^ (8 - l) ≤ r + 64 * n →
        utf8len (UInt8.ofNat n ||| UInt8.ofNat (256 - 2 ^ (8 - l))) = l ∧
          redundant l (UInt8.ofNat n ||| UInt8.ofNat (256 - 2 ^ (8 - l)))
            (UInt8.ofNat r ||| 0x80) = false)) = true := by decide +kernel
  simp only [List.all_eq_true, List.mem_range, decide_eq_true_eq] at hall
  intro l hl n hn m hm hbits
  rw [hlow m hm]
  exact hall l hl n hn (m % 64) (Nat.mod_lt _ (by decide)) hbits

theorem lead_two : ∀ n < 32, 2 ≤ n →
    utf8len (UInt8.ofNat n ||| 0xC0) = 2 ∧ redundant 2 (UInt8.ofNat n ||| 0xC0) 0 = false := by
  decide +kernel

theorem utf8len_ne_zero {x : Byte} {n : Nat} (h : utf8len x = n) (hn : 1 < n) : x ≠ 0 := by
  rintro rfl
  have hone : utf8len 0 = 1 := rfl
  omega

theorem sequence_isChar (c l : Nat) (shifts : List Nat) (hl : l ∈ ([3, 4, 5, 6] : List Nat))
    (hshifts : shifts.length + 2 = l) (hlow : 2 ^ (8 - l) ≤ c / 2 ^ (6 * (l - 2)))
    (hhigh : c < 2 ^ (6 * (l - 1) + (7 - l))) :
    IsChar .utf8 ((UInt8.ofNat (c >>> (6 * (l - 1))) ||| UInt8.ofNat (256 - 2 ^ (8 - l))) ::
      (6 * (l - 2) :: shifts).map (continuationByte c)) := by
  have hn : c >>> (6 * (l - 1)) < 2 ^ (7 - l) := by
    rw [Nat.shiftRight_eq_div_pow, Nat.div_lt_iff_lt_mul (Nat.two_pow_pos _), ← Nat.pow_add,
      Nat.add_comm]
    exact hhigh
  have hsecond : c / 2 ^ (6 * (l - 2)) / 64 = c / 2 ^ (6 * (l - 1)) := by
    rw [Nat.div_div_eq_div_mul]
    congr 1
    have hexp : 6 * (l - 1) = 6 * (l - 2) + 6 := by
      simp only [List.mem_cons, List.not_mem_nil, or_false] at hl
      omega
    rw [hexp, Nat.pow_add]
  obtain ⟨hlen, hshort⟩ := lead_short l hl _ hn (c >>> (6 * (l - 2)) % 256)
    (Nat.mod_lt _ (by decide)) (by
      rw [Nat.shiftRight_eq_div_pow, Nat.shiftRight_eq_div_pow]
      omega)
  rw [show (256 : Nat) = 2 ^ 8 from rfl, UInt8.ofNat_mod_size] at hshort
  refine .utf8 (utf8len_ne_zero hlen ?_) ?_ ?_ fun _ => ?_
  · omega
  · rw [hlen, List.length_map, List.length_cons]
    omega
  · intro x hx
    obtain ⟨shift, -, rfl⟩ := List.mem_map.mp hx
    exact continuationByte_tail c shift
  · rw [List.length_map, List.length_cons, hshifts]
    exact hshort

theorem utf8str_isChar {c : Nat} (hpos : 0 < c) (hc : c < 2 ^ 31) : IsChar .utf8 (utf8str c) := by
  unfold utf8str
  dsimp only
  by_cases h1 : c < 0x80
  · have hbyte : (UInt8.ofNat c).toNat = c := UInt8.toNat_ofNat_of_lt' (h1.trans (by decide))
    have hlow : UInt8.ofNat c < 0x80 := UInt8.lt_iff_toNat_lt.mpr (by rw [hbyte]; exact h1)
    have hne : UInt8.ofNat c ≠ 0 := by
      intro heq
      rw [heq] at hbyte
      exact hpos.ne hbyte
    rw [if_pos h1]
    exact (IsChar.ascii hne hlow).of_ascii .utf8
  by_cases h2 : c < 0x800
  · obtain ⟨hlen, hshort⟩ := lead_two (c >>> 6) (by rw [Nat.shiftRight_eq_div_pow]; omega)
      (by rw [Nat.shiftRight_eq_div_pow]; omega)
    rw [if_neg h1, if_pos h2]
    refine .utf8 (utf8len_ne_zero hlen (by decide)) hlen ?_ fun _ => hshort
    intro x hx
    rw [List.mem_singleton.mp hx]
    exact continuationByte_tail c 0
  by_cases h3 : c < 0x10000
  · rw [if_neg h1, if_neg h2, if_pos h3]
    exact sequence_isChar c 3 [0] (by decide) rfl (by omega) (by omega)
  by_cases h4 : c < 0x200000
  · rw [if_neg h1, if_neg h2, if_neg h3, if_pos h4]
    exact sequence_isChar c 4 [6, 0] (by decide) rfl (by omega) (by omega)
  by_cases h5 : c < 0x4000000
  · rw [if_neg h1, if_neg h2, if_neg h3, if_neg h4, if_pos h5]
    exact sequence_isChar c 5 [12, 6, 0] (by decide) rfl (by omega) (by omega)
  · rw [if_neg h1, if_neg h2, if_neg h3, if_neg h4, if_neg h5]
    exact sequence_isChar c 6 [18, 12, 6, 0] (by decide) rfl (by omega)
      (by omega)

theorem widthLoop_chars (h : Chars e cs) (a b : List Byte) (turns : Nat)
    (hturns : cs.flatten.length ≤ turns) (width : Int) :
    widthLoop t (a ++ (cs.flatten ++ b)) (a.length + cs.flatten.length) e turns a.length width =
      width + columns t e cs := by
  induction cs generalizing a turns width with
  | nil => cases turns <;> simp [widthLoop]
  | cons ch cs ih =>
      obtain ⟨hch, hcs⟩ := chars_cons.mp h
      have hpos := hch.length_pos
      rw [List.flatten_cons, List.length_append] at *
      obtain _ | turns := turns
      · omega
      have hnext := nextPos_char hch a (cs.flatten ++ b)
      have hplace : (((a ++ ch).length : Nat) : Int) = a.length + ch.length := by simp
      have hrest := ih hcs (a ++ ch) turns (by omega) (width + getCharWidth t ch e)
      rw [List.append_assoc, hplace] at hrest
      rw [widthLoop, if_pos (by push_cast; omega), List.append_assoc, hnext, Int.toNat_natCast,
        List.drop_left, getCharWidth_char hch, columns_cons]
      push_cast
      rw [← Int.add_assoc, hrest, Int.add_assoc]

theorem getStringWidth_chars (h : Chars e cs) (b : List Byte) :
    getStringWidth t (cs.flatten ++ b) cs.flatten.length e = columns t e cs := by
  have hloop := widthLoop_chars (t := t) h [] b cs.flatten.length le_rfl 0
  rw [List.nil_append, List.length_nil, Nat.cast_zero, Int.zero_add, Int.zero_add] at hloop
  rw [getStringWidth, Int.toNat_natCast]
  exact hloop

end NiceEditor.CharacterRows
