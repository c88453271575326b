import NiceEditor.Radix
import NiceEditor.CharacterRows

/-!
`utf8str`, `utf8char`, `utf8len` and `utf8seqlen` agree, and what `utf8str` writes are the
sequences that `detect_encoding` takes for characters, except those that start with FE or FF.
-/

namespace NiceEditor.Utf8Encodings

open NiceEditor.Pools
open NiceEditor.BufferData
open NiceEditor.Encoding
open NiceEditor.Navigation
open NiceEditor.InputLine
open NiceEditor.Radix
open NiceEditor.Sequences
open NiceEditor.CharacterRows

/-- The lengths of the sequences that have continuation bytes -/
def longLengths : List Nat := [2, 3, 4, 5, 6]

/-- The first byte of a sequence of length `l`, given its bits. -/
def lead (l n : Nat) : Byte := UInt8.ofNat n ||| UInt8.ofNat (256 - 2 ^ (8 - l))

/-- A continuation byte, given its bits. -/
def following (d : Nat) : Byte := UInt8.ofNat d ||| 0x80

variable {c l n : Nat} {x y : Byte} {tail rest : List Byte}

section Bytes

theorem bits_spec :
    (∀ l ∈ longLengths, ∀ n < 2 ^ (7 - l),
      utf8len (lead l n) = l ∧ (lead l n).toNat % 2 ^ (7 - l) = n ∧ lead l n < 0xFE) ∧
    (∀ d < 64, following d &&& 0xC0 = 0x80 ∧ (following d &&& 0x3F).toNat = d ∧
      following d < 0xFE) ∧
    ∀ l ∈ ([3, 4, 5, 6] : List Nat), ∀ n < 2 ^ (7 - l), ∀ d < 64,
      redundant l (lead l n) (following d) = decide (n * 64 + d < 2 ^ (8 - l)) := by
  decide +kernel

theorem lead_spec (hl : l ∈ longLengths) (hn : n < 2 ^ (7 - l)) :
    utf8len (lead l n) = l ∧ (lead l n).toNat % 2 ^ (7 - l) = n ∧ lead l n < 0xFE :=
  bits_spec.1 l hl n hn

theorem following_spec {d : Nat} (hd : d < 64) : following d &&& 0xC0 = 0x80 ∧
    (following d &&& 0x3F).toNat = d ∧ following d < 0xFE :=
  bits_spec.2.1 d hd

theorem redundant_long {d : Nat} (hl : l ∈ ([3, 4, 5, 6] : List Nat)) (hn : n < 2 ^ (7 - l))
    (hd : d < 64) :
    redundant l (lead l n) (following d) = decide (n * 64 + d < 2 ^ (8 - l)) :=
  bits_spec.2.2 l hl n hn d hd

theorem byte_spec : ∀ x : Byte,
    (∀ l ∈ longLengths, utf8len x = l →
      (x < 0xFE → lead l (x.toNat % 2 ^ (7 - l)) = x) ∧
        256 - 2 ^ (8 - l) ≤ x.toNat ∧ (l < 6 → x.toNat < 256 - 2 ^ (7 - l))) ∧
      (x &&& 0xC0 = 0x80 →
        following (x &&& 0x3F).toNat = x ∧ (x &&& 0x3F).toNat < 64) ∧
      (x &&& 0x3F ||| 0x80 = following (x.toNat % 64)) :=
  Commands.forall_byte (by decide +kernel)

theorem lead_eq (hx : x < 0xFE) (hl : l ∈ longLengths) (hlen : utf8len x = l) :
    lead l (x.toNat % 2 ^ (7 - l)) = x :=
  ((byte_spec x).1 l hl hlen).1 hx

theorem following_eq (hx : x &&& 0xC0 = 0x80) :
    following (x &&& 0x3F).toNat = x ∧ (x &&& 0x3F).toNat < 64 :=
  (byte_spec x).2.1 hx

theorem redundant_two : ∀ n < 32, ∀ next, redundant 2 (lead 2 n) next = decide (n < 2) := by
  intro n hn next
  have hall : ∀ n < 32, redundant 2 (lead 2 n) 0 = decide (n < 2) := by decide
  rw [← hall n hn]
  rfl

theorem utf8len_cases (x : Byte) (hone : utf8len x ≠ 1) (hvalid : utf8len x ≠ -1) :
    ∃ l ∈ longLengths, utf8len x = l := by
  unfold utf8len at hone hvalid ⊢
  split_ifs at hone hvalid ⊢
  · exact absurd rfl hone
  · exact absurd rfl hvalid
  · exact ⟨2, by decide, rfl⟩
  · exact ⟨3, by decide, rfl⟩
  · exact ⟨4, by decide, rfl⟩
  · exact ⟨5, by decide, rfl⟩
  · exact ⟨6, by decide, rfl⟩

theorem utf8len_one (hx : utf8len x = 1) : x < 0x80 := by
  by_contra hhigh
  exact utf8len_ne_one hhigh hx

end Bytes

section Encoding

theorem continuationByte_eq (c j : Nat) :
    continuationByte c (6 * j) = following (c / 64 ^ j % 64) := by
  have hall : ∀ m < 256, UInt8.ofNat m &&& 0x3F ||| 0x80 = following (m % 64) := by
    intro m hm
    rw [(byte_spec (UInt8.ofNat m)).2.2, UInt8.toNat_ofNat_of_lt' hm]
  have hshift : c >>> (6 * j) = c / 64 ^ j := by
    rw [Nat.shiftRight_eq_div_pow, Nat.pow_mul]
  have hbyte : UInt8.ofNat (c / 64 ^ j) = UInt8.ofNat (c / 64 ^ j % 256) := by
    rw [show (256 : Nat) = 2 ^ 8 from rfl, UInt8.ofNat_mod_size]
  rw [continuationByte, hshift, hbyte, hall _ (Nat.mod_lt _ (by decide)),
    Nat.mod_mod_of_dvd _ (by decide)]

theorem utf8str_eq (hc : ¬ c < 0x80) :
    utf8str c = lead (utf8seqlen c) (c / 64 ^ (utf8seqlen c - 1)) ::
      (digits 64 c (utf8seqlen c - 1)).map following := by
  have hlead : ∀ l, lead l (c / 64 ^ (l - 1)) =
      UInt8.ofNat (c >>> (6 * (l - 1))) ||| UInt8.ofNat (256 - 2 ^ (8 - l)) := fun l => by
    rw [lead, Nat.shiftRight_eq_div_pow, Nat.pow_mul]
  rw [hlead]
  unfold utf8str utf8seqlen
  rw [if_neg hc, if_neg hc]
  by_cases h2 : c < 0x800
  · simp only [if_pos h2, digits, List.map_cons, List.map_nil, ← continuationByte_eq]
    rfl
  by_cases h3 : c < 0x10000
  · simp only [if_neg h2, if_pos h3, digits, List.map_cons, List.map_nil, ← continuationByte_eq]
    rfl
  by_cases h4 : c < 0x200000
  · simp only [if_neg h2, if_neg h3, if_pos h4, digits, List.map_cons, List.map_nil,
      ← continuationByte_eq]
    rfl
  by_cases h5 : c < 0x4000000
  · simp only [if_neg h2, if_neg h3, if_neg h4, if_pos h5, digits, List.map_cons, List.map_nil,
      ← continuationByte_eq]
    rfl
  · simp only [if_neg h2, if_neg h3, if_neg h4, if_neg h5, digits, List.map_cons, List.map_nil,
      ← continuationByte_eq]
    rfl

theorem utf8seqlen_iff (hc : ¬ c < 0x80) (hmax : c ≤ 0x7FFFFFFF) (hl : l ∈ longLengths) :
    utf8seqlen c = l ↔ c / 64 ^ (l - 1) < 2 ^ (7 - l) ∧
      (if l = 2 then 2 ≤ c / 64 ^ (l - 1) else 2 ^ (8 - l) ≤ c / 64 ^ (l - 2)) := by
  simp only [longLengths, List.mem_cons, List.not_mem_nil, or_false] at hl
  unfold utf8seqlen
  rw [if_neg hc]
  rcases hl with rfl | rfl | rfl | rfl | rfl
  all_goals
    simp only [if_true, Nat.reduceSub, Nat.reducePow, Nat.reduceEqDiff, if_false]
    split_ifs <;> omega

end Encoding

section Decoding

theorem foldl_continuation (x : Byte) (tail : List Byte) (n : Nat) :
    (List.range tail.length).foldl (fun z i => z * 64 + continuation (x :: tail) (i + 1)) n =
      value 64 n (tail.map fun y => (y &&& 0x3F).toNat) := by
  have hmap : tail.map (fun y => (y &&& 0x3F).toNat) =
      (List.range tail.length).map fun i => continuation (x :: tail) (i + 1) := by
    refine List.ext_getElem (by simp) fun i hi hi' => ?_
    rw [List.length_map] at hi
    rw [List.getElem_map, List.getElem_map, List.getElem_range, continuation, List.getD_cons_succ,
      List.getD_eq_getElem _ _ hi]
  rw [hmap, value, List.foldl_map]

theorem lead_range (hl : l ∈ longLengths) (hlen : utf8len x = l) :
    256 - 2 ^ (8 - l) ≤ x.toNat ∧ (l < 6 → x.toNat < 256 - 2 ^ (7 - l)) :=
  ((byte_spec x).1 l hl hlen).2

theorem mask_toNat {k : Nat} (hk : k ∈ [1, 2, 3, 4, 5]) (x : Byte) :
    (x &&& UInt8.ofNat (2 ^ k - 1)).toNat = x.toNat % 2 ^ k := by
  have hle : 2 ^ k - 1 < UInt8.size := by
    simp only [List.mem_cons, List.not_mem_nil, or_false] at hk
    rcases hk with rfl | rfl | rfl | rfl | rfl <;> decide
  rw [UInt8.toNat_and, UInt8.toNat_ofNat_of_lt' hle, Nat.and_two_pow_sub_one_eq_mod]

theorem utf8char_eq (hl : l ∈ longLengths) (hlen : utf8len x = l) (htail : tail.length + 1 = l)
    (rest : List Byte) :
    utf8char (x :: tail ++ rest) = value 64 (x.toNat % 2 ^ (7 - l))
      (tail.map fun y => (y &&& 0x3F).toNat) := by
  obtain ⟨hlow, hhigh⟩ := lead_range hl hlen
  rw [utf8char_char (by omega), ← foldl_continuation]
  unfold utf8char
  simp only [longLengths, List.mem_cons, List.not_mem_nil, or_false] at hl
  have hlt : ∀ n : Nat, n < 256 → (x < UInt8.ofNat n ↔ x.toNat < n) := fun n hn => by
    rw [UInt8.lt_iff_toNat_lt, UInt8.toNat_ofNat_of_lt' hn]
  have h80 : x < 0x80 ↔ x.toNat < 0x80 := hlt 0x80 (by decide)
  have hC0 : x < 0xC0 ↔ x.toNat < 0xC0 := hlt 0xC0 (by decide)
  have hE0 : x < 0xE0 ↔ x.toNat < 0xE0 := hlt 0xE0 (by decide)
  have hF0 : x < 0xF0 ↔ x.toNat < 0xF0 := hlt 0xF0 (by decide)
  have hF8 : x < 0xF8 ↔ x.toNat < 0xF8 := hlt 0xF8 (by decide)
  have hFC : x < 0xFC ↔ x.toNat < 0xFC := hlt 0xFC (by decide)
  simp only [List.getD_cons_zero, h80, hC0, hE0, hF0, hF8, hFC]
  rcases hl with hl | hl | hl | hl | hl <;> rw [hl] at hlow hhigh htail ⊢
  · rw [if_neg (by omega), if_neg (by omega), if_pos (by omega), show tail.length = 1 by omega, ←
      mask_toNat (by decide)]
    rfl
  · rw [if_neg (by omega), if_neg (by omega), if_neg (by omega), if_pos (by omega), show
      tail.length = 2 by omega, ← mask_toNat (by decide)]
    rfl
  · rw [if_neg (by omega), if_neg (by omega), if_neg (by omega), if_neg (by omega), if_pos (by
      omega), show tail.length = 3 by omega, ← mask_toNat (by decide)]
    rfl
  · rw [if_neg (by omega), if_neg (by omega), if_neg (by omega), if_neg (by omega), if_neg (by
      omega), if_pos (by omega), show tail.length = 4 by omega, ← mask_toNat (by decide)]
    rfl
  · rw [if_neg (by omega), if_neg (by omega), if_neg (by omega), if_neg (by omega), if_neg (by
      omega), if_neg (by omega), show tail.length = 5 by omega, ← mask_toNat (by decide)]
    rfl

theorem utf8str_spec (hc : c ≤ 0x7FFFFFFF) (rest : List Byte) :
    utf8len ((utf8str c).headD 0) = (utf8str c).length ∧ utf8seqlen c = (utf8str c).length ∧
      utf8char (utf8str c ++ rest) = c := by
  by_cases hlow : c < 0x80
  · have hbyte : (UInt8.ofNat c).toNat = c := UInt8.toNat_ofNat_of_lt' (hlow.trans (by decide))
    have hlt : UInt8.ofNat c < 0x80 := UInt8.lt_iff_toNat_lt.mpr (by rw [hbyte]; exact hlow)
    have hstr : utf8str c = [UInt8.ofNat c] := by
      unfold utf8str
      exact if_pos hlow
    rw [hstr, utf8seqlen, if_pos hlow]
    refine ⟨?_, rfl, ?_⟩
    · change utf8len (UInt8.ofNat c) = 1
      rw [utf8len, if_pos hlt]
    · unfold utf8char
      rw [List.singleton_append, List.getD_cons_zero]
      simp only [if_pos hlt, hbyte]
  · have hl : utf8seqlen c ∈ longLengths := by
      unfold utf8seqlen
      rw [if_neg hlow]
      split_ifs <;> decide
    obtain ⟨hbound, -⟩ := (utf8seqlen_iff hlow hc hl).mp rfl
    obtain ⟨hlen, hbits, -⟩ := lead_spec hl hbound
    have hpos : 1 ≤ utf8seqlen c := by
      simp only [longLengths, List.mem_cons, List.not_mem_nil, or_false] at hl
      omega
    have hdigits : ((digits 64 c (utf8seqlen c - 1)).map following).map
        (fun y => (y &&& 0x3F).toNat) = digits 64 c (utf8seqlen c - 1) := by
      rw [List.map_map]
      conv_rhs => rw [← List.map_id (digits 64 c (utf8seqlen c - 1))]
      exact List.map_congr_left fun d hd => (following_spec (digits_lt (by decide) hd)).2.1
    rw [utf8str_eq hlow, List.length_cons, List.length_map, digits_length,
      Nat.sub_add_cancel hpos]
    refine ⟨hlen, rfl, ?_⟩
    rw [utf8char_eq hl hlen (by rw [List.length_map, digits_length, Nat.sub_add_cancel hpos]),
      hbits, hdigits, value_digits]

theorem utf8str_sequence (hc : c ≤ 0x7FFFFFFF) :
    Sequence (utf8str c) ∧ ∀ x ∈ utf8str c, x < 0xFE := by
  have hlow : ∀ x : Byte, x < 0x80 → x < 0xFE := fun x hx => UInt8.lt_trans hx (by decide)
  constructor
  · obtain rfl | hpos := Nat.eq_zero_or_pos c
    · exact sequence_low (by decide)
    · exact (isChar_utf8_iff.mp (utf8str_isChar hpos (by omega))).1
  · intro x hx
    by_cases hascii : c < 0x80
    · have hbyte : (UInt8.ofNat c).toNat = c := UInt8.toNat_ofNat_of_lt' (hascii.trans (by decide))
      have hstr : utf8str c = [UInt8.ofNat c] := by
        unfold utf8str
        exact if_pos hascii
      rw [hstr, List.mem_singleton] at hx
      refine hlow x (UInt8.lt_iff_toNat_lt.mpr ?_)
      rw [hx, hbyte]
      exact hascii
    · have hl : utf8seqlen c ∈ longLengths := by
        unfold utf8seqlen
        rw [if_neg hascii]
        split_ifs <;> decide
      obtain ⟨hbound, -⟩ := (utf8seqlen_iff hascii hc hl).mp rfl
      rw [utf8str_eq hascii] at hx
      obtain rfl | hx := List.mem_cons.mp hx
      · exact (lead_spec hl hbound).2.2
      · obtain ⟨d, hd, rfl⟩ := List.mem_map.mp hx
        exact (following_spec (digits_lt (by decide) hd)).2.2

theorem bounds_of_bits {v : Nat} (hl : l ∈ longLengths) (hhigh : v / 64 ^ (l - 1) < 2 ^ (7 - l))
    (hlow : if l = 2 then 2 ≤ v / 64 ^ (l - 1) else 2 ^ (8 - l) ≤ v / 64 ^ (l - 2)) :
    ¬ v < 0x80 ∧ v ≤ 0x7FFFFFFF := by
  simp only [longLengths, List.mem_cons, List.not_mem_nil, or_false] at hl
  rcases hl with rfl | rfl | rfl | rfl | rfl
  all_goals
    simp only [if_true, Nat.reduceSub, Nat.reducePow, Nat.reduceEqDiff, if_false] at hhigh hlow
    omega

theorem bits_of_redundant {d : Nat} (hl : l ∈ longLengths) (hn : n < 2 ^ (7 - l)) (hd : d < 64)
    (h : redundant l (lead l n) (following d) = false) :
    if l = 2 then 2 ≤ n else 2 ^ (8 - l) ≤ n * 64 + d := by
  by_cases htwo : l = 2
  · subst htwo
    rw [if_pos rfl]
    rw [redundant_two n hn, decide_eq_false_iff_not] at h
    omega
  · have hlong : l ∈ ([3, 4, 5, 6] : List Nat) := by
      simp only [longLengths, List.mem_cons, List.not_mem_nil, or_false] at hl ⊢
      omega
    rw [if_neg htwo]
    rw [redundant_long hlong hn hd, decide_eq_false_iff_not] at h
    omega

/-- A sequence without the bytes FE and FF is what `utf8str` writes for its character. -/
theorem sequence_eq_utf8str {ch : List Byte} (h : Sequence ch) (hbytes : ∀ x ∈ ch, x < 0xFE) :
    ∃ c, c ≤ 0x7FFFFFFF ∧ ch = utf8str c := by
  cases h with
  | @mk x tail hlen htail hshort =>
      obtain rfl | hne := eq_or_ne tail []
      · have hx : x < 0x80 := utf8len_one hlen
        have hlt : x.toNat < 0x80 := UInt8.lt_iff_toNat_lt.mp hx
        refine ⟨x.toNat, by omega, ?_⟩
        unfold utf8str
        rw [if_pos hlt, UInt8.ofNat_toNat]
      have hpos := List.length_pos_iff.mpr hne
      obtain ⟨l, hl, hlenl⟩ := utf8len_cases x (by omega) (by omega)
      obtain rfl : l = tail.length + 1 := by omega
      have hlead := lead_eq (hbytes x List.mem_cons_self) hl hlenl
      obtain ⟨y, ys, rfl⟩ := List.exists_cons_of_ne_nil hne
      have hredundant := hshort hne
      generalize hcount : (y :: ys).length + 1 = l at hl hlenl hlead hredundant
      have hn : x.toNat % 2 ^ (7 - l) < 2 ^ (7 - l) := Nat.mod_lt _ (Nat.two_pow_pos _)
      generalize x.toNat % 2 ^ (7 - l) = n at hn hlead
      -- the bits behind those of the first byte are the digits of the character in base 64
      have hms : ∀ d ∈ (y :: ys).map fun z => (z &&& 0x3F).toNat, d < 64 := fun d hd => by
        obtain ⟨z, hz, rfl⟩ := List.mem_map.mp hd
        exact (following_eq (htail z hz)).2
      obtain ⟨hfront, hdigits⟩ := @digits_value 64 n _ hms
      have hsame : ((y :: ys).map fun z => (z &&& 0x3F).toNat).map following = y :: ys := by
        rw [List.map_map]
        conv_rhs => rw [← List.map_id (y :: ys)]
        exact List.map_congr_left fun z hz => (following_eq (htail z hz)).1
      generalize value 64 n ((y :: ys).map fun z => (z &&& 0x3F).toNat) = v at hfront hdigits
      have hk : ((y :: ys).map fun z => (z &&& 0x3F).toNat).length = l - 1 := by
        rw [List.length_map]
        omega
      rw [hk] at hfront hdigits
      have hnext : v / 64 ^ (l - 2) = n * 64 + (y &&& 0x3F).toNat := by
        have hsucc : l - 1 = l - 2 + 1 := by
          rw [List.length_cons] at hcount
          omega
        rw [hsucc, digits, List.map_cons, List.cons.injEq] at hdigits
        rw [div_pow_eq 64 v (l - 2), hdigits.1, ← hsucc, hfront]
      obtain ⟨hfollowing, hd⟩ := following_eq (htail y List.mem_cons_self)
      rw [← hlead, List.headD_cons, ← hfollowing] at hredundant
      have hbits := bits_of_redundant hl hn hd hredundant
      rw [← hnext, ← hfront] at hbits
      rw [← hfront] at hn
      obtain ⟨hascii, hmax⟩ := bounds_of_bits hl hn hbits
      have hseqlen : utf8seqlen v = l := (utf8seqlen_iff hascii hmax hl).mpr ⟨hn, hbits⟩
      refine ⟨v, hmax, ?_⟩
      rw [utf8str_eq hascii, hseqlen, hfront, hlead, hdigits, hsame]

end Decoding

end NiceEditor.Utf8Encodings
