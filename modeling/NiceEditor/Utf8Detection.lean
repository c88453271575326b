import NiceEditor.Sessions
import NiceEditor.Utf8Encodings

namespace NiceEditor.Utf8Detection

open NiceEditor.Pools
open NiceEditor.BufferData
open NiceEditor.Encoding
open NiceEditor.Navigation
open NiceEditor.InputLine
open NiceEditor.Sequences
open NiceEditor.Sessions
open NiceEditor.Utf8Encodings

/-- The loop of `detect_encoding` over the continuation bytes behind position `i`. There is no
result if a byte is read outside of the string. -/
def tailReads (s : List Byte) : Nat → Nat → Option Bool
  | 0, _ => some true
  | l + 1, i => do
      let c ← s[i + 1]?
      if c &&& 0xC0 ≠ 0x80 then some false else tailReads s l (i + 1)

/-- The check for redundant representations. In two bytes the second one is not read. -/
def redundantReads (s : List Byte) (l : Nat) (c : Byte) (i : Nat) : Option Bool :=
  if l = 2 then some (redundant l c 0) else (s[i + 1]?).map (redundant l c)

/-- A turn of the loop of `detect_encoding`: the position of the last byte that it reads and
`is_ascii`, or nothing when it returns `ENC_8_BIT`. -/
def turnReads (s : List Byte) (i : Nat) (isAscii : Bool) : Option (Option (Nat × Bool)) := do
  let c ← s[i]?
  if c < 0x80 then some (some (i, isAscii))
  else
    let l := utf8len c
    if l = -1 then some none
    else if 1 < l then
      if s.length < i + l.toNat then some none
      else
        let redundant ← redundantReads s l.toNat c i
        if redundant then some none
        else
          let continues ← tailReads s (l.toNat - 1) i
          if continues then some (some (i + (l.toNat - 1), false)) else some none
    else some (some (i, false))

/-- The loop of `detect_encoding`. Every turn reads a byte at least. -/
def loopReads (s : List Byte) : Nat → Nat → Bool → Option EncodingType
  | 0, _, _ => none
  | turns + 1, i, isAscii => do
      match ← turnReads s i isAscii with
      | none => some .eightBit
      | some (i, isAscii) =>
          if i + 1 < s.length then loopReads s turns (i + 1) isAscii
          else some (if isAscii then .ascii else .utf8)

/-- `detect_encoding`, with its reads checked. -/
def detectEncodingReads (s : List Byte) : Option EncodingType :=
  if s.length = 0 then some .ascii else loopReads s s.length 0 true

/-- The string is made of what `utf8str` writes. -/
def IsEncodings (s : List Byte) : Prop :=
  ∃ cs : List Nat, (∀ c ∈ cs, c ≤ 0x7FFFFFFF) ∧ s = (cs.map utf8str).flatten

/-- `detect_encoding` is right about a string. -/
def Exact (s : List Byte) : Prop :=
  (detectEncoding s = .ascii ↔ ∀ x ∈ s, x < 0x80) ∧
    (detectEncoding s = .utf8 ↔ ¬ (∀ x ∈ s, x < 0x80) ∧ IsEncodings s) ∧
    (detectEncoding s = .eightBit ↔ ¬ (∀ x ∈ s, x < 0x80) ∧ ¬ IsEncodings s)

/-- The string is made of sequences. -/
def IsSequences (s : List Byte) : Prop :=
  ∃ cs : List (List Byte), (∀ ch ∈ cs, Sequence ch) ∧ cs.flatten = s

variable {s a b : List Byte} {c : Byte} {i n turns : Nat} {isAscii : Bool}

section Reads

theorem drop_cons (h : s.drop i = c :: a) : s[i]? = some c ∧ s.drop (i + 1) = a ∧
    s.length = i + (a.length + 1) := by
  have hlen := congrArg List.length h
  rw [List.length_drop, List.length_cons] at hlen
  refine ⟨?_, ?_, by omega⟩
  · rw [← List.head?_drop, h]
    rfl
  · rw [← List.drop_drop, h]
    rfl

theorem tailReads_eq (h : s.drop (i + 1) = a) (hn : n ≤ a.length) :
    ∃ continues, tailReads s n i = some continues ∧
      detectLoop false a n = if continues then detectLoop false (a.drop n) 0 else .eightBit := by
  induction n generalizing i a with
  | zero => exact ⟨true, rfl, rfl⟩
  | succ n ih =>
      obtain _ | ⟨c, a⟩ := a
      · simp at hn
      obtain ⟨hget, hdrop, -⟩ := drop_cons h
      rw [tailReads, hget, detectLoop]
      by_cases hc : c &&& 0xC0 ≠ 0x80
      · exact ⟨false, by simp [hc], by simp [hc]⟩
      · obtain ⟨continues, hreads, hloop⟩ := ih hdrop (by simpa using hn)
        refine ⟨continues, ?_, ?_⟩
        · rw [← hreads]
          simp [hc]
        · rw [if_neg hc, hloop]
          rfl

theorem redundantReads_eq (h : s.drop (i + 1) = a) (hn : 2 ≤ n) (ha : n ≤ a.length + 1) :
    redundantReads s n c i = some (redundant n c (a.headD 0)) := by
  rw [redundantReads]
  by_cases htwo : n = 2
  · rw [if_pos htwo, htwo]
    rfl
  · obtain _ | ⟨x, a⟩ := a
    · rw [List.length_nil] at ha
      omega
    rw [if_neg htwo, (drop_cons h).1]
    rfl

theorem turnReads_eq (h : s.drop i = c :: a) :
    (turnReads s i isAscii = some none ∧ detectLoop isAscii (c :: a) 0 = .eightBit) ∨
      ∃ n flag, n ≤ a.length ∧ turnReads s i isAscii = some (some (i + n, flag)) ∧
        detectLoop isAscii (c :: a) 0 = detectLoop flag (a.drop n) 0 := by
  obtain ⟨hget, hdrop, hlength⟩ := drop_cons h
  rw [turnReads, hget, detectLoop]
  by_cases hlow : c < 0x80
  · exact .inr ⟨0, isAscii, Nat.zero_le _, by simp [hlow], by simp [hlow]⟩
  by_cases hvalid : utf8len c = -1
  · exact .inl ⟨by simp [hlow, hvalid], by simp [hlow, hvalid]⟩
  have hlong : 1 < utf8len c := by
    have hpos := Sequences.utf8len_pos hvalid
    have hone := Sequences.utf8len_ne_one hlow
    omega
  by_cases hshort : a.length + 1 < (utf8len c).toNat
  · have hshort' : s.length < i + (utf8len c).toNat := by omega
    exact .inl ⟨by simp [hlow, hvalid, hlong, hshort'], by simp [hlow, hvalid, hshort]⟩
  have hshort' : ¬ s.length < i + (utf8len c).toNat := by omega
  have hredundant := redundantReads_eq (c := c) hdrop (n := (utf8len c).toNat) (by omega) (by omega)
  cases hr : redundant (utf8len c).toNat c (a.headD 0) with
  | true =>
      rw [hr] at hredundant
      exact .inl ⟨by simp [hlow, hvalid, hlong, hshort', hredundant],
        by simp only [hlow, hvalid, hshort, if_false, if_true]⟩
  | false =>
      rw [hr] at hredundant
      obtain ⟨continues, hreads, hloop⟩ :=
        tailReads_eq hdrop (show (utf8len c).toNat - 1 ≤ a.length by omega)
      rw [if_neg hlow, if_neg hvalid, if_neg hshort, if_neg (by simp), hloop]
      cases continues with
      | false =>
          exact .inl ⟨by simp [hlow, hvalid, hlong, hshort', hredundant, hreads], rfl⟩
      | true =>
          exact .inr ⟨(utf8len c).toNat - 1, false, by omega,
            by simp [hlow, hvalid, hlong, hshort', hredundant, hreads], rfl⟩

theorem loopReads_eq (hi : i < s.length) (hturns : s.length - i ≤ turns) :
    loopReads s turns i isAscii = some (detectLoop isAscii (s.drop i) 0) := by
  induction turns generalizing i isAscii with
  | zero => omega
  | succ turns ih =>
      obtain ⟨c, a, hdrop⟩ : ∃ c a, s.drop i = c :: a :=
        List.exists_cons_of_ne_nil (by rw [ne_eq, List.drop_eq_nil_iff]; omega)
      have hlength := (drop_cons hdrop).2.2
      rw [loopReads, hdrop]
      have hcases := @turnReads_eq s a c i isAscii hdrop
      obtain ⟨hturn, hloop⟩ | ⟨n, flag, hn, hturn, hloop⟩ := hcases
      · rw [hturn, hloop]
        rfl
      · rw [hturn, hloop]
        have hrest : s.drop (i + n + 1) = a.drop n := by
          rw [show i + n + 1 = i + 1 + n by omega, ← List.drop_drop, (drop_cons hdrop).2.1]
        change (if i + n + 1 < s.length then loopReads s turns (i + n + 1) flag
          else some (if flag then .ascii else .utf8)) = _
        by_cases hend : i + n + 1 < s.length
        · rw [if_pos hend, ih hend (by omega), hrest]
        · rw [if_neg hend, List.drop_eq_nil_of_le (by omega), detectLoop]

theorem detectEncodingReads_eq (s : List Byte) :
    detectEncodingReads s = some (detectEncoding s) := by
  rw [detectEncodingReads]
  obtain _ | ⟨c, s⟩ := s
  · rfl
  · rw [if_neg (by simp)]
    exact loopReads_eq (by simp) (by simp)

end Reads

section Exactness

theorem isSequences_iff : IsSequences s ↔ detectEncoding s ≠ .eightBit := by
  constructor
  · rintro ⟨cs, hcs, rfl⟩
    exact detectLoop_sequences hcs true
  · exact exists_sequences true

theorem isSequences_of_ascii (h : ∀ x ∈ s, x < 0x80) : IsSequences s := by
  rw [isSequences_iff, (detectEncoding_eq_ascii_iff s).mpr h]
  nofun

theorem isEncodings_iff : IsEncodings s ↔ IsSequences s ∧ ∀ x ∈ s, x < 0xFE := by
  constructor
  · rintro ⟨cs, hcs, rfl⟩
    refine ⟨⟨cs.map utf8str, fun ch hch => ?_, rfl⟩, fun x hx => ?_⟩
    · obtain ⟨c, hc, rfl⟩ := List.mem_map.mp hch
      exact (utf8str_sequence (hcs c hc)).1
    · obtain ⟨ch, hch, hx⟩ := List.mem_flatten.mp hx
      obtain ⟨c, hc, rfl⟩ := List.mem_map.mp hch
      exact (utf8str_sequence (hcs c hc)).2 x hx
  · rintro ⟨⟨cs, hcs, rfl⟩, hbytes⟩
    induction cs with
    | nil => exact ⟨[], fun _ h => absurd h List.not_mem_nil, rfl⟩
    | cons ch cs ih =>
        obtain ⟨hch, hrest⟩ := List.forall_mem_cons.mp hcs
        rw [List.flatten_cons] at hbytes ⊢
        obtain ⟨hfirst, hbehind⟩ := List.forall_mem_append.mp hbytes
        obtain ⟨c, hc, rfl⟩ := sequence_eq_utf8str hch hfirst
        obtain ⟨ds, hds, heq⟩ := ih hrest hbehind
        exact ⟨c :: ds, List.forall_mem_cons.mpr ⟨hc, hds⟩, by rw [heq]; rfl⟩

theorem exact_iff (s : List Byte) : Exact s ↔ ((∃ x ∈ s, 0xFE ≤ x) → ¬ IsSequences s) := by
  have hstrange : (∃ x ∈ s, 0xFE ≤ x) ↔ ¬ ∀ x ∈ s, x < 0xFE := by
    simp only [not_forall, UInt8.not_lt, exists_prop]
  have hascii := detectEncoding_eq_ascii_iff s
  have hsequences := @isSequences_iff s
  have hlow : (∀ x ∈ s, x < 0x80) → IsSequences s ∧ ∀ x ∈ s, x < 0xFE := fun h =>
    ⟨isSequences_of_ascii h, fun x hx => UInt8.lt_trans (h x hx) (by decide)⟩
  rw [hstrange, Exact, isEncodings_iff]
  cases hdetect : detectEncoding s <;> simp only [hdetect] at hascii hsequences <;>
    simp only [reduceCtorEq, ne_eq, not_true_eq_false, not_false_eq_true, true_iff,
      false_iff, iff_true, iff_false] at hascii hsequences ⊢ <;> tauto

end Exactness

section Lines

theorem isSequences_append (hc : c < 0x80) :
    IsSequences (a ++ c :: b) ↔ IsSequences a ∧ IsSequences b := by
  constructor
  · rintro ⟨cs, hcs, hflatten⟩
    obtain ⟨front, rest, rfl, rfl, rfl⟩ :=
      split_singleton (fun ch hch hx => (hcs ch hch).eq_singleton hx hc) hflatten
    obtain ⟨hfront, hrest⟩ := List.forall_mem_append.mp hcs
    exact ⟨⟨front, hfront, rfl⟩, rest, (List.forall_mem_cons.mp hrest).2, rfl⟩
  · rintro ⟨⟨front, hfront, rfl⟩, rest, hrest, rfl⟩
    refine ⟨front ++ [c] :: rest, ?_, by simp⟩
    exact List.forall_mem_append.mpr ⟨hfront, List.forall_mem_cons.mpr ⟨sequence_low hc, hrest⟩⟩

theorem isSequences_join {sep : List Byte} (hsep : ∀ x ∈ sep, x < 0x80) (hne : sep ≠ []) :
    IsSequences (a ++ (sep ++ b)) ↔ IsSequences a ∧ IsSequences b := by
  induction sep generalizing a with
  | nil => exact absurd rfl hne
  | cons x sep ih =>
      obtain ⟨hx, hsep⟩ := List.forall_mem_cons.mp hsep
      rw [List.cons_append, isSequences_append hx]
      obtain rfl | hne := eq_or_ne sep []
      · rfl
      · have hempty : IsSequences ([] : List Byte) := isSequences_of_ascii fun _ h => by cases h
        have hrest := @ih [] hsep hne
        rw [List.nil_append] at hrest
        rw [hrest, and_iff_right hempty]

variable {sep : List Byte} {text : List (List Byte)}

theorem isSequences_intercalate (hsep : ∀ x ∈ sep, x < 0x80) (hne : sep ≠ []) :
    IsSequences (sep.intercalate text) ↔ ∀ l ∈ text, IsSequences l := by
  induction text with
  | nil => exact iff_of_true (isSequences_of_ascii fun _ h => by cases h) fun _ h => by cases h
  | cons l text ih =>
      obtain _ | ⟨l', text⟩ := text
      · rw [List.forall_mem_singleton]
        simp [List.intercalate]
      · have hcons : sep.intercalate (l :: l' :: text) =
            l ++ (sep ++ sep.intercalate (l' :: text)) := by
          simp [List.intercalate]
        rw [hcons, isSequences_join hsep hne, ih]
        exact List.forall_mem_cons.symm

theorem ascii_intercalate (hsep : ∀ x ∈ sep, x < 0x80) :
    (∀ x ∈ sep.intercalate text, x < 0x80) ↔ ∀ l ∈ text, ∀ x ∈ l, x < 0x80 := by
  induction text with
  | nil => exact iff_of_true (fun _ h => by cases h) fun _ h => by cases h
  | cons l text ih =>
      obtain _ | ⟨l', text⟩ := text
      · rw [List.forall_mem_singleton]
        simp [List.intercalate]
      · have hcons : sep.intercalate (l :: l' :: text) =
            l ++ (sep ++ sep.intercalate (l' :: text)) := by
          simp [List.intercalate]
        rw [hcons, List.forall_mem_append, List.forall_mem_append, ih, and_iff_right hsep]
        exact (List.forall_mem_cons (p := fun l => ∀ x ∈ l, x < 0x80)).symm

theorem foldl_detect {f : EncodingType → List Byte → EncodingType}
    (hf : ∀ encoding l, f encoding l = if detectEncoding l = .ascii then encoding
      else if detectEncoding l = .eightBit ∨ encoding = .eightBit then .eightBit else .utf8)
    (encoding : EncodingType) :
    text.foldl f encoding =
      if encoding = .eightBit ∨ ∃ l ∈ text, detectEncoding l = .eightBit then .eightBit
      else if encoding = .utf8 ∨ ∃ l ∈ text, detectEncoding l ≠ .ascii then .utf8
      else .ascii := by
  induction text generalizing encoding with
  | nil => cases encoding <;> simp
  | cons l text ih =>
      rw [List.foldl_cons, ih, hf]
      simp only [List.mem_cons, exists_eq_or_imp]
      cases encoding <;> cases detectEncoding l <;> simp

theorem detectBufferEncoding_eq (b : Buffer) (hsep : ∀ x ∈ sep, x < 0x80) (hne : sep ≠ []) :
    detectBufferEncoding b = detectEncoding (sep.intercalate (lines b)) := by
  have hsequences := @isSequences_intercalate sep (lines b) hsep hne
  have hascii := @ascii_intercalate sep (lines b) hsep
  rw [← detectEncoding_eq_ascii_iff] at hascii
  simp only [isSequences_iff, ← detectEncoding_eq_ascii_iff] at hsequences hascii
  rw [detectBufferEncoding, foldl_detect fun encoding l => by
    cases encoding <;> cases detectEncoding l <;> rfl]
  by_cases height : ∃ l ∈ lines b, detectEncoding l = .eightBit
  · have hjoined : detectEncoding (sep.intercalate (lines b)) = .eightBit := by
      by_contra hno
      obtain ⟨l, hl, hdetect⟩ := height
      exact hsequences.mp hno l hl hdetect
    rw [if_pos (.inr height), hjoined]
  · have hjoined : detectEncoding (sep.intercalate (lines b)) ≠ .eightBit :=
      hsequences.mpr fun l hl hdetect => height ⟨l, hl, hdetect⟩
    rw [if_neg (by simpa using height)]
    by_cases hutf8 : ∃ l ∈ lines b, detectEncoding l ≠ .ascii
    · have hnot : detectEncoding (sep.intercalate (lines b)) ≠ .ascii := fun hall => by
        obtain ⟨l, hl, hdetect⟩ := hutf8
        exact hdetect (hascii.mp hall l hl)
      rw [if_pos (.inr hutf8)]
      cases hdetect : detectEncoding (sep.intercalate (lines b)) with
      | ascii => exact absurd hdetect hnot
      | utf8 => rfl
      | eightBit => exact absurd hdetect hjoined
    · have hall : detectEncoding (sep.intercalate (lines b)) = .ascii :=
        hascii.mpr fun l hl => by_contra fun hdetect => hutf8 ⟨l, hl, hdetect⟩
      rw [if_neg (by simpa using hutf8), hall]

end Lines

/-- `detect_encoding` reads inside of its string, and is right about it unless it has a sequence
that starts with FE or FF; `utf8str` is read back by `utf8len`, `utf8char` and `utf8seqlen`; and
the encoding of a buffer is that of its lines with separators. -/
theorem detectEncoding_exact (s : List Byte) :
    detectEncodingReads s = some (detectEncoding s) ∧
      (Exact s ↔ ((∃ x ∈ s, 0xFE ≤ x) → ¬ IsSequences s)) ∧
      (∀ c ≤ 0x7FFFFFFF, ∀ rest, utf8len ((utf8str c).headD 0) = (utf8str c).length ∧
        utf8seqlen c = (utf8str c).length ∧ utf8char (utf8str c ++ rest) = c) ∧
      ∀ (b : Buffer) (sep : List Byte), (∀ x ∈ sep, x < 0x80) → sep ≠ [] →
        detectBufferEncoding b = detectEncoding (sep.intercalate (lines b)) :=
  ⟨detectEncodingReads_eq s, exact_iff s, fun _ hc rest => utf8str_spec hc rest,
    fun b _ hsep hne => detectBufferEncoding_eq b hsep hne⟩

/-- Six bytes from FE on, which `utf8str` never writes. -/
theorem not_exact : detectEncoding [0xFE, 0x84, 0x80, 0x80, 0x80, 0x80] = .utf8 ∧
    ¬ IsEncodings [0xFE, 0x84, 0x80, 0x80, 0x80, 0x80] := by
  refine ⟨by decide +kernel, fun h => ?_⟩
  have hbytes := (isEncodings_iff.mp h).2 0xFE List.mem_cons_self
  exact absurd hbytes (by decide)

end NiceEditor.Utf8Detection
