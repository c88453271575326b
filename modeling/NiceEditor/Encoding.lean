import NiceEditor.BufferData

namespace NiceEditor.Encoding

open NiceEditor.Pools
open NiceEditor.BufferData

/-- `utf8len`: the length of a UTF-8 sequence, given the first byte, or `-1`. -/
def utf8len (c : Byte) : Int :=
  if c < 0x80 then 1
  else if c < 0xC0 then -1
  else if c < 0xE0 then 2
  else if c < 0xF0 then 3
  else if c < 0xF8 then 4
  else if c < 0xFC then 5
  else 6

/-- The redundant representations that `detect_encoding` refuses, for the first
two bytes of a sequence of length `l`. -/
def redundant (l : Nat) (c next : Byte) : Bool :=
  if l = 2 then c &&& 0x1E == 0
  else
    (c.toNat &&& ((1 <<< (7 - l)) - 1)) == 0 &&
      (next.toNat &&& (((1 <<< (l - 2)) - 1) <<< (8 - l))) == 0

/-- The loop of `detect_encoding`; `pending` bytes of a sequence are still to
come. -/
def detectLoop (isAscii : Bool) : List Byte → Nat → EncodingType
  | [], _ => if isAscii then .ascii else .utf8
  | c :: rest, pending + 1 =>
      if c &&& 0xC0 ≠ 0x80 then .eightBit else detectLoop isAscii rest pending
  | c :: rest, 0 =>
      if c < 0x80 then detectLoop isAscii rest 0
      else if utf8len c = -1 then .eightBit
      else if rest.length + 1 < (utf8len c).toNat then .eightBit
      else if redundant (utf8len c).toNat c (rest.headD 0) then .eightBit
      else detectLoop false rest ((utf8len c).toNat - 1)

attribute [grind =] detectLoop

/-- `detect_encoding` -/
def detectEncoding (s : List Byte) : EncodingType := detectLoop true s 0

theorem detectLoop_ne_ascii (l : List Byte) (pending : Nat) :
    detectLoop false l pending ≠ .ascii := by
  induction l generalizing pending with
  | nil => cases pending <;> simp [detectLoop]
  | cons b l ih =>
      cases pending with
      | zero =>
          rw [detectLoop]
          split
          · exact ih 0
          split
          · simp
          split
          · simp
          split
          · simp
          exact ih _
      | succ pending =>
          rw [detectLoop]
          split
          · simp
          · exact ih pending

theorem detectEncoding_eq_ascii_iff (l : List Byte) :
    detectEncoding l = .ascii ↔ ∀ b ∈ l, b < 0x80 := by
  unfold detectEncoding
  induction l with
  | nil => simp [detectLoop]
  | cons b l ih =>
      by_cases hb : b < 0x80
      · rw [detectLoop, if_pos hb, ih]
        simp [hb]
      · rw [detectLoop, if_neg hb]
        refine iff_of_false ?_ fun h => hb (h b List.mem_cons_self)
        split
        · simp
        split
        · simp
        split
        · simp
        exact detectLoop_ne_ascii _ _

end NiceEditor.Encoding
