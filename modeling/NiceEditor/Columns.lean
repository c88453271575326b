import NiceEditor.Characters
import NiceEditor.WantedColumns

namespace NiceEditor.Columns

open NiceEditor.Pools
open NiceEditor.BufferData
open NiceEditor.Encoding
open NiceEditor.Navigation
open NiceEditor.Clips
open NiceEditor.Cursor
open NiceEditor.CharacterRows
open NiceEditor.InputRows
open NiceEditor.Characters
open NiceEditor.WantedColumns

/-- The columns that a character takes behind column `col`. -/
def charWidth (d : Display) (col : Int) (ch : List Byte) : Int :=
  if ch = [tab] then d.tabSize - col.tmod d.tabSize else getCharWidth d.terminal ch d.encoding

/-- A scan passes a character. -/
def passChar (d : Display) (s : Scan) (ch : List Byte) : Scan where
  pos := s.pos + ch.length
  col := s.col + charWidth d s.col ch
  char := s.char + 1

/-- A scan passes a row of characters. -/
def passRow (d : Display) (s : Scan) (cs : List (List Byte)) : Scan := cs.foldl (passChar d) s

/-- The columns of a row of characters, from the start of the line. -/
def width (d : Display) (cs : List (List Byte)) : Int := (passRow d ⟨0, 0, 0⟩ cs).col

variable {d : Display} {s : Scan} {a c cs : List (List Byte)} {ch line : List Byte} {turns : Nat}

theorem byteAt_char {e : EncodingType} (h : IsCharacter e ch) (a b : List Byte) :
    byteAt (a ++ (ch ++ b)) a.length = ch.headD 0 := by
  cases h
  rw [byteAt, Int.toNat_natCast, List.getD_append_right _ _ _ _ le_rfl, Nat.sub_self]
  rfl

theorem headD_eq_tab {e : EncodingType} (h : IsCharacter e ch) : ch.headD 0 = tab ↔ ch = [tab] := by
  constructor
  · intro heq
    cases h with
    | @mk c tail hlen htail =>
        have hc : c = tab := heq
        exact IsCharacter.eq_singleton (.mk hlen htail) (by rw [hc]; exact List.mem_cons_self)
          (by decide)
  · rintro rfl
    rfl

theorem scanChar_pass (h : IsCharacter d.encoding ch) (a b : List Byte) (hs : s.pos = a.length) :
    scanChar d (a ++ (ch ++ b)) s = passChar d s ch := by
  have hnext := nextPos_character h a b
  have hbyte := byteAt_char h a b
  have hwidth := getCharWidth_character (t := d.terminal) h b
  rw [scanChar, passChar, charWidth, hs, hnext, hbyte, Int.toNat_natCast, List.drop_left, hwidth]
  congr 2
  by_cases htab : ch = [tab]
  · rw [if_neg (not_not.mpr ((headD_eq_tab h).mpr htab)), if_pos htab]
  · rw [if_pos (mt (headD_eq_tab h).mp htab), if_neg htab]

@[simp] theorem passRow_nil : passRow d s [] = s := rfl

theorem passRow_cons : passRow d s (ch :: cs) = passRow d (passChar d s ch) cs := rfl

theorem passRow_append : passRow d s (a ++ c) = passRow d (passRow d s a) c :=
  List.foldl_append

theorem passRow_pos (cs : List (List Byte)) : (passRow d s cs).pos = s.pos + bytes cs := by
  induction cs generalizing s with
  | nil => simp
  | cons ch cs ih =>
      rw [passRow_cons, ih, bytes_cons, passChar]
      push_cast
      omega

theorem passRow_char (cs : List (List Byte)) : (passRow d s cs).char = s.char + cs.length := by
  induction cs generalizing s with
  | nil => simp
  | cons ch cs ih =>
      rw [passRow_cons, ih, List.length_cons, passChar]
      push_cast
      omega

theorem scanTo_row (h : ∀ ch ∈ a ++ cs ++ c, IsCharacter d.encoding ch) (hs : s.pos = bytes a)
    (hturns : bytes cs ≤ turns) :
    scanTo d (a ++ (cs ++ c)).flatten (bytes (a ++ cs)) turns s = passRow d s cs := by
  induction cs generalizing a s turns with
  | nil =>
      cases turns with
      | zero => rfl
      | succ turns => rw [scanTo, if_neg (by simp [hs])]; rfl
  | cons ch cs ih =>
      have hch : IsCharacter d.encoding ch := h ch (by simp)
      have hpos := hch.length_pos
      rw [bytes_cons] at hturns
      obtain _ | turns := turns
      · omega
      have hpass := scanChar_pass hch a.flatten (cs ++ c).flatten hs
      have hflatten : (a ++ (ch :: cs ++ c)).flatten = a.flatten ++ (ch ++ (cs ++ c).flatten) := by
        simp
      have hnext : (passChar d s ch).pos = bytes (a ++ [ch]) := by
        rw [passChar, hs]
        simp
      have hrest := @ih (passChar d s ch) (a ++ [ch]) turns (by simpa using h) hnext (by omega)
      have hsplit : (a ++ [ch] ++ (cs ++ c)).flatten = (a ++ (ch :: cs ++ c)).flatten := by simp
      rw [hsplit] at hrest
      rw [scanTo, if_pos (by rw [hs, bytes_append, bytes_cons]; push_cast; omega), hflatten, hpass,
        ← hflatten, passRow_cons, ← hrest]
      congr 1
      simp

theorem scanLine_row (h : ∀ ch ∈ a ++ c, IsCharacter d.encoding ch) :
    scanLine d (a ++ c).flatten (bytes a) = passRow d ⟨0, 0, 0⟩ a := by
  have hscan := @scanTo_row d ⟨0, 0, 0⟩ [] c a (bytes a) (by simpa using h) rfl le_rfl
  rw [scanLine, Int.toNat_natCast]
  exact hscan

theorem scanLine_end (h : ∀ ch ∈ cs, IsCharacter d.encoding ch) :
    scanLine d cs.flatten cs.flatten.length = passRow d ⟨0, 0, 0⟩ cs := by
  have hscan := @scanLine_row d cs [] (by simpa using h)
  rwa [List.append_nil] at hscan

theorem calcWidth_row (h : ∀ ch ∈ cs, IsCharacter d.encoding ch) :
    calcWidth d cs.flatten = width d cs := by
  rw [calcWidth, scanLine_end h, width]

theorem charWidth_pos (htab : 0 < d.tabSize) (col : Int) (ch : List Byte) :
    1 ≤ charWidth d col ch := by
  rw [charWidth]
  split
  · have := Int.tmod_lt_of_pos col htab
    omega
  · exact getCharWidth_pos _ _ _

theorem width_append_singleton : width d (a ++ [ch]) = width d a + charWidth d (width d a) ch := by
  rw [width, passRow_append]
  rfl

end NiceEditor.Columns
