import NiceEditor.Cursor
import NiceEditor.InputRows
import NiceEditor.Load

namespace NiceEditor.Characters

open NiceEditor.Pools
open NiceEditor.BufferData
open NiceEditor.Encoding
open NiceEditor.Navigation
open NiceEditor.Clips
open NiceEditor.EditStream
open NiceEditor.Load
open NiceEditor.Sequences
open NiceEditor.CharacterRows
open NiceEditor.InputRows

/-- The bytes of a character: the first one tells how many there are, and the others are
continuation bytes. -/
inductive IsCharacter (e : EncodingType) : List Byte → Prop
  | mk {c : Byte} {tail : List Byte} (hlen : charLen e c = tail.length + 1)
      (htail : ∀ x ∈ tail, x &&& 0xC0 = 0x80) : IsCharacter e (c :: tail)

/-- A line is the bytes of characters. -/
structure Spells (e : EncodingType) (cs : List (List Byte)) (line : List Byte) : Prop where
  chars : ∀ ch ∈ cs, IsCharacter e ch
  bytes : cs.flatten = line

/-- The text of a buffer, as rows of characters. -/
structure Rows (b : Buffer) (rows : List (List (List Byte))) : Prop where
  lines : lines b = rows.map List.flatten
  chars : ∀ row ∈ rows, ∀ ch ∈ row, IsCharacter b.encoding ch

/-- The lines of a text are in its encoding. -/
def Encoded (e : EncodingType) (text : List (List Byte)) : Prop :=
  ∀ line ∈ text, ∃ cs, Spells e cs line

variable {e : EncodingType} {t : Terminal} {ch a l line : List Byte} {cs cs' : List (List Byte)}
variable {text : List (List Byte)} {b : Buffer} {rows : List (List (List Byte))}

theorem isCharacter_cons {c : Byte} {tail : List Byte} : IsCharacter e (c :: tail) ↔
    charLen e c = tail.length + 1 ∧ ∀ x ∈ tail, x &&& 0xC0 = 0x80 :=
  ⟨fun h => by cases h with | mk hlen htail => exact ⟨hlen, htail⟩, fun h => .mk h.1 h.2⟩

instance (e : EncodingType) : DecidablePred (IsCharacter e)
  | [] => isFalse nofun
  | _ :: tail =>
      haveI : Decidable (∀ x ∈ tail, x &&& 0xC0 = 0x80) := List.decidableBAll _ _
      decidable_of_iff _ isCharacter_cons.symm

theorem IsCharacter.length_pos (h : IsCharacter e ch) : 0 < ch.length := by
  cases h
  simp

theorem IsCharacter.tail_eq_nil {c : Byte} {tail : List Byte} (h : IsCharacter e (c :: tail))
    (he : e ≠ .utf8) : tail = [] := by
  cases h with
  | mk hlen htail =>
      rw [charLen, if_neg he] at hlen
      exact List.length_eq_zero_iff.mp (by omega)

theorem IsCharacter.lead {c : Byte} {tail : List Byte} (h : IsCharacter e (c :: tail))
    (he : e = .utf8) : ¬ c &&& 0xC0 = 0x80 := by
  cases h with
  | mk hlen htail =>
      rw [charLen, if_pos he] at hlen
      exact lead_not_continuation hlen

theorem IsCharacter.eq_singleton {x : Byte} (h : IsCharacter e ch) (hx : x ∈ ch) (hlow : x < 0x80) :
    ch = [x] := by
  cases h with
  | @mk c tail hlen htail =>
      rcases List.mem_cons.mp hx with rfl | hmem
      · have hone : charLen e x = 1 := by
          rw [charLen, utf8len, if_pos hlow, ite_self]
        have htail : tail = [] := List.length_eq_zero_iff.mp (by omega)
        rw [htail]
      · exact absurd (continuation_ge x (htail x hmem)).1 (UInt8.not_le.mpr hlow)

theorem nextPos_character (h : IsCharacter e ch) (a b : List Byte) :
    nextPos (a ++ (ch ++ b)) a.length e = (a.length + ch.length : Nat) := by
  cases h with
  | @mk c tail hlen htail =>
      have hbyte : byteAt (a ++ (c :: tail ++ b)) a.length = c := by
        rw [byteAt, Int.toNat_natCast, List.getD_append_right _ _ _ _ le_rfl, Nat.sub_self]
        rfl
      rw [nextPos, hbyte, hlen]
      push_cast
      rw [List.length_cons]
      push_cast
      omega

theorem prevPos_character (h : IsCharacter e ch) (a b : List Byte) :
    prevPos (a ++ (ch ++ b)) (a.length + ch.length : Nat) e = a.length := by
  have hpos := h.length_pos
  have hne : a ++ (ch ++ b) ≠ [] := by
    intro heq
    have := congrArg List.length heq
    simp only [List.length_append, List.length_nil] at this
    omega
  rw [prevPos, if_neg (by omega), if_neg hne]
  cases h with
  | @mk c tail hlen htail =>
      split
      case isTrue he =>
          have hlead := IsCharacter.lead (.mk hlen htail) he
          have hplace : (((a.length + (c :: tail).length : Nat) : Int) - 1).toNat =
              a.length + tail.length := by
            rw [List.length_cons]
            omega
          rw [hplace, sequenceStart_char (.inl hlead) htail b tail.length le_rfl]
      case isFalse he =>
          obtain rfl := IsCharacter.tail_eq_nil (.mk hlen htail) he
          simp

theorem getCharWidth_character (h : IsCharacter e ch) (b : List Byte) :
    getCharWidth t (ch ++ b) e = getCharWidth t ch e := by
  cases h with
  | @mk c tail hlen htail =>
      rw [getCharWidth, getCharWidth]
      by_cases he : e = .utf8
      · rw [charLen, if_pos he] at hlen
        rw [utf8char_char hlen]
        rfl
      · simp [he]

theorem bytes_eq_zero (h : ∀ ch ∈ cs, IsCharacter e ch) (hzero : bytes cs = 0) : cs = [] := by
  obtain _ | ⟨ch, cs⟩ := cs
  · rfl
  · have := (h ch List.mem_cons_self).length_pos
    rw [bytes_cons] at hzero
    omega

theorem exists_between {a c a' c' : List (List Byte)} (h : ∀ ch ∈ a ++ c, IsCharacter e ch)
    (heq : a ++ c = a' ++ c') (hle : bytes a ≤ bytes a') : ∃ m, a' = a ++ m ∧ c = m ++ c' := by
  rcases List.append_eq_append_iff.mp heq with ⟨m, ha', hc⟩ | ⟨m, rfl, rfl⟩
  · exact ⟨m, ha', hc⟩
  · have hm : ∀ ch ∈ m, IsCharacter e ch := fun ch hch => h ch (by simp [hch])
    rw [bytes_append] at hle
    obtain rfl := bytes_eq_zero hm (by omega)
    exact ⟨[], by simp, by simp⟩

theorem Rows.length (h : Rows b rows) : rows.length = b.lineDescList.length := by
  have hlength := congrArg List.length h.lines
  rw [BufferData.lines, List.length_map, List.length_map] at hlength
  exact hlength.symm

theorem Rows.getD {y : Nat} (h : Rows b rows) (hrow : rows[y]? = some cs) :
    (BufferData.lines b).getD y [] = cs.flatten := by
  rw [h.lines, List.getD_eq_getElem?_getD, List.getElem?_map, hrow]
  rfl

theorem Rows.chars_row {y : Nat} (h : Rows b rows) (hrow : rows[y]? = some cs) :
    ∀ ch ∈ cs, IsCharacter b.encoding ch :=
  h.chars cs (List.mem_of_getElem? hrow)

theorem wholeChars_flatten (h : ∀ ch ∈ cs, IsCharacter e ch) : Cursor.WholeChars e cs.flatten := by
  induction cs with
  | nil => exact .nil
  | cons ch cs ih =>
      obtain ⟨hch, hcs⟩ := List.forall_mem_cons.mp h
      cases hch with
      | mk hlen htail => exact .cons hlen (ih hcs)

theorem Spells.split_low {x : Byte} (h : Spells e cs (a ++ x :: l)) (hlow : x < 0x80) :
    ∃ front rest, cs = front ++ [x] :: rest ∧ Spells e front a ∧ Spells e rest l := by
  obtain ⟨hchars, hbytes⟩ := h
  obtain ⟨front, rest, rfl, rfl, rfl⟩ :=
    split_singleton (fun ch hch hx => (hchars ch hch).eq_singleton hx hlow) hbytes
  obtain ⟨hfront, hrest⟩ := List.forall_mem_append.mp hchars
  exact ⟨front, rest, rfl, ⟨hfront, rfl⟩, (List.forall_mem_cons.mp hrest).2, rfl⟩

/-- A document with a text and the cursor. -/
def document (s : List Byte) (encoding : EncodingType) (line pos : Nat) : Buffer :=
  { (insertStream (newBuffer false none fun _ => true) 0 0 0 s).2 with
    encoding := encoding
    curLine := line
    curPos := pos
    curLineDesc := some line }

end NiceEditor.Characters
