import NiceEditor.LineText
import NiceEditor.Pools

namespace NiceEditor.Streams

open NiceEditor.Pools
open NiceEditor.LineText

/-- The C string at a place of a stream. -/
def cString (cs : List Byte) (pos : Nat) : List Byte := (cs.drop pos).takeWhile (· != 0)

/-- `insert_in_stream` -/
def insertInStream (cs s : List Byte) (pos : Nat) : List Byte :=
  if cs.length < pos then cs else cs.take pos ++ (s ++ cs.drop pos)

/-- `delete_from_stream` -/
def deleteFromStream (cs : List Byte) (pos len : Nat) : List Byte :=
  cs.take pos ++ cs.drop (pos + min len cs.length)

/-- A character of a file in `load_stream_from_fd`. -/
def loadChar (preserveCR : Bool) (c : Byte) : Byte :=
  if c = 10 ∨ (c = 13 ∧ ¬ preserveCR) then 0 else c

/-- `load_stream_from_fd`, not in binary mode -/
def loadStream (preserveCR : Bool) : List Byte → List Byte
  | [] => []
  | [c] => [loadChar preserveCR c]
  | c :: d :: file =>
      if ¬ preserveCR ∧ c = 13 ∧ d = 10 then loadChar preserveCR d :: loadStream preserveCR file
      else loadChar preserveCR c :: loadStream preserveCR (d :: file)

attribute [grind =] loadStream

/-- `save_stream_to_fd`, not in binary mode -/
def saveStream (cs : List Byte) (crlf : Bool) : List Byte :=
  (if crlf then [13, 10] else [10]).intercalate (cs.splitOn 0)

/-- The last line of the stream ends with a NUL. -/
def Terminated (cs : List Byte) : Prop := ∀ c ∈ cs.getLast?, c = 0

instance (cs : List Byte) : Decidable (Terminated cs) :=
  inferInstanceAs (Decidable (∀ c ∈ cs.getLast?, c = 0))

/-- The lines of a stream that ends with a NUL. -/
def streamLines (cs : List Byte) : List (List Byte) := (cs.splitOn 0).dropLast

variable {cs front rest l s : List Byte} {lines : List (List Byte)}

theorem cString_middle (h : 0 ∉ l) : cString (front ++ (l ++ 0 :: rest)) front.length = l := by
  have hall : ∀ x ∈ l, (x != 0) = true := fun x hx => by
    simpa using fun heq : x = 0 => h (heq ▸ hx)
  rw [cString, List.drop_left, List.takeWhile_append_of_pos hall,
    List.takeWhile_cons_of_neg (by simp), List.append_nil]

theorem insertInStream_middle :
    insertInStream (front ++ rest) s front.length = front ++ (s ++ rest) := by
  rw [insertInStream, if_neg (by simp), List.take_left, List.drop_left]

theorem deleteFromStream_middle :
    deleteFromStream (front ++ (s ++ rest)) front.length s.length = front ++ rest := by
  have hmin : min s.length (front ++ (s ++ rest)).length = s.length := by
    simp only [List.length_append]
    omega
  rw [deleteFromStream, hmin, List.take_left, ← List.append_assoc, ← List.length_append,
    List.drop_left]

theorem text_concat_nil (lines : List (List Byte)) :
    text 0 (lines ++ [[]]) = textBefore 0 lines := by
  rw [text_append 0 (by simp), text_singleton, List.append_nil]

theorem textBefore_terminated (lines : List (List Byte)) : Terminated (textBefore 0 lines) := by
  rcases List.eq_nil_or_concat lines with rfl | ⟨lines, l, rfl⟩
  · rintro c ⟨⟩
  · intro c hc
    rw [List.concat_eq_append, textBefore_append] at hc
    simpa [textBefore, List.getLast?_append, eq_comm] using hc

theorem textBefore_streamLines (h : Terminated cs) : textBefore 0 (streamLines cs) = cs := by
  have hsplit := text_splitOn 0 cs
  obtain ⟨lines, l, hl⟩ :=
    (List.eq_nil_or_concat (cs.splitOn 0)).resolve_left (List.splitOn_ne_nil 0 cs)
  rw [List.concat_eq_append] at hl
  rw [hl, text_append 0 (by simp), text_singleton] at hsplit
  have hnil : l = [] := by
    rcases List.eq_nil_or_concat l with hnil | ⟨l', c, rfl⟩
    · exact hnil
    · have hc : c = 0 := h c (by rw [← hsplit]; simp)
      refine absurd ?_ ((@not_mem_of_mem_splitOn _ 0 _ _ cs) (s := l'.concat c) (by simp [hl]))
      simp [hc]
  rw [hnil, List.append_nil] at hsplit
  rw [streamLines, hl, List.dropLast_concat, hsplit]

theorem mem_streamLines (h : l ∈ streamLines cs) : 0 ∉ l :=
  not_mem_of_mem_splitOn 0 (List.dropLast_subset _ h)

theorem streamLines_textBefore (h : ∀ l ∈ lines, 0 ∉ l) :
    streamLines (textBefore 0 lines) = lines := by
  have hsplit : (textBefore 0 lines).splitOn 0 = lines ++ [[]] := by
    rw [← text_concat_nil]
    exact List.splitOn_intercalate 0 (by simpa [or_imp, forall_and] using h) (by simp)
  rw [streamLines, hsplit, List.dropLast_concat]

end NiceEditor.Streams
