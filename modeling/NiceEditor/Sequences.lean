import NiceEditor.Commands
import NiceEditor.Encoding

namespace NiceEditor.Sequences

open NiceEditor.Pools
open NiceEditor.BufferData
open NiceEditor.Encoding

/-- The first byte tells how many bytes there are, the others are continuation bytes, and the
representation is not redundant. -/
inductive Sequence : List Byte → Prop
  | mk {c : Byte} {tail : List Byte} (hlen : utf8len c = tail.length + 1)
      (htail : ∀ x ∈ tail, x &&& 0xC0 = 0x80)
      (hshort : tail ≠ [] → redundant (tail.length + 1) c (tail.headD 0) = false) :
      Sequence (c :: tail)

variable {a l ch : List Byte} {cs : List (List Byte)}

theorem utf8len_ne_one {c : Byte} (hc : ¬ c < 0x80) : utf8len c ≠ 1 := by
  rw [utf8len, if_neg hc]
  split_ifs <;> decide

theorem utf8len_pos {c : Byte} (hvalid : utf8len c ≠ -1) : 1 ≤ utf8len c := by
  unfold utf8len at hvalid ⊢
  split_ifs at hvalid ⊢
  · decide
  · exact absurd rfl hvalid
  all_goals decide

theorem continuation_ge : ∀ x : Byte, x &&& 0xC0 = 0x80 → 0x80 ≤ x ∧ x < 0xC0 :=
  Commands.forall_byte (by decide +kernel)

theorem sequence_low {c : Byte} (hc : c < 0x80) : Sequence [c] :=
  .mk (by rw [utf8len, if_pos hc]; rfl) (fun _ hx => absurd hx List.not_mem_nil)
    fun hne => absurd rfl hne

theorem Sequence.tail_eq_nil {c : Byte} {tail : List Byte} (h : Sequence (c :: tail))
    (hc : c < 0x80) : tail = [] := by
  cases h with
  | mk hlen htail hshort =>
      rw [utf8len, if_pos hc] at hlen
      exact List.length_eq_zero_iff.mp (by omega)

theorem detectLoop_tail (isAscii : Bool) (h : ∀ x ∈ a, x &&& 0xC0 = 0x80) (b : List Byte) :
    detectLoop isAscii (a ++ b) a.length = detectLoop isAscii b 0 := by
  induction a with
  | nil => rfl
  | cons x a ih =>
      have hx : ¬ (x &&& 0xC0 ≠ 0x80) := not_not.mpr (h x List.mem_cons_self)
      rw [List.cons_append, List.length_cons, detectLoop, if_neg hx]
      exact ih fun y hy => h y (List.mem_cons_of_mem _ hy)

theorem detectLoop_sequences (h : ∀ ch ∈ cs, Sequence ch) (isAscii : Bool) :
    detectLoop isAscii cs.flatten 0 ≠ .eightBit := by
  induction cs generalizing isAscii with
  | nil => cases isAscii <;> simp [detectLoop]
  | cons ch cs ih =>
      obtain ⟨hch, hcs⟩ := List.forall_mem_cons.mp h
      rw [List.flatten_cons]
      cases hch with
      | @mk c tail hlen htail hshort =>
          rw [List.cons_append, detectLoop]
          by_cases hc : c < 0x80
          · rw [if_pos hc, Sequence.tail_eq_nil (.mk hlen htail hshort) hc]
            exact ih hcs isAscii
          · have htailne : tail ≠ [] := by
              rintro rfl
              exact utf8len_ne_one hc (by simpa using hlen)
            have hlength : (utf8len c).toNat = tail.length + 1 := by omega
            have hhead : (tail ++ cs.flatten).headD 0 = tail.headD 0 := by
              obtain ⟨x, tail, rfl⟩ := List.exists_cons_of_ne_nil htailne
              rfl
            rw [if_neg hc, if_neg (by omega), hlength, if_neg (by simp), hhead, hshort htailne,
              if_neg (by simp), Nat.add_sub_cancel, detectLoop_tail false htail]
            exact ih hcs false

theorem detectLoop_split (isAscii : Bool) {n : Nat} (hn : n ≤ l.length)
    (h : detectLoop isAscii l n ≠ .eightBit) :
    ∃ tail rest, l = tail ++ rest ∧ tail.length = n ∧ (∀ x ∈ tail, x &&& 0xC0 = 0x80) ∧
      detectLoop isAscii rest 0 ≠ .eightBit := by
  induction n generalizing l with
  | zero => exact ⟨[], l, rfl, rfl, fun _ hx => absurd hx List.not_mem_nil, h⟩
  | succ n ih =>
      obtain _ | ⟨x, l⟩ := l
      · simp at hn
      rw [detectLoop] at h
      split at h
      · exact absurd rfl h
      case isFalse hx =>
          obtain ⟨tail, rest, rfl, hlength, htail, hrest⟩ := ih (by simpa using hn) h
          refine ⟨x :: tail, rest, rfl, by simp [hlength], ?_, hrest⟩
          exact List.forall_mem_cons.mpr ⟨not_not.mp hx, htail⟩

theorem exists_sequences (isAscii : Bool) (h : detectLoop isAscii l 0 ≠ .eightBit) :
    ∃ cs : List (List Byte), (∀ ch ∈ cs, Sequence ch) ∧ cs.flatten = l := by
  induction hn : l.length using Nat.strong_induction_on generalizing isAscii l with
  | _ n ih =>
      obtain _ | ⟨c, l⟩ := l
      · exact ⟨[], fun _ h => absurd h List.not_mem_nil, rfl⟩
      rw [List.length_cons] at hn
      rw [detectLoop] at h
      split at h
      case isTrue hlow =>
          obtain ⟨cs, hcs, rfl⟩ := ih _ (by omega) isAscii h rfl
          exact ⟨[c] :: cs, List.forall_mem_cons.mpr ⟨sequence_low hlow, hcs⟩, rfl⟩
      case isFalse hlow =>
          split at h
          · exact absurd rfl h
          case isFalse hvalid =>
              split at h
              · exact absurd rfl h
              case isFalse hlength =>
                  split at h
                  · exact absurd rfl h
                  case isFalse hredundant =>
                      have hlen := utf8len_pos hvalid
                      obtain ⟨tail, rest, rfl, htaillength, htail, hnext⟩ :=
                        detectLoop_split false (by omega) h
                      simp only [List.length_append] at hn hlength
                      obtain ⟨cs, hcs, rfl⟩ := ih rest.length (by omega) false hnext rfl
                      have hch : Sequence (c :: tail) := by
                        refine .mk (by omega) htail fun hne => ?_
                        obtain ⟨x, tail, rfl⟩ := List.exists_cons_of_ne_nil hne
                        have hsame : (utf8len c).toNat = (x :: tail).length + 1 := by omega
                        rw [hsame] at hredundant
                        simpa using hredundant
                      exact ⟨(c :: tail) :: cs, List.forall_mem_cons.mpr ⟨hch, hcs⟩, rfl⟩

theorem split_singleton {x : Byte} {b : List Byte} (h : ∀ ch ∈ cs, x ∈ ch → ch = [x])
    (hflatten : cs.flatten = a ++ x :: b) :
    ∃ front rest, cs = front ++ [x] :: rest ∧ front.flatten = a ∧ rest.flatten = b := by
  induction cs generalizing a with
  | nil => simp at hflatten
  | cons ch cs ih =>
      obtain ⟨hch, hcs⟩ := List.forall_mem_cons.mp h
      rw [List.flatten_cons] at hflatten
      rcases List.append_eq_append_iff.mp hflatten with ⟨a', rfl, htail⟩ | ⟨b', rfl, htail⟩
      · obtain ⟨front, rest, rfl, rfl, hrest⟩ := ih hcs htail
        exact ⟨ch :: front, rest, rfl, rfl, hrest⟩
      · cases b' with
        | nil =>
            have hstart : cs.flatten = [] ++ x :: b := htail.symm
            obtain ⟨front, rest, rfl, hfront, hrest⟩ := ih hcs hstart
            exact ⟨(a ++ []) :: front, rest, rfl, by simp [hfront], hrest⟩
        | cons y b' =>
            simp only [List.cons_append, List.cons.injEq] at htail
            obtain ⟨rfl, rfl⟩ := htail
            have hsingle := hch (List.mem_append_right a List.mem_cons_self)
            have hlengths := congrArg List.length hsingle
            simp only [List.length_append, List.length_cons, List.length_nil] at hlengths
            obtain rfl := List.length_eq_zero_iff.mp (show a.length = 0 by omega)
            obtain rfl := List.length_eq_zero_iff.mp (show b'.length = 0 by omega)
            exact ⟨[], cs, rfl, rfl, rfl⟩

theorem Sequence.eq_singleton {x : Byte} (h : Sequence ch) (hx : x ∈ ch) (hlow : x < 0x80) :
    ch = [x] := by
  cases h with
  | @mk c tail hlen htail hshort =>
      obtain rfl | hmem := List.mem_cons.mp hx
      · rw [Sequence.tail_eq_nil (.mk hlen htail hshort) hlow]
      · exact absurd (continuation_ge x (htail x hmem)).1 (UInt8.not_le.mpr hlow)

end NiceEditor.Sequences
