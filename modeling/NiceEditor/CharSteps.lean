import NiceEditor.Columns

/-!
Steps from character to character over a line (`next_pos`, `prev_pos`), and the loops that
count them.
-/

namespace NiceEditor.CharSteps

open NiceEditor.Pools
open NiceEditor.BufferData
open NiceEditor.Encoding
open NiceEditor.Navigation
open NiceEditor.Clips
open NiceEditor.InputRows
open NiceEditor.Characters

/-- The loop of `calc_char_len`. Every turn passes a byte at least. -/
def charLenLoop (line : List Byte) (n : Int) (e : EncodingType) : Nat → Int → Int → Int
  | 0, _, len => len
  | turns + 1, pos, len =>
      if pos < n then charLenLoop line n e turns (nextPos line pos e) (len + 1) else len

/-- `calc_char_len` -/
def calcCharLen (line : List Byte) (n : Int) (e : EncodingType) : Int :=
  charLenLoop line n e n.toNat 0 0

/-- The loop of `utf8strlen`. Every turn passes a byte at least. -/
def strlenLoop (s : List Byte) (len : Int) : Nat → Int → Int → Int
  | 0, _, l => l
  | turns + 1, i, l =>
      if i < len then strlenLoop s len turns (i + utf8len (byteAt s i)) (l + 1) else l

/-- `utf8strlen` -/
def utf8strlen (s : List Byte) (len : Int) : Int := strlenLoop s len len.toNat 0 0

/-- The boundary behind the first `k` characters of a line -/
def boundary (cs : List (List Byte)) (k : Nat) : Int := bytes (cs.take k)

variable {e : EncodingType} {cs : List (List Byte)} {line : List Byte} {k n turns : Nat}

theorem boundary_zero (cs : List (List Byte)) : boundary cs 0 = 0 := rfl

theorem Spells.around (h : Spells e cs line) (hk : k < cs.length) :
    ∃ ch, IsCharacter e ch ∧
      line = (cs.take k).flatten ++ (ch ++ (cs.drop (k + 1)).flatten) ∧
      boundary cs (k + 1) = boundary cs k + ch.length := by
  refine ⟨cs[k], h.chars _ (List.getElem_mem hk), ?_, ?_⟩
  · rw [← h.bytes, ← List.flatten_cons, ← List.flatten_append, ← List.drop_eq_getElem_cons hk,
      List.take_append_drop]
  · rw [boundary, boundary, List.take_succ_eq_append_getElem hk, bytes_append, bytes_cons,
      bytes_nil]
    push_cast
    omega

theorem nextPos_boundary (h : Spells e cs line) (hk : k < cs.length) :
    nextPos line (boundary cs k) e = boundary cs (k + 1) := by
  obtain ⟨ch, hch, rfl, hnext⟩ := Spells.around h hk
  have hstep := nextPos_character hch (cs.take k).flatten (cs.drop (k + 1)).flatten
  rw [hnext]
  exact hstep

theorem prevPos_boundary (h : Spells e cs line) (hk : k < cs.length) :
    prevPos line (boundary cs (k + 1)) e = boundary cs k := by
  obtain ⟨ch, hch, rfl, hnext⟩ := Spells.around h hk
  have hstep := prevPos_character hch (cs.take k).flatten (cs.drop (k + 1)).flatten
  rw [hnext]
  exact hstep

theorem boundary_length (h : Spells e cs line) : boundary cs cs.length = line.length := by
  rw [boundary, List.take_length, ← h.bytes]
  rfl

theorem boundary_lt (h : Spells e cs line) (hk : k < cs.length) (hn : k < n) :
    boundary cs k < boundary cs n := by
  have hstep : boundary cs k < boundary cs (k + 1) := by
    obtain ⟨ch, hch, -, hnext⟩ := Spells.around h hk
    have hpos := hch.length_pos
    omega
  have hmono : boundary cs (k + 1) ≤ boundary cs n := by
    obtain ⟨rest, hrest⟩ := List.take_prefix_take_left (show k + 1 ≤ n from hn)
    rw [boundary, boundary, ← hrest, bytes_append]
    push_cast
    omega
  omega

theorem iterate_nextPos (h : Spells e cs line) (hk : k ≤ cs.length) :
    (fun pos => nextPos line pos e)^[k] 0 = boundary cs k := by
  induction k with
  | zero => rfl
  | succ k ih =>
      rw [Function.iterate_succ_apply', ih (by omega)]
      exact nextPos_boundary h hk

theorem charLenLoop_eq (h : Spells e cs line) (hk : k ≤ n) (hn : n ≤ cs.length)
    (hturns : n - k ≤ turns) (len : Int) :
    charLenLoop line (boundary cs n) e turns (boundary cs k) len = len + (n - k : Nat) := by
  induction turns generalizing k len with
  | zero =>
      rw [charLenLoop, show n - k = 0 by omega]
      simp
  | succ turns ih =>
      rw [charLenLoop]
      obtain rfl | hlt := Nat.eq_or_lt_of_le hk
      · rw [if_neg (lt_irrefl _), Nat.sub_self]
        simp
      · rw [if_pos (boundary_lt h (by omega) hlt), nextPos_boundary h (by omega),
          ih hlt (by omega)]
        omega

theorem length_le_boundary (h : Spells e cs line) (hn : n ≤ cs.length) :
    n ≤ (boundary cs n).toNat := by
  induction n with
  | zero => exact Nat.zero_le _
  | succ n ih =>
      have hlt : boundary cs n < boundary cs (n + 1) :=
        boundary_lt h (by omega) (Nat.lt_succ_self n)
      have hle := ih (by omega)
      have hnonneg : 0 ≤ boundary cs n := Int.natCast_nonneg _
      omega

theorem calcCharLen_boundary (h : Spells e cs line) (hn : n ≤ cs.length) :
    calcCharLen line (boundary cs n) e = n := by
  have hloop : charLenLoop line (boundary cs n) e (boundary cs n).toNat (boundary cs 0) 0 =
      0 + (n - 0 : Nat) := charLenLoop_eq h (Nat.zero_le n) hn (length_le_boundary h hn) 0
  rw [boundary_zero] at hloop
  rw [calcCharLen, hloop]
  simp

theorem strlenLoop_eq (s : List Byte) (len : Int) (turns : Nat) (i l : Int) :
    strlenLoop s len turns i l = charLenLoop s len .utf8 turns i l := by
  induction turns generalizing i l with
  | zero => rfl
  | succ turns ih =>
      rw [strlenLoop, charLenLoop, ih]
      rfl

/-- Steps over the characters of a line can be taken back, they go through all the boundaries up
to the end of the line, and there are as many as `calc_char_len` and `utf8strlen` count. -/
theorem charSteps (h : Spells .utf8 cs line) :
    (∀ k < cs.length,
      prevPos line (nextPos line (boundary cs k) .utf8) .utf8 = boundary cs k ∧
        nextPos line (prevPos line (boundary cs (k + 1)) .utf8) .utf8 = boundary cs (k + 1)) ∧
      (∀ k ≤ cs.length, (fun pos => nextPos line pos .utf8)^[k] 0 = boundary cs k) ∧
      boundary cs cs.length = line.length ∧
      calcCharLen line line.length .utf8 = cs.length ∧
      utf8strlen line line.length = cs.length := by
  have hlen := calcCharLen_boundary h le_rfl
  rw [boundary_length h] at hlen
  refine ⟨fun k hk => ?_, fun k hk => iterate_nextPos h hk, boundary_length h, hlen, ?_⟩
  · rw [nextPos_boundary h hk, prevPos_boundary h hk, nextPos_boundary h hk]
    exact ⟨rfl, rfl⟩
  · rw [utf8strlen, strlenLoop_eq]
    exact hlen

/-- The line `aé` -/
theorem charSteps_two :
    calcCharLen [97, 0xC3, 0xA9] 3 .utf8 = 2 ∧ prevPos [97, 0xC3, 0xA9] 3 .utf8 = 1 := by
  have hspells : Spells .utf8 [[97], [0xC3, 0xA9]] [97, 0xC3, 0xA9] := ⟨by decide, rfl⟩
  have hsteps := charSteps hspells
  have hback := (hsteps.1 1 (by decide)).1
  exact ⟨hsteps.2.2.2.1, hback⟩

end NiceEditor.CharSteps
