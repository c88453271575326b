import NiceEditor.Load
import NiceEditor.LineText
import Mathlib.Data.List.TakeWhile

namespace NiceEditor.LoadText

open NiceEditor.Cells
open NiceEditor.Pools
open NiceEditor.BufferData
open NiceEditor.Load

/-- The start and the length of each line of `rest`, where the current line
begins at `start` and `rest` at `pos`. -/
def lineCuts (isTerm : Byte → Bool) : Nat → Nat → List Byte → List (Nat × Nat)
  | start, pos, [] => [(start, pos - start)]
  | start, pos, [c] =>
      if isTerm c then [(start, pos - start), (pos + 1, 0)] else [(start, pos + 1 - start)]
  | start, pos, c :: d :: rest =>
      if isTerm c then
        if c = cr ∧ d = lf then (start, pos - start) :: lineCuts isTerm (pos + 2) (pos + 2) rest
        else (start, pos - start) :: lineCuts isTerm (pos + 1) (pos + 1) (d :: rest)
      else lineCuts isTerm start (pos + 1) (d :: rest)

/-- The lines of a text, `line` being the part of the current line already seen. -/
def splitText (isTerm : Byte → Bool) : List Byte → List Byte → List (List Byte)
  | line, [] => [line]
  | line, [c] => if isTerm c then [line, []] else [line ++ [c]]
  | line, c :: d :: rest =>
      if isTerm c then
        if c = cr ∧ d = lf then line :: splitText isTerm [] rest
        else line :: splitText isTerm [] (d :: rest)
      else splitText isTerm (line ++ [c]) (d :: rest)

/-- A line terminator is set to NUL. -/
def blank (isTerm : Byte → Bool) (c : Byte) : Byte := if isTerm c then 0 else c

attribute [grind =] lineCuts

variable {isTerm : Byte → Bool} {start pos p block n : Nat} {rest : List Byte}

theorem lineCuts_ne_nil (isTerm : Byte → Bool) (start pos : Nat) (rest : List Byte) :
    lineCuts isTerm start pos rest ≠ [] := by
  fun_induction lineCuts isTerm start pos rest <;> simp_all

section Steps

variable {c : Byte}

theorem lineCuts_char (hc : ¬ isTerm c = true) :
    lineCuts isTerm start pos (c :: rest) = lineCuts isTerm start (pos + 1) rest := by
  cases rest with
  | nil => simp only [lineCuts, if_neg hc]
  | cons d rest => rw [lineCuts, if_neg hc]

theorem lineCuts_term (hc : isTerm c = true) (hpair : ¬ (c = cr ∧ rest.head? = some lf)) :
    lineCuts isTerm start pos (c :: rest) =
      (start, pos - start) :: lineCuts isTerm (pos + 1) (pos + 1) rest := by
  cases rest with
  | nil => simp only [lineCuts, if_pos hc, Nat.sub_self]
  | cons d rest =>
      simp only [List.head?_cons, Option.some_inj] at hpair
      rw [lineCuts, if_pos hc, if_neg hpair]

theorem lineCuts_pair (hc : isTerm cr = true) :
    lineCuts isTerm start pos (cr :: lf :: rest) =
      (start, pos - start) :: lineCuts isTerm (pos + 2) (pos + 2) rest := by
  rw [lineCuts, if_pos hc, if_pos ⟨rfl, rfl⟩]

theorem countLines_char (hc : ¬ isTerm c = true) :
    (countLines isTerm (c :: rest)).2.2 = (countLines isTerm rest).2.2 := by
  cases rest with
  | nil => simp only [countLines, if_neg hc]
  | cons d rest => rw [countLines, if_neg hc]

theorem countLines_term (hc : isTerm c = true) (hpair : ¬ (c = cr ∧ rest.head? = some lf)) :
    (countLines isTerm (c :: rest)).2.2 = (countLines isTerm rest).2.2 := by
  cases rest with
  | nil => simp only [countLines, if_pos hc]
  | cons d rest =>
      simp only [List.head?_cons, Option.some_inj] at hpair
      rw [countLines, if_pos hc, if_neg hpair]

theorem countLines_pair (hc : isTerm cr = true) :
    (countLines isTerm (cr :: lf :: rest)).2.2 = true := by
  rw [countLines, if_pos hc, if_pos ⟨rfl, rfl⟩]

end Steps

theorem countLines_spec (hlf : isTerm cr = true → isTerm lf = true) (start pos : Nat)
    (rest : List Byte) :
    (countLines isTerm rest).1 + 1 = (lineCuts isTerm start pos rest).length ∧
      (countLines isTerm rest).2.1 = rest.countP isTerm := by
  fun_induction lineCuts isTerm start pos rest with
  | case1 => simp [countLines]
  | case2 start pos c hc => simp [countLines, hc]
  | case3 start pos c hc => simp [countLines, hc]
  | case4 start pos c d rest hc hpair ih =>
      obtain ⟨hlines, hfree⟩ := ih
      obtain ⟨rfl, rfl⟩ := hpair
      rw [countLines, if_pos hc, if_pos ⟨rfl, rfl⟩, List.countP_cons_of_pos hc,
        List.countP_cons_of_pos (hlf hc), ← hfree, List.length_cons, ← hlines]
      exact ⟨rfl, rfl⟩
  | case5 start pos c d rest hc hpair ih =>
      obtain ⟨hlines, hfree⟩ := ih
      rw [countLines, if_pos hc, if_neg hpair, List.countP_cons_of_pos hc, ← hfree,
        List.length_cons, ← hlines]
      exact ⟨rfl, rfl⟩
  | case6 start pos c d rest hc ih =>
      obtain ⟨hlines, hfree⟩ := ih
      rw [countLines, if_neg hc, List.countP_cons_of_neg hc, ← hfree, ← hlines]
      exact ⟨rfl, rfl⟩

theorem lineCuts_append {line : List Byte} (hline : ∀ c ∈ line, ¬ isTerm c = true)
    (start pos : Nat) (tail : List Byte) :
    lineCuts isTerm start pos (line ++ tail) =
      lineCuts isTerm start (pos + line.length) tail := by
  induction line generalizing pos with
  | nil => rfl
  | cons c line ih =>
      have hc := hline c List.mem_cons_self
      have ih' := ih (fun c hc => hline c (List.mem_cons_of_mem _ hc)) (pos + 1)
      rw [List.length_cons, show pos + (line.length + 1) = pos + 1 + line.length by omega, ← ih',
        List.cons_append]
      cases line ++ tail with
      | nil => simp only [lineCuts, if_neg hc]
      | cons d rest => rw [lineCuts, if_neg hc]

theorem exists_line (isTerm : Byte → Bool) (rest : List Byte) :
    ∃ line tail, rest.takeWhile (fun c => !isTerm c) = line ∧
      rest.dropWhile (fun c => !isTerm c) = tail ∧ rest = line ++ tail ∧
      (∀ c ∈ line, ¬ isTerm c = true) ∧ ∀ c ∈ tail.head?, isTerm c = true := by
  refine ⟨_, _, rfl, rfl, List.takeWhile_append_dropWhile.symm, ?_, ?_⟩
  · intro c hc
    simpa using List.mem_takeWhile_imp hc
  · induction rest with
    | nil => simp
    | cons c rest ih =>
        by_cases hc : isTerm c = true
        · simp [hc]
        · simpa [hc] using ih

variable (block) in
theorem cutLines_spec (hlf : isTerm cr = true → isTerm lf = true)
    (hn : n = (lineCuts isTerm p p rest).length) :
    cutLines isTerm block n p rest =
      ((lineCuts isTerm p p rest).map fun c => lineAt block c.1 c.2, rest.map (blank isTerm)) := by
  induction n generalizing p rest with
  | zero => exact absurd (List.eq_nil_of_length_eq_zero hn.symm) (lineCuts_ne_nil _ _ _ _)
  | succ n ih =>
      obtain ⟨line, tail, htake, hdrop, rfl, hline, hhead⟩ := exists_line isTerm rest
      have hblank : line.map (blank isTerm) = line := by
        conv_rhs => rw [← List.map_id line]
        exact List.map_congr_left fun c hc => by simp [blank, hline c hc]
      have hterm : ∀ c, isTerm c = true → blank isTerm c = 0 := fun c hc => by simp [blank, hc]
      rw [lineCuts_append hline] at hn ⊢
      simp only [cutLines, htake, hdrop, List.map_append, hblank]
      rcases tail with _ | ⟨c, _ | ⟨d, tail⟩⟩
      · -- The last line.
        obtain rfl : n = 0 := by simpa [lineCuts] using hn
        simp [lineCuts, cutLines]
      · -- The text ends with a terminator.
        have hc := hhead c (by simp)
        rw [lineCuts, if_pos hc] at hn ⊢
        obtain rfl : n = 1 := by simpa using hn
        simp [cutLines, hterm c hc, lineAt]
      · have hc := hhead c (by simp)
        rw [lineCuts, if_pos hc] at hn ⊢
        by_cases hpair : c = cr ∧ d = lf
        · rw [if_pos hpair] at hn ⊢
          have hd : isTerm d = true := by
            rw [hpair.2]
            exact hlf (hpair.1 ▸ hc)
          have hrest := ih (by simpa using hn)
          simp only [if_pos hpair, hrest, List.map_cons, hterm c hc, hterm d hd,
            Nat.add_sub_cancel_left]
        · rw [if_neg hpair] at hn ⊢
          have hrest := ih (by simpa using hn)
          simp only [if_neg hpair, hrest, List.map_cons, hterm c hc, Nat.add_sub_cancel_left]

theorem lineCuts_bounds (hpos : start ≤ pos) {c : Nat × Nat}
    (hc : c ∈ lineCuts isTerm start pos rest) :
    start ≤ c.1 ∧ c.1 + c.2 ≤ pos + rest.length := by
  fun_induction lineCuts isTerm start pos rest with
  | case1 start pos =>
      obtain rfl := List.mem_singleton.mp hc
      exact ⟨le_rfl, by simp; omega⟩
  | case2 start pos d hd =>
      rcases List.mem_cons.mp hc with rfl | hc
      · exact ⟨le_rfl, by simp; omega⟩
      · obtain rfl := List.mem_singleton.mp hc
        exact ⟨by simp; omega, by simp⟩
  | case3 start pos d hd =>
      obtain rfl := List.mem_singleton.mp hc
      exact ⟨le_rfl, by simp; omega⟩
  | case4 start pos d e rest hd hpair ih =>
      rcases List.mem_cons.mp hc with rfl | hc
      · exact ⟨le_rfl, by simp; omega⟩
      · obtain ⟨hlow, hhigh⟩ := ih le_rfl hc
        exact ⟨by omega, by simp only [List.length_cons]; omega⟩
  | case5 start pos d e rest hd hpair ih =>
      rcases List.mem_cons.mp hc with rfl | hc
      · exact ⟨le_rfl, by simp; omega⟩
      · obtain ⟨hlow, hhigh⟩ := ih le_rfl hc
        exact ⟨by omega, by simp only [List.length_cons] at hhigh ⊢; omega⟩
  | case6 start pos d e rest hd ih =>
      obtain ⟨hlow, hhigh⟩ := ih (by omega) hc
      exact ⟨hlow, by simp only [List.length_cons] at hhigh ⊢; omega⟩

theorem lineCuts_sorted (hpos : start ≤ pos) :
    (lineCuts isTerm start pos rest).Pairwise fun c d => c.1 + c.2 ≤ d.1 := by
  fun_induction lineCuts isTerm start pos rest with
  | case1 => exact List.pairwise_singleton _ _
  | case2 start pos d hd =>
      refine List.pairwise_cons.mpr ⟨fun c hc => ?_, List.pairwise_singleton _ _⟩
      obtain rfl := List.mem_singleton.mp hc
      simp only
      omega
  | case3 => exact List.pairwise_singleton _ _
  | case4 start pos d e rest hd hpair ih =>
      refine List.pairwise_cons.mpr ⟨fun c hc => ?_, ih le_rfl⟩
      have hlow := (lineCuts_bounds le_rfl hc).1
      simp only
      omega
  | case5 start pos d e rest hd hpair ih =>
      refine List.pairwise_cons.mpr ⟨fun c hc => ?_, ih le_rfl⟩
      have hlow := (lineCuts_bounds le_rfl hc).1
      simp only
      omega
  | case6 start pos d e rest hd ih => exact ih (by omega)

/-- The memory `m` holds `rest` from `pos` on, with blanked terminators. -/
def Holds (isTerm : Byte → Bool) (m : Nat → Byte) (pos : Nat) (rest : List Byte) : Prop :=
  readCells m pos rest.length = rest.map (blank isTerm)

theorem Holds.head {m : Nat → Byte} {c : Byte} (h : Holds isTerm m pos (c :: rest)) :
    m pos = blank isTerm c :=
  List.head_eq_of_cons_eq h

theorem Holds.tail {m : Nat → Byte} {c : Byte} (h : Holds isTerm m pos (c :: rest)) :
    Holds isTerm m (pos + 1) rest :=
  List.tail_eq_of_cons_eq h

theorem blank_eq_zero (hnul : isTerm 0 = true) (c : Byte) :
    blank isTerm c = 0 ↔ isTerm c = true := by
  unfold blank
  split
  · rename_i hc
    exact ⟨fun _ => hc, fun _ => rfl⟩
  · rename_i hc
    exact ⟨fun h => absurd (h ▸ hnul) hc, fun h => absurd h hc⟩

/-- The lines cover the part of the current line already seen, and the cells
that are not zero. -/
theorem lineCuts_cover {m : Nat → Byte} (hnul : isTerm 0 = true)
    (hlf : isTerm cr = true → isTerm lf = true) (hpos : start ≤ pos)
    (hrest : Holds isTerm m pos rest) (i : Nat) :
    (∃ c ∈ lineCuts isTerm start pos rest, c.1 ≤ i ∧ i < c.1 + c.2) ↔
      (start ≤ i ∧ i < pos) ∨ (pos ≤ i ∧ i < pos + rest.length ∧ m i ≠ 0) := by
  have hend : ∀ {pos : Nat} {c : Byte} {rest : List Byte}, Holds isTerm m pos (c :: rest) →
      (isTerm c = true ↔ m pos = 0) := fun h => by rw [h.head, blank_eq_zero hnul]
  have hcell : ∀ k, i = k → m i = m k := fun k h => congrArg m h
  fun_induction lineCuts isTerm start pos rest with
  | case1 start pos =>
      simp only [List.mem_singleton, exists_eq_left, List.length_nil]
      omega
  | case2 start pos c hc =>
      have hzero := (hend hrest).mp hc
      have hi := hcell pos
      simp only [List.mem_cons, List.not_mem_nil, or_false, exists_eq_or_imp, exists_eq_left,
        List.length_singleton]
      grind
  | case3 start pos c hc =>
      have hne := (not_congr (hend hrest)).mp hc
      have hi := hcell pos
      simp only [List.mem_singleton, exists_eq_left, List.length_singleton]
      grind
  | case4 start pos c d rest hc hpair ih =>
      have hzero := (hend hrest).mp hc
      have hzero' := (hend hrest.tail).mp (by rw [hpair.2]; exact hlf (hpair.1 ▸ hc))
      have hi := hcell pos
      have hi' := hcell (pos + 1)
      have hcover := ih le_rfl hrest.tail.tail
      simp only [List.exists_mem_cons_iff, List.length_cons] at hcover ⊢
      grind
  | case5 start pos c d rest hc hpair ih =>
      have hzero := (hend hrest).mp hc
      have hi := hcell pos
      have hcover := ih le_rfl hrest.tail
      simp only [List.exists_mem_cons_iff, List.length_cons] at hcover ⊢
      grind
  | case6 start pos c d rest hc ih =>
      have hne := (not_congr (hend hrest)).mp hc
      have hi := hcell pos
      have hcover := ih (by omega) hrest.tail
      simp only [List.length_cons] at hcover ⊢
      grind

theorem lineCuts_bytes {m : Nat → Byte} (hpos : start ≤ pos) (hrest : Holds isTerm m pos rest) :
    (lineCuts isTerm start pos rest).map (fun c => readCells m c.1 c.2) =
      splitText isTerm (readCells m start (pos - start)) rest := by
  have hnext : ∀ {start pos : Nat} {c : Byte} {rest : List Byte}, start ≤ pos →
      Holds isTerm m pos (c :: rest) → ¬ isTerm c = true →
      readCells m start (pos + 1 - start) = readCells m start (pos - start) ++ [c] := by
    intro start pos c rest hpos hrest hc
    have hcell : m pos = c := by simpa [blank, hc] using hrest.head
    rw [show pos + 1 - start = pos - start + 1 by omega, readCells_add,
      show start + (pos - start) = pos by omega, ← hcell]
    rfl
  fun_induction lineCuts isTerm start pos rest with
  | case1 => simp [splitText]
  | case2 start pos c hc => simp [splitText, hc]
  | case3 start pos c hc => simp [splitText, hc, hnext hpos hrest hc]
  | case4 start pos c d rest hc hpair ih =>
      rw [splitText, if_pos hc, if_pos hpair, List.map_cons, ih le_rfl hrest.tail.tail,
        Nat.sub_self, readCells_zero]
  | case5 start pos c d rest hc hpair ih =>
      rw [splitText, if_pos hc, if_neg hpair, List.map_cons, ih le_rfl hrest.tail,
        Nat.sub_self, readCells_zero]
  | case6 start pos c d rest hc ih =>
      rw [splitText, if_neg hc, ih (by omega) hrest.tail, hnext hpos hrest hc]

theorem splitText_ne_nil (isTerm : Byte → Bool) (line rest : List Byte) :
    splitText isTerm line rest ≠ [] := by
  fun_induction splitText isTerm line rest <;> simp_all

end NiceEditor.LoadText
