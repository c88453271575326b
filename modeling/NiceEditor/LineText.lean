import Mathlib.Data.List.Basic
import Mathlib.Data.List.DropRight
import Mathlib.Algebra.BigOperators.Group.List.Basic
import Mathlib.Algebra.GroupWithZero.Nat

namespace NiceEditor.LineText

variable {α : Type*} (sep : α)

/-- The text of a list of lines: the lines with single separators between them. -/
def text (lines : List (List α)) : List α := [sep].intercalate lines

/-- The text of the lines before a line, up to the start of that line. -/
def textBefore (lines : List (List α)) : List α := lines.flatMap fun l => l ++ [sep]

/-- The text of the lines after a line, from the end of that line on. -/
def textAfter (lines : List (List α)) : List α := lines.flatMap fun l => sep :: l

/-- The place in the text of position `pos` of line `line`. -/
def offset (lines : List (List α)) (line pos : Nat) : Nat :=
  ((lines.take line).map fun l => l.length + 1).sum + pos

/-- The lines between `front` and `back` once the strings `segs` have been put
there; every separator between two strings breaks the line. -/
def spliceLines (front back : List α) : List (List α) → List (List α)
  | [] => [front ++ back]
  | [s] => [front ++ s ++ back]
  | s :: next :: rest => (front ++ s) :: spliceLines [] back (next :: rest)

attribute [grind =] spliceLines

@[simp] theorem textBefore_nil : textBefore sep [] = [] := rfl

@[simp] theorem textAfter_nil : textAfter sep [] = [] := rfl

@[simp] theorem textAfter_cons (l : List α) (lines : List (List α)) :
    textAfter sep (l :: lines) = sep :: (l ++ textAfter sep lines) := rfl

theorem textBefore_append (xs ys : List (List α)) :
    textBefore sep (xs ++ ys) = textBefore sep xs ++ textBefore sep ys :=
  List.flatMap_append

@[simp] theorem text_singleton (l : List α) : text sep [l] = l := by
  simp [text, List.intercalate]

theorem text_cons (l : List α) (lines : List (List α)) :
    text sep (l :: lines) = l ++ textAfter sep lines := by
  induction lines generalizing l with
  | nil => simp [text_singleton]
  | cons next rest ih =>
      have hstep : text sep (l :: next :: rest) = l ++ [sep] ++ text sep (next :: rest) :=
        List.intercalate_cons_cons
      rw [hstep, ih, textAfter_cons]
      simp

theorem text_append {lines : List (List α)} (h : lines ≠ []) (before : List (List α)) :
    text sep (before ++ lines) = textBefore sep before ++ text sep lines := by
  induction before with
  | nil => rfl
  | cons l before ih =>
      have hstep : text sep (l :: (before ++ lines)) =
          l ++ [sep] ++ text sep (before ++ lines) :=
        (List.intercalate_cons_of_ne_nil (by simp [h])).trans (by rfl)
      rw [List.cons_append, hstep, ih]
      simp [textBefore]

theorem text_middle (before after : List (List α)) (l : List α) :
    text sep (before ++ l :: after) = textBefore sep before ++ (l ++ textAfter sep after) := by
  rw [text_append sep (by simp), text_cons]

theorem textAfter_append (xs ys : List (List α)) :
    textAfter sep (xs ++ ys) = textAfter sep xs ++ textAfter sep ys :=
  List.flatMap_append

theorem textBefore_length (lines : List (List α)) :
    (textBefore sep lines).length = (lines.map fun l => l.length + 1).sum := by
  induction lines with
  | nil => rfl
  | cons l lines ih =>
      rw [List.map_cons, List.sum_cons, ← ih, textBefore, List.flatMap_cons,
        List.length_append, List.length_append]
      rfl

theorem length_le_textBefore (lines : List (List α)) :
    lines.length ≤ (textBefore sep lines).length := by
  have hle := List.length_le_sum_of_one_le (lines.map fun l => l.length + 1) fun n hn => by
    obtain ⟨l, -, rfl⟩ := List.mem_map.mp hn
    exact Nat.le_add_left 1 l.length
  rwa [List.length_map, ← textBefore_length] at hle

theorem spliceLines_ne_nil (front back : List α) (segs : List (List α)) :
    spliceLines front back segs ≠ [] := by
  rcases segs with _ | ⟨s, _ | ⟨next, rest⟩⟩ <;> simp [spliceLines]

theorem spliceLines_length (front back : List α) {segs : List (List α)} (h : segs ≠ []) :
    (spliceLines front back segs).length = segs.length := by
  induction segs generalizing front with
  | nil => exact absurd rfl h
  | cons s rest ih =>
      cases rest with
      | nil => rfl
      | cons next rest => simp [spliceLines, ih [] (by simp)]

theorem text_spliceLines (front back : List α) {segs : List (List α)} (h : segs ≠ []) :
    text sep (spliceLines front back segs) = front ++ text sep segs ++ back := by
  induction segs generalizing front with
  | nil => exact absurd rfl h
  | cons s rest ih =>
      cases rest with
      | nil => simp [spliceLines]
      | cons next rest =>
          have hinner := ih [] (by simp)
          have hsplit := text_append sep (spliceLines_ne_nil [] back (next :: rest))
            [front ++ s]
          have hsegs := text_append sep (List.cons_ne_nil next rest) [s]
          simp only [List.singleton_append] at hsplit hsegs
          rw [spliceLines, hsplit, hinner, hsegs]
          simp [textBefore]

section Split

variable [BEq α] [LawfulBEq α]

theorem not_mem_of_mem_splitOn {xs s : List α} (h : s ∈ xs.splitOn sep) : sep ∉ s := by
  induction xs generalizing s with
  | nil =>
      rw [List.splitOn_nil, List.mem_singleton] at h
      simp [h]
  | cons x xs ih =>
      rw [List.splitOn_cons_eq_if_modifyHead] at h
      split at h
      · rcases List.mem_cons.mp h with rfl | h
        · simp
        · exact ih h
      · rename_i hx
        obtain ⟨first, rest, hsplit⟩ := List.exists_cons_of_ne_nil (List.splitOn_ne_nil sep xs)
        rw [hsplit] at h ih
        simp only [List.modifyHead_cons, List.mem_cons] at h
        rcases h with rfl | h
        · have hfirst := ih List.mem_cons_self
          simp only [List.mem_cons, not_or]
          exact ⟨fun heq => hx (by simp [heq]), hfirst⟩
        · exact ih (List.mem_cons_of_mem _ h)

omit [LawfulBEq α] in
theorem splitOn_length (xs : List α) : (xs.splitOn sep).length = xs.count sep + 1 := by
  induction xs with
  | nil => simp
  | cons x xs ih =>
      rw [List.splitOn_cons_eq_if_modifyHead, List.count_cons]
      split
      · rw [List.length_cons, ih]
      · rw [List.length_modifyHead, ih]

theorem text_splitOn (xs : List α) : text sep (xs.splitOn sep) = xs :=
  List.intercalate_splitOn sep

end Split

section Place

variable {lines before after : List (List α)} {l : List α} {pos : Nat}

variable (before after) in
theorem text_take_offset (hpos : pos ≤ l.length) :
    (text sep (before ++ l :: after)).take (offset (before ++ l :: after) before.length pos) =
      textBefore sep before ++ l.take pos := by
  rw [text_middle, offset, List.take_left, ← textBefore_length sep,
    List.take_length_add_append, List.take_append_of_le_length hpos]

variable (before after) in
theorem text_drop_offset (hpos : pos ≤ l.length) :
    (text sep (before ++ l :: after)).drop (offset (before ++ l :: after) before.length pos) =
      l.drop pos ++ textAfter sep after := by
  rw [text_middle, offset, List.take_left, ← textBefore_length sep,
    List.drop_length_add_append, List.drop_append_of_le_length hpos]

variable (before after) in
theorem text_insert (hpos : pos ≤ l.length) {segs : List (List α)} (h : segs ≠ []) :
    text sep (before ++ (spliceLines (l.take pos) (l.drop pos) segs ++ after)) =
      (text sep (before ++ l :: after)).take
          (offset (before ++ l :: after) before.length pos) ++
        text sep segs ++
        (text sep (before ++ l :: after)).drop
          (offset (before ++ l :: after) before.length pos) := by
  rw [text_take_offset sep before after hpos, text_drop_offset sep before after hpos]
  obtain ⟨first, rest, hsplice⟩ := List.exists_cons_of_ne_nil
    (spliceLines_ne_nil (l.take pos) (l.drop pos) segs)
  have htext := text_spliceLines sep (l.take pos) (l.drop pos) h
  rw [hsplice, text_cons] at htext
  rw [hsplice, List.cons_append, text_middle, textAfter_append, ← List.append_assoc first,
    htext]
  simp

theorem exists_place {lines : List (List α)} {front rest : List α} (hne : lines ≠ [])
    (h : text sep lines = front ++ rest) :
    ∃ before l after pos, lines = before ++ l :: after ∧ pos ≤ l.length ∧
      front = textBefore sep before ++ l.take pos ∧
      rest = l.drop pos ++ textAfter sep after := by
  induction lines generalizing front with
  | nil => exact absurd rfl hne
  | cons l lines ih =>
      have hinside : ∀ s, l = front ++ s → rest = s ++ textAfter sep lines →
          ∃ before l₁ after pos, l :: lines = before ++ l₁ :: after ∧ pos ≤ l₁.length ∧
            front = textBefore sep before ++ l₁.take pos ∧
            rest = l₁.drop pos ++ textAfter sep after := by
        rintro s rfl rfl
        exact ⟨[], front ++ s, lines, front.length, rfl, by simp, by simp, by simp⟩
      rw [text_cons] at h
      rcases List.append_eq_append_iff.mp h with ⟨s, hfront, hrest⟩ | ⟨s, hl, hrest⟩
      · cases s with
        | nil => exact hinside [] (by simpa using hfront.symm) (by simpa using hrest.symm)
        | cons x s =>
            cases lines with
            | nil => simp at hrest
            | cons next lines =>
                rw [textAfter_cons, ← text_cons, List.cons_append, List.cons.injEq] at hrest
                obtain ⟨rfl, hrest⟩ := hrest
                obtain ⟨before, l₁, after, pos, hlines, hpos, hs, hdrop⟩ :=
                  ih (List.cons_ne_nil _ _) hrest
                refine ⟨l :: before, l₁, after, pos, by rw [hlines]; rfl, hpos, ?_, hdrop⟩
                rw [hfront, hs]
                simp [textBefore]
      · exact hinside s hl hrest

end Place

section Between

/-- The part of a text between two places. -/
def between (xs : List α) (i j : Nat) : List α := (xs.drop i).take (j - i)

variable {xs l : List α} {lines : List (List α)} {i j k n pos : Nat}

@[simp] theorem between_self (xs : List α) (i : Nat) : between xs i i = [] := by
  simp [between]

theorem between_append (hij : i ≤ j) (hjk : j ≤ k) :
    between xs i j ++ between xs j k = between xs i k := by
  have hsum : k - i = j - i + (k - j) := by omega
  rw [between, between, between, hsum, List.take_add, List.drop_drop,
    Nat.add_sub_cancel' hij]

theorem between_length (hjk : j ≤ xs.length) : (between xs i j).length = j - i := by
  rw [between, List.length_take, List.length_drop]
  omega

theorem offset_succ (hline : lines[n]? = some l) :
    offset lines (n + 1) pos = offset lines n l.length + (pos + 1) := by
  rw [offset, List.take_add_one, hline, Option.toList_some, List.map_append, List.sum_append,
    offset]
  simp only [List.map_cons, List.map_nil, List.sum_singleton]
  omega

theorem offset_mono_pos (lines : List (List α)) (n : Nat) (h : i ≤ j) :
    offset lines n i ≤ offset lines n j :=
  Nat.add_le_add_left h _

theorem text_drop_line (hline : lines[n]? = some l) (hpos : pos ≤ l.length) :
    (text sep lines).drop (offset lines n pos) =
      l.drop pos ++ textAfter sep (lines.drop (n + 1)) := by
  obtain ⟨hlt, hget⟩ := List.getElem?_eq_some_iff.mp hline
  have hlines : lines = lines.take n ++ l :: lines.drop (n + 1) := by
    rw [← hget, List.getElem_cons_drop, List.take_append_drop]
  have hlength : (lines.take n).length = n := by
    rw [List.length_take, Nat.min_eq_left (Nat.le_of_lt hlt)]
  have hdrop := text_drop_offset sep (lines.take n) (lines.drop (n + 1)) hpos
  rwa [← hlines, hlength] at hdrop

theorem between_line (hline : lines[n]? = some l) (hij : i ≤ j) (hj : j ≤ l.length) :
    between (text sep lines) (offset lines n i) (offset lines n j) = between l i j := by
  have hlength : offset lines n j - offset lines n i = j - i := by
    unfold offset
    omega
  rw [between, text_drop_line sep hline (hij.trans hj), hlength, between,
    List.take_append_of_le_length (by rw [List.length_drop]; omega)]

theorem between_break (hline : lines[n]? = some l) (hlt : n + 1 < lines.length) :
    between (text sep lines) (offset lines n l.length) (offset lines (n + 1) 0) = [sep] := by
  rw [between, text_drop_line sep hline le_rfl, offset_succ hline, List.drop_length,
    Nat.add_sub_cancel_left, List.nil_append, List.drop_eq_getElem_cons hlt, textAfter_cons]
  rfl

theorem offset_le_length (hline : lines[n]? = some l) (hpos : pos ≤ l.length) :
    offset lines n pos ≤ (text sep lines).length := by
  obtain ⟨hlt, hget⟩ := List.getElem?_eq_some_iff.mp hline
  have hlines : lines = lines.take n ++ l :: lines.drop (n + 1) := by
    rw [← hget, List.getElem_cons_drop, List.take_append_drop]
  rw [offset, ← textBefore_length sep]
  conv_rhs => rw [hlines, text_middle]
  simp only [List.length_append]
  omega

theorem text_set_append (hline : lines[n]? = some l) (s : List α) :
    text sep (lines.set n (l ++ s)) =
      (text sep lines).take (offset lines n l.length) ++ s ++
        (text sep lines).drop (offset lines n l.length) := by
  obtain ⟨hlt, hget⟩ := List.getElem?_eq_some_iff.mp hline
  have hlines : lines = lines.take n ++ l :: lines.drop (n + 1) := by
    rw [← hget, List.getElem_cons_drop, List.take_append_drop]
  have hlength : (lines.take n).length = n := by
    rw [List.length_take, Nat.min_eq_left (Nat.le_of_lt hlt)]
  have htake := text_take_offset sep (lines.take n) (lines.drop (n + 1)) (le_refl l.length)
  rw [← hlines, hlength, List.take_length] at htake
  rw [htake, text_drop_line sep hline le_rfl, List.drop_length, List.nil_append,
    List.set_eq_take_append_cons_drop, if_pos hlt, text_middle]
  simp

theorem offset_set (hline : lines[n]? = some l) (s : List α) (k j : Nat) :
    offset (lines.set n (l ++ s)) k j = offset lines k j + if n < k then s.length else 0 := by
  obtain ⟨hlt, hget⟩ := List.getElem?_eq_some_iff.mp hline
  split
  · rename_i hnk
    have hsplit : ∀ x, (lines.set n x).take k =
        lines.take n ++ x :: (lines.take k).drop (n + 1) := by
      intro x
      rw [List.take_set, List.set_eq_take_append_cons_drop,
        if_pos (by rw [List.length_take]; omega), List.take_take, Nat.min_eq_left hnk.le]
    have hsame : lines.take k = lines.take n ++ l :: (lines.take k).drop (n + 1) := by
      rw [← hsplit, ← hget, List.set_getElem_self]
    rw [offset, offset, hsplit]
    conv_rhs => rw [hsame]
    simp only [List.map_append, List.map_cons, List.sum_append, List.sum_cons, List.length_append]
    omega
  · rw [offset, offset, List.take_set_of_le (by omega), Nat.add_zero]

theorem offset_lt_of_lt (hline : lines[n]? = some l) (hpos : pos ≤ l.length) (hnk : n < k) :
    offset lines n pos < offset lines k j := by
  obtain ⟨m, rfl⟩ : ∃ m, k = n + 1 + m := ⟨k - (n + 1), by omega⟩
  have hnext : offset lines (n + 1) 0 ≤ offset lines (n + 1 + m) j := by
    have htake : lines.take (n + 1 + m) = lines.take (n + 1) ++ (lines.drop (n + 1)).take m :=
      List.take_add
    rw [offset, offset, htake, List.map_append, List.sum_append, Nat.add_zero]
    exact (Nat.le_add_right _ _).trans (Nat.le_add_right _ _)
  rw [offset_succ hline] at hnext
  have hmono : offset lines n pos ≤ offset lines n l.length := offset_mono_pos lines n hpos
  omega

end Between

section Front

variable [BEq α] [LawfulBEq α]

/-- The end of a text, from the last separator on. -/
def lastLine (front : List α) : List α := front.rtakeWhile fun x => x != sep

theorem textBefore_count {lines : List (List α)} (h : ∀ l ∈ lines, sep ∉ l) :
    (textBefore sep lines).count sep = lines.length := by
  induction lines with
  | nil => rfl
  | cons l lines ih =>
      have hl : l.count sep = 0 := List.count_eq_zero.mpr (h l List.mem_cons_self)
      have hrest := ih fun l hl => h l (List.mem_cons_of_mem _ hl)
      rw [textBefore, List.flatMap_cons, List.count_append, List.count_append, hl,
        List.count_singleton_self, List.length_cons, ← hrest, textBefore]
      omega

theorem text_count {lines : List (List α)} (h : ∀ l ∈ lines, sep ∉ l) (hne : lines ≠ []) :
    (text sep lines).count sep + 1 = lines.length := by
  obtain ⟨lines, l, rfl⟩ := (List.eq_nil_or_concat lines).resolve_left hne
  rw [List.concat_eq_append] at h ⊢
  have hl : l.count sep = 0 := List.count_eq_zero.mpr (h l (by simp))
  have hlines := textBefore_count sep (fun x hx => h x (by simp [hx]) : ∀ x ∈ lines, sep ∉ x)
  rw [text_append sep (List.cons_ne_nil l []), text_singleton, List.count_append, hlines, hl,
    List.length_append]
  rfl

theorem front_count {lines : List (List α)} {s : List α} (h : ∀ l ∈ lines, sep ∉ l)
    (hs : sep ∉ s) : (textBefore sep lines ++ s).count sep = lines.length := by
  rw [List.count_append, textBefore_count sep h, List.count_eq_zero.mpr hs, Nat.add_zero]

theorem lastLine_front (lines : List (List α)) {s : List α} (hs : sep ∉ s) :
    lastLine sep (textBefore sep lines ++ s) = s := by
  have hall : ∀ x ∈ s.reverse, (x != sep) = true := by
    intro x hx
    rw [List.mem_reverse] at hx
    simp only [bne_iff_ne]
    exact fun heq => hs (heq ▸ hx)
  have hstop : (textBefore sep lines).reverse.takeWhile (fun x => x != sep) = [] := by
    rcases List.eq_nil_or_concat lines with rfl | ⟨lines, l, rfl⟩
    · rfl
    · rw [List.concat_eq_append, textBefore_append]
      simp [textBefore]
  rw [lastLine, List.rtakeWhile, List.reverse_append, List.takeWhile_append_of_pos hall, hstop,
    List.append_nil, List.reverse_reverse]

end Front

end NiceEditor.LineText
