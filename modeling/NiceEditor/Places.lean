import NiceEditor.EditFrames

namespace NiceEditor.Places

open NiceEditor.Ownership
open NiceEditor.Pools
open NiceEditor.PoolOwnership
open NiceEditor.LineEdits
open NiceEditor.BufferData
open NiceEditor.Load
open NiceEditor.UndoSteps
open NiceEditor.EditStream
open NiceEditor.LineText
open NiceEditor.InsertRefinement
open NiceEditor.DeleteRefinement
open NiceEditor.EditFrames

/-- Position `p` of line `l` is a place of the text, at an offset. -/
def IsPlace (L : List (List Byte)) (l p : Int) (off : Nat) : Prop :=
  ∃ (i j : Nat) (s : List Byte), l = i ∧ p = j ∧ L[i]? = some s ∧ j ≤ s.length ∧ off = offset L i j

/-- The offset of a place after `n` characters have been inserted at offset `o`. -/
def afterInsertion (o n off : Nat) : Nat := if off ≤ o then off else off + n

/-- The offset of a place after `n` characters have been deleted at offset `o`. -/
def afterDeletion (o n off : Nat) : Nat := if off ≤ o then off else max o (off - n)

/-- The mark, when set, and the set bookmarks have been moved by `f`. -/
structure Moves (f : Int → Int → Int × Int) (b b' : Buffer) : Prop where
  marking : b'.marking = b.marking
  mask : b'.bookmarkMask = b.bookmarkMask
  mark : b.marking = true →
    (b'.blockStartLine, b'.blockStartPos) = f b.blockStartLine b.blockStartPos
  bookmarks : ∀ i, b.bookmarkMask.testBit i = true →
    ((b'.bookmark i).line, (b'.bookmark i).pos) = f (b.bookmark i).line (b.bookmark i).pos

/-- The mark, when set, and the set bookmarks are at offset `φ off` when they have been at
offset `off`. -/
structure Follows (φ : Nat → Nat) (b b' : Buffer) : Prop where
  marking : b'.marking = b.marking
  mask : b'.bookmarkMask = b.bookmarkMask
  mark : ∀ off, b.marking = true → IsPlace (lines b) b.blockStartLine b.blockStartPos off →
    IsPlace (lines b') b'.blockStartLine b'.blockStartPos (φ off)
  bookmarks : ∀ i off, b.bookmarkMask.testBit i = true →
    IsPlace (lines b) (b.bookmark i).line (b.bookmark i).pos off →
      IsPlace (lines b') (b'.bookmark i).line (b'.bookmark i).pos (φ off)

/-- The mark and the bookmarks are as they were. -/
structure SamePlaces (b b' : Buffer) : Prop where
  marking : b'.marking = b.marking
  mask : b'.bookmarkMask = b.bookmarkMask
  line : b'.blockStartLine = b.blockStartLine
  pos : b'.blockStartPos = b.blockStartPos
  bookmark : b'.bookmark = b.bookmark

variable {b b' b'' : Buffer} {f g : Int → Int → Int × Int} {φ ψ : Nat → Nat}
variable {before after : List (List Byte)} {x y s : List Byte} {l p : Int} {off pos len n ld : Nat}

theorem Moves.trans (first : Moves f b b') (second : Moves g b' b'') :
    Moves (fun l p => g (f l p).1 (f l p).2) b b'' where
  marking := second.marking.trans first.marking
  mask := second.mask.trans first.mask
  mark h := by rw [second.mark (first.marking ▸ h), ← first.mark h]
  bookmarks i h := by rw [second.bookmarks i (first.mask ▸ h), ← first.bookmarks i h]

theorem moves_movePlaces (b : Buffer) (f : Int → Int → Int × Int) : Moves f b (movePlaces b f) where
  marking := rfl
  mask := rfl
  mark h := by simp only [movePlaces, h, if_true]
  bookmarks i h := by simp only [movePlaces, h, if_true]

theorem Moves.congr_left (h : Moves f b' b'') (hsame : SamePlaces b b') : Moves f b b'' where
  marking := h.marking.trans hsame.marking
  mask := h.mask.trans hsame.mask
  mark hset := by rw [h.mark (hsame.marking ▸ hset), hsame.line, hsame.pos]
  bookmarks i hset := by rw [h.bookmarks i (hsame.mask ▸ hset), hsame.bookmark]

theorem Moves.congr_right (h : Moves f b b') (hsame : SamePlaces b' b'') : Moves f b b'' where
  marking := hsame.marking.trans h.marking
  mask := hsame.mask.trans h.mask
  mark hset := by rw [hsame.line, hsame.pos, h.mark hset]
  bookmarks i hset := by rw [hsame.bookmark, h.bookmarks i hset]

theorem Follows.trans (first : Follows φ b b') (second : Follows ψ b' b'') :
    Follows (ψ ∘ φ) b b'' where
  marking := second.marking.trans first.marking
  mask := second.mask.trans first.mask
  mark off h hplace := second.mark _ (first.marking ▸ h) (first.mark off h hplace)
  bookmarks i off h hplace := second.bookmarks i _ (first.mask ▸ h) (first.bookmarks i off h hplace)

theorem follows_of_moves (h : Moves f b b')
    (hf : ∀ l p off, IsPlace (lines b) l p off → IsPlace (lines b') (f l p).1 (f l p).2 (φ off)) :
    Follows φ b b' where
  marking := h.marking
  mask := h.mask
  mark off hset hplace := by
    have hmoved := hf _ _ _ hplace
    rwa [← h.mark hset] at hmoved
  bookmarks i off hset hplace := by
    have hmoved := hf _ _ _ hplace
    rwa [← h.bookmarks i hset] at hmoved

/-- Where the text of a line starts. -/
def startOf (before : List (List Byte)) : Nat := (textBefore 0 before).length

theorem offset_above (rest : List (List Byte)) {i : Nat} (hi : i < before.length) (j : Nat) :
    offset (before ++ rest) i j = offset before i j := by
  rw [offset, offset, List.take_append_of_le_length hi.le]

theorem offset_on (rest : List (List Byte)) (j : Nat) :
    offset (before ++ x :: rest) before.length j = startOf before + j := by
  rw [offset, List.take_left, startOf, textBefore_length]

theorem offset_on_map {α : Type} (before : List α) (f : α → List Byte) (rest : List (List Byte))
    (j : Nat) :
    offset (before.map f ++ x :: rest) before.length j = startOf (before.map f) + j := by
  have h := (@offset_on (before.map f)) (x := x) rest j
  rwa [List.length_map] at h

theorem offset_below (rest : List (List Byte)) (i j : Nat) :
    offset (before ++ x :: rest) (before.length + 1 + i) j =
      startOf before + (x.length + 1) + offset rest i j := by
  have htake : (before ++ x :: rest).take (before.length + 1 + i) = before ++ x :: rest.take i := by
    rw [Nat.add_assoc, List.take_length_add_append, Nat.add_comm 1 i, List.take_succ_cons]
  rw [offset, htake, List.map_append, List.sum_append, List.map_cons, List.sum_cons, startOf,
    textBefore_length, offset]
  omega

theorem offset_above_lt {i j : Nat} (hs : before[i]? = some s) (hj : j ≤ s.length) :
    offset before i j < startOf before := by
  have hi := (List.getElem?_eq_some_iff.mp hs).1
  have hlt := offset_lt_of_lt (k := before.length) (j := 0) hs hj hi
  have hstart : offset before before.length 0 = startOf before := by
    rw [offset, List.take_length, startOf, textBefore_length]
    rfl
  rwa [hstart] at hlt

theorem IsPlace.above {rest : List (List Byte)} {i j : Nat} (hs : before[i]? = some s)
    (hj : j ≤ s.length) : IsPlace (before ++ rest) i j (offset before i j) := by
  have hi := (List.getElem?_eq_some_iff.mp hs).1
  refine ⟨i, j, s, rfl, rfl, ?_, hj, (offset_above rest hi j).symm⟩
  rw [List.getElem?_append_left hi, hs]

theorem IsPlace.on {rest : List (List Byte)} {j : Nat} (hj : j ≤ x.length) :
    IsPlace (before ++ x :: rest) before.length j (startOf before + j) := by
  refine ⟨before.length, j, x, rfl, rfl, ?_, hj, (offset_on rest j).symm⟩
  rw [List.getElem?_append_right le_rfl, Nat.sub_self]
  rfl

theorem IsPlace.below {rest : List (List Byte)} {i j : Nat} (hs : rest[i]? = some s)
    (hj : j ≤ s.length) :
    IsPlace (before ++ x :: rest) (before.length + 1 + i : Nat) j
      (startOf before + (x.length + 1) + offset rest i j) := by
  refine ⟨before.length + 1 + i, j, s, rfl, rfl, ?_, hj, (offset_below rest i j).symm⟩
  rw [List.getElem?_append_right (by omega), Nat.add_assoc, Nat.add_sub_cancel_left,
    Nat.add_comm 1 i, List.getElem?_cons_succ, hs]

theorem IsPlace.cases_line {rest : List (List Byte)} (h : IsPlace (before ++ x :: rest) l p off) :
    (∃ (i j : Nat) (s : List Byte), before[i]? = some s ∧ j ≤ s.length ∧ l = i ∧ p = j ∧
      off = offset before i j) ∨
    (∃ j : Nat, j ≤ x.length ∧ l = before.length ∧ p = j ∧ off = startOf before + j) ∨
    (∃ (i j : Nat) (s : List Byte), rest[i]? = some s ∧ j ≤ s.length ∧
      l = (before.length + 1 + i : Nat) ∧ p = j ∧
      off = startOf before + (x.length + 1) + offset rest i j) := by
  obtain ⟨i, j, s, rfl, rfl, hs, hj, rfl⟩ := h
  rcases Nat.lt_trichotomy i before.length with hlt | rfl | hgt
  · rw [List.getElem?_append_left hlt] at hs
    exact Or.inl ⟨i, j, s, hs, hj, rfl, rfl, offset_above _ hlt j⟩
  · rw [List.getElem?_append_right le_rfl, Nat.sub_self, List.getElem?_cons_zero,
      Option.some.injEq] at hs
    subst hs
    exact Or.inr (Or.inl ⟨j, hj, rfl, rfl, offset_on rest j⟩)
  · obtain ⟨m, rfl⟩ : ∃ m, i = before.length + 1 + m := ⟨i - (before.length + 1), by omega⟩
    rw [List.getElem?_append_right (by omega), Nat.add_assoc, Nat.add_sub_cancel_left,
      Nat.add_comm 1 m, List.getElem?_cons_succ] at hs
    exact Or.inr (Or.inr ⟨m, j, s, hs, hj, rfl, rfl, offset_below rest m j⟩)

theorem isPlace_chars (hpos : pos ≤ x.length) (h : IsPlace (before ++ x :: after) l p off) :
    IsPlace (before ++ (x.take pos ++ s ++ x.drop pos) :: after)
      (placeAfterChars before.length pos s.length l p).1
      (placeAfterChars before.length pos s.length l p).2
      (afterInsertion (startOf before + pos) s.length off) := by
  have hlength : (x.take pos ++ s ++ x.drop pos).length = x.length + s.length := by
    simp only [List.length_append, List.length_take, List.length_drop]
    omega
  rcases h.cases_line with ⟨i, j, r, hr, hj, rfl, rfl, rfl⟩ | ⟨j, hj, rfl, rfl, rfl⟩ |
      ⟨i, j, r, hr, hj, rfl, rfl, rfl⟩
  · have hi := (List.getElem?_eq_some_iff.mp hr).1
    have hlt := offset_above_lt hr hj
    rw [placeAfterChars, if_neg (by omega), afterInsertion, if_pos (by omega)]
    exact IsPlace.above hr hj
  · rw [placeAfterChars, afterInsertion]
    by_cases hmoved : pos < j
    · rw [if_pos ⟨rfl, by omega⟩, if_neg (by omega), Nat.add_assoc]
      exact_mod_cast IsPlace.on (j := j + s.length) (by omega)
    · rw [if_neg (by omega), if_pos (by omega)]
      exact IsPlace.on (by omega)
  · rw [placeAfterChars, if_neg (by omega), afterInsertion, if_neg (by omega)]
    have hplace := (@IsPlace.below before) (x := x.take pos ++ s ++ x.drop pos) hr hj
    rw [hlength] at hplace
    convert hplace using 1
    omega

/-- Characters are put into a line, and the line is broken behind them. -/
theorem isPlace_break (hpos : pos ≤ x.length) (h : IsPlace (before ++ x :: after) l p off) :
    let moved := placeAfterChars before.length pos s.length l p
    IsPlace (before ++ (x.take pos ++ s) :: x.drop pos :: after)
      (placeAfterBreak before.length pos s.length moved.1 moved.2).1
      (placeAfterBreak before.length pos s.length moved.1 moved.2).2
      (afterInsertion (startOf before + pos) (s.length + 1) off) := by
  have hhead : (x.take pos ++ s).length = pos + s.length := by
    rw [List.length_append, List.length_take, Nat.min_eq_left hpos]
  have htail : (x.drop pos).length = x.length - pos := List.length_drop
  rcases h.cases_line with ⟨i, j, r, hr, hj, rfl, rfl, rfl⟩ | ⟨j, hj, rfl, rfl, rfl⟩ |
      ⟨i, j, r, hr, hj, rfl, rfl, rfl⟩
  · have hi := (List.getElem?_eq_some_iff.mp hr).1
    have hlt := offset_above_lt hr hj
    dsimp only
    rw [placeAfterChars, if_neg (by omega), placeAfterBreak, if_neg (by omega), if_neg (by omega),
      afterInsertion, if_pos (by omega)]
    exact IsPlace.above hr hj
  · dsimp only
    by_cases hmoved : pos < j
    · have hbelow := @IsPlace.below before (x.take pos ++ s) (x.drop pos) (x.drop pos :: after) 0
        (j - pos) rfl (by omega)
      rw [placeAfterChars, if_pos ⟨rfl, by omega⟩, placeAfterBreak, if_pos ⟨rfl, by omega⟩,
        afterInsertion, if_neg (by omega)]
      convert hbelow using 1
      · dsimp only
        omega
      · dsimp only
        omega
      · rw [hhead, offset]
        simp only [List.take_zero, List.map_nil, List.sum_nil]
        omega
    · rw [placeAfterChars, if_neg (by omega), placeAfterBreak, if_neg (by omega),
        if_neg (by omega), afterInsertion, if_pos (by omega)]
      exact IsPlace.on (by omega)
  · have hbelow := @IsPlace.below before (x.take pos ++ s) r (x.drop pos :: after) (i + 1) j
      (by simpa using hr) hj
    have hoffset : offset (x.drop pos :: after) (i + 1) j =
        (x.drop pos).length + 1 + offset after i j := by
      rw [offset, List.take_succ_cons, List.map_cons, List.sum_cons, offset]
      omega
    dsimp only
    rw [placeAfterChars, if_neg (by omega), placeAfterBreak, if_neg (by omega), if_pos (by omega),
      afterInsertion, if_neg (by omega)]
    convert hbelow using 1
    · omega
    · rw [hoffset, hhead, htail]
      omega

theorem isPlace_delete (hn : pos + n ≤ x.length) (h : IsPlace (before ++ x :: after) l p off) :
    IsPlace (before ++ (x.take pos ++ x.drop (pos + n)) :: after)
      (placeAfterDelete before.length pos n l p).1 (placeAfterDelete before.length pos n l p).2
      (afterDeletion (startOf before + pos) n off) := by
  have hlength : (x.take pos ++ x.drop (pos + n)).length = x.length - n := by
    simp only [List.length_append, List.length_take, List.length_drop]
    omega
  rcases h.cases_line with ⟨i, j, r, hr, hj, rfl, rfl, rfl⟩ | ⟨j, hj, rfl, rfl, rfl⟩ |
      ⟨i, j, r, hr, hj, rfl, rfl, rfl⟩
  · have hi := (List.getElem?_eq_some_iff.mp hr).1
    have hlt := offset_above_lt hr hj
    rw [placeAfterDelete, if_neg (by omega), afterDeletion, if_pos (by omega)]
    exact IsPlace.above hr hj
  · rw [placeAfterDelete, afterDeletion]
    rcases Nat.lt_or_ge j pos with hbefore | hafter
    · rw [if_neg (by omega), if_pos (by omega)]
      exact IsPlace.on (by omega)
    rw [if_pos ⟨rfl, by omega⟩]
    rcases Nat.lt_or_ge j (pos + n) with hinside | hbehind
    · have hplace := (@IsPlace.on before (x.take pos ++ x.drop (pos + n)) after) (j := pos)
        (by omega)
      rw [if_pos (by omega)]
      convert hplace using 1
      split
      · omega
      · omega
    · have hplace := (@IsPlace.on before (x.take pos ++ x.drop (pos + n)) after) (j := j - n)
        (by omega)
      rw [if_neg (by omega)]
      convert hplace using 1
      · omega
      · split
        · omega
        · omega
  · have hbelow := (@IsPlace.below before) (x := x.take pos ++ x.drop (pos + n)) hr hj
    rw [hlength] at hbelow
    rw [placeAfterDelete, if_neg (by omega), afterDeletion, if_neg (by omega)]
    convert hbelow using 1
    omega

theorem isPlace_join (h : IsPlace (before ++ x :: y :: after) l p off) :
    IsPlace (before ++ (x ++ y) :: after) (placeAfterJoin before.length x.length l p).1
      (placeAfterJoin before.length x.length l p).2
      (afterDeletion (startOf before + x.length) 1 off) := by
  rcases h.cases_line with ⟨i, j, r, hr, hj, rfl, rfl, rfl⟩ | ⟨j, hj, rfl, rfl, rfl⟩ |
      ⟨i, j, r, hr, hj, rfl, rfl, rfl⟩
  · have hi := (List.getElem?_eq_some_iff.mp hr).1
    have hlt := offset_above_lt hr hj
    rw [placeAfterJoin, if_neg (by omega), if_neg (by omega), afterDeletion, if_pos (by omega)]
    exact IsPlace.above hr hj
  · rw [placeAfterJoin, if_neg (by omega), if_neg (by omega), afterDeletion, if_pos (by omega)]
    exact IsPlace.on (by rw [List.length_append]; omega)
  · cases i with
    | zero =>
        obtain rfl : y = r := by simpa using hr
        have hon := (@IsPlace.on before (x ++ y) after) (j := x.length + j)
          (by rw [List.length_append]; omega)
        rw [placeAfterJoin, if_pos (by omega), afterDeletion, if_neg (by omega)]
        convert hon using 1
        · omega
        · push_cast
          ring
        · rw [offset, List.take_zero, List.map_nil, List.sum_nil]
          omega
    | succ i =>
        have hbelow := (@IsPlace.below before) (x := x ++ y) (i := i)
          (show after[i]? = some r by simpa using hr) hj
        have hoffset : offset (y :: after) (i + 1) j = y.length + 1 + offset after i j := by
          rw [offset, List.take_succ_cons, List.map_cons, List.sum_cons, offset]
          omega
        rw [placeAfterJoin, if_neg (by omega), if_pos (by omega), afterDeletion, if_neg (by omega)]
        convert hbelow using 1
        · omega
        · rw [hoffset, List.length_append]
          omega

theorem lines_split (hline : (lines b)[ld]? = some x) :
    lines b = (lines b).take ld ++ x :: (lines b).drop (ld + 1) ∧
      ((lines b).take ld).length = ld := by
  obtain ⟨hlt, hget⟩ := List.getElem?_eq_some_iff.mp hline
  exact ⟨by rw [← hget, List.getElem_cons_drop, List.take_append_drop],
    List.length_take_of_le hlt.le⟩

theorem descriptors_split (hline : (lines b)[ld]? = some x) :
    ∃ before d after, b.lineDescList = before ++ d :: after ∧ before.length = ld ∧
      lineBytes b.chars d = x ∧ before.map (lineBytes b.chars) = (lines b).take ld ∧
      after.map (lineBytes b.chars) = (lines b).drop (ld + 1) := by
  obtain ⟨before, d, after, hlist, hld, hd⟩ := exists_middle hline
  refine ⟨before, d, after, hlist, hld, hd, ?_, ?_⟩
  · rw [lines, hlist, List.map_append, List.take_left' (by rw [List.length_map, hld])]
  · rw [lines, hlist, List.map_append, List.map_cons, ← List.singleton_append,
      ← List.append_assoc, List.drop_left' (by simp [hld])]

theorem owns_middle {before old after : List LineDesc} (hwf : WellFormed b)
    (hlist : b.lineDescList = before ++ old ++ after) : Owns False b.chars old := by
  have hperm : (before ++ old ++ after).Perm (old ++ (before ++ after)) := by
    rw [← List.append_assoc]
    exact List.perm_append_comm.append_right after
  have hall : Owns False b.chars (old ++ (before ++ after)) := by
    rw [WellFormed, hlist] at hwf
    exact hwf.perm hperm
  exact Owns.left hall

theorem insertSegment_places {line : Int} (h : insertSegment b ld line pos s = (.ok, b')) :
    Moves (placeAfterChars line pos s.length) b b' := by
  unfold insertSegment at h
  split at h
  · rename_i hs
    obtain ⟨-, rfl⟩ := Prod.mk.inj h
    have hsame : ∀ l p, placeAfterChars line pos s.length l p = (l, p) := by
      intro l p
      rw [hs, placeAfterChars]
      split
      · simp
      · rfl
    exact ⟨rfl, rfl, fun _ => (hsame _ _).symm, fun i _ => (hsame _ _).symm⟩
  split at h
  · exact absurd (Prod.mk.inj h).1 (by decide)
  split at h
  · exact absurd (Prod.mk.inj h).1 (by decide)
  · obtain ⟨-, rfl⟩ := Prod.mk.inj h
    exact (moves_movePlaces _ _).congr_left ⟨rfl, rfl, rfl, rfl, rfl⟩

theorem insertBreak_places {line : Int} (h : insertBreak b ld line pos len = (.ok, b')) :
    Moves (placeAfterBreak line pos len) b b' := by
  unfold insertBreak at h
  split at h
  · exact absurd (Prod.mk.inj h).1 (by decide)
  dsimp only at h
  split at h
  · obtain ⟨-, rfl⟩ := Prod.mk.inj h
    exact (moves_movePlaces _ _).congr_left ⟨rfl, rfl, rfl, rfl, rfl⟩
  · exact absurd (Prod.mk.inj h).1 (by decide)

theorem insertSegment_moves {line : Int} (hwf : WellFormed b) (hline : (lines b)[ld]? = some x)
    (hpos : pos ≤ x.length) (hne : 0 ∉ s) (h : insertSegment b ld line pos s = (.ok, b')) :
    WellFormed b' ∧
      lines b' = (lines b).take ld ++ (x.take pos ++ s ++ x.drop pos) :: (lines b).drop (ld + 1) ∧
      Moves (placeAfterChars line pos s.length) b b' := by
  obtain ⟨before, d, after, hlist, hld, rfl, hbefore, hafter⟩ := descriptors_split hline
  have hown : Owns False b.chars [d] := owns_middle hwf (hlist.trans (List.append_cons _ _ _))
  have hlength : (lineBytes b.chars d).length = d.lineLen :=
    lineBytes_length (hown.null d (List.mem_singleton_self _))
  obtain ⟨d', hlist', -, hstep, hok⟩ := insertSegment_spec hlist hld hown (hlength ▸ hpos)
    (fun x hx hzero => hne (hzero ▸ hx)) h
  obtain ⟨hwf', hlines'⟩ := lines_of_exchanges before after hwf (by simpa using hlist)
    (by simpa using hlist') (hstep False)
  refine ⟨hwf', ?_, insertSegment_places h⟩
  rw [hlines', hbefore, hafter, List.map_singleton, (hok rfl).2]
  rfl

theorem insertBreak_moves {line : Int} (hwf : WellFormed b) (hline : (lines b)[ld]? = some x)
    (hpos : pos + len ≤ x.length) (h : insertBreak b ld line pos len = (.ok, b')) :
    WellFormed b' ∧
      lines b' = (lines b).take ld ++
        x.take (pos + len) :: x.drop (pos + len) :: (lines b).drop (ld + 1) ∧
      Moves (placeAfterBreak line pos len) b b' := by
  obtain ⟨before, d, after, hlist, hld, rfl, hbefore, hafter⟩ := descriptors_split hline
  have hown : Owns False b.chars [d] := owns_middle hwf (hlist.trans (List.append_cons _ _ _))
  have hlength : (lineBytes b.chars d).length = d.lineLen :=
    lineBytes_length (hown.null d (List.mem_singleton_self _))
  rcases insertBreak_spec hlist hld hown (hlength ▸ hpos) h with
    ⟨hnot, -⟩ | ⟨-, head, tail, hlist', -, hstep, hhead, htail⟩
  · exact absurd rfl hnot
  obtain ⟨hwf', hlines'⟩ := (@lines_of_exchanges _ _ before after _ [head, tail]) hwf
    (by simpa using hlist) (by simpa using hlist') (hstep False)
  refine ⟨hwf', ?_, insertBreak_places h⟩
  rw [hlines', hbefore, hafter, List.map_cons, List.map_singleton, hhead, htail]
  rfl

theorem insertLine_follows (hwf : WellFormed b) (hline : (lines b)[ld]? = some x)
    (hpos : pos ≤ x.length) (hne : 0 ∉ s) (hseg : insertSegment b ld ld pos s = (.ok, b'))
    (hbreak : insertBreak b' ld ld pos s.length = (.ok, b'')) :
    WellFormed b'' ∧
      lines b'' = (lines b).take ld ++ (x.take pos ++ s) :: x.drop pos :: (lines b).drop (ld + 1) ∧
      Follows (afterInsertion (offset (lines b) ld pos) (s.length + 1)) b b'' := by
  obtain ⟨hsplit, hld⟩ := lines_split hline
  obtain ⟨hwf', hlines', hmoves'⟩ := insertSegment_moves hwf hline hpos hne hseg
  have hhead : (x.take pos ++ s).length = pos + s.length := by
    rw [List.length_append, List.length_take, Nat.min_eq_left hpos]
  have hline' : (lines b')[ld]? = some (x.take pos ++ s ++ x.drop pos) := by
    rw [hlines', List.getElem?_append_right hld.le, hld, Nat.sub_self]
    rfl
  have hbefore : (lines b').take ld = (lines b).take ld := by
    rw [hlines', List.take_left' hld]
  have hafter : (lines b').drop (ld + 1) = (lines b).drop (ld + 1) := by
    rw [hlines', ← List.drop_drop, List.drop_left' hld, List.drop_one, List.tail_cons]
  obtain ⟨hwf'', hlines'', hmoves''⟩ := insertBreak_moves hwf' hline'
    (by rw [List.length_append, hhead]; exact Nat.le_add_right _ _) hbreak
  rw [hbefore, hafter, List.take_left' hhead, List.drop_left' hhead] at hlines''
  refine ⟨hwf'', hlines'', follows_of_moves (hmoves'.trans hmoves'') fun l p off hplace => ?_⟩
  rw [hsplit] at hplace
  have hmoved := isPlace_break (s := s) hpos hplace
  rw [hld] at hmoved
  have hoffset : offset (lines b) ld pos = startOf ((lines b).take ld) + pos := by
    rw [offset, startOf, textBefore_length]
  rw [hlines'', hoffset]
  exact hmoved

theorem offset_next (hline : (lines b)[ld]? = some x) (hpos : pos ≤ x.length)
    (hlines : lines b' = (lines b).take ld ++ (x.take pos ++ s) :: after) :
    offset (lines b') (ld + 1) 0 = offset (lines b) ld pos + (s.length + 1) := by
  obtain ⟨-, hld⟩ := lines_split hline
  have hbelow := (@offset_below ((lines b).take ld)) (x := x.take pos ++ s) after 0 0
  rw [hld] at hbelow
  have hstart : offset (lines b) ld pos = startOf ((lines b).take ld) + pos := by
    rw [offset, startOf, textBefore_length]
  have hnone : offset after 0 0 = 0 := rfl
  rw [hlines, hbelow, hstart, hnone, List.length_append, List.length_take, Nat.min_eq_left hpos]
  omega

/-- The places follow the strings of a stream and the line breaks between them. -/
theorem insertSegments_follows {segs : List (List Byte)} (hwf : WellFormed b)
    (hline : (lines b)[ld]? = some x) (hpos : pos ≤ x.length) (hsegs : segs ≠ [])
    (hne : ∀ s ∈ segs, 0 ∉ s) (h : insertSegments b ld ld pos segs = (.ok, b')) :
    Follows (afterInsertion (offset (lines b) ld pos) (text 0 segs).length) b b' := by
  induction segs generalizing b ld pos x with
  | nil => exact absurd rfl hsegs
  | cons s rest ih =>
      have hs : 0 ∉ s := hne s List.mem_cons_self
      cases rest with
      | nil =>
          obtain ⟨hsplit, hld⟩ := lines_split hline
          have hoffset : offset (lines b) ld pos = startOf ((lines b).take ld) + pos := by
            rw [offset, startOf, textBefore_length]
          obtain ⟨-, hlines', hmoves⟩ := insertSegment_moves hwf hline hpos hs h
          refine follows_of_moves hmoves fun l p off hplace => ?_
          rw [text_singleton, hoffset, hlines']
          rw [hsplit] at hplace
          have hmoved := isPlace_chars (s := s) hpos hplace
          rwa [hld] at hmoved
      | cons next rest =>
          simp only [insertSegments] at h
          split at h
          · rename_i b₁ hseg
            split at h
            · rename_i b₂ hbreak
              obtain ⟨hwf₂, hlines₂, hfirst⟩ :=
                insertLine_follows hwf hline hpos hs hseg hbreak
              have hline₂ : (lines b₂)[ld + 1]? = some (x.drop pos) := by
                obtain ⟨-, hld⟩ := lines_split hline
                rw [hlines₂, List.getElem?_append_right (by omega), hld, Nat.add_sub_cancel_left]
                rfl
              have hrest := ih hwf₂ hline₂ (Nat.zero_le _)
                (List.cons_ne_nil _ _) (fun r hr => hne r (List.mem_cons_of_mem _ hr)) h
              rw [offset_next hline hpos hlines₂] at hrest
              have htext : (text 0 (s :: next :: rest)).length =
                  s.length + (1 + (text 0 (next :: rest)).length) := by
                rw [text_cons, text_cons, textAfter_cons, List.length_append, List.length_cons,
                  Nat.add_comm 1]
              have hboth : afterInsertion (offset (lines b) ld pos)
                  (text 0 (s :: next :: rest)).length =
                  afterInsertion (offset (lines b) ld pos + (s.length + 1))
                    (text 0 (next :: rest)).length ∘
                    afterInsertion (offset (lines b) ld pos) (s.length + 1) := by
                funext off
                rw [htext, Function.comp_apply]
                unfold afterInsertion
                split_ifs <;> omega
              rw [hboth]
              exact hfirst.trans hrest
            · rename_i hfail
              exact absurd h (hfail _)
          · rename_i hfail
            exact absurd h (hfail _)

theorem addUndoStep_places {line k : Int} (h : addUndoStep b line p k = (status, b')) :
    SamePlaces b b' ∧ (WellFormed b → WellFormed b') ∧ lines b' = lines b := by
  obtain ⟨answers, hchars, hlist, -⟩ := addUndoStep_spec h
  have hlines : lines b' = lines b := by rw [lines, lines, hlist, hchars]; rfl
  have hrefused : Exchanges (Owns False) lineBytes b.chars [] b'.chars [] :=
    hchars ▸ answers_exchanges answers
  refine ⟨?_, fun hwf => ?_, hlines⟩
  · unfold addUndoStep at h
    obtain ⟨-, rfl⟩ := Prod.mk.inj h
    exact ⟨rfl, rfl, rfl, rfl, rfl⟩
  · rw [WellFormed, hlist]
    exact hrefused.inv _ hwf

theorem Follows.congr_left (h : Follows φ b' b'') (hsame : SamePlaces b b')
    (hlines : lines b' = lines b) : Follows φ b b'' where
  marking := h.marking.trans hsame.marking
  mask := h.mask.trans hsame.mask
  mark off hset hplace := by
    rw [← hlines, ← hsame.line, ← hsame.pos] at hplace
    exact h.mark off (hsame.marking ▸ hset) hplace
  bookmarks i off hset hplace := by
    rw [← hlines, ← hsame.bookmark] at hplace
    exact h.bookmarks i off (hsame.mask ▸ hset) hplace

theorem insertStream_follows {stream : List Byte} (hwf : WellFormed b)
    (hline : (lines b)[ld]? = some x) (hpos : pos ≤ x.length)
    (h : insertStream b ld ld pos stream = (.ok, b')) :
    Follows (afterInsertion (offset (lines b) ld pos) stream.length) b b' := by
  have hsegments : ∀ b₀ : Buffer, WellFormed b₀ → lines b₀ = lines b →
      insertSegments b₀ ld ld pos (stream.splitOn 0) = (.ok, b') →
      Follows (afterInsertion (offset (lines b) ld pos) stream.length) b₀ b' := by
    intro b₀ hwf₀ hlines₀ h₀
    have hfollows := insertSegments_follows hwf₀ (hlines₀ ▸ hline) hpos
      (List.splitOn_ne_nil 0 stream) (fun s hs => not_mem_of_mem_splitOn 0 hs) h₀
    rwa [hlines₀, text_splitOn] at hfollows
  unfold insertStream at h
  split at h
  · exact absurd (Prod.mk.inj h).1 (by decide)
  split at h
  · exact absurd (Prod.mk.inj h).1 (by decide)
  split at h
  · split at h
    · rename_i b₁ hundo
      obtain ⟨hsame, hwf₁, hlines₁⟩ := addUndoStep_places hundo
      exact (hsegments b₁ (hwf₁ hwf) hlines₁ h).congr_left hsame hlines₁
    · rename_i hfail
      exact absurd h (hfail _)
  · exact hsegments b hwf rfl h

theorem recordDeleted_places (b : Buffer) (s : List Byte) : SamePlaces b (recordDeleted b s) := by
  obtain ⟨answers, undo, h⟩ := recordDeleted_frame b s
  rw [h]
  exact ⟨rfl, rfl, rfl, rfl, rfl⟩

/-- A turn of the loop of `delete_stream` at line `ld` has left line `d'` there, and the
places have followed. -/
structure Turn (before : List LineDesc) (pos n : Nat) (b b' : Buffer) (d' : LineDesc)
    (after : List LineDesc) : Prop where
  list : b'.lineDescList = before ++ d' :: after
  wf : WellFormed b'
  pos_le : pos ≤ d'.lineLen
  offset : offset (lines b') before.length pos = offset (lines b) before.length pos
  follows : Follows (afterDeletion (LineText.offset (lines b) before.length pos) n) b b'

theorem deleteChars_turn {before after : List LineDesc} {d : LineDesc} (hwf : WellFormed b)
    (hlist : b.lineDescList = before ++ d :: after) (hn : 0 < n) (hpos : pos + n ≤ d.lineLen) :
    ∃ d', Turn before pos n b (deleteChars b before.length before.length pos d n) d' after := by
  have hown : Owns False b.chars [d] := owns_middle hwf (hlist.trans (List.append_cons _ _ _))
  have hlength : (lineBytes b.chars d).length = d.lineLen :=
    lineBytes_length (hown.null d (List.mem_singleton_self _))
  obtain ⟨d', hlist', hstep, hbytes, hlen, -⟩ :=
    (@deleteChars_spec _ _ _ _ (before.length)) hlist rfl hown hn hpos
  obtain ⟨hwf', hlines'⟩ := lines_of_exchanges before after hwf (by simpa using hlist)
    (by simpa using hlist') (hstep False)
  rw [List.map_singleton, hbytes, List.singleton_append] at hlines'
  have hlines : lines b = before.map (lineBytes b.chars) ++
      lineBytes b.chars d :: after.map (lineBytes b.chars) := by
    rw [lines, hlist, List.map_append, List.map_cons]
  have hmoves : Moves (placeAfterDelete before.length pos n) b
      (deleteChars b before.length before.length pos d n) := by
    refine (moves_movePlaces b _).congr_right ?_
    have hsame := recordDeleted_places (movePlaces b (placeAfterDelete before.length pos n))
      (((lineBytes b.chars d).drop pos).take n)
    exact ⟨hsame.marking, hsame.mask, hsame.line, hsame.pos, hsame.bookmark⟩
  refine ⟨d', hlist', hwf', by omega, by rw [hlines, hlines', offset_on_map, offset_on_map],
    follows_of_moves hmoves fun l p off hplace => ?_⟩
  rw [hlines] at hplace
  have hmoved := isPlace_delete (hlength ▸ hpos) hplace
  rw [List.length_map] at hmoved
  rw [hlines', hlines, offset_on_map]
  exact hmoved

theorem deleteBreak_turn {before after : List LineDesc} {d next : LineDesc}
    (hwf : WellFormed b) (hlist : b.lineDescList = before ++ d :: next :: after)
    (h : deleteBreak b before.length before.length d next = (.ok, b')) :
    ∃ d', Turn before d.lineLen 1 b b' d' after := by
  have hown : Owns False b.chars [d, next] := (@owns_middle _ before _ after) hwf
    (by simpa using hlist)
  have hlength : (lineBytes b.chars d).length = d.lineLen :=
    lineBytes_length (hown.null d List.mem_cons_self)
  rcases deleteBreak_spec hlist rfl hown h with
    ⟨hnot, -⟩ | ⟨-, d', hlist', hstep, hbytes, -⟩
  · exact absurd rfl hnot
  obtain ⟨hwf', hlines'⟩ := lines_of_exchanges before after hwf (by simpa using hlist)
    (by simpa using hlist') (hstep False)
  have hlen : d'.lineLen = (lineBytes b.chars d ++ lineBytes b.chars next).length := by
    have hown' : Owns False b'.chars [d'] :=
      owns_middle hwf' (hlist'.trans (List.append_cons _ _ _))
    rw [← hbytes, lineBytes_length (hown'.null d' (List.mem_singleton_self _))]
  rw [List.length_append] at hlen
  rw [List.map_singleton, hbytes, List.singleton_append] at hlines'
  have hlines : lines b = before.map (lineBytes b.chars) ++
      lineBytes b.chars d :: lineBytes b.chars next :: after.map (lineBytes b.chars) := by
    rw [lines, hlist, List.map_append, List.map_cons, List.map_cons]
  have hmoves : Moves (placeAfterJoin before.length d.lineLen) b b' := by
    unfold deleteBreak at h
    simp only at h
    split at h
    · exact absurd (Prod.mk.inj h).1 (by decide)
    · obtain ⟨-, rfl⟩ := Prod.mk.inj h
      refine (moves_movePlaces b _).congr_right ?_
      have hsame := fun b₀ => recordDeleted_places b₀ [0]
      exact ⟨(hsame _).marking, (hsame _).mask, (hsame _).line, (hsame _).pos, (hsame _).bookmark⟩
  refine ⟨d', hlist', hwf', by omega, by rw [hlines, hlines', offset_on_map, offset_on_map],
    follows_of_moves hmoves fun l p off hplace => ?_⟩
  rw [hlines] at hplace
  have hmoved := isPlace_join hplace
  rw [List.length_map, hlength] at hmoved
  rw [hlines', hlines, offset_on_map]
  exact hmoved

theorem Turn.trans {before after after' : List LineDesc} {d d' : LineDesc} {m : Nat}
    (first : Turn before pos n b b' d after) (second : Turn before pos m b' b'' d' after') :
    Turn before pos (n + m) b b'' d' after' where
  list := second.list
  wf := second.wf
  pos_le := second.pos_le
  offset := second.offset.trans first.offset
  follows := by
    have hfollows := second.follows
    rw [first.offset] at hfollows
    have hboth : afterDeletion (LineText.offset (lines b) before.length pos) (n + m) =
        afterDeletion (LineText.offset (lines b) before.length pos) m ∘
          afterDeletion (LineText.offset (lines b) before.length pos) n := by
      funext off
      rw [Function.comp_apply]
      unfold afterDeletion
      split_ifs <;> omega
    rw [hboth]
    exact first.follows.trans hfollows

theorem follows_self (h : ∀ l p off, IsPlace (lines b) l p off → φ off = off) :
    Follows φ b b where
  marking := rfl
  mask := rfl
  mark off _ hplace := by rwa [h _ _ off hplace]
  bookmarks i off _ hplace := by rwa [h _ _ off hplace]

theorem Turn.stop {before after : List LineDesc} {d : LineDesc} (hwf : WellFormed b)
    (hlist : b.lineDescList = before ++ d :: after) (hpos : pos ≤ d.lineLen)
    (hend : n = 0 ∨ (after = [] ∧ pos = d.lineLen)) : Turn before pos n b b d after where
  list := hlist
  wf := hwf
  pos_le := hpos
  offset := rfl
  follows := by
    refine follows_self fun l p off hplace => ?_
    rcases hend with rfl | ⟨rfl, rfl⟩
    · unfold afterDeletion
      split
      · rfl
      · omega
    have hown : Owns False b.chars [d] := owns_middle hwf (hlist.trans (List.append_cons _ _ _))
    have hlength : (lineBytes b.chars d).length = d.lineLen :=
      lineBytes_length (hown.null d (List.mem_singleton_self _))
    have hlines : lines b = before.map (lineBytes b.chars) ++ [lineBytes b.chars d] := by
      rw [lines, hlist, List.map_append, List.map_singleton]
    rw [hlines, offset_on_map]
    rw [hlines] at hplace
    rcases hplace.cases_line with ⟨i, j, r, hr, hj, rfl, rfl, rfl⟩ | ⟨j, hj, rfl, rfl, rfl⟩ |
        ⟨i, j, r, hr, -⟩
    · have hlt := offset_above_lt hr hj
      rw [afterDeletion, if_pos (by omega)]
    · rw [afterDeletion, if_pos (by omega)]
    · simp at hr

/-- The places follow the loop of `delete_stream`. -/
theorem deleteLoop_turn {turns len left : Nat} {before after : List LineDesc} {d : LineDesc}
    (hwf : WellFormed b) (hlist : b.lineDescList = before ++ d :: after) (hpos : pos ≤ d.lineLen)
    (hturns : len ≤ turns)
    (h : deleteLoop before.length before.length pos turns len b = (.ok, left, b')) :
    ∃ d' after', Turn before pos len b b' d' after' := by
  induction turns generalizing b d after len with
  | zero =>
      obtain ⟨-, -, rfl⟩ : Status.ok = .ok ∧ len = left ∧ b = b' := by simpa [deleteLoop] using h
      exact ⟨d, after, Turn.stop hwf hlist hpos (Or.inl (by omega))⟩
  | succ turns ih =>
      simp only [deleteLoop, hlist, getElem?_middle rfl] at h
      split at h
      · rename_i hzero
        obtain ⟨-, rfl⟩ : 0 = left ∧ b = b' := by simpa using h
        exact ⟨d, after, Turn.stop hwf hlist hpos (Or.inl hzero)⟩
      rename_i hlen
      split at h
      · -- We are on the end of the line.
        rename_i hend
        subst hend
        cases after with
        | nil =>
            rw [List.getElem?_eq_none (by simp)] at h
            obtain ⟨-, rfl⟩ : len = left ∧ b = b' := by simpa using h
            exact ⟨d, [], Turn.stop hwf hlist hpos (Or.inr ⟨rfl, rfl⟩)⟩
        | cons next after =>
            have hsome : (before ++ d :: next :: after)[before.length + 1]? = some next := by simp
            rw [hsome] at h
            simp only at h
            split at h
            · rename_i b₁ hbreak
              obtain ⟨d₁, hturn⟩ := deleteBreak_turn hwf hlist hbreak
              obtain ⟨d', after', hrest⟩ := ih hturn.wf hturn.list hturn.pos_le (by omega) h
              have hboth := hturn.trans hrest
              rw [show 1 + (len - 1) = len by omega] at hboth
              exact ⟨d', after', hboth⟩
            · rename_i failed b₁ hnot hbreak
              exact absurd (Prod.mk.inj h).1 hnot
      · -- We are inside the line.
        rename_i hinside
        obtain ⟨d₁, hturn⟩ := (@deleteChars_turn _ pos) (n := min len (d.lineLen - pos)) hwf hlist
          (by omega) (by omega)
        obtain ⟨d', after', hrest⟩ := ih hturn.wf hturn.list hturn.pos_le (by omega) h
        have hboth := hturn.trans hrest
        rw [Nat.add_sub_cancel' (Nat.min_le_left _ _)] at hboth
        exact ⟨d', after', hboth⟩

theorem deleteStream_follows (hwf : WellFormed b) (hline : (lines b)[ld]? = some x)
    (hpos : pos ≤ x.length) (h : deleteStream b ld ld pos len = (.ok, b')) :
    Follows (afterDeletion (offset (lines b) ld pos) len) b b' := by
  obtain ⟨before, d, after, hlist, rfl, rfl, -⟩ := descriptors_split hline
  have hloop : ∀ (b₀ b₁ : Buffer) (status : Status) (left : Nat), WellFormed b₀ →
      b₀.lineDescList = b.lineDescList → lines b₀ = lines b → status = .ok →
      deleteLoop before.length before.length pos len len b₀ = (status, left, b₁) →
      Follows (afterDeletion (offset (lines b) before.length pos) len) b₀ b₁ := by
    intro b₀ b₁ status left hwf₀ hlist₀ hlines₀ hok h₀
    have hown : Owns False b.chars [d] := owns_middle hwf (hlist.trans (List.append_cons _ _ _))
    have hlength : (lineBytes b.chars d).length = d.lineLen :=
      lineBytes_length (hown.null d (List.mem_singleton_self _))
    obtain ⟨d', after', hturn⟩ := deleteLoop_turn hwf₀ (hlist₀.trans hlist) (hlength ▸ hpos) le_rfl
      (hok ▸ h₀)
    have hfollows := hturn.follows
    rwa [hlines₀] at hfollows
  simp only [deleteStream, hlist, getElem?_middle rfl] at h
  split at h
  · exact absurd (Prod.mk.inj h).1 (by decide)
  split at h
  · split at h
    · rename_i b₁ hundo
      obtain ⟨hsame, hwf₁, hlines₁⟩ := addUndoStep_places hundo
      obtain ⟨answers, -, hlist₁, -⟩ := addUndoStep_spec hundo
      obtain ⟨hok, rfl⟩ := Prod.mk.inj h
      have hfollows := hloop b₁ _ _ _ (hwf₁ hwf) hlist₁ hlines₁ hok rfl
      have hstart := hfollows.congr_left hsame hlines₁
      exact ⟨hstart.marking, hstart.mask, hstart.mark, hstart.bookmarks⟩
    · rename_i hfail
      exact absurd h (hfail _)
  · obtain ⟨hok, rfl⟩ := Prod.mk.inj h
    exact hloop b _ _ _ hwf rfl rfl hok rfl

/-- A stream inserted into the text, or a stretch of it deleted, at a place with the offset
`o`, and where the places go. -/
inductive TextEdit (b : Buffer) : (Nat → Nat) → Buffer → Prop where
  | insert (ld pos o : Nat) (stream : List Byte) (b' : Buffer)
      (hplace : IsPlace (lines b) ld pos o)
      (hedit : insertStream b ld ld pos stream = (.ok, b')) :
      TextEdit b (afterInsertion o stream.length) b'
  | delete (ld pos o len : Nat) (b' : Buffer) (hplace : IsPlace (lines b) ld pos o)
      (hedit : deleteStream b ld ld pos len = (.ok, b')) :
      TextEdit b (afterDeletion o len) b'

/-- The mark and the bookmarks keep track of the text, whatever is inserted or deleted and
wherever they are. -/
theorem follows_of_edit (hwf : WellFormed b) (h : TextEdit b φ b') : Follows φ b b' := by
  cases h with
  | insert ld pos o stream b' hplace hedit =>
      obtain ⟨i, j, s, hi, hj, hs, hle, rfl⟩ := hplace
      obtain rfl := Int.ofNat.inj hi
      obtain rfl := Int.ofNat.inj hj
      exact insertStream_follows hwf hs hle hedit
  | delete ld pos o len b' hplace hedit =>
      obtain ⟨i, j, s, hi, hj, hs, hle, rfl⟩ := hplace
      obtain rfl := Int.ofNat.inj hi
      obtain rfl := Int.ofNat.inj hj
      exact deleteStream_follows hwf hs hle hedit

/-- Two lines, with the mark at the end of the second one. -/
def markedLines : Buffer :=
  { (insertStream (newBuffer false none fun _ => true) 0 0 0 [97, 0, 98]).2 with
    marking := true
    blockStartLine := 1
    blockStartPos := 1 }

/-- The line break before the mark is deleted. -/
theorem follows_of_edit_markedLines :
    Follows (afterDeletion 1 1) markedLines (deleteStream markedLines 0 0 1 1).2 := by
  have hempty : WellFormed (newBuffer false none fun _ => true) := (owns_clearBuffer _).weaken
  have hinsert : insertStream (newBuffer false none fun _ => true) 0 0 0 [97, 0, 98] =
      (.ok, (insertStream (newBuffer false none fun _ => true) 0 0 0 [97, 0, 98]).2) :=
    Prod.ext (by decide) rfl
  have hwf : WellFormed markedLines :=
    (insertStream_refines hempty (l := []) rfl (Nat.le_refl 0) hinsert).1
  have hdelete : deleteStream markedLines 0 0 1 1 = (.ok, (deleteStream markedLines 0 0 1 1).2) :=
    Prod.ext (by decide) rfl
  have hlines : lines markedLines = [[97], [98]] := by decide
  exact follows_of_edit hwf (TextEdit.delete 0 1 1 1 _
    ⟨0, 1, [97], rfl, rfl, by rw [hlines]; rfl, by decide, by rw [hlines]; rfl⟩ hdelete)

end NiceEditor.Places
