import Mathlib.Data.List.Pairwise
import NiceEditor.Characters
import NiceEditor.ClipRoundTrip
import NiceEditor.Places

namespace NiceEditor.PasteBookmarks

open NiceEditor.Cells
open NiceEditor.Pools
open NiceEditor.PoolOwnership
open NiceEditor.LineEdits
open NiceEditor.BufferData
open NiceEditor.Load
open NiceEditor.Encoding
open NiceEditor.UndoSteps
open NiceEditor.EditStream
open NiceEditor.LineText
open NiceEditor.InsertRefinement
open NiceEditor.Navigation
open NiceEditor.Undo
open NiceEditor.Cursor
open NiceEditor.EditFrames
open NiceEditor.EditSteps
open NiceEditor.UndoRuns
open NiceEditor.Clips
open NiceEditor.ClipBlocks
open NiceEditor.ClipRoundTrip
open NiceEditor.CharacterRows
open NiceEditor.InputRows
open NiceEditor.Characters
open NiceEditor.Places

/-- The encoding of a buffer in which a clip is pasted. -/
def pasteEncoding (b : Buffer) (cs : CharStream) : EncodingType :=
  if b.encoding = .ascii then cs.encoding else b.encoding

/-- PASTE_START is the place where the inserted text `s` begins, the cursor, and PASTE_END the one
right behind its last character. -/
structure Delimits (b b' : Buffer) (s : List Byte) : Prop where
  set : b'.bookmarkMask.testBit pasteStartBookmark = true ∧
    b'.bookmarkMask.testBit pasteEndBookmark = true
  cursor : (b'.bookmark pasteStartBookmark).line = b.curLine ∧
    (b'.bookmark pasteStartBookmark).pos = b.curPos
  between : ∃ front rest, bufferText b' = front ++ s ++ rest ∧
    IsPlace (lines b') (b'.bookmark pasteStartBookmark).line
      (b'.bookmark pasteStartBookmark).pos front.length ∧
    IsPlace (lines b') (b'.bookmark pasteEndBookmark).line
      (b'.bookmark pasteEndBookmark).pos (front ++ s).length

/-- The position, on the last line, where a stream ends that has been inserted at `pos`. -/
def endPos (pos : Nat) : List (List Byte) → Nat
  | [] => pos
  | [s] => pos + s.length
  | _ :: next :: rest => endPos 0 (next :: rest)

variable {b b' : Buffer} {i ld pos j : Nat} {line : Int} {s l : List Byte}
variable {segs : List (List Byte)} {before after : List (List Byte)}

/-- A bookmark behind the place of an insertion stays as far behind its end. -/
theorem insertSegments_behind (hset : b.bookmarkMask.testBit i = true) (hj : 0 < j)
    (hplace : (b.bookmark i).line = line ∧ (b.bookmark i).pos = (pos + j : Nat))
    (hsegs : segs ≠ []) (h : insertSegments b ld line pos segs = (.ok, b')) :
    b'.bookmarkMask = b.bookmarkMask ∧
      (b'.bookmark i).line = line + (segs.length - 1 : Nat) ∧
      (b'.bookmark i).pos = (endPos pos segs + j : Nat) := by
  induction segs generalizing b ld line pos with
  | nil => exact absurd rfl hsegs
  | cons s rest ih =>
      have hchars : ∀ b₁, insertSegment b ld line pos s = (.ok, b₁) →
          b₁.bookmarkMask = b.bookmarkMask ∧ (b₁.bookmark i).line = line ∧
            (b₁.bookmark i).pos = (pos + s.length + j : Nat) := by
        intro b₁ hseg
        have hmoves := insertSegment_places hseg
        have hmoved := hmoves.bookmarks i hset
        rw [hplace.1, hplace.2, placeAfterChars, if_pos ⟨rfl, by omega⟩] at hmoved
        obtain ⟨hline, hpos⟩ := Prod.mk.inj hmoved
        exact ⟨hmoves.mask, hline, by rw [hpos]; push_cast; omega⟩
      cases rest with
      | nil =>
          obtain ⟨hmask, hline, hpos⟩ := hchars b' h
          exact ⟨hmask, by simpa using hline, hpos⟩
      | cons next rest =>
          simp only [insertSegments] at h
          split at h
          · rename_i b₁ hseg
            obtain ⟨hmask, hline, hpos⟩ := hchars b₁ hseg
            split at h
            · rename_i b₂ hbreak
              have hmoves := insertBreak_places hbreak
              have hmoved := hmoves.bookmarks i (hmask ▸ hset)
              rw [hline, hpos, placeAfterBreak, if_pos ⟨rfl, by omega⟩] at hmoved
              obtain ⟨hline₂, hpos₂⟩ := Prod.mk.inj hmoved
              have hmask₂ := hmoves.mask.trans hmask
              obtain ⟨hmask', hline', hpos'⟩ := ih (hmask₂ ▸ hset)
                ⟨hline₂, by rw [hpos₂]; push_cast; omega⟩ (List.cons_ne_nil _ _) h
              refine ⟨hmask'.trans hmask₂, ?_, hpos'⟩
              rw [hline']
              simp only [List.length_cons]
              omega
            · rename_i hfail
              exact absurd h (hfail _)
          · rename_i hfail
            exact absurd h (hfail _)

theorem insertSegments_stays (hset : b.bookmarkMask.testBit i = true)
    (hplace : (b.bookmark i).line < line ∨ (b.bookmark i).line = line ∧ (b.bookmark i).pos ≤ pos)
    (h : insertSegments b ld line pos segs = (.ok, b')) :
    (b'.bookmark i).line = (b.bookmark i).line ∧ (b'.bookmark i).pos = (b.bookmark i).pos := by
  induction segs generalizing b ld line pos with
  | nil =>
      obtain ⟨-, rfl⟩ := Prod.mk.inj h
      exact ⟨rfl, rfl⟩
  | cons s rest ih =>
      have hchars : ∀ b₁, insertSegment b ld line pos s = (.ok, b₁) →
          b₁.bookmarkMask = b.bookmarkMask ∧ (b₁.bookmark i).line = (b.bookmark i).line ∧
            (b₁.bookmark i).pos = (b.bookmark i).pos := by
        intro b₁ hseg
        have hmoves := insertSegment_places hseg
        have hmoved := hmoves.bookmarks i hset
        rw [placeAfterChars, if_neg (by omega)] at hmoved
        exact ⟨hmoves.mask, (Prod.mk.inj hmoved).1, (Prod.mk.inj hmoved).2⟩
      cases rest with
      | nil => exact (hchars b' h).2
      | cons next rest =>
          simp only [insertSegments] at h
          split at h
          · rename_i b₁ hseg
            obtain ⟨hmask, hline, hpos⟩ := hchars b₁ hseg
            split at h
            · rename_i b₂ hbreak
              have hmoves := insertBreak_places hbreak
              have hmoved := hmoves.bookmarks i (hmask ▸ hset)
              rw [hline, hpos, placeAfterBreak, if_neg (by omega), if_neg (by omega)] at hmoved
              obtain ⟨hline₂, hpos₂⟩ := Prod.mk.inj hmoved
              obtain ⟨hline', hpos'⟩ := ih (by rw [hmoves.mask, hmask]; exact hset)
                (.inl (by omega)) h
              exact ⟨hline'.trans hline₂, hpos'.trans hpos₂⟩
            · rename_i hfail
              exact absurd h (hfail _)
          · rename_i hfail
            exact absurd h (hfail _)

theorem insertStream_segments (h : insertStream b ld line pos s = (.ok, b')) :
    ∃ b₀, SamePlaces b b₀ ∧ insertSegments b₀ ld line pos (s.splitOn 0) = (.ok, b') := by
  unfold insertStream at h
  split at h
  · exact absurd (Prod.mk.inj h).1 (by decide)
  split at h
  · exact absurd (Prod.mk.inj h).1 (by decide)
  split at h
  · split at h
    · rename_i b₁ hundo
      exact ⟨b₁, (addUndoStep_places hundo).1, h⟩
    · rename_i hfail
      exact absurd h (hfail _)
  · exact ⟨b, ⟨rfl, rfl, rfl, rfl, rfl⟩, h⟩

theorem insertStream_behind (hset : b.bookmarkMask.testBit i = true) (hj : 0 < j)
    (hplace : (b.bookmark i).line = line ∧ (b.bookmark i).pos = (pos + j : Nat))
    (h : insertStream b ld line pos s = (.ok, b')) :
    b'.bookmarkMask = b.bookmarkMask ∧ (b'.bookmark i).line = line + s.count 0 ∧
      (b'.bookmark i).pos = (endPos pos (s.splitOn 0) + j : Nat) := by
  obtain ⟨b₀, hsame, hsegs⟩ := insertStream_segments h
  rw [← hsame.mask] at hset
  rw [← hsame.bookmark] at hplace
  obtain ⟨hmask, hline, hpos⟩ :=
    insertSegments_behind hset hj hplace (List.splitOn_ne_nil 0 s) hsegs
  refine ⟨hmask.trans hsame.mask, ?_, hpos⟩
  rw [hline, splitOn_length, Nat.add_sub_cancel]

theorem insertStream_stays (hset : b.bookmarkMask.testBit i = true)
    (hplace : (b.bookmark i).line = line ∧ (b.bookmark i).pos = pos)
    (h : insertStream b ld line pos s = (.ok, b')) :
    (b'.bookmark i).line = line ∧ (b'.bookmark i).pos = pos := by
  obtain ⟨b₀, hsame, hsegs⟩ := insertStream_segments h
  rw [← hsame.mask] at hset
  rw [← hsame.bookmark] at hplace
  obtain ⟨hline, hpos⟩ := insertSegments_stays hset (.inr ⟨hplace.1, hplace.2.le⟩) hsegs
  exact ⟨hline.trans hplace.1, hpos.trans hplace.2⟩

theorem spliceLines_last {p q : List Byte} (hsegs : segs ≠ []) :
    ∃ init x, spliceLines p q segs = init ++ [x ++ q] ∧ init.length = segs.length - 1 ∧
      x.length = endPos p.length segs ∧
      startOf init + x.length = p.length + (text 0 segs).length := by
  induction segs generalizing p with
  | nil => exact absurd rfl hsegs
  | cons s rest ih =>
      cases rest with
      | nil =>
          refine ⟨[], p ++ s, rfl, rfl, List.length_append, ?_⟩
          rw [text_singleton, List.length_append, startOf, textBefore_nil, List.length_nil]
          omega
      | cons next rest =>
          obtain ⟨init, x, hlines, hinit, hx, hoffset⟩ := ih (p := []) (List.cons_ne_nil _ _)
          refine ⟨(p ++ s) :: init, x, ?_, ?_, hx, ?_⟩
          · rw [spliceLines, hlines, List.cons_append]
          · rw [List.length_cons, hinit]
            simp only [List.length_cons]
            omega
          · have hstart : startOf ((p ++ s) :: init) = (p ++ s).length + 1 + startOf init := by
              rw [startOf, startOf, textBefore_length, textBefore_length, List.map_cons,
                List.sum_cons]
            have htext : (text 0 (s :: next :: rest)).length =
                s.length + (1 + (text 0 (next :: rest)).length) := by
              rw [text_cons, text_cons, textAfter_cons, List.length_append, List.length_cons,
                Nat.add_comm 1]
            rw [List.length_nil] at hoffset
            rw [hstart, htext, List.length_append]
            omega

theorem exists_endLine {front rest : List Byte} (hwf : WellFormed b)
    (hline : (lines b)[ld]? = some (front ++ rest))
    (h : insertStream b ld line front.length s = (.ok, b')) :
    ∃ x, (lines b')[ld + s.count 0]? = some (x ++ rest) ∧
      x.length = endPos front.length (s.splitOn 0) ∧
      IsPlace (lines b') (ld + s.count 0 : Nat) x.length
        (offset (lines b) ld front.length + s.length) := by
  obtain ⟨-, -, before, after, rfl, hlines, hlines'⟩ := insertStream_lines hwf hline h
  rw [List.take_left, List.drop_left] at hlines'
  obtain ⟨init, x, hsplice, hinit, hx, hoffset⟩ :=
    spliceLines_last (p := front) (q := rest) (List.splitOn_ne_nil 0 s)
  rw [splitOn_length, Nat.add_sub_cancel] at hinit
  have hall : lines b' = (before ++ init) ++ (x ++ rest) :: after := by
    rw [hlines', hsplice]
    simp
  have hlength : (before ++ init).length = before.length + s.count 0 := by
    rw [List.length_append, hinit]
  refine ⟨x, ?_, hx, ?_⟩
  · rw [hall, ← hlength, List.getElem?_append_right le_rfl, Nat.sub_self]
    rfl
  · have hplace := @IsPlace.on (before ++ init) (x ++ rest) after x.length (by simp)
    rw [← hall, hlength] at hplace
    have hsame : startOf (before ++ init) + x.length =
        offset (lines b) before.length front.length + s.length := by
      rw [text_splitOn] at hoffset
      rw [hlines, offset_on, startOf, textBefore_append, List.length_append, ← startOf, ← startOf]
      omega
    rwa [hsame] at hplace

theorem exists_descriptor (hwf : WellFormed b) (hline : (lines b)[ld]? = some l) :
    ∃ d, b.lineDescList[ld]? = some d ∧ d ∈ b.lineDescList ∧ lineBytes b.chars d = l ∧
      d.lineLen = l.length ∧ (d.line = none ↔ l = []) := by
  rw [lines, List.getElem?_map, Option.map_eq_some_iff] at hline
  obtain ⟨d, hd, rfl⟩ := hline
  have hmem := List.mem_of_getElem? hd
  have hnull := hwf.null d hmem
  have hlength : (lineBytes b.chars d).length = d.lineLen := lineBytes_length hnull
  refine ⟨d, hd, hmem, rfl, hlength.symm, ?_⟩
  rw [hnull, ← hlength, List.length_eq_zero_iff]

variable {d : LineDesc} {p : Ptr} {behind : Nat → Nat → Byte}

theorem readByte_used (hown : Owns False b.chars b.lineDescList) (hmem : d ∈ b.lineDescList)
    (hp : d.line = some p) (hi : i < d.lineLen) :
    readByte behind b.chars p i = (lineBytes b.chars d).getD i 0 := by
  have hcov : Covers d p.block (p.off + i) := ⟨p.off, hp, by omega, by omega⟩
  obtain ⟨⟨c, hc, hpool, hlt⟩, -⟩ := hown.used d hmem _ _ hcov
  have hany : (b.chars.charPoolList.any fun c => c.pool = p.block ∧ p.off + i < c.size) = true :=
    List.any_eq_true.mpr ⟨c, hc, by simpa using ⟨hpool, hlt⟩⟩
  have hload : lineBytes b.chars d = readCells (b.chars.mem p.block) p.off d.lineLen := by
    rw [lineBytes, hp]
    rfl
  rw [readByte, if_pos hany, hload, List.getD_eq_getElem?_getD, readCells_getElem?, if_pos hi]
  rfl

theorem readByte_behind (hown : Owns True b.chars b.lineDescList) (hmem : d ∈ b.lineDescList)
    (hp : d.line = some p) :
    readByte behind b.chars p d.lineLen = 0 ∨
      (∃ off, readByte behind b.chars p d.lineLen = behind p.block off) ∨
      ∃ l ∈ lines b, l.head? = some (readByte behind b.chars p d.lineLen) := by
  by_cases hany : (b.chars.charPoolList.any fun c =>
      c.pool = p.block ∧ p.off + d.lineLen < c.size) = true
  · have hread : readByte behind b.chars p d.lineLen = b.chars.mem p.block (p.off + d.lineLen) := by
      rw [readByte, if_pos hany]
    rw [hread]
    by_cases hzero : b.chars.mem p.block (p.off + d.lineLen) = 0
    · exact .inl hzero
    · obtain ⟨c, hc, hin⟩ := List.any_eq_true.mp hany
      obtain ⟨hpool, hlt⟩ := of_decide_eq_true hin
      obtain ⟨d', hmem', off, hline, hlow, hhigh⟩ :=
        hown.all trivial p.block (p.off + d.lineLen) ⟨⟨c, hc, hpool, hlt⟩, hzero⟩
      have hpos : 0 < d.lineLen := by
        refine Nat.pos_of_ne_zero fun hempty => ?_
        rw [(hown.null d hmem).mpr hempty] at hp
        exact absurd hp (by simp)
      have hne : d ≠ d' := by
        rintro rfl
        have hsame := congrArg Ptr.off (Option.some.inj (hp.symm.trans hline))
        dsimp only at hsame
        omega
      -- the other line cannot begin before the end of this one
      have hfirst : off = p.off + d.lineLen := by
        by_contra hbefore
        have hsymm : Std.Symm PoolOwnership.Apart := ⟨fun _ _ => PoolOwnership.Apart.symm⟩
        have hapart := hown.apart.forall hmem hmem' hne
        exact hapart p.block (p.off + d.lineLen - 1) ⟨p.off, hp, by omega, by omega⟩
          ⟨off, hline, by omega, by omega⟩
      refine .inr (.inr ⟨lineBytes b.chars d', List.mem_map_of_mem hmem', ?_⟩)
      obtain ⟨n, hn⟩ : ∃ n, d'.lineLen = n + 1 := ⟨d'.lineLen - 1, by omega⟩
      rw [lineBytes, hline]
      dsimp only
      rw [load, hn, readCells, List.head?_cons, hfirst]
  · exact .inr (.inl ⟨_, by rw [readByte, if_neg hany]⟩)

theorem memoryOf_some (hd : b.lineDescList[ld]? = some d) (hp : d.line = some p) (n : Nat) :
    memoryOf behind b (some ld) n = (List.range n).map (readByte behind b.chars p) := by
  rw [memoryOf, Option.bind_some, hd, Option.bind_some, hp]

theorem memoryOf_take {n : Nat} (behind : Nat → Nat → Byte) (hwf : WellFormed b)
    (hline : (lines b)[ld]? = some l)
    (hn : n ≤ l.length) : memoryOf behind b (some ld) n = l.take n := by
  obtain ⟨d, hd, hmem, rfl, hlen, hnull⟩ := exists_descriptor hwf hline
  cases hp : d.line with
  | none =>
      rw [memoryOf, Option.bind_some, hd, Option.bind_some, hp, hnull.mp hp, List.take_nil]
  | some p =>
      rw [memoryOf_some hd hp]
      refine List.ext_getElem (by rw [List.length_map, List.length_range, List.length_take]; omega)
        fun i hi hi' => ?_
      rw [List.length_map, List.length_range] at hi
      rw [List.getElem_map, List.getElem_range, List.getElem_take,
        readByte_used hwf hmem hp (by omega), List.getD_eq_getElem _ _ (by omega)]

theorem memoryOf_behind (hwf : WellFormed b) (hline : (lines b)[ld]? = some l) (hne : l ≠ []) :
    ∃ d p, d ∈ b.lineDescList ∧ d.line = some p ∧ d.lineLen = l.length ∧
      memoryOf behind b (some ld) (l.length + 1) = l ++ [readByte behind b.chars p d.lineLen] := by
  obtain ⟨d, hd, hmem, rfl, hlen, hnull⟩ := exists_descriptor hwf hline
  obtain ⟨p, hp⟩ := Option.ne_none_iff_exists'.mp (mt hnull.mp hne)
  refine ⟨d, p, hmem, hp, hlen, ?_⟩
  have htake := memoryOf_take behind hwf hline le_rfl
  rw [memoryOf_some hd hp, List.take_length] at htake
  rw [memoryOf_some hd hp, List.range_succ, List.map_append, htake, List.map_singleton, hlen]

theorem memoryOf_null (hwf : WellFormed b) (hline : (lines b)[ld]? = some []) (n : Nat) :
    memoryOf behind b (some ld) n = [] := by
  obtain ⟨d, hd, -, -, -, hnull⟩ := exists_descriptor hwf hline
  rw [memoryOf, Option.bind_some, hd, Option.bind_some, hnull.mpr rfl]

/-- A line is a row of characters in an encoding. -/
def Spelled (e : EncodingType) (l : List Byte) : Prop := ∃ cs, Chars e cs ∧ cs.flatten = l

variable {e : EncodingType} {p q : List Byte} {t : Terminal}

theorem Spelled.append (h : Spelled e p) (h' : Spelled e q) : Spelled e (p ++ q) := by
  obtain ⟨cs, hcs, rfl⟩ := h
  obtain ⟨cs', hcs', rfl⟩ := h'
  exact ⟨cs ++ cs', chars_append.mpr ⟨hcs, hcs'⟩, List.flatten_append⟩

theorem spelled_nil : Spelled e [] := ⟨[], Chars.nil, rfl⟩

theorem Spelled.of_ascii (h : Spelled .ascii p) (e : EncodingType) : Spelled e p := by
  obtain ⟨cs, hcs, rfl⟩ := h
  exact ⟨cs, hcs.of_ascii e, rfl⟩

theorem isCharacter_of_isChar {ch : List Byte} (h : IsChar e ch) : IsCharacter e ch := by
  cases h with
  | ascii hne hc => exact .mk rfl nofun
  | eightBit hne => exact .mk rfl nofun
  | utf8 hne hlen htail hshort => exact .mk (by rw [charLen, if_pos rfl, hlen]) htail

theorem Spelled.head_lead (h : Spelled .utf8 p) {x : Byte} (hx : p.head? = some x) :
    ¬ x &&& 0xC0 = 0x80 := by
  obtain ⟨cs, hcs, rfl⟩ := h
  obtain _ | ⟨ch, cs⟩ := cs
  · simp at hx
  obtain ⟨hch, -⟩ := chars_cons.mp hcs
  cases isCharacter_of_isChar hch with
  | @mk c tail hlen htail =>
      obtain rfl : c = x := by simpa using hx
      exact IsCharacter.lead (.mk hlen htail) rfl

theorem spliceLines_spelled (hp : Spelled e p) (hq : Spelled e q)
    (hsegs : ∀ s ∈ segs, Spelled e s) : ∀ l ∈ spliceLines p q segs, Spelled e l := by
  induction segs generalizing p with
  | nil =>
      intro l hl
      rw [List.mem_singleton.mp hl]
      exact hp.append hq
  | cons s rest ih =>
      obtain ⟨hs, hrest⟩ := List.forall_mem_cons.mp hsegs
      cases rest with
      | nil =>
          intro l hl
          rw [List.mem_singleton.mp hl]
          exact (hp.append hs).append hq
      | cons next rest =>
          intro l hl
          rcases List.mem_cons.mp hl with rfl | hl
          · exact hp.append hs
          · exact ih spelled_nil hrest l hl

/-- Where PASTE_END is parked: behind the character at the cursor, or one byte behind the line. -/
inductive Parked (e : EncodingType) : List Byte → Nat → Prop
  | char {ch : List Byte} (rest : List Byte) (h : IsCharacter e ch) :
      Parked e (ch ++ rest) ch.length
  | behind : Parked e [] 1

theorem Parked.length_pos (h : Parked e q j) : 0 < j := by
  cases h with
  | char rest h => exact h.length_pos
  | behind => exact Nat.one_pos

/-- Behind a pool there is no continuation byte of UTF-8. -/
def EndsCharacters (behind : Nat → Nat → Byte) : Prop :=
  ∀ block off, ¬ behind block off &&& 0xC0 = 0x80

theorem prevPos_parked {x : List Byte} (hbehind : EndsCharacters behind)
    (hown : e = .utf8 → Owns True b.chars b.lineDescList)
    (hwf : WellFormed b) (hspelled : e = .utf8 → ∀ l ∈ lines b, Spelled .utf8 l)
    (hline : (lines b)[ld]? = some (x ++ q)) (hparked : Parked e q j) :
    prevPos (memoryOf behind b (some ld) (x.length + j)) (x.length + j : Nat) e = x.length := by
  cases hparked with
  | @char ch rest hch =>
      have htake : (x ++ (ch ++ rest)).take (x.length + ch.length) = x ++ (ch ++ []) := by
        rw [List.append_nil, List.take_length_add_append, List.take_left]
      rw [memoryOf_take behind hwf hline (by simp), htake, prevPos_character hch]
  | behind =>
      rw [List.append_nil] at hline
      by_cases hnil : x = []
      · subst hnil
        rw [memoryOf_null hwf hline]
        rfl
      · obtain ⟨d, p, hmem, hp, -, hmemory⟩ := memoryOf_behind hwf hline hnil
        rw [hmemory, prevPos, if_neg (by omega), if_neg (by simp)]
        split
        · rename_i he
          have hlast : ¬ readByte behind b.chars p d.lineLen &&& 0xC0 = 0x80 := by
            rcases readByte_behind (hown he) hmem hp with hzero | ⟨off, hoff⟩ | ⟨l, hl, hhead⟩
            · rw [hzero]
              decide
            · rw [hoff]
              exact hbehind _ _
            · exact (hspelled he l hl).head_lead hhead
          have hplace : (((x.length + 1 : Nat) : Int) - 1).toNat = x.length := by omega
          obtain ⟨n, hn⟩ : ∃ n, x.length = n + 1 := ⟨x.length - 1, by
            have := List.length_pos_of_ne_nil hnil
            omega⟩
          have hget : (x ++ [readByte behind b.chars p d.lineLen]).getD (n + 1) 0 =
              readByte behind b.chars p d.lineLen := by
            rw [← hn, List.getD_append_right _ _ _ _ le_rfl, Nat.sub_self]
            rfl
          rw [hplace, hn, sequenceStart, hget, if_neg hlast]
        · push_cast
          omega

/-- The byte that `next_pos` reads at the cursor. -/
def byteAtCursor (behind : Nat → Nat → Byte) (b : Buffer) : Byte :=
  byteAt (memoryOf behind b b.curLineDesc (b.curPos + 1).toNat) b.curPos

/-- The cursor is on a character, or at the end of a line and `next_pos` steps over one byte. -/
def CursorInside (behind : Nat → Nat → Byte) (b : Buffer) (e : EncodingType) : Prop :=
  b.curPos < (lineOf b b.curLineDesc).length ∨
    b.curPos = (lineOf b b.curLineDesc).length ∧ (e = .utf8 → byteAtCursor behind b < 0x80)

theorem startPaste_set (behind : Nat → Nat → Byte) (b : Buffer) :
    (startPaste behind b).bookmarkMask.testBit pasteStartBookmark = true ∧
      (startPaste behind b).bookmarkMask.testBit pasteEndBookmark = true := by
  constructor
  · simp only [startPaste, setBookmark, Nat.testBit_or, pasteStartBookmark, Bool.or_eq_true]
    exact .inl (.inr (by decide))
  · simp only [startPaste, setBookmark, Nat.testBit_or, pasteEndBookmark, Bool.or_eq_true]
    exact .inr (by decide)

theorem startPaste_start (b : Buffer) :
    (startPaste behind b).bookmark pasteStartBookmark = ⟨b.curPos, b.curLine, b.curY⟩ := by
  simp [startPaste, setBookmark, pasteStartBookmark, pasteEndBookmark]

/-- The document when the bookmarks have been set and the undo chain has begun. -/
def marked (behind : Nat → Nat → Byte) (b : Buffer) : Buffer := startUndoChain (startPaste behind b)

theorem marked_eq (b : Buffer) :
    marked behind b = { b with
      bookmark := (startPaste behind b).bookmark
      bookmarkMask := (startPaste behind b).bookmarkMask
      linkUndos := b.linkUndos + 1 } := rfl

theorem marked_lines (behind : Nat → Nat → Byte) (b : Buffer) :
    lines (marked behind b) = lines b := by
  rw [marked_eq]
  rfl

theorem marked_lineOf (b : Buffer) (ld : Option Nat) :
    lineOf (marked behind b) ld = lineOf b ld := by
  rw [lineOf.eq_def, lineOf.eq_def, marked_lines]

theorem marked_display (t : Terminal) (b : Buffer) : display t (marked behind b) = display t b := by
  rw [marked_eq]
  rfl

@[simp] theorem marked_curLine (behind : Nat → Nat → Byte) (b : Buffer) :
    (marked behind b).curLine = b.curLine := by rw [marked_eq]

@[simp] theorem marked_curPos (behind : Nat → Nat → Byte) (b : Buffer) :
    (marked behind b).curPos = b.curPos := by rw [marked_eq]

@[simp] theorem marked_curLineDesc (b : Buffer) :
    (marked behind b).curLineDesc = b.curLineDesc := by
  rw [marked_eq]

@[simp] theorem marked_column (b : Buffer) :
    (marked behind b).winX + (marked behind b).curX = b.winX + b.curX := by
  rw [marked_eq]

@[simp] theorem marked_encoding (b : Buffer) : (marked behind b).encoding = b.encoding := by
  rw [marked_eq]

theorem marked_set (behind : Nat → Nat → Byte) (b : Buffer) :
    (marked behind b).bookmarkMask.testBit pasteStartBookmark = true ∧
      (marked behind b).bookmarkMask.testBit pasteEndBookmark = true := by
  rw [marked_eq]
  exact startPaste_set behind b

theorem marked_start (behind : Nat → Nat → Byte) (b : Buffer) :
    ((marked behind b).bookmark pasteStartBookmark).line = b.curLine ∧
      ((marked behind b).bookmark pasteStartBookmark).pos = b.curPos := by
  rw [marked_eq]
  dsimp only
  rw [startPaste_start]
  exact ⟨rfl, rfl⟩

theorem ready_marked (behind : Nat → Nat → Byte) (h : Ready b) : Ready (marked behind b) := by
  rw [marked_eq]
  exact ⟨h.wellFormed, h.granting, ⟨h.cursor.numLines, h.cursor.winY_nonneg, h.cursor.winY_le,
    h.cursor.curLine_lt, h.cursor.cur, h.cursor.top⟩⟩

theorem owns_marked {strict : Prop} (h : Owns strict b.chars b.lineDescList) :
    Owns strict (marked behind b).chars (marked behind b).lineDescList := by
  rw [marked_eq]
  exact h

/-- Where the cursor is, in a document. -/
structure CursorAt (b : Buffer) (y : Nat) (front rest : List Byte) : Prop where
  desc : b.curLineDesc = some y
  line : b.curLine = y
  pos : b.curPos = front.length
  chars : (lines b)[y]? = some (front ++ rest)

theorem CursorAt.lineOf {y : Nat} (h : CursorAt b y p q) :
    lineOf b b.curLineDesc = p ++ q := by
  rw [h.desc, Navigation.lineOf, List.getD_eq_getElem?_getD, h.chars]
  rfl

/-- PASTE_END is parked behind the character at the cursor. -/
theorem startPaste_end {y : Nat} (hwf : WellFormed b) (hcur : CursorAt b y p q)
    (hq : Spelled b.encoding q) (hinside : CursorInside behind b b.encoding) :
    ((startPaste behind b).bookmark pasteEndBookmark).line = y ∧
      ∃ j, Parked b.encoding q j ∧
        ((startPaste behind b).bookmark pasteEndBookmark).pos = (p.length + j : Nat) := by
  have hnext : (b.curPos + 1).toNat = p.length + 1 := by
    rw [hcur.pos]
    omega
  have hend : (startPaste behind b).bookmark pasteEndBookmark =
      { b.bookmark pasteEndBookmark with
        pos := if memoryOf behind b b.curLineDesc (b.curPos + 1).toNat = [] then b.curPos + 1
          else nextPos (memoryOf behind b b.curLineDesc (b.curPos + 1).toNat) b.curPos b.encoding
        line := b.curLine } := by
    simp [startPaste, setBookmark, pasteStartBookmark, pasteEndBookmark]
  rw [hend, hnext]
  refine ⟨hcur.line, ?_⟩
  dsimp only
  obtain ⟨cs, hcs, rfl⟩ := hq
  obtain _ | ⟨ch, cs⟩ := cs
  · -- the byte behind the line
    refine ⟨1, .behind, ?_⟩
    have hchars := hcur.chars
    rw [List.flatten_nil, List.append_nil] at hchars
    by_cases hnil : p = []
    · subst hnil
      rw [hcur.desc, memoryOf_null hwf hchars, if_pos rfl, hcur.pos]
      rfl
    · have hlow : b.encoding = .utf8 → byteAtCursor behind b < 0x80 := by
        rcases hinside with hlt | ⟨-, hlow⟩
        · rw [hcur.lineOf, hcur.pos, List.flatten_nil, List.append_nil] at hlt
          omega
        · exact hlow
      have hbyte : byteAt (memoryOf behind b b.curLineDesc (p.length + 1)) b.curPos =
          byteAtCursor behind b := by
        rw [byteAtCursor, hnext]
      obtain ⟨d, p', -, -, -, hmemory⟩ := memoryOf_behind hwf hchars hnil
      rw [if_neg (by rw [hcur.desc, hmemory]; simp), nextPos, hbyte, hcur.pos, charLen]
      split
      · rename_i he
        rw [utf8len, if_pos (hlow he)]
        push_cast
        rfl
      · push_cast
        rfl
  · obtain ⟨hch, -⟩ := chars_cons.mp hcs
    have hchar := isCharacter_of_isChar hch
    refine ⟨ch.length, ?_, ?_⟩
    · rw [List.flatten_cons]
      exact .char cs.flatten hchar
    · have hpos := hchar.length_pos
      have hchars := hcur.chars
      obtain ⟨c, ch, rfl⟩ := List.exists_cons_of_ne_nil (List.ne_nil_of_length_pos hpos)
      have htake : (p ++ ((c :: ch) :: cs).flatten).take (p.length + 1) = p ++ ([c] ++ []) := by
        rw [List.take_length_add_append]
        rfl
      have hmemory := memoryOf_take (n := p.length + 1) behind hwf hchars (by simp)
      rw [htake] at hmemory
      have hnextPos := nextPos_character hchar p cs.flatten
      have hbyte : byteAt (p ++ ([c] ++ [])) p.length =
          byteAt (p ++ (c :: ch ++ cs.flatten)) p.length := by
        rw [byteAt, byteAt, Int.toNat_natCast, List.getD_append_right _ _ _ _ le_rfl,
          List.getD_append_right _ _ _ _ le_rfl, Nat.sub_self]
        rfl
      rw [hcur.desc, hmemory, if_neg (by simp), hcur.pos, nextPos, hbyte, ← nextPos, hnextPos]

/-- The document with the encoding that it has during the paste. -/
def promoted (b : Buffer) (e : EncodingType) : Buffer := { b with encoding := e }

theorem promoted_eq (b : Buffer) (cs : CharStream) :
    (if b.encoding = .ascii then { b with encoding := cs.encoding } else b) =
      promoted b (pasteEncoding b cs) := by
  rw [pasteEncoding]
  split
  · rfl
  · rfl

theorem promoted_curLineDesc (b : Buffer) (e : EncodingType) :
    (promoted b e).curLineDesc = b.curLineDesc := rfl

theorem ready_promoted (h : Ready b) (e : EncodingType) : Ready (promoted b e) :=
  ⟨h.wellFormed, h.granting, ⟨h.cursor.numLines, h.cursor.winY_nonneg, h.cursor.winY_le,
    h.cursor.curLine_lt, h.cursor.cur, h.cursor.top⟩⟩

theorem finishPaste_bookmarks (t : Terminal) {y : Nat} {x : List Byte}
    (hbehind : EndsCharacters behind) (hcursor : CursorOk b)
    (hown : b.encoding = .utf8 → Owns True b.chars b.lineDescList) (hwf : WellFormed b)
    (hspelled : b.encoding = .utf8 → ∀ l ∈ lines b, Spelled .utf8 l)
    (hline : (lines b)[y]? = some (x ++ q)) (hparked : Parked b.encoding q j)
    (hstop : (b.bookmark pasteEndBookmark).line = y ∧
      (b.bookmark pasteEndBookmark).pos = (x.length + j : Nat)) :
    ((finishPaste behind t b).bookmark pasteEndBookmark).line = y ∧
      ((finishPaste behind t b).bookmark pasteEndBookmark).pos = x.length ∧
      (finishPaste behind t b).bookmark pasteStartBookmark = b.bookmark pasteStartBookmark := by
  have hlt : y < b.lineDescList.length := by
    have hlt := (List.getElem?_eq_some_iff.mp hline).1
    rwa [lines, List.length_map] at hlt
  have hnth : nthLineDesc b (b.bookmark pasteEndBookmark).line = some y := by
    rw [hstop.1]
    exact nthLineDesc_spec hcursor hlt
  refine ⟨?_, ?_, ?_⟩
  · rw [finishPaste]
    dsimp only
    rw [Function.update_self]
    exact hstop.1
  · rw [finishPaste]
    dsimp only
    rw [Function.update_self, hnth, hstop.2, Int.toNat_natCast]
    exact prevPos_parked hbehind hown hwf hspelled hline hparked
  · have hne : pasteStartBookmark ≠ pasteEndBookmark := by decide
    simp only [finishPaste, Function.update_of_ne hne]

/-- The bookmarks are set for an insertion at `y`, `front`. -/
structure Prepared (b : Buffer) (y : Nat) (front rest : List Byte) (j : Nat) : Prop where
  chars : (lines b)[y]? = some (front ++ rest)
  set : b.bookmarkMask.testBit pasteStartBookmark = true ∧
    b.bookmarkMask.testBit pasteEndBookmark = true
  start : (b.bookmark pasteStartBookmark).line = y ∧
    (b.bookmark pasteStartBookmark).pos = front.length
  stop : (b.bookmark pasteEndBookmark).line = y ∧
    (b.bookmark pasteEndBookmark).pos = (front.length + j : Nat)
  parked : Parked b.encoding rest j

/-- The lines are in UTF-8 and own all the characters in memory, if the encoding is UTF-8. -/
structure Utf8Owned (b : Buffer) : Prop where
  owns : b.encoding = .utf8 → Owns True b.chars b.lineDescList
  spelled : b.encoding = .utf8 → ∀ l ∈ lines b, Spelled .utf8 l

theorem Utf8Owned.insert {y : Nat} {front rest : List Byte} (h : Utf8Owned b)
    (hwf : WellFormed b) (hchars : (lines b)[y]? = some (front ++ rest))
    (hfront : Spelled b.encoding front) (hrest : Spelled b.encoding rest)
    (hs : b.encoding = .utf8 → ∀ r ∈ s.splitOn 0, Spelled .utf8 r)
    (hrun : insertStream b y y front.length s = (.ok, b')) (hview : SameView b b') :
    Utf8Owned b' := by
  have henc : b'.encoding = b.encoding := by rw [hview]
  refine ⟨fun he => owns_insertStream (h.owns (henc ▸ he)) hrun, fun he l hl => ?_⟩
  rw [henc] at he
  obtain ⟨-, -, before, after, -, hlines, hlines'⟩ := insertStream_lines hwf hchars hrun
  rw [hlines', List.take_left, List.drop_left] at hl
  rw [he] at hfront hrest
  rcases List.mem_append.mp hl with hbefore | hl
  · exact h.spelled he l (by rw [hlines]; exact List.mem_append_left _ hbefore)
  rcases List.mem_append.mp hl with hnew | hafter
  · exact spliceLines_spelled hfront hrest (hs he) l hnew
  · refine h.spelled he l ?_
    rw [hlines]
    exact List.mem_append_right _ (List.mem_cons_of_mem _ hafter)

/-- The insertion of a clip at the cursor, with the bookmarks set before. -/
theorem insertion_delimits {b₁ : Buffer} {y : Nat} {front rest : List Byte} (t : Terminal)
    (hbehind : EndsCharacters behind) (hready : Ready b) (hprepared : Prepared b y front rest j)
    (hrun : insertStream b y y front.length s = (.ok, b₁)) (hready₁ : Ready b₁)
    (hview : SameView b b₁) (howned : Utf8Owned b₁) :
    ∃ b', finishPaste behind t (endUndoChain b₁) = b' ∧ b'.bookmarkMask = b.bookmarkMask ∧
      ((b'.bookmark pasteStartBookmark).line = y ∧
        (b'.bookmark pasteStartBookmark).pos = front.length) ∧
      ∃ before behind, bufferText b' = before ++ s ++ behind ∧
        IsPlace (lines b') (b'.bookmark pasteStartBookmark).line
          (b'.bookmark pasteStartBookmark).pos before.length ∧
        IsPlace (lines b') (b'.bookmark pasteEndBookmark).line
          (b'.bookmark pasteEndBookmark).pos (before ++ s).length := by
  have hwf := hready.wellFormed
  have hpos : front.length ≤ (front ++ rest).length := by simp
  have henc : b₁.encoding = b.encoding := by rw [hview]
  obtain ⟨hmask, hline₁, hpos₁⟩ := insertStream_behind hprepared.set.2
    hprepared.parked.length_pos hprepared.stop hrun
  obtain ⟨hstartLine, hstartPos⟩ := insertStream_stays hprepared.set.1 hprepared.start hrun
  obtain ⟨x, hx, hxlen, hplace⟩ := exists_endLine hwf hprepared.chars hrun
  rw [← hxlen] at hpos₁
  have hstartPlace : IsPlace (lines b) y front.length (offset (lines b) y front.length) :=
    ⟨y, front.length, _, rfl, rfl, hprepared.chars, hpos, rfl⟩
  have hstartPlace₁ : IsPlace (lines b₁) (b₁.bookmark pasteStartBookmark).line
      (b₁.bookmark pasteStartBookmark).pos (offset (lines b) y front.length) := by
    have hfollows := (insertStream_follows hwf hprepared.chars hpos hrun).bookmarks
      pasteStartBookmark (offset (lines b) y front.length) hprepared.set.1
      (by rw [hprepared.start.1, hprepared.start.2]; exact hstartPlace)
    rwa [afterInsertion, if_pos le_rfl] at hfollows
  obtain ⟨undo, hend⟩ := endUndoChain_eq b₁
  have hcursor : CursorOk (endUndoChain b₁) := by
    rw [hend]
    exact ⟨hready₁.cursor.numLines, hready₁.cursor.winY_nonneg, hready₁.cursor.winY_le,
      hready₁.cursor.curLine_lt, hready₁.cursor.cur, hready₁.cursor.top⟩
  have hparked : Parked (endUndoChain b₁).encoding rest j := by
    rw [hend]
    change Parked b₁.encoding rest j
    rw [henc]
    exact hprepared.parked
  obtain ⟨hstopLine, hstopPos, hstart⟩ :=
    finishPaste_bookmarks (b := endUndoChain b₁) t hbehind hcursor (by rw [hend]; exact howned.owns)
      (by rw [hend]; exact hready₁.wellFormed) (by rw [hend]; exact howned.spelled)
      (by rw [hend]; exact hx) hparked (by
        rw [hend]
        exact ⟨by rw [hline₁]; push_cast; rfl, hpos₁⟩)
  have hlines : lines (finishPaste behind t (endUndoChain b₁)) = lines b₁ := by
    rw [hend]
    rfl
  have htext := insertStream_text hwf hprepared.chars hpos hrun
  have hle : offset (lines b) y front.length ≤ (bufferText b).length :=
    offset_le_length 0 hprepared.chars hpos
  have hsame : (endUndoChain b₁).bookmark = b₁.bookmark := by rw [hend]
  rw [hsame] at hstart
  refine ⟨_, rfl, ?_, ?_, (bufferText b).take (offset (lines b) y front.length),
    (bufferText b).drop (offset (lines b) y front.length), ?_, ?_, ?_⟩
  · rw [← hmask, finishPaste, hend]
  · rw [hstart]
    exact ⟨hstartLine, hstartPos⟩
  · rw [← htext, bufferText, hlines, bufferText]
  · rw [hstart, hlines, List.length_take_of_le hle]
    exact hstartPlace₁
  · rw [hstopLine, hstopPos, hlines, List.length_append, List.length_take_of_le hle]
    exact hplace

theorem splitOn_replicate_space (n : Nat) :
    (List.replicate n space).splitOn 0 = [List.replicate n space] :=
  splitOn_of_not_mem (space_not_mem n)

theorem insertSpacesLoop_behind {turns n : Nat} (hset : b.bookmarkMask.testBit i = true)
    (hj : 0 < j) (hplace : (b.bookmark i).line = line ∧ (b.bookmark i).pos = (pos + j : Nat))
    (hn : n ≤ turns) (h : insertSpacesLoop ld line pos turns n b = (.ok, b')) :
    b'.bookmarkMask = b.bookmarkMask ∧ (b'.bookmark i).line = line ∧
      (b'.bookmark i).pos = (pos + (n + j) : Nat) := by
  induction turns generalizing b n j with
  | zero =>
      obtain ⟨-, rfl⟩ := Prod.mk.inj h
      obtain rfl : n = 0 := by omega
      exact ⟨rfl, hplace.1, by rw [hplace.2, Nat.zero_add]⟩
  | succ turns ih =>
      unfold insertSpacesLoop at h
      split at h
      · rename_i hzero
        obtain ⟨-, rfl⟩ := Prod.mk.inj h
        exact ⟨rfl, hplace.1, by rw [hplace.2, hzero, Nat.zero_add]⟩
      · rename_i hne
        dsimp only at h
        split at h
        · rename_i b₁ hrun
          have hchunk : 0 < min n maxStackSpaces := by
            rw [maxStackSpaces]
            omega
          obtain ⟨hmask, hline, hpos⟩ := insertStream_behind hset hj hplace hrun
          rw [List.count_eq_zero_of_not_mem (space_not_mem _)] at hline
          rw [splitOn_replicate_space, endPos, List.length_replicate] at hpos
          obtain ⟨hmask', hline', hpos'⟩ := ih (b := b₁) (n := n - min n maxStackSpaces)
            (j := min n maxStackSpaces + j) (hmask ▸ hset) (by omega)
            ⟨by rw [hline]; omega, by rw [hpos]; push_cast; omega⟩ (by omega) h
          exact ⟨hmask'.trans hmask, hline', by rw [hpos']; push_cast; omega⟩
        · rename_i hfail
          exact absurd h (hfail _)

/-- The cursor is behind the end of its line, and the screen agrees. -/
structure Beyond (t : Terminal) (b : Buffer) (e : EncodingType) : Prop where
  pos : ((lineOf b b.curLineDesc).length : Int) < b.curPos
  column : b.winX + b.curX = calcWidth (display t (promoted b e)) (lineOf b b.curLineDesc) +
    (b.curPos - (lineOf b b.curLineDesc).length)

/-- The cursor is between two characters of a line. -/
structure Between (b : Buffer) (y : Nat) (front rest : List Byte) : Prop where
  cursor : CursorAt b y front rest
  front : Spelled b.encoding front
  rest : Spelled b.encoding rest

variable {clips : List ClipDesc} {n : Int} {cd : ClipDesc}

theorem pasteToBuffer_eq (t : Terminal) (hclip : getNthClip clips n = some cd)
    (hbytes : streamBytes cd.cs ≠ []) (hcompatible : compatible cd.cs.encoding b.encoding = true) :
    pasteToBuffer behind t b clips n =
      (.ok, finishPaste behind t (endUndoChain (insertAtCursor
        (if ((lineOf b b.curLineDesc).length : Int) < b.curPos then
          (insertSpaces (marked behind (promoted b (pasteEncoding b cd.cs)))
            b.curLineDesc b.curLine (lineOf b b.curLineDesc).length
            (b.winX + b.curX - calcWidth (display t (promoted b (pasteEncoding b cd.cs)))
              (lineOf b b.curLineDesc))).2
        else marked behind (promoted b (pasteEncoding b cd.cs)))
        (streamBytes cd.cs)))) := by
  have hlen : cd.cs.len ≠ 0 := by
    intro hzero
    refine hbytes ?_
    rw [streamBytes, hzero]
    split <;> rfl
  have hline : lineOf (promoted b (pasteEncoding b cd.cs)) b.curLineDesc =
      lineOf b b.curLineDesc := rfl
  simp only [pasteToBuffer, hclip, if_neg hlen, if_pos hcompatible, promoted_eq]
  rw [← marked, marked_column, marked_curLine, marked_curPos, marked_curLineDesc, marked_lineOf,
    marked_display, promoted_curLineDesc, hline]
  rfl

theorem spelled_promoted (cs : CharStream) {l : List Byte} (h : Spelled b.encoding l) :
    Spelled (pasteEncoding b cs) l := by
  rw [pasteEncoding]
  split
  · rename_i he
    rw [he] at h
    exact h.of_ascii _
  · exact h

theorem spelled_clip {cs : CharStream} {l : List Byte} (h : Spelled cs.encoding l)
    (hcompatible : compatible cs.encoding b.encoding = true) : Spelled (pasteEncoding b cs) l := by
  rw [pasteEncoding]
  split
  · exact h
  · rename_i he
    simp only [compatible, Bool.or_eq_true, beq_iff_eq] at hcompatible
    rcases hcompatible with (hascii | hascii) | hsame
    · rw [hascii] at h
      exact h.of_ascii _
    · exact absurd hascii he
    · rwa [← hsame]

theorem exists_prepared {y : Nat} {front rest : List Byte} (hwf : WellFormed b)
    (hcur : CursorAt b y front rest) (hrest : Spelled b.encoding rest)
    (hinside : CursorInside behind b b.encoding) :
    ∃ j, Prepared (marked behind b) y front rest j := by
  obtain ⟨hendLine, j, hparked, hendPos⟩ := startPaste_end hwf hcur hrest hinside
  obtain ⟨hstartLine, hstartPos⟩ := marked_start behind b
  refine ⟨j, ?_, marked_set behind b, ⟨hstartLine.trans hcur.line, hstartPos.trans hcur.pos⟩, ?_,
    ?_⟩
  · rw [marked_lines]
    exact hcur.chars
  · rw [marked_eq]
    exact ⟨hendLine, hendPos⟩
  · rw [marked_encoding]
    exact hparked

theorem insertAtCursor_marked {y : Nat} {front rest : List Byte} (hcur : CursorAt b y front rest)
    (s : List Byte) :
    insertAtCursor (marked behind b) s = (insertStream (marked behind b) y y front.length s).2 := by
  rw [insertAtCursor, marked_curLineDesc, hcur.desc]
  dsimp only
  rw [marked_curPos, marked_curLine, hcur.pos, hcur.line, Int.toNat_natCast]

/-- With the cursor on a character, or at the end of a line with an ASCII byte behind it, the
bookmarks delimit what has been pasted. -/
theorem delimits_of_inside {y : Nat} {front rest : List Byte} (t : Terminal)
    (hbehind : EndsCharacters behind) (hready : Ready b)
    (hown : Owns True b.chars b.lineDescList) (hlines : ∀ l ∈ lines b, Spelled b.encoding l)
    (hclip : getNthClip clips n = some cd) (hbytes : streamBytes cd.cs ≠ [])
    (hspelled : ∀ r ∈ (streamBytes cd.cs).splitOn 0, Spelled cd.cs.encoding r)
    (hcompatible : compatible cd.cs.encoding b.encoding = true) (hcur : Between b y front rest)
    (hinside : CursorInside behind b (pasteEncoding b cd.cs)) :
    Delimits b (pasteToBuffer behind t b clips n).2 (streamBytes cd.cs) := by
  have hnot : ¬ ((lineOf b b.curLineDesc).length : Int) < b.curPos := by
    rw [hcur.cursor.lineOf, hcur.cursor.pos, List.length_append]
    omega
  rw [pasteToBuffer_eq t hclip hbytes hcompatible, if_neg hnot]
  have hlines₀ : ∀ l ∈ lines b, Spelled (pasteEncoding b cd.cs) l :=
    fun l hl => spelled_promoted cd.cs (hlines l hl)
  have hclip₀ : ∀ r ∈ (streamBytes cd.cs).splitOn 0, Spelled (pasteEncoding b cd.cs) r :=
    fun r hr => spelled_clip (hspelled r hr) hcompatible
  have hfront := spelled_promoted cd.cs hcur.front
  have hrest := spelled_promoted cd.cs hcur.rest
  generalize pasteEncoding b cd.cs = e at hinside hlines₀ hclip₀ hfront hrest
  have hcur₀ : CursorAt (promoted b e) y front rest :=
    ⟨hcur.cursor.desc, hcur.cursor.line, hcur.cursor.pos, hcur.cursor.chars⟩
  have hready₀ := ready_promoted hready e
  obtain ⟨j, hprepared⟩ := exists_prepared hready₀.wellFormed hcur₀ hrest hinside
  have hready₁ := ready_marked behind hready₀
  have henc : (marked behind (promoted b e)).encoding = e := marked_encoding _
  have hcurLine : (marked behind (promoted b e)).curLine = y :=
    (marked_curLine behind _).trans hcur.cursor.line
  have howned : Utf8Owned (marked behind (promoted b e)) := by
    refine ⟨fun _ => owns_marked hown, fun he l hl => ?_⟩
    rw [henc] at he
    rw [marked_lines] at hl
    exact he ▸ hlines₀ l hl
  rw [insertAtCursor_marked hcur₀]
  generalize marked behind (promoted b e) = b₁ at hprepared hready₁ henc hcurLine howned ⊢
  obtain ⟨b₂, hrun, hready₂, hview, -⟩ := insertStream_step hready₁ hprepared.chars
    (show front.length ≤ (front ++ rest).length by simp) hbytes (.inl hcurLine.le)
  have howned₂ := howned.insert hready₁.wellFormed hprepared.chars (henc ▸ hfront) (henc ▸ hrest)
    (fun he r hr => (henc ▸ he) ▸ hclip₀ r hr) hrun hview
  obtain ⟨b', hb', hmask, hstart', hbetween⟩ :=
    insertion_delimits t hbehind hready₁ hprepared hrun hready₂ hview howned₂
  rw [hrun, hb']
  refine ⟨?_, ?_, hbetween⟩
  · rw [hmask]
    exact hprepared.set
  · rw [hcur.cursor.line, hcur.cursor.pos]
    exact hstart'

theorem insertBeyond {y m : Nat} (hready : Ready b) (hset : b.bookmarkMask.testBit i = true)
    (hcurLine : b.curLine = y) (hline : (lines b)[y]? = some l) (hm : 0 < m)
    (hcurPos : b.curPos = (l.length + m : Nat))
    (hplace : (b.bookmark i).line = y ∧ (b.bookmark i).pos = (l.length + m : Nat)) (hs : s ≠ []) :
    ∃ b', insertAtCursor (insertSpaces b (some y) y l.length m).2 s = b' ∧
      (b'.bookmark i).line = y + s.count 0 ∧
      (b'.bookmark i).pos = (endPos (l.length + m) (s.splitOn 0) + m : Nat) := by
  obtain ⟨hlt, hget⟩ := List.getElem?_eq_some_iff.mp hline
  have hgetD : (lines b).getD y [] = l := by
    rw [List.getD_eq_getElem?_getD, hline]
    rfl
  obtain ⟨b₁, hspaces, hpadded⟩ := insertSpaces_spec hready hlt m
  rw [hgetD] at hspaces
  have hloop : insertSpacesLoop y y l.length m m b = (.ok, b₁) := by
    simpa only [insertSpaces, Int.toNat_natCast] using hspaces
  obtain ⟨hmask, hline₁, hpos₁⟩ := insertSpacesLoop_behind hset hm hplace le_rfl hloop
  have hcurLine₁ : b₁.curLine = y := by
    rw [hpadded.view]
    exact hcurLine
  have hcurPos₁ : b₁.curPos = (l.length + m : Nat) := by
    rw [hpadded.view]
    exact hcurPos
  have hchars : (lines b₁)[y]? = some (l ++ List.replicate m space) := by
    rw [hpadded.padded, hgetD, List.getElem?_set_self hlt]
  have hlength : (l ++ List.replicate m space).length = l.length + m := by simp
  obtain ⟨b₂, hrun, -⟩ := insertStream_step hpadded.ready hchars hlength.ge hs (.inl hcurLine₁.le)
  obtain ⟨-, hline₂, hpos₂⟩ := insertStream_behind (hmask ▸ hset) hm ⟨hline₁, by
    rw [hpos₁, Nat.add_assoc]⟩ hrun
  have hdesc : b₁.curLineDesc = some y := by
    rw [hpadded.ready.cursor.cur, hcurLine₁, Int.toNat_natCast]
  refine ⟨b₂, ?_, hline₂, hpos₂⟩
  rw [hspaces, insertAtCursor, hdesc]
  dsimp only
  rw [hcurPos₁, hcurLine₁, Int.toNat_natCast, hrun]

/-- Behind the end of a line PASTE_START moves with the padding and with the insertion. -/
theorem not_delimits_of_beyond (t : Terminal) (hready : Ready b)
    (hclip : getNthClip clips n = some cd) (hbytes : streamBytes cd.cs ≠ [])
    (hcompatible : compatible cd.cs.encoding b.encoding = true)
    (hbeyond : Beyond t b (pasteEncoding b cd.cs)) :
    ¬ Delimits b (pasteToBuffer behind t b clips n).2 (streamBytes cd.cs) := by
  obtain ⟨hpos, hcolumn⟩ := hbeyond
  rw [pasteToBuffer_eq t hclip hbytes hcompatible, if_pos hpos]
  generalize pasteEncoding b cd.cs = e at hcolumn
  have hnonneg : 0 ≤ b.curLine := hready.cursor.winY_nonneg.trans hready.cursor.winY_le
  obtain ⟨y, hy⟩ := Int.eq_ofNat_of_zero_le hnonneg
  have hdesc : b.curLineDesc = some y := by
    rw [hready.cursor.cur, hy, Int.toNat_natCast]
  have hlt : y < (lines b).length := by
    have hlt := hready.cursor.curLine_lt
    rw [lines, List.length_map]
    rw [hready.cursor.numLines] at hlt
    omega
  have hline : (lines b)[y]? = some (lineOf b b.curLineDesc) := by
    rw [hdesc, lineOf, List.getElem?_eq_getElem hlt, List.getD_eq_getElem _ _ hlt]
  generalize lineOf b b.curLineDesc = l at hpos hcolumn hline ⊢
  obtain ⟨m, hm⟩ : ∃ m : Nat, b.curPos = (l.length + m : Nat) :=
    ⟨(b.curPos - l.length).toNat, by push_cast; omega⟩
  have hcolumns : b.winX + b.curX - calcWidth (display t (promoted b e)) l = m := by
    rw [hcolumn, hm]
    push_cast
    omega
  have hready₁ := ready_marked behind (ready_promoted hready e)
  have hset := (marked_set behind (promoted b e)).1
  obtain ⟨hstartLine, hstartPos⟩ := marked_start behind (promoted b e)
  have hcurLine := (marked_curLine behind (promoted b e)).trans hy
  have hcurPos := (marked_curPos behind (promoted b e)).trans hm
  have hlines := marked_lines behind (promoted b e)
  have hstart := And.intro (hstartLine.trans hy) (hstartPos.trans hm)
  have hline₁ : (lines (marked behind (promoted b e)))[y]? = some l := by
    rw [hlines]
    exact hline
  generalize marked behind (promoted b e) = b₁ at hready₁ hset hcurLine hcurPos hstart hline₁ ⊢
  obtain ⟨b', hb', hline', hpos'⟩ := insertBeyond hready₁ (i := pasteStartBookmark) hset hcurLine
    hline₁ (show 0 < m by omega) hcurPos hstart hbytes
  rw [hcolumns, hdesc, hy, hb']
  obtain ⟨undo, hend⟩ := endUndoChain_eq b'
  have hne : pasteStartBookmark ≠ pasteEndBookmark := by decide
  have hsame : (finishPaste behind t (endUndoChain b')).bookmark pasteStartBookmark =
      b'.bookmark pasteStartBookmark := by
    simp only [finishPaste, Function.update_of_ne hne, hend]
  intro hdelimits
  obtain ⟨hcurLine, hcurPos⟩ := hdelimits.cursor
  rw [hsame, hline', hy] at hcurLine
  rw [hsame, hpos', hm] at hcurPos
  have hzero : 0 ∉ streamBytes cd.cs := List.count_eq_zero.mp (by omega)
  rw [splitOn_of_not_mem hzero, endPos] at hcurPos
  omega

/-- PASTE_START and PASTE_END delimit what has been pasted when the cursor is on a character, and
at the end of a line unless the byte behind it is no ASCII and the encoding is UTF-8; behind the
end they never do. -/
theorem pasteToBuffer_delimits (t : Terminal) (hbehind : EndsCharacters behind) (hready : Ready b)
    (hown : Owns True b.chars b.lineDescList) (hlines : ∀ l ∈ lines b, Spelled b.encoding l)
    (hclip : getNthClip clips n = some cd) (hbytes : streamBytes cd.cs ≠ [])
    (hspelled : ∀ r ∈ (streamBytes cd.cs).splitOn 0, Spelled cd.cs.encoding r)
    (hcompatible : compatible cd.cs.encoding b.encoding = true)
    (hcursor : (∃ y front rest, Between b y front rest) ∨ Beyond t b (pasteEncoding b cd.cs)) :
    (pasteToBuffer behind t b clips n).1 = .ok ∧
      (CursorInside behind b (pasteEncoding b cd.cs) →
        Delimits b (pasteToBuffer behind t b clips n).2 (streamBytes cd.cs)) ∧
      (((lineOf b b.curLineDesc).length : Int) < b.curPos →
        ¬ Delimits b (pasteToBuffer behind t b clips n).2 (streamBytes cd.cs)) := by
  refine ⟨by rw [pasteToBuffer_eq t hclip hbytes hcompatible], fun hinside => ?_, fun hpos => ?_⟩
  · rcases hcursor with ⟨y, front, rest, hcur⟩ | hbeyond
    · exact delimits_of_inside t hbehind hready hown hlines hclip hbytes hspelled hcompatible
        hcur hinside
    · have hpos := hbeyond.pos
      rcases hinside with hlt | ⟨heq, -⟩
      · omega
      · omega
  · rcases hcursor with ⟨y, front, rest, hcur⟩ | hbeyond
    · rw [hcur.cursor.lineOf, hcur.cursor.pos, List.length_append] at hpos
      omega
    · exact not_delimits_of_beyond t hready hclip hbytes hcompatible hbeyond

/-- A clip with some bytes. -/
def clipOf (s : List Byte) (encoding : EncodingType) : ClipDesc :=
  ⟨0, ⟨s.length, s.length, some fun i => s.getD i 0, encoding⟩⟩

theorem owns_typed (s : List Byte) (encoding : EncodingType) (startLine startPos line pos : Int) :
    Owns True (typed s encoding startLine startPos line pos).chars
      (typed s encoding startLine startPos line pos).lineDescList := by
  have hnew : Owns True (newBuffer false none fun _ => true).chars
      (newBuffer false none fun _ => true).lineDescList := owns_clearBuffer _
  have hrun : insertStream (newBuffer false none fun _ => true) 0 0 0 s =
      ((insertStream (newBuffer false none fun _ => true) 0 0 0 s).1,
        (insertStream (newBuffer false none fun _ => true) 0 0 0 s).2) := rfl
  have howns := owns_insertStream hnew hrun
  exact howns

theorem endsCharacters_zeros : EndsCharacters zeros := by
  intro block off
  rw [zeros]
  decide

/-- Two lines are pasted between `é` and `b`. -/
theorem pasteToBuffer_delimits_typed :
    Delimits (typed [0xC3, 0xA9, 98] .utf8 0 0 0 2)
      (pasteToBuffer zeros plainTerminal (typed [0xC3, 0xA9, 98] .utf8 0 0 0 2)
        [clipOf [120, 0, 121] .ascii] 0).2 [120, 0, 121] := by
  have hblock : Block (typed [0xC3, 0xA9, 98] .utf8 0 0 0 2) :=
    block_typed (by decide) le_rfl le_rfl le_rfl (by decide) (by decide +kernel) (by decide +kernel)
  have hspelled : Spelled .utf8 [0xC3, 0xA9, 98] :=
    exists_utf8 true (by decide) (by decide)
  have hlines : ∀ l ∈ lines (typed [0xC3, 0xA9, 98] .utf8 0 0 0 2), Spelled .utf8 l := by
    have hone : lines (typed [0xC3, 0xA9, 98] .utf8 0 0 0 2) = [[0xC3, 0xA9, 98]] := by
      decide +kernel
    intro l hl
    rw [hone, List.mem_singleton] at hl
    exact hl ▸ hspelled
  have hclip : ∀ r ∈ ([120, 0, 121] : List Byte).splitOn 0, Spelled .ascii r := by
    intro r hr
    have hsplit : ([120, 0, 121] : List Byte).splitOn 0 = [[120], [121]] := by decide
    rw [hsplit] at hr
    simp only [List.mem_cons, List.not_mem_nil, or_false] at hr
    rcases hr with rfl | rfl
    · exact ⟨[[120]], chars_singleton.mpr (.ascii (by decide) (by decide)), rfl⟩
    · exact ⟨[[121]], chars_singleton.mpr (.ascii (by decide) (by decide)), rfl⟩
  have hcur : Between (typed [0xC3, 0xA9, 98] .utf8 0 0 0 2) 0 [0xC3, 0xA9] [98] :=
    ⟨⟨rfl, rfl, rfl, by decide +kernel⟩, exists_utf8 true (by decide) (by decide),
      exists_utf8 true (by decide) (by decide)⟩
  have hnth : getNthClip [clipOf [120, 0, 121] .ascii] 0 = some (clipOf [120, 0, 121] .ascii) := rfl
  exact (pasteToBuffer_delimits plainTerminal endsCharacters_zeros hblock.ready
    (owns_typed _ _ _ _ _ _) hlines hnth (by decide) hclip rfl (.inl ⟨0, _, _, hcur⟩)).2.1
    (.inl (by decide +kernel))

/-- A document in free form, the cursor two columns behind the end of its only line `a`. -/
def farCursor : Buffer :=
  { typed [97] .ascii 0 0 0 3 with
    curX := 3
    opt := { defaultOptions false with freeForm := true } }

/-- In free form PASTE_START is left behind the text that has been pasted. -/
theorem not_delimits :
    (pasteToBuffer zeros plainTerminal farCursor [clipOf [120] .ascii] 0).1 = .ok ∧
      ((lineOf farCursor farCursor.curLineDesc).length : Int) < farCursor.curPos ∧
      farCursor.winX + farCursor.curX = farCursor.curPos ∧
      lines (pasteToBuffer zeros plainTerminal farCursor [clipOf [120] .ascii] 0).2 =
        [[97, 32, 32, 120]] ∧
      ¬ Delimits farCursor (pasteToBuffer zeros plainTerminal farCursor [clipOf [120] .ascii] 0).2
        [120] := by
  refine ⟨by decide +kernel, by decide +kernel, by decide +kernel, by decide +kernel, ?_⟩
  intro hdelimits
  exact absurd hdelimits.cursor.2 (by decide +kernel)

end NiceEditor.PasteBookmarks
