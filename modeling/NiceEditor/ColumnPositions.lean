import NiceEditor.CharSteps

namespace NiceEditor.ColumnPositions

open NiceEditor.Pools
open NiceEditor.BufferData
open NiceEditor.Encoding
open NiceEditor.Navigation
open NiceEditor.CharacterRows
open NiceEditor.InputRows
open NiceEditor.Characters
open NiceEditor.Columns
open NiceEditor.CharSteps

/-- `calc_width`, up to a position of the line -/
def calcWidthTo (d : Display) (line : List Byte) (n : Int) : Int := (scanLine d line n).col

/-- The loop of `calc_pos` and of `calc_virt_pos`, with `pos` and `width`. Every turn passes a
byte at least. -/
def posLoop (d : Display) (line : List Byte) (col : Int) : Nat → Int → Int → Int × Int
  | 0, pos, width => (pos, width)
  | turns + 1, pos, width =>
      let cWidth := getCharWidth d.terminal (line.drop pos.toNat) d.encoding
      if pos < line.length ∧ width + cWidth ≤ col then
        posLoop d line col turns (nextPos line pos d.encoding)
          (if byteAt line pos ≠ tab then width + cWidth
          else width + (d.tabSize - width.tmod d.tabSize))
      else (pos, width)

/-- `calc_pos` -/
def calcPos (d : Display) (line : List Byte) (col : Int) : Int :=
  (posLoop d line col line.length 0 0).1

/-- `calc_virt_pos`, without its assertions -/
def calcVirtPos (d : Display) (line : List Byte) (col : Int) : Int :=
  let (pos, width) := posLoop d line col line.length 0 0
  if pos = line.length then pos + (col - width) else pos

/-- Column `col` belongs to the character behind boundary `k`, or to what is behind the line. -/
def Contains (d : Display) (line : List Byte) (cs : List (List Byte)) (col : Int)
    (k : Nat) : Prop :=
  calcWidthTo d line (boundary cs k) ≤ col ∧
    (k = cs.length ∨ col < calcWidthTo d line (boundary cs (k + 1)))

/-- `calc_pos` gives the one boundary that a column belongs to. -/
def Locates (d : Display) (line : List Byte) (cs : List (List Byte)) (col : Int) : Prop :=
  ∃ k ≤ cs.length, calcPos d line col = boundary cs k ∧ Contains d line cs col k ∧
    ∀ k' ≤ cs.length, Contains d line cs col k' → k' = k

/-- `calc_pos` takes the columns of the boundaries back to them, or to a later boundary in the same
column. -/
def Inverts (d : Display) (line : List Byte) (cs : List (List Byte)) : Prop :=
  ∀ k ≤ cs.length, ∃ k' ≤ cs.length, k ≤ k' ∧
    calcPos d line (calcWidthTo d line (boundary cs k)) = boundary cs k' ∧
    calcWidthTo d line (boundary cs k') = calcWidthTo d line (boundary cs k)

/-- `calc_virt_pos` agrees with `calc_pos` inside of the line, and goes on in single columns. -/
def Continues (d : Display) (line : List Byte) (col : Int) : Prop :=
  if col < calcWidthTo d line line.length then calcVirtPos d line col = calcPos d line col
  else calcVirtPos d line col = line.length + (col - calcWidthTo d line line.length)

/-- A column behind the first one of a TAB. -/
def InTab (d : Display) (line : List Byte) (cs : List (List Byte)) (col : Int) : Prop :=
  ∃ k, cs[k]? = some [tab] ∧ calcWidthTo d line (boundary cs k) < col ∧
    col < calcWidthTo d line (boundary cs (k + 1))

variable {d : Display} {cs : List (List Byte)} {line : List Byte} {col : Int} {k n turns : Nat}

theorem calcWidthTo_boundary (h : Spells d.encoding cs line) (k : Nat) :
    calcWidthTo d line (boundary cs k) = width d (cs.take k) := by
  have hscan := @scanLine_row d (cs.take k) (cs.drop k) (by
    rw [List.take_append_drop]
    exact h.chars)
  rw [List.take_append_drop, h.bytes] at hscan
  rw [calcWidthTo, boundary, hscan, width]

theorem width_succ (hk : k < cs.length) :
    width d (cs.take (k + 1)) =
      width d (cs.take k) + charWidth d (width d (cs.take k)) cs[k] := by
  rw [List.take_succ_eq_append_getElem hk, width_append_singleton]

theorem width_lt (htab : 0 < d.tabSize) (hk : k < n) (hn : n ≤ cs.length) :
    width d (cs.take k) < width d (cs.take n) := by
  induction n with
  | zero => omega
  | succ n ih =>
      have hstep := width_succ (d := d) (show n < cs.length by omega)
      have hpos := charWidth_pos htab (width d (cs.take n)) cs[n]
      obtain rfl | hlt := Nat.eq_or_lt_of_le (Nat.lt_succ_iff.mp hk)
      · omega
      · have := ih hlt (by omega)
        omega

theorem posLoop_boundary (h : Spells d.encoding cs line) (hk : k < cs.length) (turns : Nat) :
    posLoop d line col (turns + 1) (boundary cs k) (width d (cs.take k)) =
      if width d (cs.take k) + getCharWidth d.terminal cs[k] d.encoding ≤ col then
        posLoop d line col turns (boundary cs (k + 1)) (width d (cs.take (k + 1)))
      else (boundary cs k, width d (cs.take k)) := by
  have hch : IsCharacter d.encoding cs[k] := h.chars _ (List.getElem_mem hk)
  have hline : line = (cs.take k).flatten ++ (cs[k] ++ (cs.drop (k + 1)).flatten) := by
    rw [← h.bytes, ← List.flatten_cons, ← List.flatten_append, ← List.drop_eq_getElem_cons hk,
      List.take_append_drop]
  have hplace : boundary cs k = (cs.take k).flatten.length := rfl
  have hbyte : byteAt line (boundary cs k) = cs[k].headD 0 := by
    rw [hplace, hline]
    exact byteAt_char hch _ _
  have hdrop : line.drop (boundary cs k).toNat = cs[k] ++ (cs.drop (k + 1)).flatten := by
    rw [hplace, Int.toNat_natCast, hline, List.drop_left]
  have hbefore : boundary cs k < line.length := by
    rw [← boundary_length h]
    exact boundary_lt h hk hk
  have hwidth : (if byteAt line (boundary cs k) ≠ tab then
        width d (cs.take k) + getCharWidth d.terminal cs[k] d.encoding
      else width d (cs.take k) + (d.tabSize - (width d (cs.take k)).tmod d.tabSize)) =
      width d (cs.take (k + 1)) := by
    rw [width_succ hk, charWidth, hbyte]
    by_cases htab : cs[k] = [tab]
    · rw [if_neg (not_not.mpr ((headD_eq_tab hch).mpr htab)), if_pos htab]
    · rw [if_pos (mt (headD_eq_tab hch).mp htab), if_neg htab]
  rw [posLoop, hdrop, getCharWidth_character hch, nextPos_boundary h hk, hwidth]
  simp only [hbefore, true_and]

/-- Where the loops stop: the character there does not fit before column `col`, as the loops
measure it. -/
structure Stops (d : Display) (cs : List (List Byte)) (col : Int) (n : Nat) : Prop where
  inside : n ≤ cs.length
  fits : ∀ j (hj : j < cs.length), j < n →
    width d (cs.take j) + getCharWidth d.terminal cs[j] d.encoding ≤ col
  full : ∀ hn : n < cs.length, col < width d (cs.take n) + getCharWidth d.terminal cs[n] d.encoding

theorem posLoop_stops (h : Spells d.encoding cs line) (hk : k ≤ cs.length)
    (hturns : cs.length - k ≤ turns)
    (hfits : ∀ j (hj : j < cs.length), j < k →
      width d (cs.take j) + getCharWidth d.terminal cs[j] d.encoding ≤ col) :
    ∃ n, Stops d cs col n ∧
      posLoop d line col turns (boundary cs k) (width d (cs.take k)) =
        (boundary cs n, width d (cs.take n)) := by
  induction turns generalizing k with
  | zero => exact ⟨k, ⟨hk, hfits, fun hn => by omega⟩, rfl⟩
  | succ turns ih =>
      obtain rfl | hlt := Nat.eq_or_lt_of_le hk
      · refine ⟨cs.length, ⟨le_rfl, hfits, fun hn => absurd hn (lt_irrefl _)⟩, ?_⟩
        rw [boundary_length h, posLoop, if_neg (fun hcond => absurd hcond.1 (lt_irrefl _))]
      · rw [posLoop_boundary h hlt]
        split
        · case _ hle =>
          refine ih hlt (by omega) fun j hj hjk => ?_
          obtain hj' | rfl := Nat.lt_succ_iff_lt_or_eq.mp hjk
          · exact hfits j hj hj'
          · exact hle
        · case _ hle => exact ⟨k, ⟨hk, hfits, fun _ => not_le.mp hle⟩, rfl⟩

theorem posLoop_line (h : Spells d.encoding cs line) (col : Int) :
    ∃ n, Stops d cs col n ∧
      posLoop d line col line.length 0 0 = (boundary cs n, width d (cs.take n)) := by
  have hturns : cs.length ≤ line.length := by
    have hle := length_le_boundary h le_rfl
    rw [boundary_length h] at hle
    exact hle
  exact posLoop_stops h (Nat.zero_le _) (by omega) (by omega)

theorem getCharWidth_le (htab : 0 < d.tabSize) (hk : k < cs.length) :
    width d (cs.take k) + getCharWidth d.terminal cs[k] d.encoding ≤ width d (cs.take (k + 1)) := by
  rw [width_succ hk]
  have hpos := charWidth_pos htab (width d (cs.take k)) cs[k]
  by_cases hch : cs[k] = [tab]
  · have hone : getCharWidth d.terminal cs[k] d.encoding = 1 := by
      rw [hch]
      rfl
    omega
  · rw [charWidth, if_neg hch]

theorem getCharWidth_before (htab : 0 < d.tabSize) (hn : n < cs.length) (hnk : n < k)
    (hk : k ≤ cs.length) :
    width d (cs.take n) + getCharWidth d.terminal cs[n] d.encoding ≤ width d (cs.take k) := by
  have hle := getCharWidth_le (d := d) htab hn
  obtain rfl | hlt := Nat.eq_or_lt_of_le (show n + 1 ≤ k from hnk)
  · exact hle
  · have hwidth := width_lt (d := d) htab hlt hk
    omega

theorem getCharWidth_eq (hk : k < cs.length) (hch : cs[k] ≠ [tab]) :
    width d (cs.take k) + getCharWidth d.terminal cs[k] d.encoding = width d (cs.take (k + 1)) := by
  rw [width_succ hk, charWidth, if_neg hch]

theorem inTab_iff (h : Spells d.encoding cs line) :
    InTab d line cs col ↔ ∃ k, ∃ hk : k < cs.length, cs[k] = [tab] ∧
      width d (cs.take k) < col ∧ col < width d (cs.take (k + 1)) := by
  simp only [InTab, calcWidthTo_boundary h, List.getElem?_eq_some_iff]
  constructor
  · rintro ⟨k, ⟨hk, htab⟩, hlt, hlt'⟩
    exact ⟨k, hk, htab, hlt, hlt'⟩
  · rintro ⟨k, hk, htab, hlt, hlt'⟩
    exact ⟨k, ⟨hk, htab⟩, hlt, hlt'⟩

theorem contains_iff (h : Spells d.encoding cs line) :
    Contains d line cs col k ↔ width d (cs.take k) ≤ col ∧
      (k = cs.length ∨ col < width d (cs.take (k + 1))) := by
  rw [Contains, calcWidthTo_boundary h, calcWidthTo_boundary h]

theorem contains_le (h : Spells d.encoding cs line) (htab : 0 < d.tabSize)
    (hk : Contains d line cs col k) (hn : Contains d line cs col n) (hn' : n ≤ cs.length) :
    n ≤ k := by
  rw [contains_iff h] at hk hn
  by_contra hlt
  obtain ⟨-, rfl | hnext⟩ := hk
  · exact hlt hn'
  · obtain heq | hgt := Nat.eq_or_lt_of_le (show k + 1 ≤ n by omega)
    · rw [heq] at hnext
      omega
    · have := width_lt htab hgt hn'
      omega

theorem Stops.contains (hn : Stops d cs col n) (h : Spells d.encoding cs line)
    (htab : 0 < d.tabSize) (hcol : 0 ≤ col) (hout : ¬ InTab d line cs col) :
    Contains d line cs col n := by
  rw [contains_iff h]
  constructor
  · obtain _ | m := n
    · exact hcol
    · have hm : m < cs.length := hn.inside
      have hfit := hn.fits m hm (Nat.lt_succ_self m)
      by_cases hch : cs[m] = [tab]
      · by_contra hlt
        have hpos := CharacterRows.getCharWidth_pos d.terminal cs[m] d.encoding
        exact hout ((inTab_iff h).mpr ⟨m, hm, hch, by omega, not_le.mp hlt⟩)
      · rw [getCharWidth_eq hm hch] at hfit
        exact hfit
  · obtain heq | hlt := Nat.eq_or_lt_of_le hn.inside
    · exact .inl heq
    · have hfull := hn.full hlt
      have hle := getCharWidth_le (d := d) htab hlt
      exact .inr (by omega)

theorem Stops.behind (hn : Stops d cs col n) (htab : 0 < d.tabSize) (hk : k < cs.length)
    (hch : cs[k] = [tab]) (hlt : width d (cs.take k) < col) : k < n := by
  by_contra hle
  have hnlen : n < cs.length := by omega
  have hfull := hn.full hnlen
  obtain heq | hnk := Nat.eq_or_lt_of_le (not_lt.mp hle)
  · subst heq
    have hone : getCharWidth d.terminal cs[n] d.encoding = 1 := by
      rw [hch]
      rfl
    omega
  · have hbefore := getCharWidth_before (d := d) htab hnlen hnk hk.le
    omega

theorem inverts (h : Spells d.encoding cs line) (htab : 0 < d.tabSize) : Inverts d line cs := by
  intro k hk
  obtain ⟨n, hn, hloop⟩ := posLoop_line h (calcWidthTo d line (boundary cs k))
  rw [calcWidthTo_boundary h] at hn
  have hnk : n = k := by
    by_contra hne
    obtain hlt | hlt := Nat.lt_or_gt_of_ne hne
    · have hnlen : n < cs.length := lt_of_lt_of_le hlt hk
      have hfull := hn.full hnlen
      have hbefore := getCharWidth_before (d := d) htab hnlen hlt hk
      omega
    · have hklen : k < cs.length := lt_of_lt_of_le hlt hn.inside
      have hfit := hn.fits k hklen hlt
      have hpos := CharacterRows.getCharWidth_pos d.terminal cs[k] d.encoding
      omega
  refine ⟨k, hk, le_rfl, ?_, rfl⟩
  rw [calcPos, hloop, hnk]

theorem locates_iff (h : Spells d.encoding cs line) (htab : 0 < d.tabSize) (hcol : 0 ≤ col) :
    Locates d line cs col ↔ ¬ InTab d line cs col := by
  obtain ⟨n, hn, hloop⟩ := posLoop_line h col
  have hpos : calcPos d line col = boundary cs n := by rw [calcPos, hloop]
  constructor
  · rintro ⟨k, hk, heq, hcontains, hunique⟩ htabIn
    obtain ⟨m, hm, hch, hlt, hlt'⟩ := (inTab_iff h).mp htabIn
    have hmk : m = k := hunique m hm.le ((contains_iff h).mpr ⟨hlt.le, .inr hlt'⟩)
    have hbehind := hn.behind htab hm hch hlt
    have hplaces := boundary_lt h hm hbehind
    rw [← hpos, heq, hmk] at hplaces
    exact lt_irrefl _ hplaces
  · intro hout
    have hcontains := hn.contains h htab hcol hout
    refine ⟨n, hn.inside, hpos, hcontains, fun k' hk' hcontains' => ?_⟩
    exact Nat.le_antisymm (contains_le h htab hcontains hcontains' hk')
      (contains_le h htab hcontains' hcontains hn.inside)

theorem continues (h : Spells d.encoding cs line) (htab : 0 < d.tabSize) (hcol : 0 ≤ col)
    (hout : ¬ InTab d line cs col) : Continues d line col := by
  obtain ⟨n, hn, hloop⟩ := posLoop_line h col
  have hcontains := (contains_iff h).mp (hn.contains h htab hcol hout)
  have hall : calcWidthTo d line line.length = width d cs := by
    rw [← boundary_length h, calcWidthTo_boundary h, List.take_length]
  rw [Continues, hall]
  obtain rfl | hlt := Nat.eq_or_lt_of_le hn.inside
  · rw [List.take_length] at hcontains
    rw [if_neg (not_lt.mpr hcontains.1), calcVirtPos, hloop, boundary_length h, List.take_length]
    exact if_pos rfl
  · have hplace := boundary_lt h hlt hlt
    rw [boundary_length h] at hplace
    have hbefore := getCharWidth_before (d := d) htab hlt hlt le_rfl
    have hfull := hn.full hlt
    rw [List.take_length] at hbefore
    rw [if_pos (by omega), calcVirtPos, calcPos, hloop]
    exact if_neg (ne_of_lt hplace)

/-- `calc_pos` and `calc_virt_pos` take columns back to positions, but for the columns inside of a
TAB: the loops test the width of a TAB as that of one column. -/
theorem calcPos_inverse_iff (h : Spells d.encoding cs line) (htab : 0 < d.tabSize)
    (hcol : 0 ≤ col) :
    Locates d line cs col ∧ Inverts d line cs ∧ Continues d line col ↔
      ¬ InTab d line cs col := by
  constructor
  · rintro ⟨hlocates, -, -⟩
    exact (locates_iff h htab hcol).mp hlocates
  · intro hout
    exact ⟨(locates_iff h htab hcol).mpr hout, inverts h htab, continues h htab hcol hout⟩

/-- TABs of eight columns -/
def eightColumns : Display := ⟨⟨25, 80, fun _ => 1, twentyFive_pos, eighty_pos⟩, 8, .ascii⟩

theorem spells_indented : Spells eightColumns.encoding [[tab], [120]] [tab, 120] :=
  ⟨by decide, rfl⟩

/-- Column 8 is the one of the `x` behind a TAB. -/
theorem calcPos_inverse_indented :
    Locates eightColumns [tab, 120] [[tab], [120]] 8 ∧
      Inverts eightColumns [tab, 120] [[tab], [120]] ∧ Continues eightColumns [tab, 120] 8 := by
  refine (calcPos_inverse_iff spells_indented (by decide) (by decide)).mpr fun hin => ?_
  obtain ⟨k, hk, htab, hlt, hlt'⟩ := (inTab_iff spells_indented).mp hin
  obtain _ | _ | k := k
  · exact absurd hlt' (by decide)
  · have hx : [(120 : Byte)] = [tab] := htab
    exact absurd hx (by decide)
  · exact absurd hk (by simp)

/-- Column 3 belongs to the TAB, and `calc_pos` gives the position behind it. -/
theorem not_calcPos_inverse :
    ¬ ∀ (d : Display) (cs : List (List Byte)) (line : List Byte) (col : Int),
      Spells d.encoding cs line → 0 < d.tabSize → 0 ≤ col →
        Locates d line cs col ∧ Inverts d line cs ∧ Continues d line col := by
  intro h
  obtain ⟨hlocates, -, -⟩ :=
    h eightColumns _ _ 3 spells_indented (by decide) (by decide)
  exact (locates_iff spells_indented (by decide) (by decide)).mp hlocates
    ⟨0, rfl, by decide, by decide⟩

end NiceEditor.ColumnPositions
