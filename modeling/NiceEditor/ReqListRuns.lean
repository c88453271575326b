import NiceEditor.ReqListOrder

/-!
Runs of the lists of the requesters: their entries, suffixes and lengths stay those that have
been added, until the completer sorts its entries without the lengths.
-/

namespace NiceEditor.ReqListRuns

open NiceEditor.Pools
open NiceEditor.Blocks
open NiceEditor.Arenas
open NiceEditor.SortedLists
open NiceEditor.KeyBindings
open NiceEditor.ReqLists
open NiceEditor.ReqListOrder

/-- A call of `req_list_add` that an entry comes from. -/
structure Added where
  str : List Byte
  suffix : Bool
deriving DecidableEq, Inhabited

/-- The calls that the entries come from after another call of `req_list_add`: there is one
more if there is one more entry, at the place of the pointer that it returns. -/
def afterAdd (rla : ReqList) (result : Option Int × ReqList) (a : Added) (added : List Added) :
    List Added :=
  if rla.entries.length < result.2.entries.length then
    added.insertIdx (result.2.entries.idxOf (result.1.getD 0)) a
  else added

/-- The calls that the entries come from after `req_list_del`. -/
def afterDel (rld : ReqList) (nth : Int) (added : List Added) : List Added :=
  if nth < 0 ∨ rld.entries.length ≤ nth then added else added.eraseIdx nth.toNat

/-- The calls that the entries come from in a table of the same pointers. -/
def afterSort (rl : ReqList) (entries : List Int) (added : List Added) : List Added :=
  entries.map fun p => added.getD (rl.entries.idxOf p) default

/-- The lists that a requester can have, whether they are finalized, and the calls that their
entries come from. -/
inductive Reached (lower : Byte → Byte) (u : Requester) : Bool → ReqList → List Added → Prop
  | init (g : Answers) (reorder : Option (List Nat)) :
      Reached lower u false (u.init lower g reorder) []
  | add {rl : ReqList} {added : List Added} (g : Answers) (str : List Byte) (suffix : Bool)
      (h : Reached lower u false rl added) (hstr : u.Supplies str) :
      Reached lower u false (reqListAdd g rl str suffix).2
        (afterAdd rl (reqListAdd g rl str suffix) ⟨str, suffix⟩ added)
  | del {final : Bool} {rl : ReqList} {added : List Added} (nth : Int)
      (h : Reached lower u final rl added) :
      Reached lower u final (reqListDel rl nth).2 (afterDel rl nth added)
  | finalize {rl : ReqList} {added : List Added} (granted : Bool)
      (h : Reached lower u false rl added) :
      Reached lower u true (reqListFinalize granted rl) added

/-- What an entry shows: the string at its pointer, and the one behind its terminator. -/
def shown (rl : ReqList) (p : Int) : List Byte × List Byte :=
  (rl.stringAt p, rl.stringAt (p + (rl.stringAt p).length + 1))

/-- What the entry of a call has to show. -/
def kept (rl : ReqList) (final : Bool) (a : Added) : List Byte × List Byte :=
  if final then (a.str ++ rl.mark a.suffix, []) else (a.str, rl.mark a.suffix)

/-- Every entry shows what has been added. -/
def Kept (final : Bool) (rl : ReqList) (added : List Added) : Prop :=
  rl.entries.map (shown rl) = added.map (kept rl final)

/-- The lengths are those recorded when the entries were added. -/
def Aligned (rl : ReqList) (added : List Added) : Prop :=
  rl.lengths = added.map fun a => rl.lentot a.str a.suffix

/-- In the order of `strdictcmp`, every string has the length of the one at the same index. -/
def LengthsAgree (lower : Byte → Byte) (ss : List (List Byte)) : Prop :=
  ∀ s ∈ ss, ∀ k t, before (strdictcmp lower) ss s ≤ k → k < upTo (strdictcmp lower) ss s →
    ss[k]? = some t → t.length = s.length

variable {lower : Byte → Byte} {u : Requester} {final : Bool} {rl rl' : ReqList}
variable {g : Answers} {added : List Added} {placed : List (Nat × Added)} {a : Added}

section Cells

/-- What is stored for an entry: two strings, each with its terminator. -/
def cells (rl : ReqList) (final : Bool) (a : Added) : List Byte :=
  (kept rl final a).1 ++ 0 :: ((kept rl final a).2 ++ [0])

/-- The piece of `chars` of an entry -/
def piece (rl : ReqList) (final : Bool) (x : Nat × Added) : Piece Byte := ⟨x.1, cells rl final x.2⟩

theorem length_mark (rl : ReqList) (suffix : Bool) :
    (rl.mark suffix).length + 2 = if rl.suffix ≠ 0 ∧ suffix then 3 else 2 := by
  rw [ReqList.mark]
  split <;> rfl

theorem mark_zero (rl : ReqList) (suffix : Bool) : 0 ∉ rl.mark suffix := by
  rw [ReqList.mark]
  split
  · next h => exact fun hmem => h.1 (List.mem_singleton.mp hmem).symm
  · exact List.not_mem_nil

theorem kept_zero (rl : ReqList) (final : Bool) (ha : 0 ∉ a.str) :
    0 ∉ (kept rl final a).1 ∧ 0 ∉ (kept rl final a).2 := by
  have hmark := mark_zero rl a.suffix
  cases final <;> simp [kept, ha, hmark]

theorem length_cells (rl : ReqList) (final : Bool) (a : Added) :
    (cells rl final a).length = rl.lentot a.str a.suffix := by
  have hmark := length_mark rl a.suffix
  rw [ReqList.lentot, ← hmark]
  cases final <;> simp [cells, kept]

theorem second_le (rl : ReqList) (final : Bool) (a : Added) : (kept rl final a).2.length ≤ 1 := by
  have hmark := length_mark rl a.suffix
  cases final
  · simp only [kept, Bool.false_eq_true, if_false]
    split at hmark <;> omega
  · exact Nat.zero_le 1

theorem cells_ne_nil (rl : ReqList) (final : Bool) (a : Added) : cells rl final a ≠ [] := by
  simp [cells]

theorem takeWhile_terminated {s : List Byte} (hs : 0 ∉ s) (t : List Byte) :
    (s ++ 0 :: t).takeWhile (· != 0) = s := by
  have hne : ∀ c ∈ s, (c != 0) = true := fun c hc => bne_iff_ne.mpr fun h => hs (h ▸ hc)
  rw [List.takeWhile_append_of_pos hne]
  simp

theorem offset_add (rl : ReqList) (n : Nat) : rl.offset (rl.address + n) = n := by
  rw [ReqList.offset]
  omega

theorem stringAt_eq {s t : List Byte} {o : Nat} (hs : 0 ∉ s) (h : rl.chars.drop o = s ++ 0 :: t) :
    rl.stringAt (rl.address + o) = s := by
  rw [ReqList.stringAt, offset_add, h, takeWhile_terminated hs]

theorem shown_eq {s t r : List Byte} {o : Nat} (hs : 0 ∉ s) (ht : 0 ∉ t)
    (h : rl.chars.drop o = s ++ 0 :: (t ++ 0 :: r)) : shown rl (rl.address + o) = (s, t) := by
  have hsecond : rl.chars.drop (o + s.length + 1) = t ++ 0 :: r := by
    rw [Nat.add_assoc, ← List.drop_drop, h, ← List.drop_drop, List.drop_left]
    rfl
  rw [shown, stringAt_eq hs h, show rl.address + (o : Int) + (s.length : Int) + 1 =
    rl.address + ((o + s.length + 1 : Nat) : Int) by omega, stringAt_eq ht hsecond]

theorem byteAt_eq {s t : List Byte} {c : Byte} {o : Nat} (h : rl.chars.drop o = s ++ 0 :: c :: t) :
    rl.byteAt (rl.address + o + s.length + 1) = c := by
  rw [ReqList.byteAt, show rl.address + (o : Int) + (s.length : Int) + 1 =
    rl.address + ((o + (s.length + 1) : Nat) : Int) by omega, offset_add,
    List.getD_eq_getElem?_getD,
    ← List.getElem?_drop, h, List.getElem?_append_right (by omega)]
  simp

end Cells

section Layout

/-- The entries are laid out in `chars`: each has a piece of its own there. -/
structure Laid (final : Bool) (rl : ReqList) (placed : List (Nat × Added)) : Prop where
  arranged : Arranged rl.chars rl.curChars (placed.map (piece rl final))
  entries : rl.entries = placed.map fun x => rl.address + x.1
  strings : ∀ x ∈ placed, 0 ∉ x.2.str

variable {x : Nat × Added}

theorem Laid.drop_eq (h : Laid final rl placed) (hx : x ∈ placed) :
    ∃ rest, rl.chars.drop x.1 =
      (kept rl final x.2).1 ++ 0 :: ((kept rl final x.2).2 ++ 0 :: rest) := by
  obtain ⟨rest, hrest⟩ := h.arranged.holds _ (List.mem_map_of_mem hx)
  refine ⟨rest, hrest.symm.trans ?_⟩
  simp [piece, cells]

theorem Laid.shown_eq (h : Laid final rl placed) (hx : x ∈ placed) :
    shown rl (rl.address + x.1) = kept rl final x.2 := by
  obtain ⟨rest, hrest⟩ := h.drop_eq hx
  obtain ⟨hfirst, hsecond⟩ := kept_zero rl final (h.strings x hx)
  exact ReqListRuns.shown_eq hfirst hsecond hrest

theorem Laid.stringAt_eq (h : Laid final rl placed) (hx : x ∈ placed) :
    rl.stringAt (rl.address + x.1) = (kept rl final x.2).1 :=
  congrArg Prod.fst (h.shown_eq hx)

theorem Laid.kept (h : Laid final rl placed) : Kept final rl (placed.map Prod.snd) := by
  rw [Kept, h.entries, List.map_map, List.map_map]
  exact List.map_congr_left fun x hx => h.shown_eq hx

theorem Laid.strings_eq (h : Laid final rl placed) :
    rl.strings = placed.map fun x => (ReqListRuns.kept rl final x.2).1 := by
  rw [ReqList.strings, h.entries, List.map_map]
  exact List.map_congr_left fun x hx => h.stringAt_eq hx

theorem Laid.delLength_eq (h : Laid final rl placed) (hx : x ∈ placed) :
    delLength rl (rl.address + x.1) = rl.lentot x.2.str x.2.suffix := by
  obtain ⟨rest, hrest⟩ := h.drop_eq hx
  obtain ⟨_, hzero⟩ := kept_zero rl final (h.strings x hx)
  have hle := second_le rl final x.2
  rw [delLength, h.stringAt_eq hx, ← length_cells rl final, cells]
  cases hsecond : (ReqListRuns.kept rl final x.2).2 with
  | nil =>
      rw [hsecond, List.nil_append] at hrest
      rw [byteAt_eq hrest, if_neg (not_not_intro rfl)]
      simp
  | cons c t =>
      rw [hsecond] at hrest hzero hle
      obtain rfl : t = [] := List.length_eq_zero_iff.mp (by rw [List.length_cons] at hle; omega)
      have hc : c ≠ 0 := fun h => hzero (h ▸ List.mem_cons_self)
      rw [byteAt_eq hrest, if_pos hc]
      simp

end Layout

section Adding

/-- What the operations leave of a list. -/
def Alike (rl rl' : ReqList) : Prop :=
  rl'.cmpfnc = rl.cmpfnc ∧ rl'.allowDupes = rl.allowDupes ∧ rl'.suffix = rl.suffix

theorem growChars_laid {k : Nat} (h : Laid final rl placed) (hgrow : growChars g rl k = some rl') :
    Laid final rl' placed ∧ rl'.curChars + k ≤ rl'.chars.length ∧ Alike rl rl' ∧
      rl'.lengths = rl.lengths := by
  rw [growChars] at hgrow
  by_cases hroom : rl.chars.length < rl.curChars + k
  · rw [if_pos hroom, Option.map_eq_some_iff] at hgrow
    obtain ⟨⟨p1, fresh⟩, -, rfl⟩ := hgrow
    have htop := h.arranged.top_le
    refine ⟨⟨h.arranged.congr ?_ ?_, ?_, h.strings⟩, ?_, ⟨rfl, rfl, rfl⟩, rfl⟩
    · exact resize_take htop (by omega)
    · rw [resize_length]
      omega
    · simp only [h.entries, List.map_map]
      refine List.map_congr_left fun x _ => ?_
      simp only [Function.comp_apply]
      omega
    · simp only [resize_length]
      omega
  · rw [if_neg hroom, Option.some.injEq] at hgrow
    subst hgrow
    exact ⟨h, by omega, ⟨rfl, rfl, rfl⟩, rfl⟩

theorem growEntries_laid (h : Laid final rl placed) (hgrow : growEntries g rl = some rl') :
    Laid final rl' placed ∧ ∃ alloc, rl' = { rl with allocEntries := alloc } := by
  rw [growEntries] at hgrow
  split at hgrow
  · split at hgrow
    · rw [Option.some.injEq] at hgrow
      subst hgrow
      exact ⟨⟨h.arranged, h.entries, h.strings⟩, _, rfl⟩
    · cases hgrow
  · rw [Option.some.injEq] at hgrow
    subst hgrow
    exact ⟨h, _, rfl⟩

theorem putEntry_laid {str : List Byte} {suffix : Bool} {ins : Nat} (h : Laid false rl placed)
    (hroom : rl.curChars + rl.lentot str suffix ≤ rl.chars.length) (hstr : 0 ∉ str)
    (hins : ins ≤ placed.length) :
    Laid false (putEntry rl str suffix ins)
      (placed.insertIdx ins (rl.curChars, ⟨str, suffix⟩)) where
  arranged := by
    have hcells : str ++ [0] ++ rl.mark suffix ++ [0] = cells rl false ⟨str, suffix⟩ := by
      simp [cells, ReqListRuns.kept]
    have hlen := length_cells rl false ⟨str, suffix⟩
    have hpush : Arranged (overwrite rl.chars rl.curChars (cells rl false ⟨str, suffix⟩))
        (rl.curChars + (cells rl false ⟨str, suffix⟩).length)
        (piece rl false (rl.curChars, ⟨str, suffix⟩) :: placed.map (piece rl false)) :=
      h.arranged.push (by rw [hlen]; exact hroom)
    have hperm : ((rl.curChars, (⟨str, suffix⟩ : Added)) :: placed).Perm
        (placed.insertIdx ins (rl.curChars, ⟨str, suffix⟩)) :=
      (List.perm_insertIdx _ placed hins).symm
    have hlaid := hpush.perm (hperm.map (piece rl false))
    rw [hlen] at hlaid
    rw [putEntry, hcells]
    exact hlaid
  entries := by
    rw [List.map_insertIdx]
    change rl.entries.insertIdx ins _ = _
    rw [h.entries]
    rfl
  strings := by
    intro x hx
    obtain rfl | hx := (List.mem_insertIdx hins).mp hx
    · exact hstr
    · exact h.strings x hx

theorem idxOf_putEntry {str : List Byte} {suffix : Bool} {ins : Nat} (h : Laid false rl placed)
    (hins : ins ≤ placed.length) :
    (putEntry rl str suffix ins).entries.idxOf (rl.address + rl.curChars) = ins := by
  have hlen : ins ≤ rl.entries.length := by
    rw [h.entries, List.length_map]
    exact hins
  have hnew : rl.address + (rl.curChars : Int) ∉ rl.entries.take ins := fun hmem => by
    have hmem := List.mem_of_mem_take hmem
    rw [h.entries] at hmem
    obtain ⟨x, hx, heq⟩ := List.mem_map.mp hmem
    have hbelow := h.arranged.below _ (List.mem_map_of_mem hx)
    have hpos := List.length_pos_iff.mpr (cells_ne_nil rl false x.2)
    simp only [piece, Piece.stop] at hbelow
    omega
  rw [putEntry, insertIdx_eq hlen, List.idxOf_append_of_notMem hnew, List.idxOf_cons_self,
    List.length_take]
  omega

/-- What `req_list_add` does: nothing, or there is a new entry at the place that fits. -/
theorem reqListAdd_laid {str : List Byte} {suffix : Bool} (h : Laid false rl placed)
    (halign : Aligned rl (placed.map Prod.snd)) (hstr : 0 ∉ str)
    (hplace : ∀ ins, place rl str = .slot ins → ins ≤ placed.length) :
    ∃ placed', Laid false (reqListAdd g rl str suffix).2 placed' ∧
      Alike rl (reqListAdd g rl str suffix).2 ∧
      afterAdd rl (reqListAdd g rl str suffix) ⟨str, suffix⟩ (placed.map Prod.snd) =
        placed'.map Prod.snd ∧
      Aligned (reqListAdd g rl str suffix).2 (placed'.map Prod.snd) ∧
      (placed'.map Prod.snd = placed.map Prod.snd ∨ ∃ ins, place rl str = .slot ins ∧
        placed'.map Prod.snd = (placed.map Prod.snd).insertIdx ins ⟨str, suffix⟩) := by
  have hsame : ∀ r : Option Int × ReqList, r.2.entries.length = rl.entries.length →
      afterAdd rl r ⟨str, suffix⟩ (placed.map Prod.snd) = placed.map Prod.snd := fun r hr =>
    if_neg (by omega)
  cases hpl : place rl str with
  | conflict n =>
      have hadd : reqListAdd g rl str suffix = (rl.entries[n]?, rl) := by rw [reqListAdd, hpl]
      rw [hadd]
      exact ⟨placed, h, ⟨rfl, rfl, rfl⟩, hsame _ rfl, halign, Or.inl rfl⟩
  | slot ins =>
      have hins := hplace ins hpl
      cases hchars : growChars g rl (rl.lentot str suffix) with
      | none =>
          have hadd : reqListAdd g rl str suffix = (none, rl) := by
            rw [reqListAdd, hpl]
            simp only [hchars]
          rw [hadd]
          exact ⟨placed, h, ⟨rfl, rfl, rfl⟩, hsame _ rfl, halign, Or.inl rfl⟩
      | some rl1 =>
          obtain ⟨hlaid1, hroom, halike, hlengths⟩ := growChars_laid h hchars
          have hlen1 : rl1.entries.length = rl.entries.length := by
            rw [hlaid1.entries, h.entries, List.length_map, List.length_map]
          have halign1 : Aligned rl1 (placed.map Prod.snd) := by
            rw [Aligned, hlengths, halign]
            simp only [ReqList.lentot, halike.2.2]
          cases hentries : growEntries g rl1 with
          | none =>
              have hadd : reqListAdd g rl str suffix = (none, rl1) := by
                rw [reqListAdd, hpl]
                simp only [hchars, hentries]
              rw [hadd]
              exact ⟨placed, hlaid1, halike, hsame _ hlen1, halign1, Or.inl rfl⟩
          | some rl2 =>
              obtain ⟨hlaid2, alloc, rfl⟩ := growEntries_laid hlaid1 hentries
              have hadd : reqListAdd g rl str suffix = (some (rl1.address + rl1.curChars),
                  putEntry { rl1 with allocEntries := alloc } str suffix ins) := by
                rw [reqListAdd, hpl]
                simp only [hchars, hentries]
              have hlentot : rl1.lentot str suffix = rl.lentot str suffix := by
                rw [ReqList.lentot, halike.2.2, ReqList.lentot]
              have hmap :
                  (placed.insertIdx ins (rl1.curChars, (⟨str, suffix⟩ : Added))).map Prod.snd =
                  (placed.map Prod.snd).insertIdx ins ⟨str, suffix⟩ := List.map_insertIdx _ _ _ _
              have hidx := @idxOf_putEntry { rl1 with allocEntries := alloc } placed str suffix ins
                hlaid2 hins
              have hmore : rl.entries.length <
                  (putEntry { rl1 with allocEntries := alloc } str suffix ins).entries.length := by
                have hle : ins ≤ rl1.entries.length := by
                  rw [hlaid1.entries, List.length_map]
                  exact hins
                rw [putEntry, List.length_insertIdx_of_le_length hle]
                omega
              rw [hadd]
              refine ⟨placed.insertIdx ins (rl1.curChars, ⟨str, suffix⟩),
                putEntry_laid hlaid2 (hlentot ▸ hroom) hstr hins, halike, ?_, ?_,
                Or.inr ⟨ins, rfl, hmap⟩⟩
              · rw [afterAdd, if_pos hmore, hmap]
                exact congrArg (List.insertIdx _ · _) hidx
              · rw [hmap, Aligned, List.map_insertIdx]
                exact congrArg (List.insertIdx · ins _) halign1

end Adding

section Deleting

/-- What `req_list_del` does to an entry in range: it and its piece are gone. -/
theorem reqListDel_laid {n : Nat} (h : Laid final rl placed) (hn : n < placed.length)
    (halign : Aligned rl (placed.map Prod.snd)) :
    ∃ placed', Laid final (reqListDel rl n).2 placed' ∧ Alike rl (reqListDel rl n).2 ∧
      placed'.map Prod.snd = (placed.map Prod.snd).eraseIdx n ∧
      Aligned (reqListDel rl n).2 (placed'.map Prod.snd) := by
  have hlen : rl.entries.length = placed.length := by rw [h.entries, List.length_map]
  obtain ⟨ps, x, qs, hsplit, hps⟩ : ∃ ps x qs, placed = ps ++ x :: qs ∧ ps.length = n :=
    ⟨placed.take n, placed[n], placed.drop (n + 1), by simp, by simp; omega⟩
  have hx : x ∈ placed := hsplit ▸ List.mem_append_right _ List.mem_cons_self
  have hstr : rl.entries.getD n 0 = rl.address + x.1 := by
    rw [h.entries, hsplit, List.getD_eq_getElem?_getD, List.getElem?_map,
      List.getElem?_append_right (by omega), hps]
    simp
  have hdel : delLength rl (rl.address + x.1) = (cells rl final x.2).length := by
    rw [h.delLength_eq hx, length_cells]
  have herase : placed.eraseIdx n = ps ++ qs := by
    rw [List.eraseIdx_eq_take_drop_succ, hsplit, ← hps, List.take_left, ← List.drop_drop,
      List.drop_left]
    rfl
  have hpieces : Arranged rl.chars rl.curChars
      (ps.map (piece rl final) ++ piece rl final x :: qs.map (piece rl final)) := by
    have harranged := h.arranged
    rw [hsplit, List.map_append, List.map_cons] at harranged
    exact harranged
  have hne : ∀ q ∈ ps.map (piece rl final) ++ qs.map (piece rl final), q.cells ≠ [] := by
    intro q hq
    rw [← List.map_append] at hq
    obtain ⟨y, _, rfl⟩ := List.mem_map.mp hq
    exact cells_ne_nil rl final y.2
  have hremoved := hpieces.remove hne
  rw [← List.map_append, List.map_map] at hremoved
  -- no other entry begins inside the piece that is taken away
  have hbehind : ∀ y ∈ ps ++ qs, x.1 ≤ y.1 → (cells rl final x.2).length ≤ y.1 := by
    intro y hy hle
    have hfirst := (apart_perm List.perm_middle).mp hpieces.apart
    rw [← List.map_append] at hfirst
    have hsides := ((List.pairwise_cons.mp hfirst).1 _ (List.mem_map_of_mem hy)).sides
      (cells_ne_nil rl final y.2)
    simp only [piece, Piece.stop] at hsides
    omega
  have hresult : (reqListDel rl n).2 =
      { rl with
        chars := compact rl.chars x.1 (cells rl final x.2).length
        curChars := rl.curChars - (cells rl final x.2).length
        entries := ((rl.entries.map fun p => if rl.address + x.1 ≤ p then
          p - (cells rl final x.2).length else p).eraseIdx n)
        lengths := rl.lengths.eraseIdx n
        reorder := rl.reorder.map (dropReorder · n) } := by
    rw [reqListDel, if_neg (by omega)]
    simp only [Int.toNat_natCast, hstr, hdel, offset_add]
  rw [hresult]
  have hcalls : ((ps ++ qs).map fun y => (((piece rl final y).shift x.1
      (cells rl final x.2).length).start, y.2)).map Prod.snd =
        (placed.map Prod.snd).eraseIdx n := by
    rw [List.map_map, List.eraseIdx_map, herase]
    rfl
  refine ⟨(ps ++ qs).map fun y => (((piece rl final y).shift x.1
    (cells rl final x.2).length).start, y.2), ⟨?_, ?_, ?_⟩, ⟨rfl, rfl, rfl⟩, hcalls, ?_⟩
  · rw [List.map_map]
    exact hremoved
  · simp only [h.entries, List.map_map, List.eraseIdx_map, herase]
    refine List.map_congr_left fun y hy => ?_
    have hle := hbehind y hy
    simp only [Function.comp_apply, Piece.shift_start, piece]
    split <;> split <;> omega
  · intro y' hy'
    obtain ⟨y, hy, rfl⟩ := List.mem_map.mp hy'
    refine h.strings y ?_
    rw [hsplit]
    exact List.perm_middle.symm.subset (List.mem_cons_of_mem _ hy)
  · rw [hcalls]
    exact (congrArg (List.eraseIdx · n) halign).trans (List.eraseIdx_map _ _ _)

end Deleting

section Finalizing

theorem mark_cons (rl : ReqList) (suffix : Bool) :
    ∃ c t, rl.mark suffix ++ [0] = c :: t ∧ rl.mark suffix ++ [0, 0] = c :: 0 :: t := by
  rw [ReqList.mark]
  split
  · exact ⟨rl.suffix, [0], rfl, rfl⟩
  · exact ⟨0, [], rfl, rfl⟩

/-- A turn of the loop rewrites the piece of the entry. -/
theorem finalizeEntry_eq {x : Nat × Added} (ha : 0 ∉ x.2.str)
    (hin : (piece rl false x).In rl.chars) :
    finalizeEntry rl (rl.address + x.1) =
      { rl with chars := overwrite rl.chars x.1 (cells rl true x.2) } := by
  obtain ⟨rest, hrest⟩ := hin
  obtain ⟨c, t, hone, htwo⟩ := mark_cons rl x.2.suffix
  have hdrop : rl.chars.drop x.1 = x.2.str ++ 0 :: c :: (t ++ rest) := by
    rw [← List.cons_append, ← hone]
    refine hrest.symm.trans ?_
    simp [piece, cells, kept]
  have htrue : cells rl true x.2 = x.2.str ++ c :: 0 :: t := by
    rw [← htwo]
    simp [cells, kept]
  have hpre : x.1 ≤ rl.chars.length := by
    by_contra hlt
    rw [List.drop_eq_nil_of_le (by omega)] at hdrop
    simp at hdrop
  have hchars : rl.chars = rl.chars.take x.1 ++ (x.2.str ++ 0 :: c :: (t ++ rest)) := by
    rw [← hdrop, List.take_append_drop]
  have hlen : (rl.chars.take x.1).length = x.1 := List.length_take_of_le hpre
  generalize rl.chars.take x.1 = pre at hchars hlen
  have hstring : rl.stringAt (rl.address + x.1) = x.2.str := stringAt_eq ha hdrop
  have hbyte : rl.byteAt (rl.address + x.1 + x.2.str.length + 1) = c := byteAt_eq hdrop
  have hoffset : rl.offset (rl.address + x.1 + x.2.str.length) = (pre ++ x.2.str).length := by
    rw [ReqList.offset, List.length_append]
    omega
  have hoffset' : rl.offset (rl.address + x.1 + x.2.str.length + 1) =
      (pre ++ x.2.str ++ [c]).length := by
    rw [ReqList.offset, List.length_append, List.length_append, List.length_singleton]
    omega
  have hfirst : overwrite rl.chars (pre ++ x.2.str).length [c] =
      pre ++ x.2.str ++ [c] ++ ([c] ++ (t ++ rest)) := by
    have h := @overwrite_middle _ [c] (pre ++ x.2.str) [0] (c :: (t ++ rest)) rfl
    rw [hchars]
    simpa using h
  have hwhole : overwrite rl.chars x.1 (cells rl true x.2) =
      pre ++ x.2.str ++ [c] ++ ([0] ++ (t ++ rest)) := by
    have h := @overwrite_middle _ (x.2.str ++ c :: 0 :: t) pre (x.2.str ++ 0 :: c :: t) rest
      (by simp)
    rw [htrue, hchars, ← hlen]
    simpa using h
  have hsecond : overwrite (pre ++ x.2.str ++ [c] ++ ([c] ++ (t ++ rest)))
      (pre ++ x.2.str ++ [c]).length [0] = pre ++ x.2.str ++ [c] ++ ([0] ++ (t ++ rest)) :=
    @overwrite_middle _ [0] _ [c] _ rfl
  rw [finalizeEntry]
  simp only [hstring, hbyte, hoffset, hoffset', hfirst, hwhole, hsecond]

theorem foldl_finalizeEntry {todo done : List (Nat × Added)} (hstr : ∀ x ∈ todo, 0 ∉ x.2.str)
    (h : Arranged rl.chars rl.curChars
      (done.map (piece rl true) ++ todo.map (piece rl false))) :
    ∃ chars, (todo.map fun x => rl.address + (x.1 : Int)).foldl finalizeEntry rl =
        { rl with chars := chars } ∧
      Arranged chars rl.curChars ((done ++ todo).map (piece rl true)) := by
  induction todo generalizing done rl with
  | nil => exact ⟨rl.chars, rfl, by simpa using h⟩
  | cons x todo ih =>
      have hin : (piece rl false x).In rl.chars :=
        h.holds _ (List.mem_append_right _ List.mem_cons_self)
      have hturn := finalizeEntry_eq (hstr x List.mem_cons_self) hin
      have hlen : (cells rl true x.2).length = (piece rl false x).cells.length := by
        rw [length_cells]
        exact (length_cells rl false x.2).symm
      have hrewritten := h.rewrite hlen
      have hnext : Arranged (overwrite rl.chars x.1 (cells rl true x.2)) rl.curChars
          ((done ++ [x]).map (piece rl true) ++ todo.map (piece rl false)) := by
        rw [List.map_append, List.append_assoc]
        exact hrewritten
      obtain ⟨chars, hfold, harranged⟩ :=
        @ih { rl with chars := overwrite rl.chars x.1 (cells rl true x.2) } (done ++ [x])
          (fun y hy => hstr y (List.mem_cons_of_mem _ hy)) hnext
      refine ⟨chars, ?_, ?_⟩
      · rw [List.map_cons, List.foldl_cons, hturn]
        exact hfold
      · rw [List.append_assoc] at harranged
        exact harranged

theorem reqListFinalize_laid (h : Laid false rl placed) (granted : Bool) :
    Laid true (reqListFinalize granted rl) placed ∧ Alike rl (reqListFinalize granted rl) ∧
      (reqListFinalize granted rl).lengths = rl.lengths := by
  obtain ⟨chars, hfold, harranged⟩ := @foldl_finalizeEntry rl placed [] h.strings h.arranged
  rw [← h.entries] at hfold
  have hlaid : Laid true { rl with chars := chars } placed := ⟨harranged, h.entries, h.strings⟩
  rw [reqListFinalize, hfold]
  simp only
  split
  · split
    · exact ⟨⟨hlaid.arranged, hlaid.entries, hlaid.strings⟩, ⟨rfl, rfl, rfl⟩, rfl⟩
    · exact ⟨⟨hlaid.arranged, hlaid.entries, hlaid.strings⟩, ⟨rfl, rfl, rfl⟩, rfl⟩
  · exact ⟨⟨hlaid.arranged, hlaid.entries, hlaid.strings⟩, ⟨rfl, rfl, rfl⟩, rfl⟩

end Finalizing

section Runs

theorem Requester.supplies_zero {str : List Byte} (h : u.Supplies str) : 0 ∉ str := by
  cases u with
  | files | syntaxes => exact h.1
  | documents | completer _ => exact h

theorem inOrder_alike {ss : List (List Byte)} (halike : Alike rl rl') (h : InOrder rl ss) :
    InOrder rl' ss where
  sorted cmp hcmp := h.sorted cmp (halike.1 ▸ hcmp)
  distinct hdupes := by
    rw [halike.1]
    exact h.distinct (halike.2.1 ▸ hdupes)

/-- What holds of every list that is reached. -/
structure Listed (lower : Byte → Byte) (u : Requester) (final : Bool) (rl : ReqList)
    (added : List Added) (placed : List (Nat × Added)) : Prop where
  laid : Laid final rl placed
  added_eq : added = placed.map Prod.snd
  aligned : Aligned rl added
  cmpfnc : rl.cmpfnc = u.cmpfnc lower
  supplied : ∀ a ∈ added, u.Supplies a.str
  order : final = false → InOrder rl (added.map Added.str)

theorem Listed.strings_eq (h : Listed lower u false rl added placed) :
    rl.strings = added.map Added.str := by
  rw [h.laid.strings_eq, h.added_eq, List.map_map]
  rfl

theorem reqListInit_eq (g : Answers) (order : Option (List Nat)) (cmpfnc : Option Comparison)
    (dupes reorder : Bool) (suffix : Byte) :
    (reqListInit g order cmpfnc dupes reorder suffix).entries = [] ∧
      (reqListInit g order cmpfnc dupes reorder suffix).lengths = [] ∧
      (reqListInit g order cmpfnc dupes reorder suffix).curChars = 0 ∧
      (reqListInit g order cmpfnc dupes reorder suffix).cmpfnc = cmpfnc := by
  rw [reqListInit]
  split <;> exact ⟨rfl, rfl, rfl, rfl⟩

theorem Listed.empty (hentries : rl.entries = []) (hlengths : rl.lengths = [])
    (hchars : rl.curChars = 0) (hcmp : rl.cmpfnc = u.cmpfnc lower) :
    Listed lower u false rl [] [] where
  laid :=
    { arranged :=
        { holds := fun _ h => absurd h List.not_mem_nil
          below := fun _ h => absurd h List.not_mem_nil
          apart := List.Pairwise.nil
          top_le := hchars ▸ Nat.zero_le _ }
      entries := hentries
      strings := fun _ h => absurd h List.not_mem_nil }
  added_eq := rfl
  aligned := hlengths
  cmpfnc := hcmp
  supplied _ h := absurd h List.not_mem_nil
  order _ := ⟨fun _ _ => List.Pairwise.nil, fun _ => List.Pairwise.nil⟩

theorem Listed.init (g : Answers) (reorder : Option (List Nat)) :
    Listed lower u false (u.init lower g reorder) [] [] := by
  cases u <;>
  · obtain ⟨hentries, hlengths, hchars, hcmp⟩ := reqListInit_eq g reorder _ _ _ _
    exact Listed.empty hentries hlengths hchars hcmp

theorem Listed.add {str : List Byte} {suffix : Bool} (h : Listed lower u false rl added placed)
    (hstr : u.Supplies str) :
    ∃ placed', Listed lower u false (reqListAdd g rl str suffix).2
      (afterAdd rl (reqListAdd g rl str suffix) ⟨str, suffix⟩ added) placed' := by
  have hss : ∀ s ∈ rl.strings, u.Supplies s := fun s hs => by
    rw [h.strings_eq] at hs
    obtain ⟨a, ha, rfl⟩ := List.mem_map.mp hs
    exact h.supplied a ha
  have horder := h.order rfl
  have hfits := place_fits h.cmpfnc hss hstr (h.strings_eq ▸ horder)
  rw [h.strings_eq] at hfits
  have hslot : ∀ ins, place rl str = .slot ins → ins ≤ added.length ∧
      InOrder rl ((added.map Added.str).insertIdx ins str) := fun ins hins => by
    rw [hins, Fits, List.length_map] at hfits
    exact hfits
  have hlen : added.length = placed.length := by rw [h.added_eq, List.length_map]
  obtain ⟨placed', hlaid, halike, hafter, haligned, hnew⟩ :=
    reqListAdd_laid h.laid (h.added_eq ▸ h.aligned) (Requester.supplies_zero hstr)
      fun ins hins => hlen ▸ (hslot ins hins).1
  rw [← h.added_eq] at hafter hnew
  refine ⟨placed', hlaid, hafter, hafter ▸ haligned, halike.1.trans h.cmpfnc, ?_, fun _ => ?_⟩
  · rw [hafter]
    intro a ha
    obtain heq | ⟨ins, hins, heq⟩ := hnew
    · exact h.supplied a (heq ▸ ha)
    · rw [heq, List.mem_insertIdx (hslot ins hins).1] at ha
      obtain rfl | ha := ha
      · exact hstr
      · exact h.supplied a ha
  · rw [hafter]
    refine inOrder_alike halike ?_
    obtain heq | ⟨ins, hins, heq⟩ := hnew
    · exact heq ▸ horder
    · rw [heq, List.map_insertIdx]
      exact (hslot ins hins).2

theorem Listed.del (h : Listed lower u final rl added placed) (nth : Int) :
    ∃ placed', Listed lower u final (reqListDel rl nth).2 (afterDel rl nth added) placed' := by
  have hlen : rl.entries.length = placed.length := by rw [h.laid.entries, List.length_map]
  by_cases hout : nth < 0 ∨ rl.entries.length ≤ nth
  · rw [reqListDel, afterDel, if_pos hout, if_pos hout]
    exact ⟨placed, h⟩
  obtain ⟨n, rfl⟩ : ∃ n : Nat, nth = n := ⟨nth.toNat, by omega⟩
  obtain ⟨placed', hlaid, halike, hafter, haligned⟩ :=
    reqListDel_laid (n := n) h.laid (by omega) (h.added_eq ▸ h.aligned)
  rw [← h.added_eq] at hafter
  have heq : afterDel rl n added = placed'.map Prod.snd := by
    rw [afterDel, if_neg hout, hafter, Int.toNat_natCast]
  refine ⟨placed', hlaid, heq, heq ▸ haligned, halike.1.trans h.cmpfnc, ?_, fun hfinal => ?_⟩
  · rw [heq, hafter]
    exact fun a ha => h.supplied a (List.mem_of_mem_eraseIdx ha)
  · rw [heq, hafter, ← List.eraseIdx_map]
    exact inOrder_alike halike ((h.order hfinal).sublist (List.eraseIdx_sublist _ _))

theorem Listed.finalize (h : Listed lower u false rl added placed) (granted : Bool) :
    Listed lower u true (reqListFinalize granted rl) added placed := by
  obtain ⟨hlaid, halike, hlengths⟩ := reqListFinalize_laid h.laid granted
  refine ⟨hlaid, h.added_eq, ?_, halike.1.trans h.cmpfnc, h.supplied, fun h => by cases h⟩
  rw [Aligned, hlengths, h.aligned]
  simp only [ReqList.lentot, halike.2.2]

theorem Reached.listed (h : Reached lower u final rl added) :
    ∃ placed, Listed lower u final rl added placed := by
  induction h with
  | init g reorder => exact ⟨[], Listed.init g reorder⟩
  | add g str suffix _ hstr ih =>
      obtain ⟨placed, hlisted⟩ := ih
      exact hlisted.add hstr
  | del nth _ ih =>
      obtain ⟨placed, hlisted⟩ := ih
      exact hlisted.del nth
  | finalize granted _ ih =>
      obtain ⟨placed, hlisted⟩ := ih
      exact ⟨placed, hlisted.finalize granted⟩

end Runs

section Sorting

theorem Laid.nodup (h : Laid final rl placed) : rl.entries.Nodup := by
  rw [h.entries]
  refine List.pairwise_map.mpr ((List.pairwise_map.mp h.arranged.apart).imp fun {x y} hxy heq => ?_)
  have hx := List.length_pos_iff.mpr (cells_ne_nil rl final x.2)
  have hy := List.length_pos_iff.mpr (cells_ne_nil rl final y.2)
  simp only [Piece.Apart, Piece.stop, piece] at hxy
  omega

theorem Laid.getD_idxOf (h : Laid final rl placed) {i : Nat} (hi : i < placed.length) :
    placed.getD (rl.entries.idxOf (rl.address + placed[i].1)) default = placed[i] := by
  have hlen : rl.entries.length = placed.length := by rw [h.entries, List.length_map]
  have hget : rl.entries[i]? = some (rl.address + (placed[i].1 : Int)) := by
    rw [h.entries, List.getElem?_map, List.getElem?_eq_getElem hi]
    rfl
  obtain ⟨hi', heq⟩ := List.getElem?_eq_some_iff.mp hget
  rw [← heq, h.nodup.idxOf_getElem i hi', List.getD_eq_getElem?_getD, List.getElem?_eq_getElem hi]
  rfl

theorem Laid.sorted {entries : List Int} (h : Laid final rl placed)
    (hperm : entries.Perm rl.entries) :
    ∃ placed', placed'.Perm placed ∧ Laid final (sortEntries rl entries) placed' ∧
      afterSort rl entries (placed.map Prod.snd) = placed'.map Prod.snd := by
  have hback : rl.entries.map (fun p => placed.getD (rl.entries.idxOf p) default) = placed := by
    have hlen : rl.entries.length = placed.length := by rw [h.entries, List.length_map]
    refine List.ext_getElem (by rw [List.length_map, hlen]) fun i hi hi' => ?_
    rw [List.length_map] at hi
    have hget : rl.entries[i] = rl.address + (placed[i].1 : Int) := by
      simp only [h.entries, List.getElem_map]
    rw [List.getElem_map, hget]
    exact h.getD_idxOf hi'
  have hplaced : (entries.map fun p => placed.getD (rl.entries.idxOf p) default).Perm placed := by
    have hmap := hperm.map fun p => placed.getD (rl.entries.idxOf p) default
    rwa [hback] at hmap
  refine ⟨entries.map fun p => placed.getD (rl.entries.idxOf p) default, hplaced,
    ⟨h.arranged.perm (hplaced.symm.map _), ?_, fun x hx => ?_⟩, ?_⟩
  · change entries = _
    rw [List.map_map]
    conv_lhs => rw [← List.map_id entries]
    refine List.map_congr_left fun p hp => ?_
    have hmem := hperm.subset hp
    rw [h.entries] at hmem
    obtain ⟨x, hx, rfl⟩ := List.mem_map.mp hmem
    obtain ⟨i, hi, rfl⟩ := List.mem_iff_getElem.mp hx
    simp only [Function.comp_apply, h.getD_idxOf hi, id_eq]
    rfl
  · exact h.strings x (hplaced.subset hx)
  · rw [afterSort, List.map_map]
    refine List.map_congr_left fun p _ => ?_
    simp only [Function.comp_apply, List.getD_eq_getElem?_getD, List.getElem?_map]
    cases placed[rl.entries.idxOf p]? <;> rfl

theorem aligned_sortEntries {entries : List Int} (h : Listed lower u true rl added placed)
    (hsorts : Sorts lower rl entries) :
    Kept true (sortEntries rl entries) (afterSort rl entries added) ∧
      (Aligned (sortEntries rl entries) (afterSort rl entries added) ↔
        LengthsAgree lower rl.strings) := by
  obtain ⟨hperm, hascending⟩ := hsorts
  obtain ⟨placed', _, hlaid, hafter⟩ := h.laid.sorted hperm
  rw [h.added_eq, hafter]
  refine ⟨hlaid.kept, ?_⟩
  have hlentot : ∀ ps : List (Nat × Added),
      (ps.map Prod.snd).map (fun a => rl.lentot a.str a.suffix) =
        (ps.map fun x => (kept rl true x.2).1).map fun s => s.length + 2 := fun ps => by
    rw [List.map_map, List.map_map]
    refine List.map_congr_left fun x _ => ?_
    have hlen := length_cells rl true x.2
    rw [cells, List.length_append, List.length_cons, List.length_append] at hlen
    simp only [Function.comp_apply]
    rw [← hlen]
    rfl
  have hstrings : entries.map rl.stringAt = placed'.map fun x => (kept rl true x.2).1 :=
    hlaid.strings_eq
  have haligned : rl.lengths = rl.strings.map fun s => s.length + 2 := by
    rw [h.aligned, h.added_eq, hlentot, h.laid.strings_eq]
  have hgoal : Aligned (sortEntries rl entries) (placed'.map Prod.snd) ↔
      (entries.map rl.stringAt).map (fun s => s.length + 2) =
        rl.strings.map fun s => s.length + 2 := by
    rw [hstrings, ← hlentot, ← haligned]
    exact eq_comm
  have hstringsPerm : rl.strings.Perm (entries.map rl.stringAt) := (hperm.map rl.stringAt).symm
  rw [hgoal, map_eq_iff hstringsPerm hascending]
  constructor
  · intro hsame s hs k t hbefore hupTo ht
    exact Nat.add_right_cancel (hsame s hs k t hbefore hupTo ht)
  · intro hsame s hs k t hbefore hupTo ht
    rw [hsame s hs k t hbefore hupTo ht]

/-- In every run the lists of the requesters stay sorted and free of duplicates, and their
strings, suffixes and lengths stay those that have been added; after the completer's sort the
lengths do exactly if the strings have the same lengths in both orders. -/
theorem reqLists_kept (h : Reached lower u final rl added) :
    Kept final rl added ∧ Aligned rl added ∧ (final = false → InOrder rl rl.strings) ∧
      ∀ caseSearch entries, u = .completer caseSearch → final = true → Sorts lower rl entries →
        Kept true (sortEntries rl entries) (afterSort rl entries added) ∧
          (Aligned (sortEntries rl entries) (afterSort rl entries added) ↔
            LengthsAgree lower rl.strings) := by
  obtain ⟨placed, hlisted⟩ := h.listed
  refine ⟨hlisted.added_eq ▸ hlisted.laid.kept, hlisted.aligned, fun hfinal => ?_,
    fun _ entries _ hfinal hsorts => ?_⟩
  · subst hfinal
    rw [hlisted.strings_eq]
    exact hlisted.order rfl
  · subst hfinal
    exact aligned_sortEntries hlisted hsorts

/-- `tolower` on the letters of ASCII -/
def asciiLower (c : Byte) : Byte := if 65 ≤ c ∧ c ≤ 90 then c + 32 else c

/-- All the memory is granted. -/
def allGranted : Answers := ⟨some (0, fun _ => 0), true, true⟩

/-- The completer, with `case_search`, after it has added a word. -/
def oneWord (word : List Byte) : Option Int × ReqList :=
  reqListAdd allGranted (Requester.init asciiLower allGranted none (.completer true)) word false

/-- The completer after it has added two words. -/
def twoWords (word word' : List Byte) : Option Int × ReqList :=
  reqListAdd allGranted (oneWord word).2 word' false

theorem reached_twoWords {word word' : List Byte} (hword : 0 ∉ word) (hword' : 0 ∉ word') :
    Reached asciiLower (.completer true) true (reqListFinalize true (twoWords word word').2)
      (afterAdd (oneWord word).2 (twoWords word word') ⟨word', false⟩
        (afterAdd (Requester.init asciiLower allGranted none (.completer true)) (oneWord word)
          ⟨word, false⟩ [])) :=
  Reached.finalize true (Reached.add allGranted word' false
    (Reached.add allGranted word false (Reached.init allGranted none) hword) hword')

/-- The words `xa` and `xb`, which the sort leaves where they are. -/
theorem reqLists_kept_twoWords :
    Sorts asciiLower (reqListFinalize true (twoWords [120, 97] [120, 98]).2) [0, 4] ∧
      LengthsAgree asciiLower (reqListFinalize true (twoWords [120, 97] [120, 98]).2).strings := by
  have hsorts : Sorts asciiLower (reqListFinalize true (twoWords [120, 97] [120, 98]).2) [0, 4] :=
    ⟨by decide +kernel, by rw [Ascending]; decide +kernel⟩
  refine ⟨hsorts, ?_⟩
  refine ((reqLists_kept (reached_twoWords (by decide) (by decide))).2.2.2 true [0, 4] rfl rfl
    hsorts).2.mp ?_
  rw [Aligned]
  decide +kernel

/-- With `xZab` and `xab` the sort exchanges the entries, and each has the length of the other. -/
theorem not_aligned_sorted :
    ∃ rl added entries, Reached asciiLower (.completer true) true rl added ∧
      Sorts asciiLower rl entries ∧
      ¬ Aligned (sortEntries rl entries) (afterSort rl entries added) := by
  refine ⟨_, _, [6, 0], @reached_twoWords [120, 90, 97, 98] [120, 97, 98] (by decide) (by decide),
    ⟨by decide +kernel, by rw [Ascending]; decide +kernel⟩, ?_⟩
  rw [Aligned]
  decide +kernel

end Sorting

end NiceEditor.ReqListRuns
