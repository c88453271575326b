import NiceEditor.ReqLists

/-!
The comparisons of the requesters order the strings that they are used on, and the search of
`req_list_add` finds where a string belongs.
-/

namespace NiceEditor.ReqListOrder

open NiceEditor.Pools
open NiceEditor.SortedLists
open NiceEditor.KeyBindings
open NiceEditor.KeyTables
open NiceEditor.ReqLists

variable {lower : Byte → Byte} {s t : List Byte}

section Comparisons

theorem strcmp_eq : strcmp = compare := funext fun s => funext fun t => strcmp_eq_compare s t

instance : Std.TransCmp strcmp := strcmp_eq ▸ inferInstance

instance : Std.LawfulEqCmp strcmp := strcmp_eq ▸ inferInstance

theorem strdictcmp_eq (lower : Byte → Byte) :
    strdictcmp lower = compareLex (compareOn (List.map lower)) compare := by
  funext a b
  rw [strdictcmp, strcasecmp, strcmp_eq, compareLex, compareOn]
  cases compare (a.map lower) (b.map lower) <;> rfl

instance : Std.TransCmp (strdictcmp lower) := strdictcmp_eq lower ▸ inferInstance

instance : Std.LawfulEqCmp (strdictcmp lower) where
  eq_of_compare {a b} h := by
    rw [strdictcmp_eq, compareLex, Ordering.then_eq_eq] at h
    exact Std.LawfulEqCmp.compare_eq_iff_eq.mp h.2

/-- `..` is the first of the names in a directory, and `.` the second. -/
def rank (s : List Byte) : Nat := if s = [46, 46] then 0 else if s = [46] then 1 else 2

/-- The order of the names in a directory -/
def nameOrder (lower : Byte → Byte) : Comparison := compareLex (compareOn rank) (strdictcmp lower)

instance : Std.TransCmp (nameOrder lower) := inferInstanceAs (Std.TransCmp (compareLex _ _))

instance : Std.LawfulEqCmp (nameOrder lower) where
  eq_of_compare {a b} h := by
    rw [nameOrder, compareLex, Ordering.then_eq_eq] at h
    exact Std.LawfulEqCmp.compare_eq_iff_eq.mp h.2

theorem strdictcmp_self (lower : Byte → Byte) (s : List Byte) : strdictcmp lower s s = .eq :=
  Std.ReflCmp.compare_self

theorem filenamecmp_eq (hs : 47 ∉ s) (ht : 47 ∉ t) :
    filenamecmp lower s t = nameOrder lower s t := by
  have hslash : ∀ {u v : List Byte}, 47 ∉ u → 47 ∈ v → u ≠ v := fun hu hv h => hu (h ▸ hv)
  have hs1 : s ≠ [46, 46, 47] := hslash hs (by decide)
  have hs2 : s ≠ [46, 47] := hslash hs (by decide)
  have ht1 : t ≠ [46, 46, 47] := hslash ht (by decide)
  have ht2 : t ≠ [46, 47] := hslash ht (by decide)
  have hcompare : compare 0 1 = Ordering.lt ∧ compare 0 2 = Ordering.lt ∧
      compare 1 2 = Ordering.lt ∧ compare 1 0 = Ordering.gt ∧ compare 2 0 = Ordering.gt ∧
      compare 2 1 = Ordering.gt := by decide
  simp only [filenamecmp, nameOrder, compareLex, compareOn, rank, hs1, hs2, ht1, ht2, if_false]
  by_cases hs3 : s = [46, 46] <;> by_cases ht3 : t = [46, 46] <;>
    by_cases hs4 : s = [46] <;> by_cases ht4 : t = [46] <;>
    simp_all [strdictcmp_self]

theorem lawful {u : Requester} {cmp : Comparison} (h : u.cmpfnc lower = some cmp) :
    ∃ order : Comparison, Std.TransCmp order ∧ Std.LawfulEqCmp order ∧
      ∀ s t, u.Supplies s → u.Supplies t → cmp s t = order s t := by
  cases u with
  | files | syntaxes =>
      rw [Requester.cmpfnc, Option.some.injEq] at h
      subst h
      exact ⟨nameOrder lower, inferInstance, inferInstance,
        fun s t hs ht => filenamecmp_eq hs.2 ht.2⟩
  | documents => cases h
  | completer caseSearch =>
      rw [Requester.cmpfnc, Option.some.injEq] at h
      subst h
      cases caseSearch with
      | false => exact ⟨strdictcmp lower, inferInstance, inferInstance, fun s t _ _ => rfl⟩
      | true => exact ⟨strcmp, inferInstance, inferInstance, fun s t _ _ => rfl⟩

end Comparisons

section Search

variable {cmp : Nat → Ordering} {n : Nat}

/-- The comparison with one element after the other goes down. -/
structure Falls (cmp : Nat → Ordering) (n : Nat) : Prop where
  before : ∀ i j, i ≤ j → j < n → cmp j = .gt → cmp i = .gt
  behind : ∀ i j, i ≤ j → j < n → cmp i = .lt → cmp j = .lt

/-- The end of the search: it has found an element that is equal, or where `l` is now, between
the elements before and those behind. -/
def Searched (cmp : Nat → Ordering) (n : Nat) : Int × Int × Int → Prop
  | (l, m, r) =>
      (∃ k, k < n ∧ cmp k = .eq ∧ m = -(k : Int) - 1) ∨
        ∃ k, k ≤ n ∧ l = (k : Int) ∧ r = (k : Int) - 1 ∧ (m = k ∨ m = (k : Int) - 1 ∧ 0 ≤ m) ∧
          (∀ i, i < k → cmp i = .gt) ∧ ∀ i, k ≤ i → i < n → cmp i = .lt

theorem searched_end {l m r : Int} (hend : r < l) (hl : 0 ≤ l) (hr : r < n) (hlr : l ≤ r + 1)
    (hm : m = l ∨ m = l - 1 ∧ 0 ≤ m) (hbefore : ∀ i : Nat, (i : Int) < l → cmp i = .gt)
    (hbehind : ∀ i : Nat, r < i → i < n → cmp i = .lt) : Searched cmp n (l, m, r) := by
  refine Or.inr ⟨l.toNat, by omega, by omega, by omega, by omega, fun i hi => ?_, fun i hi hn => ?_⟩
  · exact hbefore i (by omega)
  · exact hbehind i (by omega) hn

theorem searchLoop_spec (h : Falls cmp n) {turns : Nat} {l m r : Int} (hturns : r - l < turns)
    (hl : 0 ≤ l) (hr : r < n) (hlr : l ≤ r + 1) (hm : r < l → m = l ∨ m = l - 1 ∧ 0 ≤ m)
    (hbefore : ∀ i : Nat, (i : Int) < l → cmp i = .gt)
    (hbehind : ∀ i : Nat, r < i → i < n → cmp i = .lt) :
    Searched cmp n (searchLoop cmp turns l m r) := by
  induction turns generalizing l m r with
  | zero => exact searched_end (by omega) hl hr hlr (hm (by omega)) hbefore hbehind
  | succ turns ih =>
      rw [searchLoop]
      by_cases hle : l ≤ r
      swap
      · rw [if_neg hle]
        exact searched_end (by omega) hl hr hlr (hm (by omega)) hbefore hbehind
      rw [if_pos hle]
      obtain ⟨k, hk⟩ : ∃ k : Nat, (r + l) / 2 = k := ⟨((r + l) / 2).toNat, by omega⟩
      have hkn : k < n := by omega
      simp only [hk, Int.toNat_natCast]
      cases hcmp : cmp k with
      | lt =>
          refine ih (by omega) hl (by omega) (by omega) (by omega) hbefore fun i hi hn => ?_
          exact h.behind k i (by omega) hn hcmp
      | gt =>
          refine ih (by omega) (by omega) hr (by omega) (by omega) (fun i hi => ?_) hbehind
          exact h.before i k (by omega) hkn hcmp
      | eq => exact Or.inl ⟨k, hkn, hcmp, rfl⟩

end Search

section Places

/-- The order that a list has: that of its comparison, and without two entries that are equal if
there are to be no duplicates. -/
structure InOrder (rl : ReqList) (ss : List (List Byte)) : Prop where
  sorted : ∀ cmp, rl.cmpfnc = some cmp → Ascending cmp ss
  distinct : rl.allowDupes = false → ss.Pairwise fun s t => rl.cmpfnc.getD strcmp s t ≠ .eq

variable {u : Requester} {rl : ReqList} {str : List Byte} {ss : List (List Byte)}

/-- `place` is right: a conflict is with an entry that is equal, and at `ins` the string is in
order. -/
def Fits (rl : ReqList) (str : List Byte) (ss : List (List Byte)) : Place → Prop
  | .conflict n => rl.allowDupes = false ∧ ∃ s, ss[n]? = some s ∧ rl.cmpfnc.getD strcmp str s = .eq
  | .slot ins => ins ≤ ss.length ∧ InOrder rl (ss.insertIdx ins str)

theorem InOrder.sublist {ss' : List (List Byte)} (h : InOrder rl ss) (hsub : ss'.Sublist ss) :
    InOrder rl ss' where
  sorted cmp hcmp := (h.sorted cmp hcmp).sublist hsub
  distinct hdupes := (h.distinct hdupes).sublist hsub

theorem stringAt_getD {i : Nat} (hi : i < rl.strings.length) :
    rl.stringAt (rl.entries.getD i 0) = rl.strings[i] := by
  have hi' : i < rl.entries.length := by simpa [ReqList.strings] using hi
  rw [List.getD_eq_getElem?_getD, List.getElem?_eq_getElem hi']
  exact (List.getElem_map _).symm

theorem length_strings (rl : ReqList) : rl.strings.length = rl.entries.length := List.length_map _

theorem falls {order : Comparison} [Std.TransCmp order] {n : Nat} {cmp : Nat → Ordering}
    (hsorted : Ascending order ss) (hn : ss.length = n)
    (hcmp : ∀ i (hi : i < ss.length), cmp i = order str ss[i]) : Falls cmp n where
  before i j hij hj hgt := by
    subst hn
    rw [hcmp j hj] at hgt
    rw [hcmp i (by omega)]
    exact Std.TransCmp.gt_of_gt_of_isGE hgt
      (Std.OrientedCmp.isGE_of_isLE (hsorted.le_of_le (by omega) hj hij))
  behind i j hij hj hlt := by
    subst hn
    rw [hcmp i (by omega)] at hlt
    rw [hcmp j hj]
    exact Std.TransCmp.lt_of_lt_of_isLE hlt (hsorted.le_of_le (by omega) hj hij)

theorem insert_equal {order : Comparison} [Std.TransCmp order] {k : Nat} (hk : k < ss.length)
    (hsorted : Ascending order ss) (heq : order str ss[k] = .eq) :
    Ascending order (ss.insertIdx (k + 1) str) := by
  refine pairwise_insertIdx hsorted hk (fun j hj hjk => ?_) (fun j hj hkj => ?_)
  · rw [Std.TransCmp.congr_right heq]
    exact hsorted.le_of_le hj hk (by omega)
  · rw [Std.TransCmp.congr_left heq]
    exact hsorted.le_of_le hk hj (by omega)

theorem insert_between {order : Comparison} [Std.TransCmp order] {k : Nat} (hk : k ≤ ss.length)
    (hsorted : Ascending order ss)
    (hbefore : ∀ j (hj : j < ss.length), j < k → order str ss[j] = .gt)
    (hbehind : ∀ j (hj : j < ss.length), k ≤ j → order str ss[j] = .lt) :
    Ascending order (ss.insertIdx k str) := by
  refine pairwise_insertIdx hsorted hk (fun j hj hjk => ?_) (fun j hj hkj => ?_)
  · rw [Std.OrientedCmp.lt_of_gt (hbefore j hj hjk)]
    rfl
  · rw [hbehind j hj hkj]
    rfl

theorem insert_distinct {order : Comparison} [Std.OrientedCmp order] {k : Nat} (hk : k ≤ ss.length)
    (hdistinct : ss.Pairwise fun s t => order s t ≠ .eq) (hnew : ∀ s ∈ ss, order str s ≠ .eq) :
    (ss.insertIdx k str).Pairwise fun s t => order s t ≠ .eq := by
  refine pairwise_insertIdx hdistinct hk (fun j hj _ => ?_) (fun j hj _ => ?_)
  · exact fun h => hnew _ (List.getElem_mem hj) (Std.OrientedCmp.eq_symm h)
  · exact hnew _ (List.getElem_mem hj)

theorem inOrder_iff {cmp order : Comparison} (hcmp : rl.cmpfnc = some cmp)
    (hagree : ∀ s ∈ ss, ∀ t ∈ ss, cmp s t = order s t) :
    InOrder rl ss ↔ Ascending order ss ∧
      (rl.allowDupes = false → ss.Pairwise fun s t => order s t ≠ .eq) := by
  have hsorted : Ascending cmp ss ↔ Ascending order ss :=
    List.Pairwise.iff_of_mem fun hs ht => by rw [hagree _ hs _ ht]
  have hdistinct : (ss.Pairwise fun s t => cmp s t ≠ .eq) ↔
      ss.Pairwise fun s t => order s t ≠ .eq :=
    List.Pairwise.iff_of_mem fun hs ht => by rw [hagree _ hs _ ht]
  constructor
  · intro h
    refine ⟨hsorted.mp (h.sorted cmp hcmp), fun hdupes => hdistinct.mp ?_⟩
    simpa [hcmp] using h.distinct hdupes
  · intro h
    refine ⟨fun cmp' hcmp' => ?_, fun hdupes => ?_⟩
    · obtain rfl := Option.some.inj (hcmp.symm.trans hcmp')
      exact hsorted.mpr h.1
    · simpa [hcmp] using hdistinct.mpr (h.2 hdupes)

/-- The place of a string in a list that is kept sorted -/
theorem place_sorted {cmp order : Comparison} [Std.TransCmp order] (hcmp : rl.cmpfnc = some cmp)
    (hagree : ∀ s ∈ str :: rl.strings, ∀ t ∈ str :: rl.strings, cmp s t = order s t)
    (h : InOrder rl rl.strings) : Fits rl str rl.strings (place rl str) := by
  have hss := (inOrder_iff hcmp fun s hs t ht =>
    hagree s (List.mem_cons_of_mem _ hs) t (List.mem_cons_of_mem _ ht)).mp h
  have hinsert : ∀ k, k ≤ rl.strings.length → (InOrder rl (rl.strings.insertIdx k str) ↔
      Ascending order (rl.strings.insertIdx k str) ∧ (rl.allowDupes = false →
        (rl.strings.insertIdx k str).Pairwise fun s t => order s t ≠ .eq)) := fun k hk =>
    inOrder_iff hcmp fun s hs t ht =>
      hagree s (List.mem_cons.mpr ((List.mem_insertIdx hk).mp hs)) t
        (List.mem_cons.mpr ((List.mem_insertIdx hk).mp ht))
  have hstr : ∀ i (hi : i < rl.strings.length), cmp str rl.strings[i] = order str rl.strings[i] :=
    fun i hi => hagree str List.mem_cons_self _ (List.mem_cons_of_mem _ (List.getElem_mem hi))
  have hprobe : ∀ i (hi : i < rl.strings.length),
      cmp str (rl.stringAt (rl.entries.getD i 0)) = order str rl.strings[i] := fun i hi => by
    rw [stringAt_getD hi, hstr i hi]
  have hsearched : Searched (fun m => cmp str (rl.stringAt (rl.entries.getD m 0)))
      rl.entries.length (searchLoop (fun m => cmp str (rl.stringAt (rl.entries.getD m 0)))
        rl.entries.length 0 0 ((rl.entries.length : Int) - 1)) :=
    searchLoop_spec (falls hss.1 (length_strings rl) hprobe) (by omega) (by omega) (by omega)
      (by omega) (by omega) (by omega) (by omega)
  have hplace : place rl str = placeOf rl (searchLoop (fun m =>
      cmp str (rl.stringAt (rl.entries.getD m 0))) rl.entries.length 0 0
        ((rl.entries.length : Int) - 1)) := by rw [place, hcmp]
  rw [hplace]
  revert hsearched
  generalize searchLoop _ rl.entries.length 0 0 ((rl.entries.length : Int) - 1) = result
  obtain ⟨l, m, r⟩ := result
  rintro (⟨k, hk, heq, rfl⟩ | ⟨k, hk, rfl, rfl, hm, hbefore, hbehind⟩)
  · rw [← length_strings] at hk
    replace heq : order str rl.strings[k] = .eq := (hprobe k hk).symm.trans heq
    rw [placeOf, if_pos (show -(k : Int) - 1 < 0 by omega)]
    cases hdupes : rl.allowDupes with
    | false =>
        simp only [Bool.not_false, if_true]
        refine ⟨hdupes, rl.strings[k], ?_, ?_⟩
        · rw [show (-(-(k : Int) - 1) - 1).toNat = k by omega]
          exact List.getElem?_eq_getElem hk
        · rw [hcmp, Option.getD_some, hstr k hk]
          exact heq
    | true =>
        simp only [Bool.not_true, Bool.false_eq_true, if_false]
        rw [show (-(-(k : Int) - 1)).toNat = k + 1 by omega]
        refine ⟨hk, (hinsert (k + 1) hk).mpr ⟨insert_equal hk hss.1 heq, fun h => ?_⟩⟩
        rw [hdupes] at h
        cases h
  · rw [← length_strings] at hk hbehind
    have hgt : ∀ j (hj : j < rl.strings.length), j < k → order str rl.strings[j] = .gt :=
      fun j hj hjk => (hprobe j hj).symm.trans (hbefore j hjk)
    have hlt : ∀ j (hj : j < rl.strings.length), k ≤ j → order str rl.strings[j] = .lt :=
      fun j hj hkj => (hprobe j hj).symm.trans (hbehind j hkj hj)
    have hfits : Fits rl str rl.strings (.slot k) := by
      refine ⟨hk, (hinsert k hk).mpr ⟨insert_between hk hss.1 hgt hlt, fun hdupes => ?_⟩⟩
      refine insert_distinct hk (hss.2 hdupes) fun s hs heq => ?_
      obtain ⟨j, hj, rfl⟩ := List.mem_iff_getElem.mp hs
      obtain hjk | hkj := Nat.lt_or_ge j k
      · cases (hgt j hj hjk).symm.trans heq
      · cases (hlt j hj hkj).symm.trans heq
    obtain rfl | ⟨rfl, hpos⟩ := hm
    · rw [placeOf, if_neg (show ¬ (k : Int) < 0 by omega),
        if_pos (show (k : Int) - 1 < k by omega), Int.toNat_natCast]
      exact hfits
    · rw [placeOf, if_neg (show ¬ (k : Int) - 1 < 0 by omega),
        if_neg (show ¬ (k : Int) - 1 < k - 1 by omega), if_pos (show (k : Int) - 1 < k by omega),
        show ((k : Int) - 1 + 1).toNat = k by omega]
      exact hfits

theorem place_appended (hcmp : rl.cmpfnc = none) (h : InOrder rl rl.strings) :
    Fits rl str rl.strings (place rl str) := by
  have hslot : (rl.allowDupes = false → ∀ s ∈ rl.strings, strcmp str s ≠ .eq) →
      Fits rl str rl.strings (.slot rl.entries.length) := fun hnew => by
    have hlen : rl.entries.length ≤ rl.strings.length := Nat.le_of_eq (length_strings rl).symm
    refine ⟨hlen, fun cmp h => ?_, fun hdupes => ?_⟩
    · rw [hcmp] at h
      cases h
    · have hdistinct := h.distinct hdupes
      rw [hcmp, Option.getD_none] at hdistinct ⊢
      exact insert_distinct hlen hdistinct (hnew hdupes)
  rw [place, hcmp]
  cases hdupes : rl.allowDupes with
  | true => exact hslot fun h => by rw [hdupes] at h; cases h
  | false =>
      simp only [Bool.false_eq_true, if_false]
      cases hfind : rl.entries.findIdx? fun p => strcmp (rl.stringAt p) str = .eq with
      | none =>
          refine hslot fun _ s hs heq => ?_
          obtain ⟨p, hp, rfl⟩ := List.mem_map.mp hs
          have hno := List.findIdx?_eq_none_iff.mp hfind p hp
          rw [Std.OrientedCmp.eq_symm heq] at hno
          simp at hno
      | some i =>
          obtain ⟨hi, heq, _⟩ := List.findIdx?_eq_some_iff_getElem.mp hfind
          refine ⟨hdupes, rl.stringAt rl.entries[i], ?_, ?_⟩
          · rw [ReqList.strings, List.getElem?_map, List.getElem?_eq_getElem hi]
            rfl
          · rw [hcmp, Option.getD_none]
            exact Std.OrientedCmp.eq_symm (by simpa using heq)

theorem place_fits (hcmp : rl.cmpfnc = u.cmpfnc lower) (hss : ∀ s ∈ rl.strings, u.Supplies s)
    (hstr : u.Supplies str) (h : InOrder rl rl.strings) :
    Fits rl str rl.strings (place rl str) := by
  cases hu : u.cmpfnc lower with
  | none => exact place_appended (hcmp.trans hu) h
  | some cmp =>
      obtain ⟨order, htrans, _, hagree⟩ := lawful hu
      have hall : ∀ s ∈ str :: rl.strings, u.Supplies s := fun s hs => by
        obtain rfl | hs := List.mem_cons.mp hs
        · exact hstr
        · exact hss s hs
      exact place_sorted (hcmp.trans hu) (fun s hs t ht => hagree s t (hall s hs) (hall t ht)) h

end Places

end NiceEditor.ReqListOrder
