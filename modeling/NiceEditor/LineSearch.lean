import Mathlib.Data.List.Flatten
import Mathlib.Data.List.Range
import Mathlib.Tactic

namespace NiceEditor.LineSearch

/-- How a search ends; it is `running` when it has not ended. -/
inductive Search (α : Type) where
  | found (a : α)
  | missed
  | running
deriving DecidableEq, Repr

def Search.ofOption {α : Type} : Option α → Search α
  | some a => .found a
  | none => .missed

section Naive

variable {α : Type}

/-- The places of a text, the ends of the lines with them. -/
def places (L : List (List α)) : List (Nat × Nat) :=
  (List.range L.length).flatMap fun l =>
    (List.range ((L.getD l []).length + 1)).map fun p => (l, p)

/-- The places in the direction of a search. -/
def ordered (back : Bool) (L : List (List α)) : List (Nat × Nat) :=
  if back then (places L).reverse else places L

/-- Place `q` lies ahead of `start` in the direction of a search. -/
def Ahead (back : Bool) (start q : Nat × Nat) : Prop :=
  if back then q.1 < start.1 ∨ (q.1 = start.1 ∧ q.2 < start.2)
  else start.1 < q.1 ∨ (q.1 = start.1 ∧ start.2 < q.2)

instance (back : Bool) (start q : Nat × Nat) : Decidable (Ahead back start q) := by
  unfold Ahead
  infer_instance

/-- Place `q` is on the searched side of `start`. -/
def OnSide (back skipFirst : Bool) (start q : Nat × Nat) : Prop :=
  Ahead back start q ∨ (skipFirst = false ∧ q = start)

instance (back skipFirst : Bool) (start q : Nat × Nat) :
    Decidable (OnSide back skipFirst start q) :=
  inferInstanceAs (Decidable (_ ∨ _))

/-- The first place with an occurrence, on the searched side of `start` and then, when the
search wraps, from the opposite end of the text. -/
def naiveSearch (back skipFirst wrap : Bool) (occurs : Nat × Nat → Bool) (L : List (List α))
    (start : Nat × Nat) : Option (Nat × Nat) :=
  ((ordered back L).filter (fun q => OnSide back skipFirst start q) ++
    if wrap then ordered back L else []).find? occurs

end Naive

/-- The direction of a search through the lines. -/
structure Course where
  inside : Int → Bool
  next : Int → Int
  restart : Int

/-- The loop of a search over the lines: `scan` searches a line from a position on, and
`fresh` is the position for a line that is searched as a whole. -/
def searchLines (course : Course) (scan : Int → Int → Search Int) (fresh : Int → Int) :
    Nat → Int → Int → Bool → Search (Int × Int)
  | 0, _, _, _ => .missed
  | turns + 1, y, p, wrap =>
      if course.inside y then
        match scan y p with
        | .found pos => .found (y, pos)
        | .running => .running
        | .missed =>
            let next := course.next y
            if course.inside next then searchLines course scan fresh turns next (fresh next) wrap
            else if wrap then
              searchLines course scan fresh turns course.restart (fresh course.restart) false
            else searchLines course scan fresh turns next p wrap
      else .missed

/-- A course goes over `n` lines: over line `line i` at turn `i`. -/
structure Goes (course : Course) (n : Nat) (path : Nat → Int) (line : Nat → Nat) : Prop where
  inside : ∀ i, course.inside (path i) = decide (i < n)
  next : ∀ i < n, course.next (path i) = path (i + 1)
  restart : course.restart = path 0
  line : ∀ i < n, path i = line i

/-- The places in line `line i`, in their order. -/
def along (line : Nat → Nat) (candidates : Nat → List Nat) (i : Nat) : List (Nat × Nat) :=
  (candidates i).map fun p => (line i, p)

/-- Places as the loops give them. -/
def asPlace (o : Option (Nat × Nat)) : Option (Int × Int) :=
  o.map fun q => ((q.1 : Int), (q.2 : Int))

variable {course : Course} {n : Nat} {path : Nat → Int} {line : Nat → Nat}
variable {candidates : Nat → List Nat} {occurs : Nat × Nat → Bool}
variable {scan : Int → Int → Search Int} {fresh : Int → Int}

theorem find?_along (i : Nat) :
    (along line candidates i).find? occurs =
      ((candidates i).find? fun p => occurs (line i, p)).map fun p => (line i, p) := by
  rw [along, List.find?_map]
  rfl

theorem searchLines_turn (hgoes : Goes course n path line) {i turns : Nat} {p : Int} {wrap : Bool}
    {first : Option Nat} (hi : i < n)
    (hscan : scan (path i) p = .ofOption (first.map fun p : Nat => (p : Int))) :
    searchLines course scan fresh (turns + 1) (path i) p wrap =
      first.elim
        (if i + 1 < n then
          searchLines course scan fresh turns (path (i + 1)) (fresh (path (i + 1))) wrap
        else if wrap then searchLines course scan fresh turns (path 0) (fresh (path 0)) false
        else .missed)
        fun p => .found ((line i : Int), (p : Int)) := by
  rw [searchLines, hgoes.inside, hscan, hgoes.next i hi, hgoes.restart]
  cases first with
  | some p => simp [Search.ofOption, hi, hgoes.line i hi]
  | none =>
      simp only [decide_eq_true_eq, if_pos hi, Option.map_none, Search.ofOption, hgoes.inside,
        Option.elim_none]
      split
      · rfl
      rename_i hnext
      cases wrap with
      | true => rfl
      | false =>
          have hend : ∀ turns p, searchLines course scan fresh turns (path (i + 1)) p false =
              .missed := by
            intro turns p
            cases turns with
            | zero => rfl
            | succ turns => simp [searchLines, hgoes.inside, hnext]
          simpa using hend turns p

theorem searchLines_rest (hgoes : Goes course n path line)
    (hfresh : ∀ i < n, scan (path i) (fresh (path i)) =
      .ofOption (((candidates i).find? fun p => occurs (line i, p)).map fun p : Nat => (p : Int)))
    (turns i : Nat) (hi : i < n) :
    searchLines course scan fresh turns (path i) (fresh (path i)) false =
      .ofOption (asPlace (((List.range' i (min turns (n - i))).flatMap
        (along line candidates)).find? occurs)) := by
  induction turns generalizing i with
  | zero => simp [searchLines, asPlace, Search.ofOption]
  | succ turns ih =>
      obtain ⟨k, hk⟩ : ∃ k, min (turns + 1) (n - i) = k + 1 :=
        ⟨min (turns + 1) (n - i) - 1, by omega⟩
      rw [searchLines_turn hgoes hi (hfresh i hi), hk, List.range'_succ, List.flatMap_cons,
        List.find?_append, find?_along]
      cases (candidates i).find? fun p => occurs (line i, p) with
      | some p => rfl
      | none =>
          simp only [Option.map_none, Option.none_or, Option.elim_none]
          split
          · rename_i hnext
            rw [ih (i + 1) hnext]
            congr 6
            omega
          · rename_i hnext
            have hzero : k = 0 := by omega
            simp [hzero, asPlace, Search.ofOption]

theorem searchLines_wrapped (hgoes : Goes course n path line)
    (hfresh : ∀ i < n, scan (path i) (fresh (path i)) =
      .ofOption (((candidates i).find? fun p => occurs (line i, p)).map fun p : Nat => (p : Int)))
    (turns i : Nat) (hi : i < n) (hturns : n - i ≤ turns) :
    searchLines course scan fresh turns (path i) (fresh (path i)) true =
      .ofOption (asPlace (((List.range' i (n - i)).flatMap (along line candidates) ++
        (List.range' 0 (min (turns - (n - i)) n)).flatMap
          (along line candidates)).find? occurs)) := by
  induction turns generalizing i with
  | zero => omega
  | succ turns ih =>
      obtain ⟨k, hk⟩ : ∃ k, n - i = k + 1 := ⟨n - i - 1, by omega⟩
      rw [searchLines_turn hgoes hi (hfresh i hi), hk, List.range'_succ, List.flatMap_cons,
        List.append_assoc, List.find?_append, find?_along]
      cases (candidates i).find? fun p => occurs (line i, p) with
      | some p => rfl
      | none =>
          simp only [Option.map_none, Option.none_or, Option.elim_none]
          split
          · rename_i hnext
            rw [ih (i + 1) hnext (by omega)]
            have hrest : n - (i + 1) = k := by omega
            rw [hrest, Nat.add_sub_add_right]
          · rename_i hnext
            have hzero : k = 0 := by omega
            rw [if_pos trivial, searchLines_rest hgoes hfresh turns 0 (by omega), hzero,
              List.range'_zero, List.flatMap_nil, List.nil_append, Nat.sub_zero]
            rfl

/-- A search from a place on finds what is first among the places on the searched side, and
then, when it wraps, among all places. -/
theorem searchLines_eq (hgoes : Goes course n path line)
    (hfresh : ∀ i < n, scan (path i) (fresh (path i)) =
      .ofOption (((candidates i).find? fun p => occurs (line i, p)).map fun p : Nat => (p : Int)))
    {i : Nat} {p : Int} {wrap : Bool} {onward : List Nat} (hi : i < n)
    (hstart : scan (path i) p =
      .ofOption ((onward.find? fun p => occurs (line i, p)).map fun p : Nat => (p : Int))) :
    searchLines course scan fresh (n + 1) (path i) p wrap =
      .ofOption (asPlace (((onward.map fun p => (line i, p)) ++
        (List.range' (i + 1) (n - (i + 1))).flatMap (along line candidates) ++
          if wrap then (List.range n).flatMap (along line candidates) else []).find? occurs)) := by
  have honward : (onward.map fun p => (line i, p)).find? occurs =
      (onward.find? fun p => occurs (line i, p)).map fun p => (line i, p) := by
    rw [List.find?_map]
    rfl
  rw [searchLines_turn hgoes hi hstart, List.append_assoc, List.find?_append, honward]
  cases onward.find? fun p => occurs (line i, p) with
  | some p => rfl
  | none =>
      simp only [Option.map_none, Option.none_or, Option.elim_none]
      cases wrap with
      | false =>
          split
          · rename_i hnext
            rw [searchLines_rest hgoes hfresh n (i + 1) hnext, Nat.min_eq_right (by omega)]
            simp
          · rename_i hnext
            have hzero : n - (i + 1) = 0 := by omega
            simp [hzero, asPlace, Search.ofOption]
      | true =>
          split
          · rename_i hnext
            have hwrapped : min (n - (n - (i + 1))) n = i + 1 := by omega
            have hrange : List.range n =
                List.range' 0 (i + 1) ++ List.range' (i + 1) (n - (i + 1)) := by
              have happend := List.range'_append_1 (s := 0) (m := i + 1) (n := n - (i + 1))
              rw [Nat.zero_add, Nat.add_sub_cancel' hnext.le] at happend
              rw [List.range_eq_range', happend]
            rw [searchLines_wrapped hgoes hfresh n (i + 1) hnext (by omega), hwrapped,
              if_pos rfl, hrange, List.flatMap_append]
            congr 2
            -- The lines behind the start have been searched before.
            simp only [List.find?_append]
            cases ((List.range' (i + 1) (n - (i + 1))).flatMap (along line candidates)).find?
              occurs with
            | some q => rfl
            | none => simp
          · rename_i hnext
            have hzero : n - (i + 1) = 0 := by omega
            rw [if_pos rfl, if_pos rfl, searchLines_rest hgoes hfresh n 0 (by omega), hzero,
              Nat.sub_zero,
              Nat.min_self, List.range_eq_range', List.range'_zero]
            rfl

section Directions

variable {α : Type} {L : List (List α)} {start : Nat × Nat} {back skipFirst wrap : Bool}

/-- The positions of line `l` in the direction of a search. -/
def positions (back : Bool) (L : List (List α)) (l : Nat) : List Nat :=
  if back then (List.range ((L.getD l []).length + 1)).reverse
  else List.range ((L.getD l []).length + 1)

/-- The line that is searched at turn `i`, when the search begins at an end of the text. -/
def lineAt (back : Bool) (L : List (List α)) (i : Nat) : Nat :=
  if back then L.length - 1 - i else i

theorem reverse_range (n : Nat) : (List.range n).reverse = (List.range n).map (n - 1 - ·) := by
  rw [List.range_eq_range', List.reverse_range', List.range_eq_range', Nat.zero_add]

theorem ordered_eq (back : Bool) (L : List (List α)) :
    ordered back L = (List.range L.length).flatMap
      (along (lineAt back L) fun i => positions back L (lineAt back L i)) := by
  cases back with
  | false => rfl
  | true =>
      rw [ordered, if_pos rfl, places, List.reverse_flatMap, reverse_range, List.flatMap_map]
      refine List.flatMap_congr fun i _ => ?_
      simp [along, positions, lineAt, List.map_reverse]

/-- The positions of a line that are on the searched side of the start. -/
def onward (back skipFirst : Bool) (L : List (List α)) (start : Nat × Nat) : List Nat :=
  (positions back L start.1).filter fun p => OnSide back skipFirst start (start.1, p)

theorem lineAt_lineAt {i : Nat} (hi : i < L.length) : lineAt back L (lineAt back L i) = i := by
  unfold lineAt
  split <;> omega

theorem lineAt_lt {i : Nat} (hi : i < L.length) : lineAt back L i < L.length := by
  unfold lineAt
  split <;> omega

theorem onSide_lineAt {j p : Nat} (hstart : start.1 < L.length) (hj : j < L.length)
    (hne : j ≠ lineAt back L start.1) :
    OnSide back skipFirst start (lineAt back L j, p) ↔ lineAt back L start.1 < j := by
  simp only [OnSide, Ahead, Prod.ext_iff]
  revert hne
  cases back with
  | false =>
      intro hne
      simp only [lineAt, Bool.false_eq_true, if_false] at hne ⊢
      constructor
      · rintro ((h | ⟨h, -⟩) | ⟨-, h, -⟩)
        · exact h
        · exact absurd h hne
        · exact absurd h hne
      · exact fun h => Or.inl (Or.inl h)
  | true =>
      intro hne
      simp only [lineAt, if_true] at hne ⊢
      constructor
      · rintro ((h | ⟨h, -⟩) | ⟨-, h, -⟩)
        · omega
        · omega
        · omega
      · exact fun h => Or.inl (Or.inl (by omega))

/-- The places of the lines before line `l`, in the course of a search. -/
def ahead (back : Bool) (L : List (List α)) (l : Nat) : List (Nat × Nat) :=
  (List.range (lineAt back L l)).flatMap
    (along (lineAt back L) fun i => positions back L (lineAt back L i))

/-- The places of the lines behind line `l`, in the course of a search. -/
def behind (back : Bool) (L : List (List α)) (l : Nat) : List (Nat × Nat) :=
  (List.range' (lineAt back L l + 1) (L.length - (lineAt back L l + 1))).flatMap
    (along (lineAt back L) fun i => positions back L (lineAt back L i))

theorem ordered_split {l : Nat} (hl : l < L.length) :
    ordered back L = ahead back L l ++
      ((positions back L l).map fun p => (l, p)) ++ behind back L l := by
  have hlt : lineAt back L l < L.length := lineAt_lt hl
  have hrange : List.range L.length = List.range (lineAt back L l) ++
      lineAt back L l :: List.range' (lineAt back L l + 1) (L.length - (lineAt back L l + 1)) := by
    obtain ⟨k, hk⟩ : ∃ k, L.length - lineAt back L l = k + 1 :=
      ⟨L.length - lineAt back L l - 1, by omega⟩
    have happend := List.range'_append_1 (s := 0) (m := lineAt back L l)
      (n := L.length - lineAt back L l)
    rw [Nat.zero_add, Nat.add_sub_cancel' hlt.le] at happend
    rw [List.range_eq_range', List.range_eq_range', ← happend, hk, List.range'_succ]
    congr 3
    omega
  rw [ordered_eq, hrange, List.flatMap_append, List.flatMap_cons, ahead, behind, List.append_assoc]
  congr 2
  rw [along, lineAt_lineAt hl]

theorem mem_ahead {l : Nat} {q : Nat × Nat} (hq : q ∈ ahead back L l) :
    ∃ j p, j < lineAt back L l ∧ q = (lineAt back L j, p) := by
  obtain ⟨j, hj, hmem⟩ := List.mem_flatMap.mp hq
  obtain ⟨p, -, rfl⟩ := List.mem_map.mp hmem
  exact ⟨j, p, List.mem_range.mp hj, rfl⟩

theorem mem_behind {l : Nat} {q : Nat × Nat} (hl : l < L.length) (hq : q ∈ behind back L l) :
    ∃ j p, lineAt back L l < j ∧ j < L.length ∧ q = (lineAt back L j, p) := by
  obtain ⟨j, hj, hmem⟩ := List.mem_flatMap.mp hq
  obtain ⟨p, -, rfl⟩ := List.mem_map.mp hmem
  have hlt := (@lineAt_lt _ _ back) hl
  rw [List.mem_range'_1] at hj
  exact ⟨j, p, by omega, by omega, rfl⟩

theorem ne_of_mem_ahead {l : Nat} {q : Nat × Nat} (hl : l < L.length) (hq : q ∈ ahead back L l) :
    q.1 ≠ l := by
  obtain ⟨j, p, hj, rfl⟩ := mem_ahead hq
  have hlt := (@lineAt_lt _ _ back) hl
  rintro rfl
  rw [lineAt_lineAt (by omega)] at hj
  omega

theorem ne_of_mem_behind {l : Nat} {q : Nat × Nat} (hl : l < L.length)
    (hq : q ∈ behind back L l) : q.1 ≠ l := by
  obtain ⟨j, p, hj, hjn, rfl⟩ := mem_behind hl hq
  rintro rfl
  rw [lineAt_lineAt hjn] at hj
  omega

theorem mem_ordered {q : Nat × Nat} :
    q ∈ ordered back L ↔ q.1 < L.length ∧ q.2 ≤ (L.getD q.1 []).length := by
  have hplaces : q ∈ ordered back L ↔ q ∈ places L := by
    unfold ordered
    split
    · exact List.mem_reverse
    · exact Iff.rfl
  rw [hplaces, places, List.mem_flatMap]
  constructor
  · rintro ⟨l, hl, hmem⟩
    obtain ⟨p, hp, rfl⟩ := List.mem_map.mp hmem
    exact ⟨List.mem_range.mp hl, Nat.lt_succ_iff.mp (List.mem_range.mp hp)⟩
  · rintro ⟨hl, hp⟩
    exact ⟨q.1, List.mem_range.mpr hl, List.mem_map.mpr
      ⟨q.2, List.mem_range.mpr (Nat.lt_succ_iff.mpr hp), rfl⟩⟩

theorem naiveSearch_eq (hstart : start.1 < L.length) :
    naiveSearch back skipFirst wrap occurs L start =
      (((onward back skipFirst L start).map fun p => (start.1, p)) ++ behind back L start.1 ++
        if wrap then ordered back L else []).find? occurs := by
  have hlt : lineAt back L start.1 < L.length := lineAt_lt hstart
  have hahead : (ahead back L start.1).filter (fun q => OnSide back skipFirst start q) = [] := by
    rw [List.filter_eq_nil_iff]
    intro q hq
    obtain ⟨j, p, hj, rfl⟩ := mem_ahead hq
    rw [decide_eq_true_eq, onSide_lineAt hstart (by omega) (by omega)]
    omega
  have hbehind : (behind back L start.1).filter (fun q => OnSide back skipFirst start q) =
      behind back L start.1 := by
    rw [List.filter_eq_self]
    intro q hq
    obtain ⟨j, p, hj, hjn, rfl⟩ := mem_behind hstart hq
    rw [decide_eq_true_eq, onSide_lineAt hstart hjn (by omega)]
    exact hj
  have hside : (ordered back L).filter (fun q => OnSide back skipFirst start q) =
      ((onward back skipFirst L start).map fun p => (start.1, p)) ++ behind back L start.1 := by
    rw [ordered_split hstart, List.filter_append, List.filter_append, hahead, hbehind,
      List.nil_append, List.filter_map]
    rfl
  rw [naiveSearch, hside]

/-- The course of a search through `n` lines. -/
def courseOf (back : Bool) (n : Int) : Course :=
  if back then
    { inside := fun y => decide (0 ≤ y)
      next := fun y => y - 1
      restart := n - 1 }
  else
    { inside := fun y => decide (y < n)
      next := fun y => y + 1
      restart := 0 }

theorem goes_courseOf (back : Bool) (L : List (List α)) :
    Goes (courseOf back L.length) L.length
      (fun i => if back then (L.length : Int) - 1 - i else i) (lineAt back L) := by
  cases back with
  | false =>
      constructor
      · intro i
        simp [courseOf]
      · intro i _
        simp [courseOf]
      · simp [courseOf]
      · intro i _
        simp [lineAt]
  | true =>
      constructor
      · intro i
        simp only [courseOf, if_true, decide_eq_decide]
        omega
      · intro i _
        simp only [courseOf, if_true]
        push_cast
        ring
      · simp [courseOf]
      · intro i hi
        simp only [lineAt, if_true]
        omega

theorem searchLines_from {p : Int} {l : Nat} {from_ : List Nat} (hline : l < L.length)
    (hfresh : ∀ l < L.length, scan l (fresh l) =
      .ofOption (((positions back L l).find? fun p => occurs (l, p)).map fun p : Nat => (p : Int)))
    (hstart : scan l p =
      .ofOption ((from_.find? fun p => occurs (l, p)).map fun p : Nat => (p : Int))) :
    searchLines (courseOf back L.length) scan fresh (L.length + 1) l p wrap =
      .ofOption (asPlace (((from_.map fun p => (l, p)) ++ behind back L l ++
        if wrap then ordered back L else []).find? occurs)) := by
  have hgoes := goes_courseOf back L
  have hi : lineAt back L l < L.length := lineAt_lt hline
  have hpath : (if back then (L.length : Int) - 1 - (lineAt back L l : Nat)
      else (lineAt back L l : Nat)) = l := by
    rw [hgoes.line _ hi, lineAt_lineAt hline]
  have h := @searchLines_eq _ _ _ _ (fun i => positions back L (lineAt back L i)) occurs scan fresh
    hgoes (fun j hj => by
      rw [hgoes.line j hj]
      exact hfresh _ (lineAt_lt hj)) (lineAt back L l) p wrap from_ hi (by
      simp only [hpath, lineAt_lineAt hline]
      exact hstart)
  simp only [hpath, lineAt_lineAt hline] at h
  rw [h, ordered_eq]
  rfl

theorem searchLines_eq_naive {p : Int} (hline : start.1 < L.length)
    (hfresh : ∀ l < L.length, scan l (fresh l) =
      .ofOption (((positions back L l).find? fun p => occurs (l, p)).map fun p : Nat => (p : Int)))
    (hstart : scan start.1 p = .ofOption
      (((onward back skipFirst L start).find? fun p => occurs (start.1, p)).map
        fun p : Nat => (p : Int))) :
    searchLines (courseOf back L.length) scan fresh (L.length + 1) start.1 p wrap =
      .ofOption (asPlace (naiveSearch back skipFirst wrap occurs L start)) := by
  rw [searchLines_from hline hfresh hstart, naiveSearch_eq hline]

end Directions

section Skips

variable {c : List Nat} {key : Nat → Int} {shift : Int → Nat} {limit k : Int} {turns : Nat}
variable {occursAt : Int → Bool} {occurs : Nat → Bool} {scan : Nat → Int → Search Int}
variable {pos : Int → Int}

theorem find?_eq_of_first {R : Nat → Nat → Prop} {p : Nat} (hsorted : c.Pairwise R) (hp : p ∈ c)
    (hoccurs : occurs p = true) (hfirst : ∀ q ∈ c, occurs q = true → ¬ R q p) :
    c.find? occurs = some p := by
  obtain ⟨before, after, rfl⟩ := List.append_of_mem hp
  rw [List.find?_eq_some_iff_append]
  refine ⟨hoccurs, before, after, rfl, fun q hq => ?_⟩
  have hbefore := List.pairwise_append.mp hsorted
  have hR : R q p := hbefore.2.2 q hq p List.mem_cons_self
  have hnot : ¬ occurs q = true := fun h => hfirst q (List.mem_append_left _ hq) h hR
  simpa using hnot

/-- A scan that skips places without an occurrence only finds the first occurrence among the
candidates `c`; `key` gives where the scan meets a candidate. -/
theorem skips_find? (hsorted : c.Pairwise fun p q => key p < key q)
    (hcover : ∀ j, k ≤ j → j ≤ limit → ∃ p ∈ c, key p = j)
    (hinside : ∀ p ∈ c, occurs p = true → key p ≤ limit)
    (hoccurs : ∀ p ∈ c, key p ≤ limit → k ≤ key p → occursAt (key p) = occurs p)
    (hpos : ∀ p ∈ c, pos (key p) = p)
    (hstep : ∀ turns j, k ≤ j → scan (turns + 1) j =
      if j ≤ limit then if occursAt j then .found (pos j) else scan turns (j + shift j)
      else .missed)
    (hshift : ∀ j, k ≤ j → j ≤ limit → occursAt j = false →
      0 < shift j ∧ ∀ i, j < i → i < j + shift j → i ≤ limit → occursAt i = false)
    (hfrom : ∀ p ∈ c, occurs p = true → k ≤ key p) (hturns : limit + 1 - k < turns)
    (hpositive : 0 < turns) :
    scan turns k = .ofOption ((c.find? occurs).map fun p : Nat => (p : Int)) := by
  -- No occurrence lies before the place the scan has come to.
  suffices h : ∀ (turns : Nat) (j : Int), k ≤ j → (∀ p ∈ c, occurs p = true → j ≤ key p) →
      limit + 1 - j < turns → 0 < turns →
      scan turns j = .ofOption ((c.find? occurs).map fun p : Nat => (p : Int)) from
    h turns k le_rfl hfrom hturns hpositive
  intro turns
  induction turns with
  | zero => exact fun j hk hnone hturns hzero => absurd hzero (lt_irrefl 0)
  | succ turns ih =>
      intro j hk hnone hturns _
      rw [hstep turns j hk]
      by_cases hlimit : j ≤ limit
      · rw [if_pos hlimit]
        obtain ⟨p, hp, rfl⟩ := hcover j hk hlimit
        by_cases hfound : occursAt (key p) = true
        · have hfirst : c.find? occurs = some p :=
            find?_eq_of_first hsorted hp ((hoccurs p hp hlimit hk) ▸ hfound) fun q hq hq' hlt =>
              absurd (hnone q hq hq') (not_le.mpr hlt)
          rw [if_pos hfound, hfirst, hpos p hp]
          rfl
        · rw [if_neg hfound]
          have hfalse : occursAt (key p) = false := by simpa using hfound
          obtain ⟨hpositive, hskip⟩ := hshift (key p) hk hlimit hfalse
          refine ih _ (by omega) (fun q hq hq' => ?_) (by omega) (by omega)
          by_contra hbefore
          have hge := hnone q hq hq'
          have hle := hinside q hq hq'
          rcases eq_or_lt_of_le hge with heq | hlt
          · rw [heq, hoccurs q hq hle (by omega), hq'] at hfalse
            cases hfalse
          · have hnot := hskip (key q) hlt (by omega) hle
            rw [hoccurs q hq hle (by omega), hq'] at hnot
            cases hnot
      · have hmissed : c.find? occurs = none := by
          rw [List.find?_eq_none]
          intro q hq hq'
          have hge := hnone q hq hq'
          have hle := hinside q hq hq'
          omega
        rw [if_neg hlimit, hmissed]
        rfl

end Skips

end NiceEditor.LineSearch
