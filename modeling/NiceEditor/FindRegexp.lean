import NiceEditor.FindRefinement

namespace NiceEditor.FindRegexp

open NiceEditor.Pools
open NiceEditor.BufferData
open NiceEditor.Encoding
open NiceEditor.Navigation
open NiceEditor.Cursor
open NiceEditor.LineSearch
open NiceEditor.Find
open NiceEditor.FindRefinement
open NiceEditor.EditStream
open NiceEditor.Load

/-- Line `y` of the text is searched from `startPos` on.  `reSearch` is `re_search` for the
compiled expression: the line, the start and the range. -/
def searchLine (reSearch : List Byte → Int → Int → Int) (back : Bool) (b : Buffer)
    (y startPos : Int) : Search Int :=
  let line := (lines b).getD y.toNat []
  if back then
    if 0 ≤ startPos ∧ 0 ≤ reSearch line startPos (-startPos - 1) then
      .found (reSearch line startPos (-startPos - 1))
    else .missed
  else if startPos ≤ line.length ∧ 0 ≤ reSearch line startPos (line.length - startPos) then
    .found (reSearch line startPos (line.length - startPos))
  else .missed

/-- `start_pos` for a line that is not the first one. -/
def freshStart (back : Bool) (b : Buffer) (y : Int) : Int :=
  if back then ((lines b).getD y.toNat []).length else 0

/-- `start_pos` for the line of the cursor. -/
def startPos (back skipFirst : Bool) (b : Buffer) : Int :=
  b.curPos + if skipFirst then (if back then -1 else 1) else 0

/-- `find_regexp` once the expression is compiled, not interrupted. -/
def findRegexp (t : Terminal) (reSearch : List Byte → Int → Int → Int) (b : Buffer)
    (skipFirst wrapOnce : Bool) : FindStatus × Buffer :=
  let back := b.opt.searchBack
  match searchLines (courseOf back b.numLines) (searchLine reSearch back b) (freshStart back b)
      (b.numLines + 1).toNat b.curLine (startPos back skipFirst b) wrapOnce with
  | .found (y, pos) => (.ok, gotoLinePos t b y pos)
  | .missed => (.notFound, b)
  | .running => (.notFound, b)

/-- What `re_search` does: `matchesAt` says at which positions of a line a match starts. -/
structure Searches (reSearch : List Byte → Int → Int → Int) (matchesAt : List Byte → Nat → Bool) :
    Prop where
  forward : ∀ (line : List Byte) (start : Nat), start ≤ line.length →
    (∃ p : Nat, reSearch line start (line.length - start) = p ∧ start ≤ p ∧ p ≤ line.length ∧
      matchesAt line p = true ∧ ∀ q, start ≤ q → q < p → matchesAt line q = false) ∨
    (reSearch line start (line.length - start) < 0 ∧
      ∀ q, start ≤ q → q ≤ line.length → matchesAt line q = false)
  backward : ∀ (line : List Byte) (start : Nat), start ≤ line.length →
    (∃ p : Nat, reSearch line start (-start - 1) = p ∧ p ≤ start ∧
      matchesAt line p = true ∧ ∀ q, p < q → q ≤ start → matchesAt line q = false) ∨
    (reSearch line start (-start - 1) < 0 ∧ ∀ q ≤ start, matchesAt line q = false)
  beyond : ∀ (line : List Byte) (start range : Int), line.length < start →
    reSearch line start range < 0

/-- A match starts at a place of a text. -/
def matchesAtPlace (matchesAt : List Byte → Nat → Bool) (L : List (List Byte)) (q : Nat × Nat) :
    Bool :=
  matchesAt (L.getD q.1 []) q.2

/-- The place of the cursor. -/
def cursorPlace (b : Buffer) : Nat × Nat := (b.curLine.toNat, b.curPos.toNat)

/-- `find_regexp` moves the cursor to the nearest match, or leaves it where it was. -/
def FindsNearest (t : Terminal) (reSearch : List Byte → Int → Int → Int)
    (matchesAt : List Byte → Nat → Bool) (b : Buffer) (skipFirst wrapOnce : Bool) : Prop :=
  match naiveSearch b.opt.searchBack skipFirst wrapOnce (matchesAtPlace matchesAt (lines b))
      (lines b) (cursorPlace b) with
  | none => findRegexp t reSearch b skipFirst wrapOnce = (.notFound, b)
  | some q => ∃ b', findRegexp t reSearch b skipFirst wrapOnce = (.ok, b') ∧ Moved b b' ∧
      b'.curLine = q.1 ∧
      (WholeChars b.encoding (((lines b).getD q.1 []).take q.2) → b'.curPos = q.2)

/-- A line of a text has a match. -/
def HasMatch (matchesAt : List Byte → Nat → Bool) (line : List Byte) : Prop :=
  ∃ p ≤ line.length, matchesAt line p = true

/-- The search goes backwards from behind the end of a line that has a match, and does not come
back to this line before it meets another match or ends. -/
def StartsBeyond (matchesAt : List Byte → Nat → Bool) (b : Buffer) (skipFirst wrapOnce : Bool) :
    Prop :=
  let line := lineOf b b.curLineDesc
  b.opt.searchBack = true ∧ (line.length : Int) < startPos true skipFirst b ∧
    HasMatch matchesAt line ∧
      (wrapOnce = false ∨ ∃ (l : Nat) (s : List Byte), (lines b)[l]? = some s ∧
        (l : Int) ≠ b.curLine ∧ HasMatch matchesAt s)

variable {reSearch : List Byte → Int → Int → Int} {matchesAt : List Byte → Nat → Bool}
variable {b : Buffer} {line s : List Byte} {l k : Nat} {back skipFirst wrapOnce : Bool}

theorem searchLine_forward (hsearch : Searches reSearch matchesAt) {c : List Nat}
    (hget : (lines b).getD l [] = line) (hsorted : c.Pairwise (· < ·))
    (hmem : ∀ p, p ∈ c ↔ k ≤ p ∧ p ≤ line.length) :
    searchLine reSearch false b l k =
      .ofOption ((c.find? (matchesAt line)).map fun p : Nat => (p : Int)) := by
  rw [searchLine, Int.toNat_natCast, hget]
  simp only [Bool.false_eq_true, if_false]
  by_cases hle : k ≤ line.length
  · rcases hsearch.forward line k hle with ⟨p, hp, hkp, hpl, hmatch, hfirst⟩ | ⟨hfail, hnone⟩
    · have hfind : c.find? (matchesAt line) = some p :=
        find?_eq_of_first hsorted ((hmem p).mpr ⟨hkp, hpl⟩) hmatch fun q hq hq' hlt => by
          rw [hfirst q ((hmem q).mp hq).1 hlt] at hq'
          cases hq'
      rw [hfind, hp, if_pos ⟨by omega, by omega⟩]
      rfl
    · have hfind : c.find? (matchesAt line) = none := by
        rw [List.find?_eq_none]
        intro q hq
        rw [hnone q ((hmem q).mp hq).1 ((hmem q).mp hq).2]
        exact Bool.false_ne_true
      rw [hfind, if_neg (by omega)]
      rfl
  · have hempty : c = [] := List.eq_nil_iff_forall_not_mem.mpr fun p hp => by
      have hbounds := (hmem p).mp hp
      omega
    rw [hempty, if_neg (by omega)]
    rfl

theorem searchLine_backward (hsearch : Searches reSearch matchesAt) {c : List Nat} {k : Int}
    (hget : (lines b).getD l [] = line) (hsorted : c.Pairwise (· > ·)) (hk : k ≤ line.length)
    (hmem : ∀ p : Nat, p ∈ c ↔ (p : Int) ≤ k) :
    searchLine reSearch true b l k =
      .ofOption ((c.find? (matchesAt line)).map fun p : Nat => (p : Int)) := by
  rw [searchLine, Int.toNat_natCast, hget]
  simp only [if_true]
  by_cases hnonneg : 0 ≤ k
  · obtain ⟨k, rfl⟩ := Int.eq_ofNat_of_zero_le hnonneg
    rcases hsearch.backward line k (by omega) with ⟨p, hp, hpk, hmatch, hlast⟩ | ⟨hfail, hnone⟩
    · have hfind : c.find? (matchesAt line) = some p :=
        find?_eq_of_first hsorted ((hmem p).mpr (by omega)) hmatch fun q hq hq' hlt => by
          have hqk := (hmem q).mp hq
          rw [hlast q hlt (by omega)] at hq'
          cases hq'
      rw [hfind, hp, if_pos ⟨hnonneg, by omega⟩]
      rfl
    · have hfind : c.find? (matchesAt line) = none := by
        rw [List.find?_eq_none]
        intro q hq
        have hqk := (hmem q).mp hq
        rw [hnone q (by omega)]
        exact Bool.false_ne_true
      rw [hfind, if_neg (by omega)]
      rfl
  · have hempty : c = [] := List.eq_nil_iff_forall_not_mem.mpr fun p hp => by
      have hbounds := (hmem p).mp hp
      omega
    rw [hempty, if_neg (by omega)]
    rfl

theorem searchLine_fresh (hsearch : Searches reSearch matchesAt) :
    searchLine reSearch back b l (freshStart back b l) =
      .ofOption (((positions back (lines b) l).find? fun p =>
        matchesAtPlace matchesAt (lines b) (l, p)).map fun p : Nat => (p : Int)) := by
  rw [freshStart, Int.toNat_natCast]
  cases back with
  | false =>
      exact searchLine_forward (k := 0) hsearch rfl positions_sorted_forward fun p => by
        rw [mem_positions]
        omega
  | true =>
      exact searchLine_backward hsearch rfl positions_sorted_backward le_rfl fun p => by
        rw [mem_positions]
        exact Nat.cast_le.symm

theorem searchLine_start (hsearch : Searches reSearch matchesAt)
    (hget : (lines b).getD l [] = line) (hpos : b.curPos = k)
    (hwithin : back = false ∨ startPos true skipFirst b ≤ line.length) :
    searchLine reSearch back b l (startPos back skipFirst b) =
      .ofOption (((onward back skipFirst (lines b) (l, k)).find? fun p =>
        matchesAtPlace matchesAt (lines b) (l, p)).map fun p : Nat => (p : Int)) := by
  have hmatches : (fun p => matchesAtPlace matchesAt (lines b) (l, p)) = matchesAt line := by
    funext p
    rw [matchesAtPlace, hget]
  rw [hmatches]
  cases back with
  | false =>
      have hstart : startPos false skipFirst b = (k + if skipFirst then 1 else 0 : Nat) := by
        rw [startPos, hpos]
        cases skipFirst <;> simp
      rw [hstart]
      exact searchLine_forward hsearch hget (List.Pairwise.filter _ positions_sorted_forward)
        fun p => by rw [mem_onward_forward, hget]
  | true =>
      have hle := hwithin.resolve_left (by decide)
      refine searchLine_backward hsearch hget (List.Pairwise.filter _ positions_sorted_backward) hle
        fun p => ?_
      rw [startPos, hpos] at hle ⊢
      rw [mem_onward_backward, hget]
      cases skipFirst with
      | false =>
          simp only [Bool.false_eq_true, if_false] at hle ⊢
          omega
      | true =>
          simp only [if_true] at hle ⊢
          omega

theorem exists_line (h : CursorOk b) : ∃ (l : Nat) (s : List Byte), b.curLine = l ∧
    b.curLineDesc = some l ∧ (lines b)[l]? = some s ∧ b.numLines = (lines b).length := by
  have hnum : b.numLines = (lines b).length := by rw [h.numLines, lines, List.length_map]
  have hwin := h.winY_nonneg
  have hle := h.winY_le
  have hlt := h.curLine_lt
  obtain ⟨l, hl⟩ := Int.eq_ofNat_of_zero_le (show 0 ≤ b.curLine by omega)
  have hlt' : l < (lines b).length := by omega
  exact ⟨l, (lines b)[l], hl, by rw [h.cur, hl, Int.toNat_natCast],
    List.getElem?_eq_getElem hlt', hnum⟩

theorem findRegexp_eq (t : Terminal) {from_ : List Nat} (hsearch : Searches reSearch matchesAt)
    (hl : b.curLine = l) (hlt : l < (lines b).length) (hnum : b.numLines = (lines b).length)
    (hstart : searchLine reSearch b.opt.searchBack b l (startPos b.opt.searchBack skipFirst b) =
      .ofOption ((from_.find? fun p => matchesAtPlace matchesAt (lines b) (l, p)).map
        fun p : Nat => (p : Int))) :
    findRegexp t reSearch b skipFirst wrapOnce =
      (((from_.map fun p => (l, p)) ++ behind b.opt.searchBack (lines b) l ++
        if wrapOnce then ordered b.opt.searchBack (lines b) else []).find?
          (matchesAtPlace matchesAt (lines b))).elim (.notFound, b)
        fun q => (.ok, gotoLinePos t b q.1 q.2) := by
  have hturns : ((lines b).length + 1 : Int).toNat = (lines b).length + 1 := by omega
  rw [findRegexp, hnum, hl, hturns, searchLines_from hlt (fun l _ => searchLine_fresh hsearch)
    hstart]
  cases ((from_.map fun p => (l, p)) ++ behind b.opt.searchBack (lines b) l ++
      if wrapOnce then ordered b.opt.searchBack (lines b) else []).find?
        (matchesAtPlace matchesAt (lines b)) with
  | none => rfl
  | some q => rfl

theorem findsNearest_of_eq (t : Terminal) (h : CursorOk b)
    (hfind : findRegexp t reSearch b skipFirst wrapOnce =
      (naiveSearch b.opt.searchBack skipFirst wrapOnce (matchesAtPlace matchesAt (lines b))
        (lines b) (cursorPlace b)).elim (.notFound, b) fun q => (.ok, gotoLinePos t b q.1 q.2)) :
    FindsNearest t reSearch matchesAt b skipFirst wrapOnce := by
  rw [FindsNearest]
  cases hnaive : naiveSearch b.opt.searchBack skipFirst wrapOnce
      (matchesAtPlace matchesAt (lines b)) (lines b) (cursorPlace b) with
  | none =>
      rw [hnaive] at hfind
      exact hfind
  | some q =>
      rw [hnaive] at hfind
      have hmem : q ∈ ordered b.opt.searchBack (lines b) := by
        have hq := List.mem_of_find?_eq_some hnaive
        rcases List.mem_append.mp hq with hside | hwrap
        · exact (List.mem_filter.mp hside).1
        · split at hwrap
          · exact hwrap
          · exact absurd hwrap List.not_mem_nil
      obtain ⟨hlt, hle⟩ := mem_ordered.mp hmem
      have hline : (lines b)[q.1]? = some ((lines b).getD q.1 []) := by
        rw [List.getD_eq_getElem _ _ hlt, List.getElem?_eq_getElem hlt]
      obtain ⟨hmoved, hcurLine⟩ := gotoLinePos_line (t := t) h hline hle
      exact ⟨_, hfind, hmoved, hcurLine, fun hwhole =>
        (gotoLinePos_spec t h hline hle hwhole).2.2.2⟩

theorem onward_beyond (hget : (lines b).getD l [] = line) (hpos : b.curPos = k)
    (hbeyond : (line.length : Int) < startPos true skipFirst b) :
    onward true skipFirst (lines b) (l, k) = positions true (lines b) l := by
  refine List.filter_eq_self.mpr fun p hp => ?_
  have hmem : p ∈ onward true skipFirst (lines b) (l, k) := by
    rw [mem_positions, hget] at hp
    rw [mem_onward_backward, hget]
    rw [startPos, hpos] at hbeyond
    cases skipFirst with
    | false =>
        simp only [Bool.false_eq_true, if_false] at hbeyond ⊢
        omega
    | true =>
        simp only [if_true] at hbeyond ⊢
        omega
  exact (List.mem_filter.mp hmem).2

theorem find?_positions_none (hget : (lines b).getD l [] = line)
    (hnone : ¬ HasMatch matchesAt line) :
    ((positions back (lines b) l).map fun p => (l, p)).find?
      (matchesAtPlace matchesAt (lines b)) = none := by
  rw [List.find?_eq_none]
  intro q hq hmatch
  obtain ⟨p, hp, rfl⟩ := List.mem_map.mp hq
  rw [mem_positions, hget] at hp
  rw [matchesAtPlace, hget] at hmatch
  exact hnone ⟨p, hp, hmatch⟩

theorem find?_positions_some (hget : (lines b).getD l [] = line)
    (hmatch : HasMatch matchesAt line) :
    ∃ p, ((positions back (lines b) l).map fun p => (l, p)).find?
      (matchesAtPlace matchesAt (lines b)) = some (l, p) := by
  cases hfind : ((positions back (lines b) l).map fun p => (l, p)).find?
      (matchesAtPlace matchesAt (lines b)) with
  | some q =>
      obtain ⟨p, -, rfl⟩ := List.mem_map.mp (List.mem_of_find?_eq_some hfind)
      exact ⟨p, rfl⟩
  | none =>
      obtain ⟨p, hp, hmatch⟩ := hmatch
      have hmem : (l, p) ∈ (positions back (lines b) l).map fun p => (l, p) :=
        List.mem_map.mpr ⟨p, by rw [mem_positions, hget]; exact hp, rfl⟩
      rw [← hget] at hmatch
      exact absurd hmatch (List.find?_eq_none.mp hfind _ hmem)

theorem find?_around_none {L : List (Nat × Nat)} (hmem : ∀ q ∈ L, q ∈ ordered back (lines b))
    (hne : ∀ q ∈ L, q.1 ≠ l)
    (hothers : ¬ ∃ (m : Nat) (s : List Byte), (lines b)[m]? = some s ∧ m ≠ l ∧
      HasMatch matchesAt s) : L.find? (matchesAtPlace matchesAt (lines b)) = none := by
  rw [List.find?_eq_none]
  intro q hq hmatch
  obtain ⟨hlt, hle⟩ := mem_ordered.mp (hmem q hq)
  refine hothers ⟨q.1, (lines b).getD q.1 [], ?_, hne q hq, q.2, hle, hmatch⟩
  rw [List.getD_eq_getElem _ _ hlt, List.getElem?_eq_getElem hlt]

theorem ne_of_found {q : Nat × Nat} (hlt : l < (lines b).length)
    (hothers : wrapOnce = false ∨ ∃ (m : Nat) (s : List Byte), (lines b)[m]? = some s ∧ m ≠ l ∧
      HasMatch matchesAt s)
    (hfind : (behind back (lines b) l ++ if wrapOnce then ordered back (lines b) else []).find?
      (matchesAtPlace matchesAt (lines b)) = some q) : q.1 ≠ l := by
  rw [List.find?_append] at hfind
  cases hbehind : (behind back (lines b) l).find? (matchesAtPlace matchesAt (lines b)) with
  | some r =>
      rw [hbehind, Option.some_or, Option.some.injEq] at hfind
      exact hfind ▸ ne_of_mem_behind hlt (List.mem_of_find?_eq_some hbehind)
  | none =>
      rw [hbehind, Option.none_or] at hfind
      rcases hothers with rfl | ⟨m, s, hs, hml, p, hp, hmatch⟩
      · simp at hfind
      cases wrapOnce with
      | false => simp at hfind
      | true =>
          rw [if_pos rfl, ordered_split hlt, List.append_assoc, List.find?_append] at hfind
          -- The other line is before the one of the cursor.
          have hget : (lines b).getD m [] = s := by
            rw [List.getD_eq_getElem?_getD, hs, Option.getD_some]
          have hplace : (m, p) ∈ ordered back (lines b) :=
            mem_ordered.mpr ⟨(List.getElem?_eq_some_iff.mp hs).1, hget.symm ▸ hp⟩
          have hmatch' : matchesAtPlace matchesAt (lines b) (m, p) = true := by
            rw [matchesAtPlace, hget]
            exact hmatch
          rw [ordered_split hlt] at hplace
          rcases List.mem_append.mp hplace with hfront | hback
          · rcases List.mem_append.mp hfront with hahead | hon
            · cases hfirst :
                (ahead back (lines b) l).find? (matchesAtPlace matchesAt (lines b)) with
              | some r =>
                  rw [hfirst, Option.some_or, Option.some.injEq] at hfind
                  exact hfind ▸ ne_of_mem_ahead hlt (List.mem_of_find?_eq_some hfirst)
              | none => exact absurd hmatch' (List.find?_eq_none.mp hfirst _ hahead)
            · obtain ⟨_, -, heq⟩ := List.mem_map.mp hon
              exact absurd (Prod.ext_iff.mp heq).1.symm hml
          · exact absurd hmatch' (List.find?_eq_none.mp hbehind _ hback)

/-- The search finds the nearest match, unless it starts backwards from behind the end of a line
with a match. -/
theorem findsNearest_iff (t : Terminal) (hsearch : Searches reSearch matchesAt) (h : CursorOk b)
    (hpos : 0 ≤ b.curPos) :
    FindsNearest t reSearch matchesAt b skipFirst wrapOnce ↔
      ¬ StartsBeyond matchesAt b skipFirst wrapOnce := by
  obtain ⟨l, line, hl, hdesc, hline, hnum⟩ := exists_line h
  obtain ⟨k, hk⟩ := Int.eq_ofNat_of_zero_le hpos
  have hlt : l < (lines b).length := (List.getElem?_eq_some_iff.mp hline).1
  have hget : (lines b).getD l [] = line := by
    rw [List.getD_eq_getElem?_getD, hline, Option.getD_some]
  have hplace : cursorPlace b = (l, k) := by
    rw [cursorPlace, hl, hk, Int.toNat_natCast, Int.toNat_natCast]
  have hlineOf : lineOf b b.curLineDesc = line := by rw [hdesc, lineOf_some hline]
  have hnaive := (@naiveSearch_eq (matchesAtPlace matchesAt (lines b)) _ (lines b) (l, k)
    b.opt.searchBack skipFirst wrapOnce) hlt
  by_cases hwithin : b.opt.searchBack = false ∨ startPos true skipFirst b ≤ line.length
  · have hfind := (@findRegexp_eq _ _ _ _ _ wrapOnce) t hsearch hl hlt hnum
      (searchLine_start hsearch hget hk hwithin)
    rw [← hnaive, ← hplace] at hfind
    refine iff_of_true (findsNearest_of_eq t h hfind) fun hbeyond => ?_
    rw [StartsBeyond, hlineOf] at hbeyond
    rcases hwithin with hforward | hle
    · rw [hforward] at hbeyond
      exact absurd hbeyond.1 Bool.false_ne_true
    · exact absurd hbeyond.2.1 (not_lt.mpr hle)
  rw [not_or, Bool.not_eq_false, not_le] at hwithin
  obtain ⟨hback, hbeyond⟩ := hwithin
  -- The line of the cursor is not searched.
  have hmissed : searchLine reSearch b.opt.searchBack b l (startPos b.opt.searchBack skipFirst b) =
      .ofOption ((([] : List Nat).find? fun p => matchesAtPlace matchesAt (lines b) (l, p)).map
        fun p : Nat => (p : Int)) := by
    have hfail := hsearch.beyond line _ (-startPos true skipFirst b - 1) hbeyond
    rw [hback, searchLine, Int.toNat_natCast, hget]
    simp only [if_true]
    rw [if_neg (by omega)]
    rfl
  have hfind := (@findRegexp_eq _ _ _ _ _ wrapOnce) t hsearch hl hlt hnum hmissed
  rw [hback] at hfind hnaive
  rw [List.map_nil, List.nil_append] at hfind
  rw [onward_beyond hget hk hbeyond, List.append_assoc, List.find?_append] at hnaive
  have hcondition : StartsBeyond matchesAt b skipFirst wrapOnce ↔ HasMatch matchesAt line ∧
      (wrapOnce = false ∨ ∃ (m : Nat) (s : List Byte), (lines b)[m]? = some s ∧ m ≠ l ∧
        HasMatch matchesAt s) := by
    rw [StartsBeyond, hlineOf, hl]
    simp only [hback, hbeyond, true_and, ne_eq, Nat.cast_inj]
  rw [hcondition]
  by_cases hmatch : HasMatch matchesAt line
  · obtain ⟨p, hp⟩ := (@find?_positions_some _ _ _ _ true) hget hmatch
    rw [hp, Option.some_or] at hnaive
    by_cases hothers : wrapOnce = false ∨ ∃ (m : Nat) (s : List Byte), (lines b)[m]? = some s ∧
        m ≠ l ∧ HasMatch matchesAt s
    · refine iff_of_false (fun hnearest => ?_) (not_not.mpr ⟨hmatch, hothers⟩)
      rw [FindsNearest, hback, hplace, hnaive, hfind] at hnearest
      obtain ⟨b', hfound, -, hcurLine, -⟩ := hnearest
      cases hresult : (behind true (lines b) l ++
          if wrapOnce then ordered true (lines b) else []).find?
            (matchesAtPlace matchesAt (lines b)) with
      | none =>
          rw [hresult] at hfound
          exact absurd (Prod.mk.inj hfound).1 (by decide)
      | some q =>
          rw [hresult] at hfound
          obtain ⟨-, rfl⟩ := Prod.mk.inj hfound
          have hne := ne_of_found hlt hothers hresult
          have hmem : q ∈ ordered true (lines b) := by
            have hq := List.mem_of_find?_eq_some hresult
            rcases List.mem_append.mp hq with hbehind | hwrap
            · rw [ordered_split hlt]
              exact List.mem_append_right _ hbehind
            · split at hwrap
              · exact hwrap
              · exact absurd hwrap List.not_mem_nil
          obtain ⟨hqlt, hqle⟩ := mem_ordered.mp hmem
          have hqline : (lines b)[q.1]? = some ((lines b).getD q.1 []) := by
            rw [List.getD_eq_getElem _ _ hqlt, List.getElem?_eq_getElem hqlt]
          obtain ⟨-, hqcur⟩ := gotoLinePos_line (t := t) h hqline hqle
          exact hne (by exact_mod_cast hqcur.symm.trans hcurLine)
    · rw [not_or, Bool.not_eq_false] at hothers
      obtain ⟨rfl, hnone⟩ := hothers
      refine iff_of_true (findsNearest_of_eq t h ?_) fun hcond => ?_
      · have hbehind := (@find?_around_none matchesAt) (l := l)
          (L := behind true (lines b) l)
          (fun q hq => by rw [ordered_split hlt]; exact List.mem_append_right _ hq)
          (fun q hq => ne_of_mem_behind hlt hq) hnone
        have hahead := (@find?_around_none matchesAt) (l := l)
          (L := ahead true (lines b) l)
          (fun q hq => by
            rw [ordered_split hlt, List.append_assoc]
            exact List.mem_append_left _ hq)
          (fun q hq => ne_of_mem_ahead hlt hq) hnone
        rw [hback, hplace, hnaive, hfind, List.find?_append, hbehind, Option.none_or, if_pos rfl,
          ordered_split hlt, List.append_assoc, List.find?_append, hahead, Option.none_or,
          List.find?_append, hp]
        rfl
      · rcases hcond.2 with hfalse | hother
        · exact absurd hfalse (by decide)
        · exact hnone hother
  · refine iff_of_true (findsNearest_of_eq t h ?_) fun hcond => hmatch hcond.1
    rw [find?_positions_none hget hmatch, Option.none_or] at hnaive
    rw [hback, hplace, hnaive, hfind]

/-- The character `a` stands at a position of a line. -/
def matchesA (line : List Byte) (p : Nat) : Bool := line.getD p 0 == 97

/-- `re_search` for the expression `a` -/
def searchA (line : List Byte) (start range : Int) : Int :=
  if start < 0 ∨ line.length < start then -1
  else if 0 ≤ range then
    match (List.range' start.toNat (range.toNat + 1)).find? (matchesA line) with
    | some p => p
    | none => -1
  else
    let p := Nat.findGreatest (fun q => matchesA line q = true) start.toNat
    if matchesA line p then p else -1

theorem searches_searchA : Searches searchA matchesA where
  forward line start hle := by
    have hrange : ((line.length : Int) - start).toNat + 1 = line.length - start + 1 := by omega
    rw [searchA, if_neg (by omega), if_pos (by omega), Int.toNat_natCast, hrange]
    cases hfind : (List.range' start (line.length - start + 1)).find? (matchesA line) with
    | some p =>
        rw [List.find?_range'_eq_some] at hfind
        obtain ⟨hmatch, hmem, hfirst⟩ := hfind
        rw [List.mem_range'_1] at hmem
        refine Or.inl ⟨p, rfl, hmem.1, by omega, hmatch, fun q hq hqp => ?_⟩
        simpa using hfirst q hq hqp
    | none =>
        rw [List.find?_range'_eq_none] at hfind
        refine Or.inr ⟨by decide, fun q hq hql => ?_⟩
        simpa using hfind q hq (by omega)
  backward line start hle := by
    rw [searchA, if_neg (by omega), if_neg (by omega), Int.toNat_natCast]
    dsimp only
    set p := Nat.findGreatest (fun q => matchesA line q = true) start
    have hgreatest : ∀ q, p < q → q ≤ start → matchesA line q = false := fun q hpq hq => by
      have hnot := Nat.findGreatest_is_greatest hpq hq
      simpa using hnot
    by_cases hmatch : matchesA line p = true
    · exact Or.inl ⟨p, if_pos hmatch, Nat.findGreatest_le start, hmatch, hgreatest⟩
    · refine Or.inr ⟨by rw [if_neg hmatch]; decide, fun q hq => ?_⟩
      by_contra hq'
      rw [Bool.not_eq_false] at hq'
      exact hmatch (Nat.findGreatest_spec (P := fun q => matchesA line q = true) hq hq')
  beyond line start range hlt := by
    rw [searchA, if_pos (Or.inr hlt)]
    decide

/-- A search backwards in the text `a`, from two columns behind its end. -/
def beyondEnd : Buffer :=
  let b := (insertStream (newBuffer false none fun _ => true) 0 0 0 [97]).2
  { b with curPos := 3, curChar := 3, curX := 3, opt := { b.opt with searchBack := true } }

theorem cursorOk_beyondEnd : CursorOk beyondEnd :=
  ⟨by decide, by decide, by decide, by decide, by decide, by decide⟩

/-- When the search wraps, it comes back to the only line. -/
theorem findsNearest_iff_beyondEnd :
    FindsNearest searchTerminal searchA matchesA beyondEnd false true ↔
      ¬ StartsBeyond matchesA beyondEnd false true :=
  findsNearest_iff searchTerminal searches_searchA cursorOk_beyondEnd (by decide)

/-- When it does not wrap, nothing is found. -/
theorem not_findsNearest :
    Searches searchA matchesA ∧ CursorOk beyondEnd ∧ 0 ≤ beyondEnd.curPos ∧
      ¬ FindsNearest searchTerminal searchA matchesA beyondEnd false false := by
  refine ⟨searches_searchA, cursorOk_beyondEnd, by decide, fun hnearest => ?_⟩
  have hnaive : naiveSearch beyondEnd.opt.searchBack false false
      (matchesAtPlace matchesA (lines beyondEnd)) (lines beyondEnd) (cursorPlace beyondEnd) =
        some (0, 0) := by
    decide +kernel
  have hmissed : (findRegexp searchTerminal searchA beyondEnd false false).1 = .notFound := by
    decide +kernel
  rw [FindsNearest, hnaive] at hnearest
  obtain ⟨b', hfound, -⟩ := hnearest
  rw [hfound] at hmissed
  cases hmissed

end NiceEditor.FindRegexp
