import NiceEditor.BufferData
import NiceEditor.Tilings
import Mathlib.Algebra.BigOperators.Group.Finset.Piecewise
import Mathlib.Algebra.Order.BigOperators.Group.Finset

/-!
The pages of a requester (`request.c`): which entries stand on which page, and in which
column and row.
-/

namespace NiceEditor.ReqPages

open NiceEditor.Tilings
open NiceEditor.BufferData (Answers)

/-- `MAX_REQ_COLS` -/
def maxReqCols : Nat := 16

/-- `req_page_t` -/
structure ReqPage where
  first : Nat
  entries : Nat
  cols : Nat
  rows : Nat
  colWidth : Nat → Nat

/-- The bytes of a page after `memset`. -/
def zeroPage : ReqPage := ⟨0, 0, 0, 0, fun _ => 0⟩

/-- What the layout depends on: `req_order`, the window and `rl.lengths`. -/
structure Requester where
  byColumn : Bool
  neColumns : Nat
  neLines : Nat
  lengths : List Nat

/-- The row of the `i`-th entry of a page. -/
def rowOf (q : Requester) (cols rows i : Nat) : Nat := if q.byColumn then i % rows else i / cols

/-- The column of the `i`-th entry of a page. -/
def colOf (q : Requester) (cols rows i : Nat) : Nat := if q.byColumn then i / rows else i % cols

/-- A turn of the loop of `fit_page`: an entry is put on the page. -/
def placeEntry (q : Requester) (n0 cols rows i : Nat) (s : Nat × ReqPage) : Nat × ReqPage :=
  let row := rowOf q cols rows i
  let col := colOf q cols rows i
  let length := q.lengths.getD (n0 + i) 0
  let page := s.2
  let wider := page.colWidth col < length
  (if wider then s.1 + (length - page.colWidth col) else s.1,
    { page with
      colWidth := if wider then Function.update page.colWidth col length else page.colWidth
      entries := page.entries + 1
      cols := if page.cols < col + 1 then col + 1 else page.cols
      rows := if page.rows < row + 1 then row + 1 else page.rows })

/-- The loop of `fit_page`: the combined widths and the page, `turns` entries from the end. -/
def fitLoop (q : Requester) (n0 entries cols rows : Nat) : Nat → Nat × ReqPage → Nat × ReqPage
  | 0, s => s
  | turns + 1, s =>
      if cols = 1 ∨ s.1 ≤ q.neColumns then
        fitLoop q n0 entries cols rows turns
          (placeEntry q n0 cols rows (entries - (turns + 1)) s)
      else s

/-- `fit_page`: does the page fit, and what has become of it? -/
def fitPage (q : Requester) (n0 entries cols rows : Nat) : Bool × ReqPage :=
  let s := fitLoop q n0 entries cols rows entries (0, { zeroPage with first := n0 })
  (decide (s.2.entries = entries ∧ (cols = 1 ∨ s.1 ≤ q.neColumns)), s.2)

/-- The loop of `n2pcrx`: the page with entry `n`, from page `pg` on. -/
def findPage (n : Nat) : Nat → List ReqPage → Option (Nat × ReqPage)
  | _, [] => none
  | pg, pp :: rest =>
      if pp.entries = 0 then none
      else if n < pp.first + pp.entries then some (pg, pp)
      else findPage n (pg + 1) rest

/-- `n2pcrx`: page, column, row and horizontal position of an entry. -/
def n2pcrx (q : Requester) (table : List ReqPage) (n : Nat) : Nat × Nat × Nat × Nat :=
  match findPage n 0 table with
  | none => (0, 0, 0, 0)
  | some (pg, pp) =>
      let dn := n - pp.first
      let col := if q.byColumn then dn / pp.rows else dn % pp.cols
      let row := if q.byColumn then dn % pp.rows else dn / pp.cols
      (pg, col, row, ((List.range col).map pp.colWidth).sum)

/-- `pcr2n` -/
def pcr2n (q : Requester) (table : List ReqPage) (p c r : Nat) : Nat :=
  let pp := table.getD p zeroPage
  if q.byColumn then pp.first + pp.rows * c + r else pp.first + pp.cols * r + c

/-- `req_page_table_expand`; it fails when the memory is refused. -/
def expand (answers : Answers) (table : List ReqPage) : Option (List ReqPage) :=
  if answers 0 then some (table ++ List.replicate maxReqCols zeroPage) else none

/-- The number of columns is decreased until the page fits. -/
def tryCols (q : Requester) (first maxRows : Nat) : Nat → Option ReqPage
  | 0 => none
  | cols + 1 =>
      match fitPage q first (min ((cols + 1) * maxRows) (q.lengths.length - first)) (cols + 1)
        maxRows with
      | (true, page) => some page
      | (false, _) => tryCols q first maxRows cols

/-- The loop of `reset_req_pages`: the table, and the number of pages in use. -/
def resetLoop (q : Requester) (maxCols maxRows : Nat) :
    Nat → Answers → List ReqPage → Nat → Nat → Option (List ReqPage × Nat)
  | 0, _, table, curPage, _ => some (table, curPage)
  | turns + 1, answers, table, curPage, first =>
      if first < q.lengths.length then
        match (if table.length ≤ curPage then (expand answers table).map fun table =>
            (table, answers.rest) else some (table, answers)) with
        | none => none
        | some (table, answers) =>
            match tryCols q first maxRows maxCols with
            | none => none
            | some page =>
                resetLoop q maxCols maxRows turns answers (table.set curPage page) (curPage + 1)
                  (first + page.entries)
      else some (table, curPage)

/-- `good_rows` is decreased while the page still fits. -/
def shrinkRows (q : Requester) (first entries cols : Nat) : Nat → Nat
  | 0 => 0
  | rows + 1 =>
      if 0 < rows ∧ entries ≤ cols * rows ∧ (fitPage q first entries cols rows).1 then
        shrinkRows q first entries cols rows
      else rows + 1

/-- The number of columns that `entries` need in `rows` rows. -/
def neededCols (entries rows : Nat) : Nat := entries / rows + if entries % rows ≠ 0 then 1 else 0

/-- The rectangle is at most as wide as the window, in proportion. -/
def Proportional (q : Requester) (page : ReqPage) : Prop :=
  ((List.range page.cols).map page.colWidth).sum * 1000 / page.rows <
    q.neColumns * 1000 / (q.neLines - 1)

instance (q : Requester) (page : ReqPage) : Decidable (Proportional q page) :=
  inferInstanceAs (Decidable (_ < _))

/-- The tweak of the final page, `turns` rows from `max_rows`. -/
def tweakRows (q : Requester) (first entries maxRows : Nat) : Nat → ReqPage → ReqPage
  | 0, page => page
  | turns + 1, page =>
      let rows := maxRows - turns
      let cols := neededCols entries rows
      if maxReqCols ≤ cols then tweakRows q first entries maxRows turns page
      else
        match fitPage q first entries cols rows with
        | (false, page) => tweakRows q first entries maxRows turns page
        | (true, page) =>
            if rows = maxRows ∨ Proportional q page then
              (fitPage q first entries cols (shrinkRows q first entries cols rows)).2
            else tweakRows q first entries maxRows turns page

/-- `reset_req_pages`: the table and the number of pages; `none` when it is 0, so that the
requester is abandoned. -/
def resetReqPages (q : Requester) (answers : Answers) (table : List ReqPage) (n0 : Nat) :
    Option (List ReqPage × Nat) :=
  match (if table = [] then (expand answers table).map fun table => (table, answers.rest)
      else some (table, answers)) with
  | none => none
  | some (table, answers) =>
      let curPage := (n2pcrx q table n0).1
      let previous := table.getD (curPage - 1) zeroPage
      let first := if curPage = 0 then 0 else previous.first + previous.entries
      let table := table.take curPage ++ List.replicate (table.length - curPage) zeroPage
      let maxCols := min (q.neColumns / 3) maxReqCols
      let maxRows := q.neLines - 1
      match resetLoop q maxCols maxRows q.lengths.length answers table curPage first with
      | none => none
      | some (table, curPage) =>
          if q.byColumn then
            let page := table.getD (curPage - 1) zeroPage
            some (table.set (curPage - 1)
              (tweakRows q page.first page.entries maxRows maxRows page), curPage)
          else some (table, curPage)

variable {q : Requester} {page pp : ReqPage} {n0 entries cols cols' rows i n : Nat}

section Fit

/-- The combined widths and the page once `i` entries are on it. -/
def placed (q : Requester) (n0 cols rows : Nat) : Nat → Nat × ReqPage
  | 0 => (0, { zeroPage with first := n0 })
  | i + 1 => placeEntry q n0 cols rows i (placed q n0 cols rows i)

attribute [grind =] placed

theorem placed_entries : (placed q n0 cols rows i).2.entries = i := by
  induction i with
  | zero => rfl
  | succ i ih => rw [placed, placeEntry, ih]

theorem placed_first : (placed q n0 cols rows i).2.first = n0 := by
  induction i with
  | zero => rfl
  | succ i ih => rw [placed, placeEntry, ih]

variable (q n0 cols rows) in
theorem placed_mono (h : i ≤ n) : (placed q n0 cols rows i).1 ≤ (placed q n0 cols rows n).1 := by
  induction n, h using Nat.le_induction with
  | base => exact le_rfl
  | succ n _ ih =>
      refine ih.trans ?_
      rw [placed, placeEntry]
      dsimp only
      split <;> omega

variable (q n0 cols rows) in
theorem fitLoop_spec (h : i ≤ entries) :
    ∃ j, i ≤ j ∧ j ≤ entries ∧
      fitLoop q n0 entries cols rows (entries - i) (placed q n0 cols rows i) =
        placed q n0 cols rows j ∧
      (j < entries → ¬ (cols = 1 ∨ (placed q n0 cols rows j).1 ≤ q.neColumns)) := by
  induction hn : entries - i generalizing i with
  | zero => exact ⟨i, le_rfl, h, rfl, fun hlt => by omega⟩
  | succ turns ih =>
      rw [fitLoop]
      by_cases hfits : cols = 1 ∨ (placed q n0 cols rows i).1 ≤ q.neColumns
      · rw [if_pos hfits, show entries - (turns + 1) = i by omega]
        obtain ⟨j, hij, hj, hloop, hwide⟩ := @ih (i + 1) (by omega) (by omega)
        exact ⟨j, by omega, hj, hloop, hwide⟩
      · rw [if_neg hfits]
        exact ⟨i, le_rfl, h, rfl, fun _ => hfits⟩

theorem fitPage_true_iff :
    (fitPage q n0 entries cols rows).1 = true ↔
      cols = 1 ∨ (placed q n0 cols rows entries).1 ≤ q.neColumns := by
  obtain ⟨j, -, hj, hloop, hwide⟩ := fitLoop_spec q n0 cols rows (Nat.zero_le entries)
  rw [Nat.sub_zero] at hloop
  simp only [fitPage, decide_eq_true_eq]
  rw [show (0, { zeroPage with first := n0 }) = placed q n0 cols rows 0 from rfl, hloop,
    placed_entries]
  rcases Nat.lt_or_eq_of_le hj with hlt | rfl
  · have hmono := placed_mono q n0 cols rows hj
    have hno := hwide hlt
    rw [not_or] at hno
    exact iff_of_false (by omega) (by omega)
  · simp

theorem fitPage_eq (h : cols = 1 ∨ (placed q n0 cols rows entries).1 ≤ q.neColumns) :
    fitPage q n0 entries cols rows = (true, (placed q n0 cols rows entries).2) := by
  have hfits := fitPage_true_iff.mpr h
  refine Prod.ext hfits ?_
  obtain ⟨j, -, hj, hloop, -⟩ := fitLoop_spec q n0 cols rows (Nat.zero_le entries)
  rw [Nat.sub_zero] at hloop
  simp only [fitPage, decide_eq_true_eq] at hfits ⊢
  rw [show (0, { zeroPage with first := n0 }) = placed q n0 cols rows 0 from rfl, hloop,
    placed_entries] at hfits
  rw [show (0, { zeroPage with first := n0 }) = placed q n0 cols rows 0 from rfl, hloop, hfits.1]

end Fit

section Place

theorem colOf_lt (h : i < cols * rows) : colOf q cols rows i < cols := by
  have hcols : 0 < cols := Nat.pos_of_mul_pos_right (Nat.zero_lt_of_lt h)
  unfold colOf
  split
  · exact Nat.div_lt_of_lt_mul (by rwa [Nat.mul_comm])
  · exact Nat.mod_lt _ hcols

theorem rowOf_lt (h : i < cols * rows) : rowOf q cols rows i < rows := by
  have hrows : 0 < rows := Nat.pos_of_mul_pos_left (Nat.zero_lt_of_lt h)
  unfold rowOf
  split
  · exact Nat.mod_lt _ hrows
  · exact Nat.div_lt_of_lt_mul h

variable (q n0) in
theorem placed_bounds (h : i ≤ cols * rows) :
    (placed q n0 cols rows i).2.cols ≤ cols ∧ (placed q n0 cols rows i).2.rows ≤ rows ∧
      ∀ j < i, colOf q cols rows j < (placed q n0 cols rows i).2.cols ∧
        rowOf q cols rows j < (placed q n0 cols rows i).2.rows := by
  induction i with
  | zero => exact ⟨Nat.zero_le _, Nat.zero_le _, fun j hj => absurd hj (Nat.not_lt_zero j)⟩
  | succ i ih =>
      obtain ⟨hcols, hrows, hplaces⟩ := ih (by omega)
      have hcol : colOf q cols rows i < cols := colOf_lt h
      have hrow : rowOf q cols rows i < rows := rowOf_lt h
      simp only [placed, placeEntry]
      refine ⟨by split <;> omega, by split <;> omega, fun j hj => ?_⟩
      rcases Nat.lt_or_eq_of_le (Nat.le_of_lt_succ hj) with hlt | rfl
      · have hold := hplaces j hlt
        exact ⟨by split <;> omega, by split <;> omega⟩
      · exact ⟨by split <;> omega, by split <;> omega⟩

variable (q n0 cols rows i) in
theorem placed_exact :
    (q.byColumn = false → 0 < cols → (placed q n0 cols rows i).2.cols = min i cols) ∧
      (q.byColumn = true → 0 < rows → (placed q n0 cols rows i).2.rows = min i rows) := by
  induction i with
  | zero => simp [placed, zeroPage]
  | succ i ih =>
      simp only [placed, placeEntry]
      constructor
      · intro hrow hcols
        have hold := ih.1 hrow hcols
        have hcol : colOf q cols rows i = i % cols := by simp [colOf, hrow]
        have hlt := Nat.mod_lt i hcols
        rw [hold, hcol]
        by_cases hi : i < cols
        · rw [Nat.mod_eq_of_lt hi]
          split <;> omega
        · split <;> omega
      · intro hcolumn hrows
        have hold := ih.2 hcolumn hrows
        have hrow : rowOf q cols rows i = i % rows := by simp [rowOf, hcolumn]
        have hlt := Nat.mod_lt i hrows
        rw [hold, hrow]
        by_cases hi : i < rows
        · rw [Nat.mod_eq_of_lt hi]
          split <;> omega
        · split <;> omega

theorem placed_sum (h : i ≤ cols * rows) :
    (placed q n0 cols rows i).1 =
      ∑ c ∈ Finset.range cols, (placed q n0 cols rows i).2.colWidth c := by
  induction i with
  | zero => simp [placed, zeroPage]
  | succ i ih =>
      have hcol : colOf q cols rows i ∈ Finset.range cols := Finset.mem_range.mpr (colOf_lt h)
      have hold := ih (by omega)
      simp only [placed, placeEntry]
      split
      · rename_i hwider
        have hsplit := Finset.add_sum_erase (Finset.range cols)
          (placed q n0 cols rows i).2.colWidth hcol
        rw [Finset.sum_update_of_mem hcol, ← Finset.erase_eq]
        omega
      · exact hold

theorem placed_wide : ∀ j < i, q.lengths.getD (n0 + j) 0 ≤
    (placed q n0 cols rows i).2.colWidth (colOf q cols rows j) := by
  induction i with
  | zero => exact fun j hj => absurd hj (Nat.not_lt_zero j)
  | succ i ih =>
      intro j hj
      simp only [placed, placeEntry]
      rcases Nat.lt_or_eq_of_le (Nat.le_of_lt_succ hj) with hlt | rfl
      · have hold := ih j hlt
        split
        · rw [Function.update_apply]
          split
          · rename_i heq
            rw [heq] at hold
            omega
          · exact hold
        · exact hold
      · split
        · rw [Function.update_self]
        · rename_i hnot
          exact Nat.le_of_not_lt hnot

end Place

section Page

/-- A page on which entries stand: where an entry is on it is found by division, no column is
too narrow for its entries, and the columns fit into the window. -/
structure Fitted (q : Requester) (page : ReqPage) : Prop where
  pos : 0 < page.entries
  le : page.first + page.entries ≤ q.lengths.length
  rows_le : page.rows ≤ q.neLines - 1
  place : ∀ i < page.entries, colOf q page.cols page.rows i < page.cols ∧
    rowOf q page.cols page.rows i < page.rows
  width : page.cols = 1 ∨ ∑ c ∈ Finset.range page.cols, page.colWidth c ≤ q.neColumns
  wide : ∀ i < page.entries,
    q.lengths.getD (page.first + i) 0 ≤ page.colWidth (colOf q page.cols page.rows i)

variable (q n0) in
theorem placed_place (h : entries ≤ cols * rows) (hi : i < entries) :
    colOf q (placed q n0 cols rows entries).2.cols (placed q n0 cols rows entries).2.rows i =
        colOf q cols rows i ∧
      rowOf q (placed q n0 cols rows entries).2.cols (placed q n0 cols rows entries).2.rows i =
        rowOf q cols rows i := by
  have hcols : 0 < cols := Nat.pos_of_mul_pos_right (by omega : 0 < cols * rows)
  have hrows : 0 < rows := Nat.pos_of_mul_pos_left (by omega : 0 < cols * rows)
  have hexact := placed_exact q n0 cols rows entries
  cases horder : q.byColumn with
  | true =>
      have hrow := hexact.2 horder hrows
      simp only [colOf, rowOf, horder, if_true, hrow]
      by_cases hless : entries < rows
      · rw [Nat.min_eq_left hless.le, Nat.div_eq_of_lt hi, Nat.div_eq_of_lt (hi.trans hless),
          Nat.mod_eq_of_lt hi, Nat.mod_eq_of_lt (hi.trans hless)]
        exact ⟨rfl, rfl⟩
      · rw [Nat.min_eq_right (Nat.le_of_not_lt hless)]
        exact ⟨rfl, rfl⟩
  | false =>
      have hcol := hexact.1 horder hcols
      simp only [colOf, rowOf, horder, Bool.false_eq_true, if_false, hcol]
      by_cases hless : entries < cols
      · rw [Nat.min_eq_left hless.le, Nat.div_eq_of_lt hi, Nat.div_eq_of_lt (hi.trans hless),
          Nat.mod_eq_of_lt hi, Nat.mod_eq_of_lt (hi.trans hless)]
        exact ⟨rfl, rfl⟩
      · rw [Nat.min_eq_right (Nat.le_of_not_lt hless)]
        exact ⟨rfl, rfl⟩

theorem fitted_of_fits (hpos : 0 < entries) (hle : n0 + entries ≤ q.lengths.length)
    (hroom : entries ≤ cols * rows) (hrows : rows ≤ q.neLines - 1)
    (hfits : cols = 1 ∨ (placed q n0 cols rows entries).1 ≤ q.neColumns) :
    Fitted q (placed q n0 cols rows entries).2 := by
  obtain ⟨hcols', hrows', hplaces⟩ := placed_bounds q n0 hroom
  refine ⟨by rwa [placed_entries], by rwa [placed_first, placed_entries], hrows'.trans hrows,
    ?_, ?_, ?_⟩
  · intro i hi
    rw [placed_entries] at hi
    obtain ⟨hcol, hrow⟩ := placed_place q n0 hroom hi
    rw [hcol, hrow]
    exact hplaces i hi
  · rcases hfits with hone | hfits
    · have hfirst := (hplaces 0 hpos).1
      exact .inl (by omega)
    · right
      rw [placed_sum hroom] at hfits
      exact (Finset.sum_le_sum_of_subset (Finset.range_subset_range.mpr hcols')).trans hfits
  · intro i hi
    rw [placed_entries] at hi
    rw [(placed_place q n0 hroom hi).1, placed_first]
    exact placed_wide i hi

end Page

section Reset

/-- A page that the loop of `reset_req_pages` makes, with as many columns as fit. -/
def Made (q : Requester) (page : ReqPage) : Prop :=
  ∃ cols, 0 < cols ∧ cols ≤ maxReqCols ∧ page.entries ≤ cols * (q.neLines - 1) ∧
    (cols = 1 ∨ (placed q page.first cols (q.neLines - 1) page.entries).1 ≤ q.neColumns)

theorem tryCols_spec (hleft : n0 < q.lengths.length) (hlines : 2 ≤ q.neLines) (hcols : 0 < cols)
    (hmax : cols ≤ maxReqCols) :
    ∃ page, tryCols q n0 (q.neLines - 1) cols = some page ∧ Fitted q page ∧ Made q page ∧
      page.first = n0 := by
  induction cols with
  | zero => exact absurd hcols (Nat.lt_irrefl 0)
  | succ cols ih =>
      have hrows : 0 < (cols + 1) * (q.neLines - 1) :=
        Nat.mul_pos (Nat.succ_pos cols) (by omega)
      rw [tryCols]
      by_cases hfits : cols + 1 = 1 ∨ (placed q n0 (cols + 1) (q.neLines - 1)
          (min ((cols + 1) * (q.neLines - 1)) (q.lengths.length - n0))).1 ≤ q.neColumns
      · rw [fitPage_eq hfits]
        refine ⟨_, rfl, fitted_of_fits (by omega) (by omega) (Nat.min_le_left _ _) le_rfl hfits, ?_,
          placed_first⟩
        refine ⟨cols + 1, Nat.succ_pos cols, hmax, ?_, ?_⟩
        · rw [placed_entries]
          exact Nat.min_le_left _ _
        · rwa [placed_first, placed_entries]
      · have hno : (fitPage q n0 (min ((cols + 1) * (q.neLines - 1)) (q.lengths.length - n0))
            (cols + 1) (q.neLines - 1)).1 = false := by
          rw [Bool.eq_false_iff, ne_eq, fitPage_true_iff]
          exact hfits
        rw [show fitPage q n0 (min ((cols + 1) * (q.neLines - 1)) (q.lengths.length - n0))
            (cols + 1) (q.neLines - 1) = (false, _) from Prod.ext hno rfl]
        exact ih (by omega) (by omega)

/-- The pages in use and the empty ones behind them. -/
structure Pages (q : Requester) (pages rest : List ReqPage) (first : Nat) : Prop where
  tiles : Tiles ReqPage.first ReqPage.entries 0 pages first
  fitted : ∀ p ∈ pages, Fitted q p
  empty : ∀ p ∈ rest, p.entries = 0

theorem room_spec {answers : Answers} {rest : List ReqPage} (pages : List ReqPage)
    (hgrant : ∀ n, answers n = true) (hrest : ∀ p ∈ rest, p.entries = 0) :
    ∃ r rest' answers', (if (pages ++ rest).length ≤ pages.length then
          (expand answers (pages ++ rest)).map fun table => (table, answers.rest)
        else some (pages ++ rest, answers)) = some (pages ++ r :: rest', answers') ∧
      (∀ p ∈ r :: rest', p.entries = 0) ∧ ∀ n, answers' n = true := by
  cases rest with
  | nil =>
      rw [List.append_nil, if_pos le_rfl, expand, if_pos (hgrant 0)]
      refine ⟨zeroPage, List.replicate 15 zeroPage, answers.rest, rfl, fun p hp => ?_,
        fun n => hgrant (n + 1)⟩
      rw [← List.replicate_succ] at hp
      rw [List.eq_of_mem_replicate hp]
      rfl
  | cons r rest =>
      rw [if_neg (by simp)]
      exact ⟨r, rest, answers, rfl, hrest, hgrant⟩

/-- The loop fills the pages from the first entry that has none. -/
theorem resetLoop_spec {maxCols : Nat} (hcols : 0 < maxCols) (hmax : maxCols ≤ maxReqCols)
    (hlines : 2 ≤ q.neLines) {turns first : Nat} {answers : Answers} {pages rest : List ReqPage}
    (hgrant : ∀ n, answers n = true) (h : Pages q pages rest first)
    (hfirst : first ≤ q.lengths.length) (hturns : q.lengths.length - first ≤ turns)
    (hlast : first = q.lengths.length → ∃ front p, pages = front ++ [p] ∧ Made q p) :
    ∃ front p rest', resetLoop q maxCols (q.neLines - 1) turns answers (pages ++ rest) pages.length
        first = some (front ++ [p] ++ rest', front.length + 1) ∧
      Pages q (front ++ [p]) rest' q.lengths.length ∧ Made q p := by
  induction turns generalizing answers pages rest first with
  | zero =>
      obtain rfl : first = q.lengths.length := by omega
      obtain ⟨front, p, rfl, hmade⟩ := hlast rfl
      exact ⟨front, p, rest, by rw [resetLoop, List.length_append, List.length_singleton], h, hmade⟩
  | succ turns ih =>
      rw [resetLoop]
      by_cases hmore : first < q.lengths.length
      · obtain ⟨r, rest', answers', hroom, hempty, hgrant'⟩ := room_spec pages hgrant h.empty
        obtain ⟨page, htry, hfitted, hmade, hpage⟩ := tryCols_spec hmore hlines hcols hmax
        have hset : (pages ++ r :: rest').set pages.length page = pages ++ [page] ++ rest' := by
          rw [List.set_append_right _ _ le_rfl, Nat.sub_self, List.set_cons_zero, List.append_assoc,
            List.singleton_append]
        have hpages : Pages q (pages ++ [page]) rest' (first + page.entries) := by
          refine ⟨tiles_append.mpr ⟨first, h.tiles, tiles_singleton hpage⟩, fun p hp => ?_,
            fun p hp => hempty p (List.mem_cons_of_mem r hp)⟩
          rcases List.mem_append.mp hp with hp | hp
          · exact h.fitted p hp
          · rwa [List.mem_singleton.mp hp]
        have hpos := hfitted.pos
        have hle := hfitted.le
        have hrest := ih hgrant' hpages (by omega) (by omega) fun _ => ⟨pages, page, rfl, hmade⟩
        rw [List.length_append, List.length_singleton] at hrest
        rw [if_pos hmore, hroom]
        dsimp only
        rw [htry]
        dsimp only
        rw [hset]
        exact hrest
      · obtain rfl : first = q.lengths.length := by omega
        obtain ⟨front, p, rfl, hmade⟩ := hlast rfl
        rw [if_neg hmore]
        exact ⟨front, p, rest, by rw [List.length_append, List.length_singleton], h, hmade⟩

theorem placed_byColumn (h : q.byColumn = true) :
    placed q n0 cols rows i = placed q n0 cols' rows i := by
  induction i with
  | zero => rfl
  | succ i ih => simp only [placed, ih, placeEntry, rowOf, colOf, h, if_true]

theorem neededCols_le_iff (hrows : 0 < rows) :
    neededCols entries rows ≤ cols ↔ entries ≤ cols * rows := by
  have hdiv := Nat.div_add_mod entries rows
  have hmod := Nat.mod_lt entries hrows
  unfold neededCols
  constructor
  · intro hle
    have hmul := Nat.mul_le_mul_right rows hle
    rw [Nat.add_mul, Nat.mul_comm (entries / rows)] at hmul
    split at hmul
    · omega
    · omega
  · intro hle
    split
    · rename_i hne
      have hlt : entries / rows < cols := by
        by_contra hge
        have hmul := Nat.mul_le_mul_left rows (Nat.le_of_not_lt hge)
        rw [Nat.mul_comm rows cols] at hmul
        omega
      omega
    · exact Nat.div_le_of_le_mul (by rwa [Nat.mul_comm])

theorem neededCols_anti {rows' : Nat} (hrows : 0 < rows) (h : rows ≤ rows') :
    neededCols entries rows' ≤ neededCols entries rows :=
  (neededCols_le_iff (hrows.trans_le h)).mpr
    (((neededCols_le_iff hrows).mp le_rfl).trans (Nat.mul_le_mul_left _ h))

variable (q n0) in
theorem shrinkRows_spec (hrows : 0 < rows) (hroom : entries ≤ cols * rows)
    (hfits : (fitPage q n0 entries cols rows).1 = true) :
    shrinkRows q n0 entries cols rows ≤ rows ∧
      entries ≤ cols * shrinkRows q n0 entries cols rows ∧
      (fitPage q n0 entries cols (shrinkRows q n0 entries cols rows)).1 = true := by
  induction rows with
  | zero => exact absurd hrows (Nat.lt_irrefl 0)
  | succ rows ih =>
      rw [shrinkRows]
      split
      · rename_i hless
        obtain ⟨hle, hroom', hfits'⟩ := ih hless.1 hless.2.1 hless.2.2
        exact ⟨by omega, hroom', hfits'⟩
      · exact ⟨le_rfl, hroom, hfits⟩

/-- A page that has the given entries. -/
def Holds (q : Requester) (n0 entries : Nat) (page : ReqPage) : Prop :=
  Fitted q page ∧ page.first = n0 ∧ page.entries = entries

theorem holds_of_fits (hpos : 0 < entries) (hle : n0 + entries ≤ q.lengths.length)
    (hroom : entries ≤ cols * rows) (hrows : rows ≤ q.neLines - 1)
    (hfits : (fitPage q n0 entries cols rows).1 = true) :
    Holds q n0 entries (fitPage q n0 entries cols rows).2 := by
  rw [fitPage_true_iff] at hfits
  rw [fitPage_eq hfits]
  exact ⟨fitted_of_fits hpos hle hroom hrows hfits, placed_first, placed_entries⟩

theorem fits_last (hcolumn : q.byColumn = true) (hpos : 0 < entries) (hlines : 2 ≤ q.neLines)
    (hwidth : entries ≤ q.neLines - 1 ∨
      (placed q n0 cols (q.neLines - 1) entries).1 ≤ q.neColumns) :
    (fitPage q n0 entries (neededCols entries (q.neLines - 1)) (q.neLines - 1)).1 = true := by
  have hrows : 0 < q.neLines - 1 := by omega
  rw [fitPage_true_iff]
  rcases hwidth with hfew | hwidth
  · left
    have hle : neededCols entries (q.neLines - 1) ≤ 1 := (neededCols_le_iff hrows).mpr (by omega)
    have hne : ¬ neededCols entries (q.neLines - 1) ≤ 0 := fun hzero => by
      have hnone := (neededCols_le_iff hrows).mp hzero
      omega
    omega
  · right
    rwa [placed_byColumn hcolumn]

/-- The tweak ends with a page that fits, or has not touched the page. -/
theorem tweakRows_spec (hcolumn : q.byColumn = true) (hpos : 0 < entries)
    (hle : n0 + entries ≤ q.lengths.length) (hlines : 2 ≤ q.neLines)
    (hwidth : entries ≤ q.neLines - 1 ∨
      (placed q n0 cols (q.neLines - 1) entries).1 ≤ q.neColumns)
    {turns : Nat} (hturns : turns ≤ q.neLines - 1) (page : ReqPage) :
    (maxReqCols ≤ neededCols entries (q.neLines - 1) →
        tweakRows q n0 entries (q.neLines - 1) turns page = page) ∧
      (neededCols entries (q.neLines - 1) < maxReqCols → 0 < turns →
        Holds q n0 entries (tweakRows q n0 entries (q.neLines - 1) turns page)) := by
  induction turns generalizing page with
  | zero => exact ⟨fun _ => rfl, fun _ hlt => absurd hlt (Nat.lt_irrefl 0)⟩
  | succ turns ih =>
      have hrows : 0 < q.neLines - 1 - turns := by omega
      have hroom : entries ≤ neededCols entries (q.neLines - 1 - turns) * (q.neLines - 1 - turns) :=
        (neededCols_le_iff hrows).mp le_rfl
      rw [tweakRows]
      constructor
      · intro hfull
        rw [if_pos (hfull.trans (neededCols_anti hrows (Nat.sub_le _ _)))]
        exact (ih (by omega) page).1 hfull
      · intro hfew _
        have hnext : ∀ page, 0 < turns →
            Holds q n0 entries (tweakRows q n0 entries (q.neLines - 1) turns page) :=
          fun page hmore => (ih (by omega) page).2 hfew hmore
        by_cases hmany : maxReqCols ≤ neededCols entries (q.neLines - 1 - turns)
        · rw [if_pos hmany]
          refine hnext page (Nat.pos_of_ne_zero fun hlast => ?_)
          rw [hlast, Nat.sub_zero] at hmany
          omega
        rw [if_neg hmany]
        cases hfits : fitPage q n0 entries (neededCols entries (q.neLines - 1 - turns))
          (q.neLines - 1 - turns) with
        | mk fits page' =>
            cases fits with
            | false =>
                refine hnext page' (Nat.pos_of_ne_zero fun hlast => ?_)
                rw [hlast, Nat.sub_zero] at hfits
                have hno := fits_last hcolumn hpos hlines hwidth
                rw [hfits] at hno
                simp at hno
            | true =>
                dsimp only
                split
                · obtain ⟨hshrunk, hroom', hfits'⟩ := shrinkRows_spec q n0 hrows hroom
                    (by rw [hfits])
                  exact holds_of_fits hpos hle hroom' (by omega) hfits'
                · rename_i hnot
                  refine hnext page' (Nat.pos_of_ne_zero fun hlast => ?_)
                  rw [hlast, Nat.sub_zero] at hnot
                  exact hnot (.inl rfl)

end Reset

section Maps

variable {table pages rest before behind : List ReqPage} {m p c r : Nat}

theorem findPage_spec (hbefore : ∀ y ∈ before, 0 < y.entries ∧ y.first + y.entries ≤ n)
    (hfirst : page.first ≤ n) (hlast : n < page.first + page.entries) (pg : Nat) :
    findPage n pg (before ++ page :: behind) = some (pg + before.length, page) := by
  induction before generalizing pg with
  | nil =>
      rw [List.nil_append, findPage, if_neg (by omega), if_pos hlast, List.length_nil, Nat.add_zero]
  | cons y before ih =>
      obtain ⟨hpos, hend⟩ := hbefore y List.mem_cons_self
      rw [List.cons_append, findPage, if_neg (by omega), if_neg (by omega),
        ih (fun z hz => hbefore z (List.mem_cons_of_mem y hz)), List.length_cons]
      congr 2
      omega

theorem n2pcrx_eq (htable : table = before ++ page :: behind)
    (hbefore : ∀ y ∈ before, 0 < y.entries ∧ y.first + y.entries ≤ n)
    (hfirst : page.first ≤ n) (hlast : n < page.first + page.entries) :
    n2pcrx q table n = (before.length, colOf q page.cols page.rows (n - page.first),
      rowOf q page.cols page.rows (n - page.first),
      ((List.range (colOf q page.cols page.rows (n - page.first))).map page.colWidth).sum) := by
  rw [n2pcrx, htable, findPage_spec hbefore hfirst hlast, Nat.zero_add]
  rfl

theorem pcr2n_eq (htable : table = before ++ page :: behind) :
    pcr2n q table before.length c r =
      page.first + if q.byColumn then page.rows * c + r else page.cols * r + c := by
  have hpage : table.getD before.length zeroPage = page := by
    rw [htable]
    simp [List.getD]
  rw [pcr2n, hpage]
  split <;> omega

variable (q) in
theorem place_pcr (hc : c < page.cols) (hr : r < page.rows) :
    colOf q page.cols page.rows (if q.byColumn then page.rows * c + r else page.cols * r + c) = c ∧
      rowOf q page.cols page.rows
        (if q.byColumn then page.rows * c + r else page.cols * r + c) = r := by
  cases horder : q.byColumn with
  | true =>
      simp only [colOf, rowOf, horder, if_true]
      rw [Nat.mul_add_div (by omega), Nat.div_eq_of_lt hr, Nat.mul_add_mod, Nat.mod_eq_of_lt hr]
      exact ⟨Nat.add_zero c, rfl⟩
  | false =>
      simp only [colOf, rowOf, horder, Bool.false_eq_true, if_false]
      rw [Nat.mul_add_div (by omega), Nat.div_eq_of_lt hc, Nat.mul_add_mod, Nat.mod_eq_of_lt hc]
      exact ⟨rfl, Nat.add_zero r⟩

theorem pcr_place (q : Requester) (cols rows i : Nat) :
    (if q.byColumn then rows * colOf q cols rows i + rowOf q cols rows i
      else cols * rowOf q cols rows i + colOf q cols rows i) = i := by
  cases horder : q.byColumn with
  | true => simpa [colOf, rowOf, horder] using Nat.div_add_mod i rows
  | false => simpa [colOf, rowOf, horder] using Nat.div_add_mod i cols

/-- A page, a column and a row in which there is an entry. -/
def Inside (q : Requester) (pages : List ReqPage) (p c r : Nat) : Prop :=
  ∃ before page behind, pages = before ++ page :: behind ∧ p = before.length ∧ c < page.cols ∧
    r < page.rows ∧
    (if q.byColumn then page.rows * c + r else page.cols * r + c) < page.entries

theorem Pages.ends_before (h : Pages q (before ++ page :: behind) rest m) (hn : page.first ≤ n) :
    ∀ y ∈ before, 0 < y.entries ∧ y.first + y.entries ≤ n := fun y hy =>
  ⟨(h.fitted y (List.mem_append_left _ hy)).pos, (h.tiles.before_le hy).trans hn⟩

theorem Pages.place (h : Pages q pages rest m) (hn : n < m) :
    ∃ p c r x, n2pcrx q (pages ++ rest) n = (p, c, r, x) ∧ Inside q pages p c r ∧
      pcr2n q (pages ++ rest) p c r = n := by
  obtain ⟨before, page, behind, rfl, hfirst, hlast, -⟩ := h.tiles.exists_run (Nat.zero_le n) hn
  have htable : before ++ page :: behind ++ rest = before ++ page :: (behind ++ rest) := by simp
  have hplace := (h.fitted page (by simp)).place (n - page.first) (by omega)
  have hback := pcr_place q page.cols page.rows (n - page.first)
  refine ⟨_, _, _, _, n2pcrx_eq htable (h.ends_before hfirst) hfirst hlast,
    ⟨before, page, behind, rfl, rfl, hplace.1, hplace.2, by rw [hback]; omega⟩, ?_⟩
  rw [pcr2n_eq htable, hback]
  omega

theorem Pages.entry (h : Pages q pages rest m) (hinside : Inside q pages p c r) :
    pcr2n q (pages ++ rest) p c r < m ∧
      ∃ x, n2pcrx q (pages ++ rest) (pcr2n q (pages ++ rest) p c r) = (p, c, r, x) := by
  obtain ⟨before, page, behind, rfl, rfl, hc, hr, hentry⟩ := hinside
  have htable : before ++ page :: behind ++ rest = before ++ page :: (behind ++ rest) := by simp
  have hplace := place_pcr q hc hr
  rw [pcr2n_eq htable]
  constructor
  · have hend := h.tiles.middle.2.le
    omega
  · rw [n2pcrx_eq htable (h.ends_before (Nat.le_add_right _ _)) (Nat.le_add_right _ _) (by omega),
      Nat.add_sub_cancel_left, hplace.1, hplace.2]
    exact ⟨_, rfl⟩

end Maps

section Layout

variable {table : List ReqPage} {answers : Answers}

/-- The existing pages contain entry `n0`, and those before its page need not be rebuilt. -/
def Contains (q : Requester) (table : List ReqPage) (n0 : Nat) : Prop :=
  n0 < q.lengths.length ∧ ∃ before page rest, table = before ++ page :: rest ∧
    Tiles ReqPage.first ReqPage.entries 0 before page.first ∧ (∀ p ∈ before, Fitted q p) ∧
    page.first ≤ n0 ∧ n0 < page.first + page.entries

/-- The pages in use cover the entries, and `n2pcrx` and `pcr2n` lead from the entries to their
places and back. -/
structure Layout (q : Requester) (table : List ReqPage) (count : Nat) : Prop where
  pages : ∃ pages rest, table = pages ++ rest ∧ pages.length = count ∧
    Pages q pages rest q.lengths.length
  place : ∀ n < q.lengths.length, ∃ p c r x, n2pcrx q table n = (p, c, r, x) ∧
    Inside q (table.take count) p c r ∧ pcr2n q table p c r = n
  entry : ∀ p c r, Inside q (table.take count) p c r → pcr2n q table p c r < q.lengths.length ∧
    ∃ x, n2pcrx q table (pcr2n q table p c r) = (p, c, r, x)

theorem Pages.layout {pages rest : List ReqPage} (h : Pages q pages rest q.lengths.length) :
    Layout q (pages ++ rest) pages.length := by
  refine ⟨⟨pages, rest, rfl, rfl, h⟩, fun n hn => ?_, fun p c r hinside => ?_⟩
  · rw [List.take_left]
    exact h.place hn
  · rw [List.take_left] at hinside
    exact h.entry hinside

theorem layout_tweak {front rest : List ReqPage} {p : ReqPage} (hlines : 2 ≤ q.neLines)
    (h : Pages q (front ++ [p]) rest q.lengths.length) (hmade : Made q p)
    (hcolumn : q.byColumn = true) :
    Layout q (front ++ [tweakRows q p.first p.entries (q.neLines - 1) (q.neLines - 1) p] ++ rest)
      (front.length + 1) := by
  obtain ⟨cols, hpos, hmax, hroom, hfits⟩ := hmade
  have hfitted := h.fitted p (by simp)
  have hwidth : p.entries ≤ q.neLines - 1 ∨
      (placed q p.first cols (q.neLines - 1) p.entries).1 ≤ q.neColumns :=
    hfits.imp_left fun hone => by rwa [hone, Nat.one_mul] at hroom
  obtain ⟨hfull, hfew⟩ := tweakRows_spec hcolumn hfitted.pos hfitted.le hlines hwidth le_rfl p
  have hholds : Holds q p.first p.entries
      (tweakRows q p.first p.entries (q.neLines - 1) (q.neLines - 1) p) := by
    by_cases hmany : maxReqCols ≤ neededCols p.entries (q.neLines - 1)
    · rw [hfull hmany]
      exact ⟨hfitted, rfl, rfl⟩
    · exact hfew (Nat.lt_of_not_le hmany) (by omega)
  have hpages : Pages q
      (front ++ [tweakRows q p.first p.entries (q.neLines - 1) (q.neLines - 1) p]) rest
      q.lengths.length := by
    refine ⟨h.tiles.set_last hholds.2.1 hholds.2.2, fun y hy => ?_, h.empty⟩
    rcases List.mem_append.mp hy with hy | hy
    · exact h.fitted y (List.mem_append_left _ hy)
    · rw [List.mem_singleton.mp hy]
      exact hholds.1
  have hlayout := hpages.layout
  rwa [List.length_append, List.length_singleton] at hlayout

/-- `reset_req_pages` from a page on, when it is known where that page begins -/
theorem resetReqPages_from (hcolumns : 3 ≤ q.neColumns) (hlines : 2 ≤ q.neLines)
    {before rest : List ReqPage} {first : Nat}
    (hstart : ∃ answers', (∀ n, answers' n = true) ∧
      (if table = [] then (expand answers table).map fun table => (table, answers.rest)
        else some (table, answers)) = some (before ++ rest, answers'))
    (hcur : (n2pcrx q (before ++ rest) n0).1 = before.length)
    (htiles : Tiles ReqPage.first ReqPage.entries 0 before first)
    (hfitted : ∀ p ∈ before, Fitted q p) (hfirst : first < q.lengths.length) :
    ∃ table' count, resetReqPages q answers table n0 = some (table', count) ∧ 0 < count ∧
      Layout q table' count := by
  obtain ⟨answers', hgrant', hopen⟩ := hstart
  have hprevious : (if before.length = 0 then 0 else
      ((before ++ rest).getD (before.length - 1) zeroPage).first +
        ((before ++ rest).getD (before.length - 1) zeroPage).entries) = first := by
    rcases List.eq_nil_or_concat before with rfl | ⟨front, p, rfl⟩
    · exact htiles
    · rw [List.concat_eq_append] at htiles ⊢
      have hget : (front ++ [p] ++ rest).getD ((front ++ [p]).length - 1) zeroPage = p := by
        simp [List.getD]
      rw [hget, if_neg (by simp)]
      exact htiles.middle.2
  have hcleared : Pages q before
      (List.replicate ((before ++ rest).length - before.length) zeroPage) first := by
    refine ⟨htiles, hfitted, fun p hp => ?_⟩
    rw [List.eq_of_mem_replicate hp]
    rfl
  have hcols : 0 < min (q.neColumns / 3) maxReqCols := by
    simp only [maxReqCols]
    omega
  obtain ⟨front, p, rest', hloop, hpages, hmade⟩ := resetLoop_spec hcols (Nat.min_le_right _ _)
    hlines hgrant' hcleared hfirst.le (Nat.sub_le _ first) fun heq => by omega
  rw [resetReqPages, hopen]
  dsimp only
  rw [hcur, hprevious, List.take_left, hloop]
  dsimp only
  cases horder : q.byColumn with
  | false =>
      have hlayout := hpages.layout
      rw [List.length_append, List.length_singleton] at hlayout
      exact ⟨_, _, rfl, Nat.succ_pos _, hlayout⟩
  | true =>
      have hget : (front ++ [p] ++ rest').getD front.length zeroPage = p := by
        simp [List.getD]
      have hset : ∀ page, (front ++ [p] ++ rest').set front.length page =
          front ++ [page] ++ rest' := by
        intro page
        simp
      rw [if_pos rfl, Nat.add_sub_cancel, hget, hset]
      exact ⟨_, _, rfl, Nat.succ_pos _, layout_tweak hlines hpages hmade horder⟩

theorem n2pcrx_zero (q : Requester) (table : List ReqPage) : (n2pcrx q table 0).1 = 0 := by
  cases table with
  | nil => rfl
  | cons pp rest =>
      rw [n2pcrx, findPage]
      by_cases hempty : pp.entries = 0
      · rw [if_pos hempty]
      · rw [if_neg hempty, if_pos (by omega)]

/-- `reset_req_pages` succeeds, and its pages are a layout of all the entries: from scratch,
or from the page of `n0` on. -/
theorem resetReqPages_layout (hentries : q.lengths ≠ []) (hcolumns : 3 ≤ q.neColumns)
    (hlines : 2 ≤ q.neLines) (hgrant : ∀ n, answers n = true)
    (hn0 : n0 = 0 ∨ Contains q table n0) :
    ∃ table' count, resetReqPages q answers table n0 = some (table', count) ∧ 0 < count ∧
      Layout q table' count := by
  have hsome := List.length_pos_of_ne_nil hentries
  rcases hn0 with rfl | ⟨hless, before, page, rest, rfl, htiles, hfitted, hfirst, hlast⟩
  · have hopen : ∃ table' answers', (∀ n, answers' n = true) ∧
        (if table = [] then (expand answers table).map fun table => (table, answers.rest)
          else some (table, answers)) = some ([] ++ table', answers') := by
      by_cases hnil : table = []
      · rw [if_pos hnil, expand, if_pos (hgrant 0)]
        exact ⟨_, answers.rest, fun n => hgrant (n + 1), rfl⟩
      · rw [if_neg hnil]
        exact ⟨table, answers, hgrant, rfl⟩
    obtain ⟨table', hstart⟩ := hopen
    exact resetReqPages_from hcolumns hlines hstart (n2pcrx_zero q _) rfl (by simp) hsome
  · have hstart : ∃ answers', (∀ n, answers' n = true) ∧
        (if before ++ page :: rest = [] then (expand answers (before ++ page :: rest)).map
            fun table => (table, answers.rest)
          else some (before ++ page :: rest, answers)) =
          some (before ++ page :: rest, answers') :=
      ⟨answers, hgrant, by rw [if_neg (by simp)]⟩
    refine resetReqPages_from hcolumns hlines hstart ?_ htiles hfitted (by omega)
    rw [n2pcrx_eq rfl (fun y hy => ?_) hfirst hlast]
    obtain ⟨front, back, rfl⟩ := List.append_of_mem hy
    exact ⟨(hfitted y (by simp)).pos, htiles.middle.2.le.trans hfirst⟩

/-- Five names in a window of ten columns and three lines. -/
theorem resetReqPages_layout_five :
    ∃ table' count, resetReqPages ⟨true, 10, 3, [4, 12, 3, 5, 4]⟩ (fun _ => true) [] 0 =
        some (table', count) ∧ 0 < count ∧
      Layout ⟨true, 10, 3, [4, 12, 3, 5, 4]⟩ table' count :=
  resetReqPages_layout (by decide) (by decide) (by decide) (fun _ => rfl) (.inl rfl)

end Layout

end NiceEditor.ReqPages
