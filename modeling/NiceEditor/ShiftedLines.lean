import NiceEditor.DrawnScreens

namespace NiceEditor.ShiftedLines

open NiceEditor.CursorMotion
open NiceEditor.TerminalScreen
open NiceEditor.ScreenRuns
open NiceEditor.DrawnScreens

variable {t : Capabilities} {s s' : Screen} {cur : Place} {row x start stop m n : Int}
variable {canvas : Int → Int → Cell}

/-- The lines from `start` to before `stop` with `n` blank ones inserted, or with `-n` deleted -/
def shifted (start stop n : Int) (canvas : Int → Int → Cell) : Int → Int → Cell :=
  fun r c =>
    if start ≤ r ∧ r < stop then
      if start ≤ r - n ∧ r - n < stop then canvas (r - n) c else blank
    else canvas r c

theorem shifted_zero : shifted start stop 0 canvas = canvas := by
  funext r c
  unfold shifted
  rw [Int.sub_zero]
  split_ifs <;> rfl

theorem shifted_shifted (hsign : 0 ≤ m ∧ 0 ≤ n ∨ m ≤ 0 ∧ n ≤ 0) :
    shifted start stop m (shifted start stop n canvas) = shifted start stop (m + n) canvas := by
  funext r c
  unfold shifted
  rw [Int.sub_sub]
  split_ifs <;> first | rfl | omega

theorem drawn_shifted {region : Int × Int} {p : Option Place} (h : Drawn t canvas s)
    (hstart : 0 ≤ start) (hstop : stop ≤ t.neLines) :
    Drawn t (shifted start stop n canvas) ⟨shifted start stop n s.cells, p, region⟩ := by
  intro r c hr hr' hc hc'
  simp only [shifted]
  split_ifs with hin hshift
  · exact h _ _ (by omega) (by omega) hc hc'
  · rfl
  · exact h r c hr hr' hc hc'

theorem exec_scrolls {command : Command} {p : Place} {k : Nat} (hsign : n = 1 ∨ n = -1)
    (happly : ∀ s : Screen, s.cursor = some p → s.region = (start, stop - 1) →
      apply t s command = some { s with cells := shifted start stop n s.cells })
    (hcursor : s.cursor = some p) (hregion : s.region = (start, stop - 1)) :
    exec t s (List.replicate k command) =
      some { s with cells := shifted start stop (k * n) s.cells } := by
  induction k generalizing s with
  | zero => rw [Nat.cast_zero, Int.zero_mul, shifted_zero]; rfl
  | succ k ih =>
      rw [List.replicate_succ, exec_cons, happly s hcursor hregion, Option.bind_some]
      rw [ih (s := { s with cells := shifted start stop n s.cells }) hcursor hregion]
      dsimp only
      rw [shifted_shifted (by rcases hsign with rfl | rfl <;> omega)]
      congr 3
      rw [Nat.cast_succ, Int.add_mul, Int.one_mul]

theorem apply_scrollForward (hlt : start < stop) (hcursor : s.cursor = some ⟨stop - 1, x⟩)
    (hregion : s.region = (start, stop - 1)) :
    apply t s .scrollForward = some { s with cells := shifted start stop (-1) s.cells } := by
  rw [apply, hcursor, Option.bind_eq_bind, Option.bind_some, hregion, if_pos rfl]
  congr 2
  funext r c
  unfold shifted
  dsimp only
  rw [show r - -1 = r + 1 by omega]
  split_ifs <;> first | rfl | omega

theorem apply_scrollReverse (hlt : start < stop) (hcursor : s.cursor = some ⟨start, x⟩)
    (hregion : s.region = (start, stop - 1)) :
    apply t s .scrollReverse = some { s with cells := shifted start stop 1 s.cells } := by
  rw [apply, hcursor, Option.bind_eq_bind, Option.bind_some, hregion, if_pos rfl]
  congr 2
  funext r c
  unfold shifted
  dsimp only
  split_ifs <;> first | rfl | omega

/-- With a scroll region -/
theorem scrollLines_draws (n : Int) (cur : Place) (hd : Drivable t) (hregion : t.scrollRegionOk)
    (hdrawn : Drawn t canvas s) (hrow : 0 ≤ row) (hroom : row + 1 < t.specifiedWindow) :
    ∃ res, scrollLines t row n cur = some res ∧
      Draws t s (shifted row t.specifiedWindow n canvas) res := by
  obtain ⟨hwindow, hlines⟩ := hd.window
  have hdst : OnScreen t (if n < 0 then t.specifiedWindow - 1 else row) 0 :=
    onScreen_iff.mpr (by split <;> exact ⟨by omega, by omega, le_rfl, hd.columns⟩)
  have hmoved := moveCursor_lost hd.addressable hdst not_losecursor
  have hcommand : scrollCommand t n =
      some (if n < 0 then .scrollForward else .scrollReverse) := by
    obtain ⟨hforward, hreverse⟩ := hd.scrolls hregion
    rw [scrollCommand, if_pos hforward, if_pos hreverse]
    split <;> rfl
  have hscroll : scrollLines t row n cur = some (losecursor,
      [.scrollRegion row (t.specifiedWindow - 1)] ++
        [.motion (.abs (if n < 0 then t.specifiedWindow - 1 else row) 0)] ++
        List.replicate n.natAbs (if n < 0 then .scrollForward else .scrollReverse) ++
        [.scrollRegion 0 (t.neLines - 1)]) := by
    unfold scrollLines
    simp only [hcommand, if_pos hlines.ne, Option.bind_eq_bind, hmoved, Option.bind_some]
  refine ⟨_, hscroll, ⟨shifted row t.specifiedWindow n s.cells, none, wholeScreen t⟩, ?_,
    shown_losecursor rfl, drawn_shifted hdrawn hrow hlines.le⟩
  have hscrolls : exec t
      ⟨s.cells, some ⟨if n < 0 then t.specifiedWindow - 1 else row, 0⟩,
        (row, t.specifiedWindow - 1)⟩
      (List.replicate n.natAbs (if n < 0 then .scrollForward else .scrollReverse)) =
      some ⟨shifted row t.specifiedWindow n s.cells,
        some ⟨if n < 0 then t.specifiedWindow - 1 else row, 0⟩, (row, t.specifiedWindow - 1)⟩ := by
    split
    · rw [exec_scrolls (n := -1) (Or.inr rfl) (fun s hc hr => apply_scrollForward
        (by omega) hc hr) rfl rfl, show (n.natAbs : Int) * -1 = n by omega]
    · rw [exec_scrolls (n := 1) (Or.inl rfl) (fun s hc hr => apply_scrollReverse
        (by omega) hc hr) rfl rfl, show (n.natAbs : Int) * 1 = n by omega]
  have hset : exec t s [.scrollRegion row (t.specifiedWindow - 1)] =
      some ⟨s.cells, none, (row, t.specifiedWindow - 1)⟩ := by
    rw [exec_singleton, apply, if_pos ⟨hrow, by omega, by omega⟩]
  refine exec_trans (exec_trans (exec_trans hset ?_) hscrolls) ?_
  · rw [exec_singleton, apply_abs hd.addressable]
  · rw [exec_singleton, apply, if_pos ⟨le_rfl, by omega, by omega⟩]
    rfl

/-- The lines with blank ones inserted, as a terminal does it -/
def inserted (row n : Int) (cells : Int → Int → Cell) : Int → Int → Cell :=
  fun r c => if r < row then cells r c else if r < row + n then blank else cells (r - n) c

/-- The lines with some of them deleted, as a terminal does it -/
def deleted (t : Capabilities) (row n : Int) (cells : Int → Int → Cell) : Int → Int → Cell :=
  fun r c =>
    if r < row then cells r c
    else if t.memoryBelow ∨ r + n < t.neLines then cells (r + n) c else blank

theorem doMultiInsDel_exec {multi single : Bool} (command : Nat → Command)
    {f : Nat → (Int → Int → Cell) → Int → Int → Cell} {k : Nat} (hk : 0 < k)
    (hok : multi ∨ single)
    (happly : ∀ k cells, apply t { s with cells := cells } (command k) =
      some { s with cells := f k cells })
    (hsucc : ∀ k cells, f k (f 1 cells) = f (k + 1) cells) :
    ∃ out, doMultiInsDel multi single command k = some out ∧
      exec t s out = some { s with cells := f k s.cells } := by
  have hrepeat : ∀ k cells, exec t { s with cells := cells }
      (List.replicate (k + 1) (command 1)) = some { s with cells := f (k + 1) cells } := by
    intro k
    induction k with
    | zero =>
        intro cells
        exact (exec_singleton _).trans (happly 1 cells)
    | succ k ih =>
        intro cells
        rw [List.replicate_succ, exec_cons, happly, Option.bind_some, ih, hsucc]
  obtain ⟨k, rfl⟩ := Nat.exists_eq_succ_of_ne_zero hk.ne'
  unfold doMultiInsDel
  split
  · exact ⟨_, rfl, (exec_singleton _).trans (happly _ s.cells)⟩
  · rename_i hmulti
    rw [if_pos (hok.resolve_left hmulti)]
    exact ⟨_, rfl, hrepeat k s.cells⟩

theorem moveCursor_doMultiInsDel {multi single : Bool} (command : Nat → Command)
    {f : Nat → (Int → Int → Cell) → Int → Int → Cell} {k : Nat} (hd : Drivable t)
    (hshown : Shown t cur s) (hdst : OnScreen t row 0) (hk : 0 < k) (hok : multi ∨ single)
    (happly : ∀ k cells, apply t ⟨cells, some ⟨row, 0⟩, wholeScreen t⟩ (command k) =
      some ⟨f k cells, some ⟨row, 0⟩, wholeScreen t⟩)
    (hsucc : ∀ k cells, f k (f 1 cells) = f (k + 1) cells) :
    ∃ moves out, moveCursor t row 0 cur = some (⟨row, 0⟩, moves) ∧
      doMultiInsDel multi single command k = some out ∧
      exec t s (moves ++ out) = some ⟨f k s.cells, some ⟨row, 0⟩, wholeScreen t⟩ := by
  obtain ⟨moves, hmoves, hexec⟩ := moveCursor_spec hd.addressable hshown hdst
  obtain ⟨out, hout, hexec'⟩ := doMultiInsDel_exec command
    (s := ⟨s.cells, some ⟨row, 0⟩, wholeScreen t⟩) hk hok happly hsucc
  refine ⟨moves, out, hmoves, hout, exec_trans hexec ?_⟩
  rw [hshown.region]
  exact hexec'

theorem insertAt_spec {k : Nat} (hd : Drivable t) (hok : t.parmInsertLine ∨ t.insertLine)
    (hshown : Shown t cur s) (hdst : OnScreen t row 0) (hk : 0 < k) :
    ∃ out, insertAt t row k cur = some (⟨row, 0⟩, out) ∧
      exec t s out = some ⟨inserted row k s.cells, some ⟨row, 0⟩, wholeScreen t⟩ := by
  obtain ⟨moves, out, hmoves, hout, hexec⟩ := moveCursor_doMultiInsDel .insertLines
    (f := fun k => inserted row k) hd hshown hdst hk hok
    (fun k cells => by
      rw [apply, Option.bind_eq_bind, Option.bind_some, if_pos rfl]
      rfl)
    (fun k cells => by
      funext r c
      simp only [inserted, Nat.cast_add, Nat.cast_one, Int.sub_sub]
      split_ifs <;> first | rfl | omega)
  refine ⟨moves ++ out, ?_, hexec⟩
  simp only [insertAt, hmoves, hout, Option.bind_eq_bind, Option.bind_some]

theorem deleteAt_spec {k : Nat} (hd : Drivable t) (hok : t.parmDeleteLine ∨ t.deleteLine)
    (hshown : Shown t cur s) (hdst : OnScreen t row 0) (hk : 0 < k) :
    ∃ out, deleteAt t row k cur = some (⟨row, 0⟩, out) ∧
      exec t s out = some ⟨deleted t row k s.cells, some ⟨row, 0⟩, wholeScreen t⟩ := by
  obtain ⟨moves, out, hmoves, hout, hexec⟩ := moveCursor_doMultiInsDel .deleteLines
    (f := fun k => deleted t row k) hd hshown hdst hk hok
    (fun k cells => by
      rw [apply, Option.bind_eq_bind, Option.bind_some, if_pos rfl]
      rfl)
    (fun k cells => by
      funext r c
      simp only [deleted, Nat.cast_add, Nat.cast_one, Int.add_assoc]
      cases t.memoryBelow <;> simp only [Bool.false_eq_true, true_or, false_or, if_true] <;>
        split_ifs <;> first | rfl | omega)
  refine ⟨moves ++ out, ?_, hexec⟩
  simp only [deleteAt, hmoves, hout, Option.bind_eq_bind, Option.bind_some]

theorem inserted_deleted {k : Nat} {r c : Int} {cells : Int → Int → Cell} (hr : r < t.neLines)
    (hroom : row + k ≤ stop) :
    inserted row k (deleted t (stop - k) k cells) r c = shifted row stop k cells r c := by
  simp only [inserted, deleted, shifted, Int.sub_add_cancel]
  split_ifs <;> first | rfl | omega

theorem deleted_inserted {k : Nat} {r c : Int} {cells : Int → Int → Cell} (hr : r < t.neLines)
    (hstop : stop ≤ t.neLines) (hroom : row + k ≤ stop) :
    inserted (stop - k) k (deleted t row k cells) r c = shifted row stop (-k) cells r c := by
  simp only [inserted, deleted, shifted, Int.sub_add_cancel, Int.sub_neg]
  split_ifs <;> first | rfl | omega

/-- Without a scroll region -/
theorem replaceLines_draws (hd : Drivable t) (hok : t.lineInsDelOk) (hregion : ¬ t.scrollRegionOk)
    (hshown : Shown t cur s) (hdrawn : Drawn t canvas s) (hrow : 0 ≤ row) (hn : n ≠ 0)
    (hroom : row + n.natAbs ≤ t.specifiedWindow) :
    ∃ res, replaceLines t row n cur = some res ∧
      Draws t s (shifted row t.specifiedWindow n canvas) res := by
  obtain ⟨hwindow, hlines⟩ := hd.window
  obtain ⟨hinsert, hdelete⟩ : (t.parmInsertLine ∨ t.insertLine) ∧
      (t.parmDeleteLine ∨ t.deleteLine) := by
    simp only [Capabilities.lineInsDelOk, Bool.or_eq_true, Bool.and_eq_true] at hok
    have hstrings := hok.resolve_right fun h => hregion h.1.1
    exact ⟨hstrings.1.symm, hstrings.2.symm⟩
  have hk : 0 < n.natAbs := Int.natAbs_pos.mpr hn
  have hend : OnScreen t (t.specifiedWindow - n.natAbs) 0 :=
    onScreen_iff.mpr ⟨by omega, by omega, le_rfl, hd.columns⟩
  have hdst : OnScreen t row 0 := onScreen_iff.mpr ⟨hrow, by omega, le_rfl, hd.columns⟩
  have hshifted : Drawn t (shifted row t.specifiedWindow n canvas)
      ⟨shifted row t.specifiedWindow n s.cells, none, wholeScreen t⟩ :=
    drawn_shifted hdrawn hrow hlines.le
  unfold replaceLines
  rcases lt_or_ge 0 n with hpos | hneg
  · obtain ⟨deletes, hdeletes, hexec⟩ := deleteAt_spec hd hdelete hshown hend hk
    obtain ⟨inserts, hinserts, hexec'⟩ := insertAt_spec hd hinsert
      (shown_mk (deleted t (t.specifiedWindow - n.natAbs) n.natAbs s.cells) hend) hdst hk
    refine ⟨(⟨row, 0⟩, deletes ++ inserts), ?_, _, exec_trans hexec hexec',
      shown_mk _ hdst, fun r c hr hr' hc hc' => ?_⟩
    · simp only [if_pos hpos, if_pos hlines.ne, hdeletes, hinserts, Option.bind_eq_bind,
        Option.bind_some]
    · dsimp only
      rw [inserted_deleted hr' hroom, Int.natAbs_of_nonneg hpos.le]
      exact hshifted r c hr hr' hc hc'
  · obtain ⟨deletes, hdeletes, hexec⟩ := deleteAt_spec hd hdelete hshown hdst hk
    obtain ⟨inserts, hinserts, hexec'⟩ := insertAt_spec hd hinsert
      (shown_mk (deleted t row n.natAbs s.cells) hdst) hend hk
    refine ⟨(⟨t.specifiedWindow - n.natAbs, 0⟩, deletes ++ inserts), ?_, _,
      exec_trans hexec hexec', shown_mk _ hend, fun r c hr hr' hc hc' => ?_⟩
    · simp only [if_neg (not_lt.mpr hneg), if_pos hlines.ne, hdeletes, hinserts,
        Option.bind_eq_bind, Option.bind_some]
    · dsimp only
      rw [deleted_inserted hr' hlines.le hroom, show -(n.natAbs : Int) = n by omega]
      exact hshifted r c hr hr' hc hc'

theorem insDelLines_draws (hd : Drivable t) (hok : t.lineInsDelOk) (hshown : Shown t cur s)
    (hdrawn : Drawn t canvas s) (hrow : 0 ≤ row) (hn : n ≠ 0)
    (hroom : ¬ t.scrollRegionOk → row + n.natAbs ≤ t.specifiedWindow) :
    ∃ happened res, insDelLines t row n cur = some (happened, res) ∧
      Draws t s (if happened then shifted row t.specifiedWindow n canvas else canvas) res := by
  unfold insDelLines
  split
  · exact ⟨false, _, rfl, draws_nil hshown hdrawn⟩
  split
  · exact ⟨false, _, rfl, draws_nil hshown hdrawn⟩
  split
  · rename_i hfull _ hregion
    have hbelow := not_and.mp hfull hregion
    obtain ⟨res, hres, hdraws⟩ := scrollLines_draws n cur hd hregion hdrawn hrow (by omega)
    exact ⟨true, res, by rw [hres]; rfl, hdraws⟩
  · rename_i hregion
    obtain ⟨res, hres, hdraws⟩ := replaceLines_draws hd hok hregion hshown hdrawn hrow hn
      (hroom hregion)
    exact ⟨true, res, by rw [hres]; rfl, hdraws⟩

end NiceEditor.ShiftedLines
