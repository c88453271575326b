import Mathlib.Tactic.Ring
import NiceEditor.PathCosts

namespace NiceEditor.CursorMotion

open NiceEditor.PathCosts

/-- A place on the screen. In the column behind the last one the cursor is about to wrap. -/
structure Place where
  y : Int
  x : Int
deriving DecidableEq

/-- What `cm.c` can send to a terminal -/
inductive Motion
  | up
  | down
  | left
  | right
  | home
  | cr
  | ll
  | tab
  | abs (row col : Int)
  | habs (col : Int)
  | vabs (row : Int)
  | oops
deriving DecidableEq

/-- The `BIG` cost of a motion that there is no string for. -/
def big : Int := 9999

/-- `struct cm`. For each string that the terminal has there is the number of bytes that `tputs`
writes for it. -/
structure Cm where
  curY : Int
  curX : Int
  up : Option Nat
  down : Option Nat
  left : Option Nat
  right : Option Nat
  home : Option Nat
  cr : Option Nat
  ll : Option Nat
  tab : Option Nat
  abs : Option (Int → Int → Nat)
  habs : Option (Int → Nat)
  vabs : Option (Int → Nat)
  cols : Int
  rows : Int
  tabWidth : Int
  useTabs : Bool
  autoLf : Bool

/-- The `COST` of a string -/
def cost (size : Option Nat) : Int := size.elim big Nat.cast

namespace Cm

variable (w : Cm)

/- The costs, as `cmcostinit` sets them -/
def ccUp : Int := cost w.up
def ccDown : Int := cost w.down
def ccLeft : Int := cost w.left
def ccRight : Int := cost w.right
def ccHome : Int := cost w.home
def ccCr : Int := cost w.cr
def ccLl : Int := cost w.ll
def ccTab : Int := if w.tabWidth ≠ 0 then cost w.tab else big
def ccAbs : Int := cost (w.abs.map fun f => f 0 0)
def ccHabs : Int := cost (w.habs.map fun f => f 0)
def ccVabs : Int := cost (w.vabs.map fun f => f 0)

end Cm

/-- `calccost` from `dodelta` on, when `sent` has been sent: `n` times the motion `p`, which costs
`c` -/
def dodelta (sent : List Motion) (totalcost c : Int) (p : Motion) (n : Nat) : Int × List Motion :=
  if c = big then (big, sent ++ [.oops]) else (totalcost + c * n, sent ++ List.replicate n p)

/-- `calccost` from `newdelta` on -/
def newdelta (w : Cm) (sent : List Motion) (totalcost srcx dstx : Int) : Int × List Motion :=
  let deltax := dstx - srcx
  if deltax = 0 then (totalcost, sent)
  else if deltax > 0 then dodelta sent totalcost w.ccRight .right deltax.natAbs
  else dodelta sent totalcost w.ccLeft .left deltax.natAbs

/-- The cost of `n` tabs and what they need, `c`; no tabs are no way. -/
def tabcost (n c : Int) : Int := if n ≠ 0 then c else big

/-- `ntabs`, `tabx` and `tabcost` for the cheaper one of the ways with tabs: not past the column, or
past it and back -/
def bestTabs (w : Cm) (srcx dstx : Int) : Int × Int × Int :=
  let deltax := dstx - srcx
  let ntabs := (deltax + srcx.tmod w.tabWidth).tdiv w.tabWidth
  let tabx := (srcx.tdiv w.tabWidth + ntabs) * w.tabWidth
  let tab2x := tabx + w.tabWidth
  let n2tabs := if tab2x ≥ w.cols then 0 else ntabs + 1
  let c1 := tabcost ntabs (ntabs * w.ccTab + (dstx - tabx) * w.ccRight)
  let c2 := tabcost n2tabs (n2tabs * w.ccTab + (tab2x - dstx) * w.ccLeft)
  if c2 < c1 then (n2tabs, tab2x, c2) else (ntabs, tabx, c1)

/-- The tabs that `calccost` uses on the way to the right, when it uses them -/
def tabs (w : Cm) (srcx dstx : Int) : Option (Int × Int × Int) :=
  if w.ccTab ≥ big ∨ ¬ w.useTabs then none
  else if (bestTabs w srcx dstx).2.2 ≥ big then none
  else if (bestTabs w srcx dstx).2.2 < (dstx - srcx) * w.ccRight then some (bestTabs w srcx dstx)
  else none

/-- The motion towards a row, and its cost -/
def vertical (w : Cm) (deltay : Int) : Motion × Int :=
  if deltay < 0 then (.up, w.ccUp) else (.down, w.ccDown)

/-- `calccost`: the cost, and what is sent if `doit` is set -/
def calccost (w : Cm) (srcy srcx dsty dstx : Int) : Int × List Motion :=
  if w.curX = w.cols then (big, [.oops])
  else
    let deltay := dsty - srcy
    if deltay ≠ 0 ∧ (vertical w deltay).2 = big then (big, [.oops])
    else
      let totalcost := (vertical w deltay).2 * deltay.natAbs
      let sent := List.replicate deltay.natAbs (vertical w deltay).1
      match if dstx > srcx then tabs w srcx dstx else none with
      | some (ntabs, tabx, tabcost) =>
          newdelta w (sent ++ List.replicate ntabs.toNat .tab) (totalcost + tabcost) tabx dstx
      | none => newdelta w sent totalcost srcx dstx

/-- The ways that `cmgoto` compares -/
inductive Use
  | rel
  | home
  | ll
  | cr
deriving DecidableEq

/-- The motion that a way begins with, and the place behind it -/
def Use.start (w : Cm) : Use → List Motion × Int × Int
  | .rel => ([], w.curY, w.curX)
  | .home => ([.home], 0, 0)
  | .ll => ([.ll], w.rows - 1, 0)
  | .cr => ([.cr], if w.autoLf then w.curY + 1 else w.curY, 0)

/-- The costs of the ways, with those of `calccost` -/
def Use.cost (w : Cm) (row col : Int) : Use → Int
  | .rel => (calccost w w.curY w.curX row col).1
  | .home => if w.ccHome < big then w.ccHome + (calccost w 0 0 row col).1 else w.ccHome
  | .ll => if w.ccLl < big then w.ccLl + (calccost w (w.rows - 1) 0 row col).1 else w.ccLl
  | .cr =>
      if w.ccCr < big then
        if w.autoLf then
          if w.curY + 1 ≥ w.rows then big else w.ccCr + (calccost w (w.curY + 1) 0 row col).1
        else w.ccCr + (calccost w w.curY 0 row col).1
      else w.ccCr

/-- The cheapest of the ways; of two that cost the same it is the one that is tried first. -/
def cheapest (w : Cm) (row col : Int) : Int × Use :=
  [Use.home, .ll, .cr].foldl
    (fun best use => if use.cost w row col < best.1 then (use.cost w row col, use) else best)
    (Use.rel.cost w row col, .rel)

/-- The motion that addresses the place, and its least cost -/
def direct (w : Cm) (row col : Int) : Int × Motion :=
  if row = w.curY ∧ w.ccHabs < big then (w.ccHabs, .habs col)
  else if col = w.curX ∧ w.ccVabs < big then (w.ccVabs, .vabs row)
  else (w.ccAbs, .abs row col)

/-- The number of bytes of a motion, when the terminal has a string for it. -/
def Cm.size (w : Cm) : Motion → Option Nat
  | .up => w.up
  | .down => w.down
  | .left => w.left
  | .right => w.right
  | .home => w.home
  | .cr => w.cr
  | .ll => w.ll
  | .tab => w.tab
  | .abs row col => w.abs.map fun f => f row col
  | .habs col => w.habs.map fun f => f col
  | .vabs row => w.vabs.map fun f => f row
  | .oops => none

/-- What is sent for a way -/
def Use.moves (w : Cm) (row col : Int) (use : Use) : List Motion :=
  (use.start w).1 ++ (calccost { w with curY := (use.start w).2.1, curX := (use.start w).2.2 }
    (use.start w).2.1 (use.start w).2.2 row col).2

/-- The end of `cmgoto`: it addresses the place if that is not more expensive. It is undefined if
the terminal lacks the string for it. -/
def send (w : Cm) (row col : Int) (best : Int × Use) (addressed : Int × Motion) :
    Option (Cm × List Motion) :=
  let moved := { w with curY := row, curX := col }
  if addressed.1 ≤ best.1 then
    match w.size addressed.2 with
    | none => none
    | some realcost =>
        if realcost ≤ best.1 then some (moved, [addressed.2])
        else some (moved, best.2.moves w row col)
  else some (moved, best.2.moves w row col)

/-- `cmgoto`: where the cursor is afterwards, and what has been sent -/
def cmgoto (w : Cm) (row col : Int) : Option (Cm × List Motion) :=
  if row = w.curY ∧ col = w.curX then some (w, [])
  else if w.curY ≥ 0 ∧ w.curX ≥ 0 then send w row col (cheapest w row col) (direct w row col)
  else send w row col (100000, .rel) (0, .abs row col)

/-- What a terminal that has the string for a motion does with it. -/
def move (w : Cm) (p : Place) : Motion → Option Place
  | .up => if 0 < p.y ∧ p.x < w.cols then some ⟨p.y - 1, p.x⟩ else none
  | .down => if p.y + 1 < w.rows ∧ p.x < w.cols then some ⟨p.y + 1, p.x⟩ else none
  | .left => if 0 < p.x ∧ p.x < w.cols then some ⟨p.y, p.x - 1⟩ else none
  | .right => if p.x + 1 < w.cols then some ⟨p.y, p.x + 1⟩ else none
  | .home => some ⟨0, 0⟩
  | .cr =>
      if p.x ≥ w.cols then none
      else if w.autoLf then if p.y + 1 < w.rows then some ⟨p.y + 1, 0⟩ else none
      else some ⟨p.y, 0⟩
  | .ll => some ⟨w.rows - 1, 0⟩
  | .tab =>
      if (p.x / w.tabWidth + 1) * w.tabWidth < w.cols then
        some ⟨p.y, (p.x / w.tabWidth + 1) * w.tabWidth⟩
      else none
  | .abs row col => some ⟨row, col⟩
  | .habs col => some ⟨p.y, col⟩
  | .vabs row => some ⟨row, p.x⟩
  | .oops => none

/-- The effect of a motion on the cursor, where the terminal's description determines it: the
cursor leaves no edge, and relative motions do not start from behind the last column. -/
def perform (w : Cm) (m : Motion) (p : Place) : Option Place :=
  (w.size m).bind fun _ => move w p m

/-- The place is on the screen. -/
def Cm.Shows (w : Cm) (row col : Int) : Prop :=
  0 ≤ row ∧ row < w.rows ∧ 0 ≤ col ∧ col < w.cols

/-- The terminal can address its cursor, with strings that are not taken for missing ones. -/
structure Addressable (w : Cm) : Prop where
  abs : ∃ f, w.abs = some f ∧ ∀ row col, w.Shows row col → (f row col : Int) < big
  habs : ∀ f, w.habs = some f → ∀ row col, w.Shows row col → (f col : Int) < big
  vabs : ∀ f, w.vabs = some f → ∀ row col, w.Shows row col → (f row : Int) < big
  tabWidth : 0 ≤ w.tabWidth

/-- `cm.c` does not know where the cursor is, or it is there. -/
def Tracks (w : Cm) (p : Place) : Prop :=
  (0 ≤ w.curY ∧ 0 ≤ w.curX) →
    p = ⟨w.curY, w.curX⟩ ∧ w.curY < w.rows ∧ w.curX ≤ w.cols

variable {w : Cm} {p q : Place} {row col srcy srcx dsty dstx x y : Int} {n : Nat}

section Reaches

theorem cost_nonneg (size : Option Nat) : 0 ≤ cost size := by
  cases size with
  | none => exact (by decide : (0 : Int) ≤ big)
  | some n => exact Int.natCast_nonneg n

theorem exists_of_cost_ne {size : Option Nat} (h : cost size ≠ big) : ∃ n, size = some n := by
  cases size with
  | none => exact absurd rfl h
  | some n => exact ⟨n, rfl⟩

theorem perform_of_size {m : Motion} (h : w.size m = some n) : perform w m p = move w p m := by
  rw [perform, h, Option.bind_some]

theorem run_steps {m : Motion} (hsize : w.size m = some n) (dy dx : Int) (turns : Nat)
    (hmove : ∀ i < turns, move w ⟨y + i * dy, x + i * dx⟩ m =
      some ⟨y + i * dy + dy, x + i * dx + dx⟩) :
    run (perform w) (List.replicate turns m) ⟨y, x⟩ =
      some ⟨y + turns * dy, x + turns * dx⟩ := by
  have hrun := @run_replicate _ _ (perform w) m
    (fun i => (⟨y + i * dy, x + i * dx⟩ : Place)) turns fun i hi => by
      rw [perform_of_size hsize, hmove i hi]
      congr 2 <;> push_cast <;> ring
  simpa using hrun

theorem run_up (hup : w.up = some n) (hx : x < w.cols) (turns : Nat) (hy : turns ≤ y) :
    run (perform w) (List.replicate turns .up) ⟨y, x⟩ = some ⟨y - turns, x⟩ := by
  have hrun := run_steps (m := .up) hup (y := y) (x := x) (-1) 0 turns fun i hi => by
    rw [move, if_pos ⟨by dsimp only; omega, by dsimp only; omega⟩]
    simp [Int.sub_eq_add_neg]
  simpa [Int.sub_eq_add_neg] using hrun

theorem run_down (hdown : w.down = some n) (hx : x < w.cols) (turns : Nat)
    (hy : y + turns < w.rows) :
    run (perform w) (List.replicate turns .down) ⟨y, x⟩ = some ⟨y + turns, x⟩ := by
  have hrun := run_steps (m := .down) hdown (y := y) (x := x) 1 0 turns fun i hi => by
    rw [move, if_pos ⟨by dsimp only; omega, by dsimp only; omega⟩]
    simp
  simpa [Int.sub_eq_add_neg] using hrun

theorem run_left (hleft : w.left = some n) (hx : x < w.cols) (turns : Nat) (hle : turns ≤ x) :
    run (perform w) (List.replicate turns .left) ⟨y, x⟩ = some ⟨y, x - turns⟩ := by
  have hrun := run_steps (m := .left) hleft (y := y) (x := x) 0 (-1) turns fun i hi => by
    rw [move, if_pos ⟨by dsimp only; omega, by dsimp only; omega⟩]
    simp [Int.sub_eq_add_neg]
  simpa [Int.sub_eq_add_neg] using hrun

theorem run_right (hright : w.right = some n) (turns : Nat) (hx : x + turns < w.cols) :
    run (perform w) (List.replicate turns .right) ⟨y, x⟩ = some ⟨y, x + turns⟩ := by
  have hrun := run_steps (m := .right) hright (y := y) (x := x) 0 1 turns fun i hi => by
    rw [move, if_pos (by dsimp only; omega)]
    simp
  simpa [Int.sub_eq_add_neg] using hrun

theorem run_tab (htab : w.tab = some n) (hwidth : 0 < w.tabWidth) (turns : Nat) (hpos : 0 < turns)
    (hx : (x / w.tabWidth + turns) * w.tabWidth < w.cols) :
    run (perform w) (List.replicate turns .tab) ⟨y, x⟩ =
      some ⟨y, (x / w.tabWidth + turns) * w.tabWidth⟩ := by
  -- the first tab need not start at a tab stop
  have hdiv : ∀ i : Nat, (if i = 0 then x else (x / w.tabWidth + i) * w.tabWidth) / w.tabWidth =
      x / w.tabWidth + i := by
    intro i
    split
    · rename_i hi
      rw [hi]
      simp
    · exact Int.mul_ediv_cancel _ hwidth.ne'
  have hrun := @run_replicate _ _ (perform w) .tab
    (fun i => (⟨y, if i = 0 then x else (x / w.tabWidth + i) * w.tabWidth⟩ : Place)) turns
    fun i hi => by
      have hstop : (x / w.tabWidth + i + 1) * w.tabWidth ≤ (x / w.tabWidth + turns) * w.tabWidth :=
        Int.mul_le_mul_of_nonneg_right (by omega) hwidth.le
      rw [perform_of_size (m := .tab) htab, move]
      dsimp only
      rw [hdiv i, if_pos (by omega), if_neg (Nat.succ_ne_zero i)]
      push_cast
      rw [Int.add_assoc]
  simpa only [if_pos, if_neg hpos.ne'] using hrun

theorem ne_zero_of_tabcost {t c : Int} (h : tabcost t c < big) : t ≠ 0 := by
  rintro rfl
  exact lt_irrefl big h

theorem bestTabs_spec (hx : 0 ≤ srcx) (hlt : srcx < dstx) (hdst : dstx < w.cols)
    (hwidth : 0 < w.tabWidth) (hcost : (bestTabs w srcx dstx).2.2 < big) :
    0 < (bestTabs w srcx dstx).1 ∧
      (bestTabs w srcx dstx).2.1 = (srcx / w.tabWidth + (bestTabs w srcx dstx).1) * w.tabWidth ∧
      0 ≤ (bestTabs w srcx dstx).2.1 ∧ (bestTabs w srcx dstx).2.1 < w.cols := by
  have hmod := Int.emod_nonneg srcx hwidth.ne'
  have hstart : 0 ≤ srcx / w.tabWidth := Int.ediv_nonneg hx hwidth.le
  unfold bestTabs at *
  rw [Int.tmod_eq_emod_of_nonneg hx, Int.tdiv_eq_ediv_of_nonneg hx] at *
  dsimp only at *
  rw [Int.tdiv_eq_ediv_of_nonneg (by omega)] at *
  generalize hntabs : (dstx - srcx + srcx % w.tabWidth) / w.tabWidth = ntabs at *
  have hnonneg : 0 ≤ ntabs := hntabs ▸ Int.ediv_nonneg (by omega) hwidth.le
  have hbefore : (srcx / w.tabWidth + ntabs) * w.tabWidth ≤ dstx := by
    have hle := Int.ediv_mul_le (dstx - srcx + srcx % w.tabWidth) hwidth.ne'
    have hsplit := Int.mul_ediv_add_emod srcx w.tabWidth
    rw [hntabs] at hle
    rw [Int.add_mul, Int.mul_comm (srcx / w.tabWidth)]
    omega
  have hplace : 0 ≤ (srcx / w.tabWidth + ntabs) * w.tabWidth :=
    Int.mul_nonneg (by omega) hwidth.le
  generalize hn2tabs : (if (srcx / w.tabWidth + ntabs) * w.tabWidth + w.tabWidth ≥ w.cols then 0
    else ntabs + 1) = n2tabs at *
  split at hcost
  · rename_i hless
    have hne := ne_zero_of_tabcost hcost
    rw [if_pos hless]
    split at hn2tabs
    · exact absurd hn2tabs.symm hne
    · dsimp only
      refine ⟨by omega, ?_, by omega, by omega⟩
      rw [← hn2tabs, ← Int.add_assoc, Int.add_mul _ 1, Int.one_mul]
  · rename_i hless
    have hne := ne_zero_of_tabcost hcost
    rw [if_neg hless]
    dsimp only
    exact ⟨by omega, rfl, hplace, by omega⟩

theorem tabs_spec {t c : Int} (hx : 0 ≤ srcx) (hlt : srcx < dstx) (hdst : dstx < w.cols)
    (hwidth : 0 ≤ w.tabWidth) (h : tabs w srcx dstx = some (t, x, c)) :
    ∃ size, w.tab = some size ∧ 0 < w.tabWidth ∧ 0 < t ∧
      x = (srcx / w.tabWidth + t) * w.tabWidth ∧ 0 ≤ x ∧ x < w.cols := by
  unfold tabs at h
  split at h
  · cases h
  rename_i hcost
  rw [not_or, Int.not_le] at hcost
  split at h
  · cases h
  rename_i hbest
  split at h
  · have heq : bestTabs w srcx dstx = (t, x, c) := Option.some.inj h
    rw [Cm.ccTab] at hcost
    split at hcost
    · rename_i hne
      obtain ⟨size, hsize⟩ := exists_of_cost_ne hcost.1.ne
      have hpos : 0 < w.tabWidth := by omega
      have hspec := bestTabs_spec hx hlt hdst hpos (Int.not_le.mp hbest)
      rw [heq] at hspec
      exact ⟨size, hsize, hpos, hspec⟩
    · exact absurd hcost.1 (lt_irrefl big)
  · cases h

theorem newdelta_spec {sent : List Motion} {total : Int} (hsrc : 0 ≤ srcx) (hsrc' : srcx < w.cols)
    (hdst : 0 ≤ dstx) (hdst' : dstx < w.cols)
    (hcost : (newdelta w sent total srcx dstx).1 < big)
    (hrun : run (perform w) sent p = some ⟨y, srcx⟩) :
    run (perform w) (newdelta w sent total srcx dstx).2 p = some ⟨y, dstx⟩ := by
  unfold newdelta dodelta at *
  dsimp only at *
  split
  · rename_i hzero
    rw [hrun, show srcx = dstx by omega]
  rename_i hne
  rw [if_neg hne] at hcost
  split
  · rename_i hright
    rw [if_pos hright] at hcost
    split
    · rename_i hbig
      rw [if_pos hbig] at hcost
      exact absurd hcost (lt_irrefl big)
    · rename_i hbig
      obtain ⟨n, hn⟩ := exists_of_cost_ne hbig
      rw [run_append, hrun, Option.bind_some, run_right hn _ (by omega)]
      congr 2
      omega
  · rename_i hright
    rw [if_neg hright] at hcost
    split
    · rename_i hbig
      rw [if_pos hbig] at hcost
      exact absurd hcost (lt_irrefl big)
    · rename_i hbig
      obtain ⟨n, hn⟩ := exists_of_cost_ne hbig
      rw [run_append, hrun, Option.bind_some, run_left hn hsrc' _ (by omega)]
      congr 2
      omega

theorem run_vertical (hx : x < w.cols) (hdy : 0 ≤ dsty) (hdy' : dsty < w.rows)
    (h : ¬ (dsty - srcy ≠ 0 ∧ (vertical w (dsty - srcy)).2 = big)) :
    run (perform w) (List.replicate (dsty - srcy).natAbs (vertical w (dsty - srcy)).1) ⟨srcy, x⟩ =
      some ⟨dsty, x⟩ := by
  rcases eq_or_ne (dsty - srcy) 0 with hzero | hne
  · rw [hzero, show dsty = srcy by omega]
    rfl
  unfold vertical at *
  split at h
  · rename_i hup
    obtain ⟨n, hn⟩ := exists_of_cost_ne fun hbig => h ⟨hne, hbig⟩
    rw [if_pos hup, run_up hn hx _ (by omega)]
    congr 2
    omega
  · rename_i hup
    obtain ⟨n, hn⟩ := exists_of_cost_ne fun hbig => h ⟨hne, hbig⟩
    rw [if_neg hup, run_down hn hx _ (by omega)]
    congr 2
    omega

theorem calccost_spec (hwidth : 0 ≤ w.tabWidth) (hsrc : w.Shows srcy srcx)
    (hdst : w.Shows dsty dstx) (hcost : (calccost w srcy srcx dsty dstx).1 < big) :
    run (perform w) (calccost w srcy srcx dsty dstx).2 ⟨srcy, srcx⟩ = some ⟨dsty, dstx⟩ := by
  obtain ⟨hy, hy', hx, hx'⟩ := hsrc
  obtain ⟨hdy, hdy', hdx, hdx'⟩ := hdst
  unfold calccost at *
  dsimp only at *
  split
  · rename_i hwrapped
    rw [if_pos hwrapped] at hcost
    exact absurd hcost (lt_irrefl big)
  rename_i hwrapped
  rw [if_neg hwrapped] at hcost
  split
  · rename_i hbig
    rw [if_pos hbig] at hcost
    exact absurd hcost (lt_irrefl big)
  rename_i hbig
  rw [if_neg hbig] at hcost
  have hvertical := run_vertical hx' hdy hdy' hbig
  split
  · rename_i ntabs tabx tabcost htabs
    rw [htabs] at hcost
    split at htabs
    · rename_i hright
      obtain ⟨size, hsize, hpos, hn, heq, htabx, htabx'⟩ :=
        tabs_spec hx hright hdx' hwidth htabs
      apply newdelta_spec htabx htabx' hdx hdx' hcost
      have hcast : ((ntabs.toNat : Nat) : Int) = ntabs := Int.toNat_of_nonneg hn.le
      rw [run_append, hvertical, Option.bind_some, run_tab hsize hpos _ (by omega), hcast, heq]
      rw [hcast]
      exact heq ▸ htabx'
    · cases htabs
  · rename_i htabs
    rw [htabs] at hcost
    exact newdelta_spec hx hx' hdx hdx' hcost hvertical

theorem calccost_wrapped (h : w.curX = w.cols) : calccost w srcy srcx dsty dstx = (big, [.oops]) :=
  if_pos h

theorem calccost_moved (h : w.curX ≠ w.cols) (hx : x ≠ w.cols) :
    calccost { w with curY := y, curX := x } srcy srcx dsty dstx =
      calccost w srcy srcx dsty dstx := by
  rw [calccost, calccost, if_neg h, if_neg hx]
  rfl

theorem foldl_least (f : Use → Int) (uses : List Use) (use : Use) :
    ∃ u, uses.foldl (fun best v => if f v < best.1 then (f v, v) else best) (f use, use) =
      (f u, u) ∧ ∀ v ∈ use :: uses, f u ≤ f v := by
  induction uses generalizing use with
  | nil => exact ⟨use, rfl, fun v hv => (List.mem_singleton.mp hv ▸ le_rfl)⟩
  | cons next uses ih =>
      rw [List.foldl_cons]
      split
      · rename_i hless
        obtain ⟨u, hu, hle⟩ := ih next
        refine ⟨u, hu, fun v hv => ?_⟩
        rcases List.mem_cons.mp hv with rfl | hv
        · exact (hle next List.mem_cons_self).trans hless.le
        · exact hle v hv
      · rename_i hless
        obtain ⟨u, hu, hle⟩ := ih use
        refine ⟨u, hu, fun v hv => ?_⟩
        rcases List.mem_cons.mp hv with rfl | hv
        · exact hle v List.mem_cons_self
        rcases List.mem_cons.mp hv with rfl | hv
        · exact (hle use List.mem_cons_self).trans (Int.not_lt.mp hless)
        · exact hle v (List.mem_cons_of_mem _ hv)

theorem cheapest_spec (w : Cm) (row col : Int) :
    (cheapest w row col).1 = (cheapest w row col).2.cost w row col ∧
      ∀ use : Use, (cheapest w row col).1 ≤ use.cost w row col := by
  obtain ⟨u, hu, hle⟩ := foldl_least (Use.cost w row col) [.home, .ll, .cr] .rel
  have heq : cheapest w row col = (u.cost w row col, u) := hu
  rw [heq]
  exact ⟨rfl, fun use => hle use (by cases use <;> decide)⟩

/-- The cost of the motion that a way begins with -/
def Use.startCost (w : Cm) : Use → Int
  | .rel => 0
  | .home => w.ccHome
  | .ll => w.ccLl
  | .cr => w.ccCr

theorem Use.startCost_nonneg (w : Cm) (use : Use) : 0 ≤ use.startCost w := by
  cases use
  · exact le_rfl
  all_goals exact cost_nonneg _

/-- A cost that is not `BIG` is that of the first motion and of the others. -/
theorem Use.cost_eq (use : Use) (h : use.cost w row col < big) :
    use.cost w row col = use.startCost w +
        (calccost w (use.start w).2.1 (use.start w).2.2 row col).1 ∧
      use.startCost w < big ∧ (use = .cr → w.autoLf = true → w.curY + 1 < w.rows) := by
  cases use with
  | rel => exact ⟨(Int.zero_add _).symm, (by decide : (0 : Int) < big), nofun⟩
  | home =>
      rw [Use.cost] at h ⊢
      split at h
      · rename_i hcost
        rw [if_pos hcost]
        exact ⟨rfl, hcost, nofun⟩
      · rename_i hcost
        exact absurd h hcost
  | ll =>
      rw [Use.cost] at h ⊢
      split at h
      · rename_i hcost
        rw [if_pos hcost]
        exact ⟨rfl, hcost, nofun⟩
      · rename_i hcost
        exact absurd h hcost
  | cr =>
      rw [Use.cost] at h ⊢
      rw [Use.start]
      split at h
      · rename_i hcost
        rw [if_pos hcost]
        split at h
        · rename_i hautoLf
          rw [if_pos hautoLf, if_pos hautoLf]
          split at h
          · exact absurd h (lt_irrefl big)
          · rename_i hedge
            rw [if_neg hedge]
            exact ⟨rfl, hcost, fun _ _ => Int.not_le.mp hedge⟩
        · rename_i hautoLf
          rw [if_neg hautoLf, if_neg hautoLf]
          exact ⟨rfl, hcost, fun _ hlf => absurd hlf hautoLf⟩
      · rename_i hcost
        exact absurd h hcost

theorem Use.start_spec (use : Use) (hcur : w.Shows w.curY w.curX)
    (h : use.startCost w < big) (hautoLf : use = .cr → w.autoLf = true → w.curY + 1 < w.rows) :
    run (perform w) (use.start w).1 ⟨w.curY, w.curX⟩ =
        some ⟨(use.start w).2.1, (use.start w).2.2⟩ ∧
      w.Shows (use.start w).2.1 (use.start w).2.2 := by
  obtain ⟨hy, hy', hx, hx'⟩ := hcur
  cases use with
  | rel => exact ⟨rfl, hy, hy', hx, hx'⟩
  | home =>
      obtain ⟨n, hn⟩ : ∃ n, w.home = some n := exists_of_cost_ne h.ne
      refine ⟨?_, le_rfl, by dsimp only [start]; omega, le_rfl, by dsimp only [start]; omega⟩
      rw [start, run_cons, perform_of_size (m := .home) hn]
      rfl
  | ll =>
      obtain ⟨n, hn⟩ : ∃ n, w.ll = some n := exists_of_cost_ne h.ne
      refine ⟨?_, by dsimp only [start]; omega, by dsimp only [start]; omega, le_rfl,
        by dsimp only [start]; omega⟩
      rw [start, run_cons, perform_of_size (m := .ll) hn]
      rfl
  | cr =>
      obtain ⟨n, hn⟩ : ∃ n, w.cr = some n := exists_of_cost_ne h.ne
      unfold start
      rw [run_cons, perform_of_size (m := .cr) hn, move]
      dsimp only
      rw [if_neg (Int.not_le.mpr hx')]
      split
      · rename_i hlf
        have hedge := hautoLf rfl hlf
        rw [if_pos hedge]
        exact ⟨rfl, by omega, hedge, le_rfl, by omega⟩
      · exact ⟨rfl, hy, hy', le_rfl, by omega⟩

theorem Use.moves_spec (use : Use) (hwidth : 0 ≤ w.tabWidth) (hy : 0 ≤ w.curY)
    (hy' : w.curY < w.rows) (hx : 0 ≤ w.curX) (hx' : w.curX ≤ w.cols) (hdst : w.Shows row col)
    (h : use.cost w row col < big) :
    w.curX < w.cols ∧
      run (perform w) (use.moves w row col) ⟨w.curY, w.curX⟩ = some ⟨row, col⟩ ∧
      use.moves w row col = (use.start w).1 ++
        (calccost w (use.start w).2.1 (use.start w).2.2 row col).2 := by
  obtain ⟨heq, hstart, hautoLf⟩ := use.cost_eq h
  have hcost : (calccost w (use.start w).2.1 (use.start w).2.2 row col).1 < big := by
    have := use.startCost_nonneg w
    omega
  have hwrapped : w.curX ≠ w.cols := by
    intro hwrapped
    rw [calccost_wrapped hwrapped] at hcost
    exact lt_irrefl big hcost
  have hin : w.curX < w.cols := lt_of_le_of_ne hx' hwrapped
  obtain ⟨hrun, hshows⟩ := use.start_spec ⟨hy, hy', hx, hin⟩ hstart hautoLf
  have hmoves : use.moves w row col = (use.start w).1 ++
      (calccost w (use.start w).2.1 (use.start w).2.2 row col).2 := by
    rw [moves, calccost_moved hwrapped hshows.2.2.2.ne]
  refine ⟨hin, ?_, hmoves⟩
  rw [hmoves, run_append, hrun, Option.bind_some]
  exact calccost_spec hwidth hshows hdst hcost

theorem direct_spec (ha : Addressable w) (hy : 0 ≤ w.curY) (hy' : w.curY < w.rows)
    (hdst : w.Shows row col) :
    (direct w row col).1 < big ∧ ∃ size, w.size (direct w row col).2 = some size ∧
      (size : Int) < big ∧
      run (perform w) [(direct w row col).2] ⟨w.curY, w.curX⟩ = some ⟨row, col⟩ := by
  obtain ⟨f, hf, habs⟩ := ha.abs
  unfold direct
  split
  · rename_i h
    obtain ⟨hrow, hcost⟩ := h
    obtain ⟨n, hn⟩ := exists_of_cost_ne hcost.ne
    obtain ⟨g, hg, -⟩ := Option.map_eq_some_iff.mp hn
    have hsize : w.size (.habs col) = some (g col) := by rw [Cm.size, hg, Option.map_some]
    refine ⟨hcost, g col, hsize, ha.habs g hg row col hdst, ?_⟩
    rw [run_cons, perform_of_size hsize, hrow]
    rfl
  split
  · rename_i h
    obtain ⟨hcol, hcost⟩ := h
    obtain ⟨n, hn⟩ := exists_of_cost_ne hcost.ne
    obtain ⟨g, hg, -⟩ := Option.map_eq_some_iff.mp hn
    have hsize : w.size (.vabs row) = some (g row) := by rw [Cm.size, hg, Option.map_some]
    refine ⟨hcost, g row, hsize, ha.vabs g hg row col hdst, ?_⟩
    rw [run_cons, perform_of_size hsize, hcol]
    rfl
  · have hsize : w.size (.abs row col) = some (f row col) := by rw [Cm.size, hf, Option.map_some]
    obtain ⟨hrow, hrow', hcol, hcol'⟩ := hdst
    have hzero : (f 0 0 : Int) < big := habs 0 0 ⟨le_rfl, by omega, le_rfl, by omega⟩
    refine ⟨?_, f row col, hsize, habs row col ⟨hrow, hrow', hcol, hcol'⟩, ?_⟩
    · rw [Cm.ccAbs, hf]
      exact hzero
    · rw [run_cons, perform_of_size hsize]
      rfl

theorem send_spec (best : Int × Use) (addressed : Int × Motion)
    (hsize : w.size addressed.2 = some n) :
    ∃ sent, send w row col best addressed = some ({ w with curY := row, curX := col }, sent) ∧
      (sent = [addressed.2] ∧ n ≤ best.1 ∨
        sent = best.2.moves w row col ∧ (best.1 < addressed.1 ∨ best.1 < n)) := by
  unfold send
  dsimp only
  split
  · rw [hsize]
    dsimp only
    split
    · rename_i hcost
      exact ⟨_, rfl, Or.inl ⟨rfl, hcost⟩⟩
    · rename_i hcost
      exact ⟨_, rfl, Or.inr ⟨rfl, Or.inr (Int.not_le.mp hcost)⟩⟩
  · rename_i hcost
    exact ⟨_, rfl, Or.inr ⟨rfl, Or.inl (Int.not_le.mp hcost)⟩⟩

end Reaches

/-- On a terminal with cursor addressing, `cmgoto` leads the cursor from where it is to the place,
and keeps it on the screen all the way. -/
theorem cmgoto_reaches (ha : Addressable w) (ht : Tracks w p) (hdst : w.Shows row col) :
    ∃ sent, cmgoto w row col = some ({ w with curY := row, curX := col }, sent) ∧
      run (perform w) sent p = some ⟨row, col⟩ := by
  obtain ⟨hrow, hrow', hcol, hcol'⟩ := hdst
  unfold cmgoto
  split
  · rename_i hthere
    obtain ⟨rfl, rfl⟩ := hthere
    obtain ⟨rfl, -⟩ := ht ⟨hrow, hcol⟩
    exact ⟨[], rfl, rfl⟩
  split
  · rename_i hknown
    obtain ⟨rfl, hy', hx'⟩ := ht hknown
    obtain ⟨hdirect, n, hsize, hshort, hrun⟩ :=
      direct_spec ha hknown.1 hy' ⟨hrow, hrow', hcol, hcol'⟩
    obtain ⟨sent, hsent, hway⟩ := send_spec (cheapest w row col) _ hsize
    refine ⟨sent, hsent, ?_⟩
    rcases hway with ⟨rfl, -⟩ | ⟨rfl, hless⟩
    · exact hrun
    · have hcost := (cheapest_spec w row col).1
      exact ((cheapest w row col).2.moves_spec ha.tabWidth hknown.1 hy' hknown.2 hx'
        ⟨hrow, hrow', hcol, hcol'⟩ (by omega)).2.1
  · obtain ⟨f, hf, habs⟩ := ha.abs
    have hshort := habs row col ⟨hrow, hrow', hcol, hcol'⟩
    have hsize : w.size (.abs row col) = some (f row col) := by rw [Cm.size, hf, Option.map_some]
    obtain ⟨sent, hsent, hway⟩ := send_spec (100000, .rel) (0, .abs row col) hsize
    refine ⟨sent, hsent, ?_⟩
    rcases hway with ⟨rfl, -⟩ | ⟨-, hless⟩
    · rw [run_cons, perform_of_size hsize]
      rfl
    · rw [big] at hshort
      dsimp only at hless
      omega

/-- The number of digits of a row or column, counted from 1, of `setup_ansi_term`'s screen -/
def digits (n : Int) : Nat := if n < 9 then 1 else 2

theorem digits_le (n : Int) : digits n ≤ 2 := by
  unfold digits
  split <;> decide

theorem digits_pos (n : Int) : 1 ≤ digits n := by
  unfold digits
  split <;> decide

/-- The strings of `setup_ansi_term` -/
def setupAnsiTerm (curY curX : Int) : Cm where
  curY := curY
  curX := curX
  up := some 3
  down := some 3
  left := some 3
  right := some 3
  home := some 3
  cr := some 1
  ll := none
  tab := none
  abs := some fun row col => 4 + digits row + digits col
  habs := none
  vabs := none
  cols := 80
  rows := 25
  tabWidth := 0
  useTabs := false
  autoLf := false

theorem addressable_setupAnsiTerm : Addressable (setupAnsiTerm y x) where
  abs := ⟨_, rfl, fun row col _ => by
    have hrow := digits_le row
    have hcol := digits_le col
    rw [big]
    omega⟩
  habs := nofun
  vabs := nofun
  tabWidth := le_rfl

/-- From the last column of a row to the middle of the next one -/
theorem cmgoto_reaches_ansi : ∃ sent, cmgoto (setupAnsiTerm 9 79) 10 40 =
    some (setupAnsiTerm 10 40, sent) ∧
      run (perform (setupAnsiTerm 9 79)) sent ⟨9, 79⟩ = some ⟨10, 40⟩ :=
  cmgoto_reaches addressable_setupAnsiTerm (fun _ => ⟨rfl, by decide, by decide⟩)
    ⟨by decide, by decide, by decide, by decide⟩

end NiceEditor.CursorMotion
