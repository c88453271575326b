import Mathlib.Data.List.Basic

namespace NiceEditor.Tilings

variable {α : Type*} (first size : α → Nat)

/-- The runs cover the numbers from `lo` up to `hi`, each number once. -/
def Tiles : Nat → List α → Nat → Prop
  | lo, [], hi => lo = hi
  | lo, x :: xs, hi => first x = lo ∧ Tiles (lo + size x) xs hi

variable {first size} {lo hi mid n : Nat} {x y : α} {xs ys : List α}

theorem tiles_append :
    Tiles first size lo (xs ++ ys) hi ↔
      ∃ mid, Tiles first size lo xs mid ∧ Tiles first size mid ys hi := by
  induction xs generalizing lo with
  | nil => simp [Tiles]
  | cons x xs ih =>
      rw [List.cons_append, Tiles, ih]
      constructor
      · rintro ⟨hx, mid, hxs, hys⟩
        exact ⟨mid, ⟨hx, hxs⟩, hys⟩
      · rintro ⟨mid, ⟨hx, hxs⟩, hys⟩
        exact ⟨hx, mid, hxs, hys⟩

theorem tiles_singleton (h : first x = lo) : Tiles first size lo [x] (lo + size x) := ⟨h, rfl⟩

theorem Tiles.set_last (h : Tiles first size lo (xs ++ [x]) hi) (hfirst : first y = first x)
    (hsize : size y = size x) : Tiles first size lo (xs ++ [y]) hi := by
  obtain ⟨mid, hxs, hx, hhi⟩ := tiles_append.mp h
  exact tiles_append.mpr ⟨mid, hxs, hfirst.trans hx, by rw [hsize]; exact hhi⟩

theorem Tiles.le (h : Tiles first size lo xs hi) : lo ≤ hi := by
  induction xs generalizing lo with
  | nil => exact Nat.le_of_eq h
  | cons x xs ih => exact Nat.le_trans (Nat.le_add_right lo _) (ih h.2)

theorem Tiles.middle (h : Tiles first size lo (xs ++ x :: ys) hi) :
    Tiles first size lo xs (first x) ∧ Tiles first size (first x + size x) ys hi := by
  obtain ⟨mid, hxs, hx, hys⟩ := tiles_append.mp h
  exact ⟨hx.symm ▸ hxs, by rw [hx]; exact hys⟩

theorem Tiles.exists_run (h : Tiles first size lo xs hi) (hlo : lo ≤ n) (hhi : n < hi) :
    ∃ before x behind, xs = before ++ x :: behind ∧ first x ≤ n ∧ n < first x + size x ∧
      ∀ y ∈ before, first y + size y ≤ n := by
  induction xs generalizing lo with
  | nil =>
      rw [Tiles] at h
      omega
  | cons x xs ih =>
      obtain ⟨hx, hxs⟩ := h
      by_cases hn : n < lo + size x
      · exact ⟨[], x, xs, rfl, by omega, by omega, by simp⟩
      · obtain ⟨before, y, behind, rfl, hfirst, hlast, hbefore⟩ := ih hxs (by omega)
        refine ⟨x :: before, y, behind, rfl, hfirst, hlast, fun z hz => ?_⟩
        rcases List.mem_cons.mp hz with rfl | hz
        · omega
        · exact hbefore z hz

theorem Tiles.before_le (h : Tiles first size lo (xs ++ x :: ys) hi) (hy : y ∈ xs) :
    first y + size y ≤ first x := by
  obtain ⟨hxs, -⟩ := h.middle
  obtain ⟨front, back, rfl⟩ := List.append_of_mem hy
  exact hxs.middle.2.le

end NiceEditor.Tilings
