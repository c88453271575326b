import Mathlib.Data.List.Basic

namespace NiceEditor.FirstDifferences

variable {α : Type*} (r : α → α → Prop)

/-- At the first place where the lists differ, `s` has less than `t`. -/
def Below (s t : List α) : Prop :=
  ∃ w c d s' t', s = w ++ c :: s' ∧ t = w ++ d :: t' ∧ r c d

variable {r} {s t u : List α} {c d : α}

theorem below_cons_iff [Std.Irrefl r] :
    Below r (c :: s) (d :: t) ↔ r c d ∨ c = d ∧ Below r s t := by
  constructor
  · rintro ⟨w, x, y, s', t', hs, ht, hxy⟩
    cases w with
    | nil =>
        obtain ⟨rfl, -⟩ := List.cons.inj hs
        obtain ⟨rfl, -⟩ := List.cons.inj ht
        exact .inl hxy
    | cons z w =>
        obtain ⟨rfl, rfl⟩ := List.cons.inj hs
        obtain ⟨rfl, rfl⟩ := List.cons.inj ht
        exact .inr ⟨rfl, w, x, y, s', t', rfl, rfl, hxy⟩
  · rintro (hcd | ⟨rfl, w, x, y, s', t', rfl, rfl, hxy⟩)
    · exact ⟨[], c, d, s, t, rfl, rfl, hcd⟩
    · exact ⟨c :: w, x, y, s', t', rfl, rfl, hxy⟩

theorem Below.append_left (h : Below r s t) (u : List α) : Below r (s ++ u) t := by
  obtain ⟨w, c, d, s', t', rfl, rfl, hcd⟩ := h
  exact ⟨w, c, d, s' ++ u, t', by simp, rfl, hcd⟩

theorem Below.append_right (h : Below r s t) (u : List α) : Below r s (t ++ u) := by
  obtain ⟨w, c, d, s', t', rfl, rfl, hcd⟩ := h
  exact ⟨w, c, d, s', t' ++ u, rfl, by simp, hcd⟩

theorem Below.trans [IsTrans α r] [Std.Irrefl r] (h : Below r s t) (h' : Below r t u) :
    Below r s u := by
  induction s generalizing t u with
  | nil =>
      obtain ⟨w, c, d, s', t', hnil, -⟩ := h
      simp at hnil
  | cons c s ih =>
      cases t with
      | nil =>
          obtain ⟨w, c, d, s', t', -, hnil, -⟩ := h
          simp at hnil
      | cons d t =>
          cases u with
          | nil =>
              obtain ⟨w, c, d, s', t', -, hnil, -⟩ := h'
              simp at hnil
          | cons e u =>
              rw [below_cons_iff] at h h' ⊢
              rcases h with hcd | ⟨rfl, hst⟩ <;> rcases h' with hde | ⟨rfl, htu⟩
              · exact .inl (IsTrans.trans _ _ _ hcd hde)
              · exact .inl hcd
              · exact .inl hde
              · exact .inr ⟨rfl, ih hst htu⟩

theorem Below.not_prefixed [Std.Irrefl r] (h : Below r s t) : ¬ s <+: t ∧ ¬ t <+: s := by
  obtain ⟨w, c, d, s', t', rfl, rfl, hcd⟩ := h
  have hne : c ≠ d := fun heq => Std.Irrefl.irrefl (r := r) d (heq ▸ hcd)
  constructor <;> intro hpre
  · rw [List.prefix_append_right_inj] at hpre
    obtain ⟨u, hu⟩ := hpre
    exact hne (List.cons.inj hu).1
  · rw [List.prefix_append_right_inj] at hpre
    obtain ⟨u, hu⟩ := hpre
    exact hne (List.cons.inj hu).1.symm

end NiceEditor.FirstDifferences
