import Mathlib.Data.List.Basic

/-!
Edits of a text, each of which can be taken back, and the histories of the
texts between them.
-/

namespace NiceEditor.EditLog

universe u

variable {α : Type u} {τ : Type u}

/-- An edit puts `body` behind `front`, or takes it away from there. -/
structure Edit (α : Type u) where
  inserts : Bool
  front : List α
  body : List α

/-- Text `t` is edited to `t'`. -/
def Edit.Applies (e : Edit α) (t t' : List α) : Prop :=
  ∃ rest,
    if e.inserts then t = e.front ++ rest ∧ t' = e.front ++ e.body ++ rest
    else t = e.front ++ e.body ++ rest ∧ t' = e.front ++ rest

/-- A row of edits, one after the other. -/
inductive Path : List (Edit α) → List α → List α → Prop
  | nil (t : List α) : Path [] t t
  | cons {e : Edit α} {es : List (Edit α)} {t t' t'' : List α} (h : e.Applies t t')
      (rest : Path es t' t'') : Path (e :: es) t t''

/-- The edits that are undone and redone together; there is one at least. -/
structure Chain (α : Type u) where
  init : List (Edit α)
  last : Edit α

def Chain.edits (c : Chain α) : List (Edit α) := c.init ++ [c.last]

/-- A further edit of the same chain. -/
def Chain.extend (c : Chain α) (e : Edit α) : Chain α := ⟨c.edits, e⟩

/-- The edits of a chain, each with the mark that the next one belongs to the
same chain.  The last edit of a chain that is open has the mark, too. -/
def Chain.entries (isOpen : Bool) (c : Chain α) : List (Edit α × Bool) :=
  c.init.map (fun e => (e, true)) ++ [(c.last, isOpen)]

/-- The chains, latest first, lead from the texts before them to text `t`. -/
inductive Past : List (Chain α) → List (List α) → List α → Prop
  | nil (t : List α) : Past [] [] t
  | cons {c : Chain α} {cs : List (Chain α)} {p t : List α} {ps : List (List α)}
      (h : Path c.edits p t) (rest : Past cs ps p) : Past (c :: cs) (p :: ps) t

/-- The chains, earliest first, lead from text `t` to the texts behind them. -/
inductive Future : List (Chain α) → List (List α) → List α → Prop
  | nil (t : List α) : Future [] [] t
  | cons {c : Chain α} {cs : List (Chain α)} {f t : List α} {fs : List (List α)}
      (h : Path c.edits t f) (rest : Future cs fs f) : Future (c :: cs) (f :: fs) t

/-- The texts that undoing and redoing lead to: an undo goes back to the first
of `past`, a redo goes on to the first of `future`.  `chained` tells that the
present text is in the middle of a chain. -/
structure History (τ : Type u) where
  past : List τ
  present : τ
  future : List τ
  chained : Bool

namespace History

def start (t : τ) : History τ := ⟨[], t, [], false⟩

/-- An edit starts a chain, unless it is part of one. -/
def edit (h : History τ) (linked : Bool) (t : τ) : History τ :=
  if h.chained then { h with present := t, future := [] }
  else ⟨h.present :: h.past, t, [], linked⟩

/-- The open chain, if any, is closed. -/
def close (h : History τ) : History τ := { h with chained := false }

def undo (h : History τ) : History τ :=
  match h.past with
  | [] => h
  | p :: ps => { h with past := ps, present := p, future := h.present :: h.future }

def redo (h : History τ) : History τ :=
  match h.future with
  | [] => h
  | f :: fs => { h with past := h.present :: h.past, present := f, future := fs }

/-- The text that all undos lead to. -/
def first (h : History τ) : τ := h.past.getLastD h.present

/-- The text that all redos lead to. -/
def last (h : History τ) : τ := h.future.getLastD h.present

end History

variable {e : Edit α} {es es' : List (Edit α)} {t t' t'' : List α} {c : Chain α}

theorem Edit.Applies.unique (h : e.Applies t t') (h' : e.Applies t t'') : t' = t'' := by
  obtain ⟨rest, h⟩ := h
  obtain ⟨rest', h'⟩ := h'
  split at h
  · rename_i hins
    rw [if_pos hins] at h'
    obtain ⟨rfl, rfl⟩ := h
    obtain ⟨hrest, rfl⟩ := h'
    rw [List.append_cancel_left hrest]
  · rename_i hins
    rw [if_neg hins] at h'
    obtain ⟨rfl, rfl⟩ := h
    obtain ⟨hrest, rfl⟩ := h'
    rw [List.append_cancel_left hrest]

theorem Path.append (h : Path es t t') (h' : Path es' t' t'') : Path (es ++ es') t t'' := by
  induction h with
  | nil t => exact h'
  | cons happlies rest ih => exact .cons happlies (ih h')

theorem Path.exists_of_append (h : Path (es ++ es') t t'') :
    ∃ t', Path es t t' ∧ Path es' t' t'' := by
  induction es generalizing t with
  | nil => exact ⟨t, .nil t, h⟩
  | cons e es ih =>
      cases h with
      | cons happlies rest =>
          obtain ⟨t', hfirst, hsecond⟩ := ih rest
          exact ⟨t', .cons happlies hfirst, hsecond⟩

theorem path_singleton : Path [e] t t' ↔ e.Applies t t' := by
  constructor
  · intro h
    cases h with
    | cons happlies rest =>
        cases rest
        exact happlies
  · intro h
    exact .cons h (.nil t')

@[simp] theorem Chain.edits_extend (c : Chain α) (e : Edit α) :
    (c.extend e).edits = c.edits ++ [e] := rfl

theorem Chain.entries_extend (isOpen : Bool) (c : Chain α) (e : Edit α) :
    (c.extend e).entries isOpen = c.entries true ++ [(e, isOpen)] := by
  simp [Chain.entries, Chain.extend, Chain.edits]

theorem Past.ne_nil_iff {cs : List (Chain α)} {p : List α} {ps : List (List α)}
    (h : Past cs ps p) : cs ≠ [] ↔ ps ≠ [] := by
  cases h with
  | nil => simp
  | cons hpath rest => simp

theorem Future.ne_nil_iff {cs : List (Chain α)} {f : List α} {fs : List (List α)}
    (h : Future cs fs f) : cs ≠ [] ↔ fs ≠ [] := by
  cases h with
  | nil => simp
  | cons hpath rest => simp

namespace History

variable {h : History τ}

@[simp] theorem undo_chained : h.undo.chained = h.chained := by
  unfold undo
  split <;> rfl

@[simp] theorem redo_chained : h.redo.chained = h.chained := by
  unfold redo
  split <;> rfl

theorem redo_undo (hpast : h.past ≠ []) : h.undo.redo = h := by
  obtain ⟨past, present, future, chained⟩ := h
  cases past with
  | nil => exact absurd rfl hpast
  | cons p ps => rfl

theorem undo_redo (hfuture : h.future ≠ []) : h.redo.undo = h := by
  obtain ⟨past, present, future, chained⟩ := h
  cases future with
  | nil => exact absurd rfl hfuture
  | cons f fs => rfl

@[simp] theorem first_undo : h.undo.first = h.first := by
  obtain ⟨past, present, future, chained⟩ := h
  cases past with
  | nil => rfl
  | cons p ps => exact List.getLastD_cons.symm

@[simp] theorem last_undo : h.undo.last = h.last := by
  obtain ⟨past, present, future, chained⟩ := h
  cases past with
  | nil => rfl
  | cons p ps => exact List.getLastD_cons

@[simp] theorem first_redo : h.redo.first = h.first := by
  obtain ⟨past, present, future, chained⟩ := h
  cases future with
  | nil => rfl
  | cons f fs => exact List.getLastD_cons

@[simp] theorem last_redo : h.redo.last = h.last := by
  obtain ⟨past, present, future, chained⟩ := h
  cases future with
  | nil => rfl
  | cons f fs => exact List.getLastD_cons.symm

theorem future_edit (linked : Bool) (t : τ) : (h.edit linked t).future = [] := by
  rw [edit]
  split <;> rfl

@[simp] theorem first_edit (linked : Bool) (t : τ)
    (hchain : h.chained = true → h.past ≠ []) : (h.edit linked t).first = h.first := by
  obtain ⟨past, present, future, chained⟩ := h
  cases chained with
  | false => exact List.getLastD_cons
  | true =>
      cases past with
      | nil => exact absurd rfl (hchain rfl)
      | cons p ps => exact List.getLastD_cons.trans List.getLastD_cons.symm

@[simp] theorem first_close : h.close.first = h.first := rfl

end History

end NiceEditor.EditLog
