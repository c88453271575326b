import Mathlib.Data.List.Basic

namespace NiceEditor.LexicalPaths

variable {α : Type} [DecidableEq α]

/-- A component is read. The components are in a stack, the last one on top; at the root `up` does
nothing, and elsewhere it is kept when there is nothing to leave. -/
def enter (up : α) (rooted : Bool) (st : List α) (k : α) : List α :=
  if k = up then
    match st with
    | [] => if rooted then [] else [up]
    | top :: st => if top = up then up :: top :: st else st
  else k :: st

def resolve (up : α) (rooted : Bool) (st : List α) (ks : List α) : List α :=
  ks.foldl (enter up rooted) st

/-- Only the components at the bottom of a stack are `up`, and none are at the root. -/
def Settled (up : α) (rooted : Bool) (st : List α) : Prop :=
  ∃ names n, st = names ++ List.replicate n up ∧ up ∉ names ∧ (rooted = true → n = 0)

/-- Some `up` leaves more than the components before it, of which there are `depth` already. -/
def climbs (up : α) : Nat → List α → Bool
  | _, [] => false
  | depth, k :: ks =>
      if k = up then
        match depth with
        | 0 => true
        | depth + 1 => climbs up depth ks
      else climbs up (depth + 1) ks

variable {up k top : α} {rooted : Bool} {st base ks ks' : List α} {depth : Nat}

@[simp] theorem resolve_nil : resolve up rooted st [] = st := rfl

theorem resolve_cons :
    resolve up rooted st (k :: ks) = resolve up rooted (enter up rooted st k) ks := rfl

theorem resolve_append :
    resolve up rooted st (ks ++ ks') = resolve up rooted (resolve up rooted st ks) ks' :=
  List.foldl_append

theorem enter_name (hk : k ≠ up) : enter up rooted st k = k :: st := if_neg hk

theorem enter_up_name (htop : top ≠ up) : enter up rooted (top :: st) up = st := by
  rw [enter, if_pos rfl]
  exact if_neg htop

theorem enter_up_up : enter up rooted (up :: st) up = up :: up :: st := by
  rw [enter, if_pos rfl]
  exact if_pos rfl

theorem enter_up_root : enter up true [] up = [] := if_pos rfl

theorem enter_up_nil : enter up false [] up = [up] := if_pos rfl

theorem climbs_name (hk : k ≠ up) : climbs up depth (k :: ks) = climbs up (depth + 1) ks := by
  cases depth <;> exact if_neg hk

theorem climbs_up_zero : climbs up 0 (up :: ks) = true := if_pos rfl

theorem climbs_up_succ : climbs up (depth + 1) (up :: ks) = climbs up depth ks := if_pos rfl

theorem mem_enter {x : α} (h : x ∈ enter up rooted st k) : x ∈ st ∨ x = k := by
  by_cases hk : k = up
  · subst hk
    cases st with
    | nil =>
        cases rooted with
        | true =>
            rw [enter_up_root] at h
            exact .inl h
        | false =>
            rw [enter_up_nil] at h
            exact .inr (List.mem_singleton.mp h)
    | cons top st =>
        by_cases htop : top = k
        · subst htop
          rw [enter_up_up] at h
          exact .inl ((List.mem_cons.mp h).elim (fun heq => heq ▸ List.mem_cons_self) id)
        · rw [enter_up_name htop] at h
          exact .inl (List.mem_cons_of_mem _ h)
  · rw [enter_name hk] at h
    exact (List.mem_cons.mp h).symm

theorem mem_resolve {x : α} (h : x ∈ resolve up rooted st ks) : x ∈ st ∨ x ∈ ks := by
  induction ks generalizing st with
  | nil => exact .inl h
  | cons k ks ih =>
      obtain hmem | hmem := ih h
      · obtain hst | rfl := mem_enter hmem
        · exact .inl hst
        · exact .inr List.mem_cons_self
      · exact .inr (List.mem_cons_of_mem _ hmem)

section Settled

omit [DecidableEq α]

theorem settled_nil : Settled up rooted [] := ⟨[], 0, rfl, List.not_mem_nil, fun _ => rfl⟩

theorem settled_root : Settled up true st ↔ up ∉ st := by
  constructor
  · rintro ⟨names, n, rfl, hnames, hn⟩
    rw [hn rfl]
    simpa using hnames
  · intro hst
    exact ⟨st, 0, by simp, hst, fun _ => rfl⟩

theorem Settled.below_up (h : Settled up rooted (up :: st)) :
    rooted = false ∧ ∃ n, st = List.replicate n up := by
  obtain ⟨names, n, heq, hnames, hn⟩ := h
  cases names with
  | cons name names =>
      rw [List.cons_append, List.cons.injEq] at heq
      exact absurd (heq.1 ▸ List.mem_cons_self) hnames
  | nil =>
      obtain _ | n := n
      · exact absurd heq (List.cons_ne_nil _ _)
      · rw [List.nil_append, List.replicate_succ, List.cons.injEq] at heq
        refine ⟨?_, n, heq.2⟩
        cases hrooted : rooted with
        | false => rfl
        | true => exact absurd (hn hrooted) (Nat.succ_ne_zero n)

theorem Settled.tail (h : Settled up rooted (top :: st)) : Settled up rooted st := by
  obtain ⟨names, n, heq, hnames, hn⟩ := h
  cases names with
  | cons name names =>
      rw [List.cons_append, List.cons.injEq] at heq
      exact ⟨names, n, heq.2, fun hmem => hnames (List.mem_cons_of_mem _ hmem), hn⟩
  | nil =>
      obtain _ | n := n
      · exact absurd heq (List.cons_ne_nil _ _)
      · rw [List.nil_append, List.replicate_succ, List.cons.injEq] at heq
        exact ⟨[], n, heq.2, List.not_mem_nil, fun hr => absurd (hn hr) (Nat.succ_ne_zero n)⟩

theorem Settled.of_append {front : List α} (h : Settled up rooted (front ++ st)) :
    Settled up rooted st := by
  induction front with
  | nil => exact h
  | cons top front ih => exact ih h.tail

end Settled

theorem Settled.front {front : List α} (h : Settled up rooted (front ++ st)) :
    Settled up rooted front := by
  induction front with
  | nil => exact settled_nil
  | cons top front ih =>
      have htail := ih h.tail
      by_cases htop : top = up
      · subst htop
        obtain ⟨rfl, n, heq⟩ := h.below_up
        refine ⟨[], front.length + 1, ?_, List.not_mem_nil, nofun⟩
        rw [List.nil_append, List.replicate_succ, List.cons.injEq]
        exact ⟨rfl, (List.append_eq_replicate_iff.mp heq).2.1⟩
      · obtain ⟨names, n, rfl, hnames, hn⟩ := htail
        refine ⟨top :: names, n, rfl, ?_, hn⟩
        exact fun hmem => (List.mem_cons.mp hmem).elim (fun heq => htop heq.symm) hnames

theorem Settled.enter (h : Settled up rooted st) (k : α) :
    Settled up rooted (enter up rooted st k) := by
  by_cases hk : k = up
  · subst hk
    cases st with
    | nil =>
        cases rooted with
        | true =>
            rw [enter_up_root]
            exact settled_nil
        | false =>
            rw [enter_up_nil]
            exact ⟨[], 1, rfl, List.not_mem_nil, nofun⟩
    | cons top st =>
        by_cases htop : top = k
        · subst htop
          obtain ⟨hrooted, n, rfl⟩ := h.below_up
          rw [enter_up_up]
          exact ⟨[], n + 2, rfl, List.not_mem_nil, fun hr => absurd (hrooted.symm.trans hr) nofun⟩
        · rw [enter_up_name htop]
          exact h.tail
  · rw [enter_name hk]
    obtain ⟨names, n, rfl, hnames, hn⟩ := h
    refine ⟨k :: names, n, rfl, ?_, hn⟩
    exact fun hmem => (List.mem_cons.mp hmem).elim (fun heq => hk heq.symm) hnames

theorem settled_resolve (h : Settled up rooted st) (ks : List α) :
    Settled up rooted (resolve up rooted st ks) := by
  induction ks generalizing st with
  | nil => exact h
  | cons k ks ih => exact ih (h.enter k)

theorem resolve_reverse (h : Settled up rooted st) : resolve up rooted [] st.reverse = st := by
  induction st with
  | nil => rfl
  | cons top st ih =>
      rw [List.reverse_cons, resolve_append, ih h.tail]
      by_cases htop : top = up
      · subst htop
        obtain ⟨rfl, n, rfl⟩ := h.below_up
        rw [resolve_cons, resolve_nil]
        cases n with
        | zero => exact enter_up_nil
        | succ n => exact enter_up_up
      · exact enter_name htop

theorem resolve_above_up (st ks : List α) :
    resolve up false (st ++ [up]) ks = resolve up false st ks ++ [up] := by
  induction ks generalizing st with
  | nil => rfl
  | cons k ks ih =>
      have hstep : enter up false (st ++ [up]) k = enter up false st k ++ [up] := by
        by_cases hk : k = up
        · subst hk
          cases st with
          | nil => rw [List.nil_append, enter_up_up, enter_up_nil, List.singleton_append]
          | cons top st =>
              rw [List.cons_append]
              by_cases htop : top = k
              · subst htop
                rw [enter_up_up, enter_up_up]
                rfl
              · rw [enter_up_name htop, enter_up_name htop]
        · rw [enter_name hk, enter_name hk, List.cons_append]
      rw [resolve_cons, hstep, ih, resolve_cons]

theorem resolve_above (hclimbs : climbs up st.length ks = false) (hst : up ∉ st) :
    up ∉ resolve up false st ks ∧
      ∀ r, resolve up r (st ++ base) ks = resolve up false st ks ++ base := by
  induction ks generalizing st with
  | nil => exact ⟨hst, fun _ => rfl⟩
  | cons k ks ih =>
      by_cases hk : k = up
      · subst hk
        cases st with
        | nil => exact absurd (climbs_up_zero.symm.trans hclimbs) nofun
        | cons top st =>
            rw [List.length_cons, climbs_up_succ] at hclimbs
            have htop : top ≠ k := fun heq => hst (heq ▸ List.mem_cons_self)
            obtain ⟨hnot, habove⟩ := ih hclimbs fun hmem => hst (List.mem_cons_of_mem _ hmem)
            rw [resolve_cons, enter_up_name htop]
            refine ⟨hnot, fun r => ?_⟩
            rw [resolve_cons, List.cons_append, enter_up_name htop]
            exact habove r
      · rw [climbs_name hk] at hclimbs
        have hst' : up ∉ k :: st := fun hmem =>
          (List.mem_cons.mp hmem).elim (fun heq => hk heq.symm) hst
        obtain ⟨hnot, habove⟩ := @ih (k :: st) hclimbs hst'
        rw [resolve_cons, enter_name hk]
        refine ⟨hnot, fun r => ?_⟩
        rw [resolve_cons, enter_name hk]
        exact habove r

theorem resolve_climbs (hclimbs : climbs up st.length ks = true) (hst : up ∉ st) :
    ∃ st', resolve up false st ks = st' ++ [up] := by
  induction ks generalizing st with
  | nil => exact absurd hclimbs nofun
  | cons k ks ih =>
      by_cases hk : k = up
      · subst hk
        cases st with
        | nil =>
            rw [resolve_cons, enter_up_nil]
            exact ⟨_, resolve_above_up [] ks⟩
        | cons top st =>
            rw [List.length_cons, climbs_up_succ] at hclimbs
            have htop : top ≠ k := fun heq => hst (heq ▸ List.mem_cons_self)
            obtain ⟨st', hst'⟩ := ih hclimbs fun hmem => hst (List.mem_cons_of_mem _ hmem)
            rw [resolve_cons, enter_up_name htop]
            exact ⟨st', hst'⟩
      · rw [climbs_name hk] at hclimbs
        rw [resolve_cons, enter_name hk]
        exact @ih (k :: st) hclimbs fun hmem =>
          (List.mem_cons.mp hmem).elim (fun heq => hk heq.symm) hst

end NiceEditor.LexicalPaths
