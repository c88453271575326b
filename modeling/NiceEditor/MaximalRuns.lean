import Mathlib.Data.List.Basic
import Mathlib.Data.List.Infix

namespace NiceEditor.MaximalRuns

variable {α : Type*} {start : α → Bool} {part : α → List α → Bool}
variable {a c u v w : List α} {x : α}

/-- All the items of `w` are parts of a run, where `c` follows. -/
def Parts (part : α → List α → Bool) : List α → List α → Prop
  | [], _ => True
  | x :: w, c => part x (w ++ c) = true ∧ Parts part w c

/-- A run, where `c` follows. -/
structure Run (start : α → Bool) (part : α → List α → Bool) (w c : List α) : Prop where
  starts : w.head?.any start = true
  parts : Parts part w c

/-- A stretch of a list, with what is before it and behind it. -/
structure Occurrence (α : Type*) where
  before : List α
  word : List α
  behind : List α

def Occurrence.list (o : Occurrence α) : List α := o.before ++ (o.word ++ o.behind)

/-- No longer run contains this one. -/
structure Maximal (start : α → Bool) (part : α → List α → Bool) (o : Occurrence α) : Prop where
  run : Run start part o.word o.behind
  longest : ∀ a v v' c, o.before = a ++ v → o.behind = v' ++ c →
    Run start part (v ++ (o.word ++ v')) c → v = [] ∧ v' = []

/-- The maximal runs from a place on, in order; `w` is the run that has begun, if any. -/
def runsFrom (start : α → Bool) (part : α → List α → Bool) :
    List α → List α → List α → List (Occurrence α)
  | _, [], [] => []
  | a, y :: w, [] => [⟨a, y :: w, []⟩]
  | a, [], x :: c =>
      if start x then runsFrom start part a [x] c else runsFrom start part (a ++ [x]) [] c
  | a, y :: w, x :: c =>
      if part x c then runsFrom start part a (y :: w ++ [x]) c
      else ⟨a, y :: w, x :: c⟩ :: runsFrom start part (a ++ (y :: w ++ [x])) [] c

attribute [grind =] runsFrom

/-- The item that follows, if any, continues a run. -/
def continues (part : α → List α → Bool) : List α → Bool
  | [] => false
  | x :: c => part x c

/-- No run goes across the place between `a` and `c`. -/
def Apart (start : α → Bool) (part : α → List α → Bool) (a c : List α) : Prop :=
  ∀ v ≠ [], v <:+ a → Run start part v c → continues part c = false

/-- No run that goes on to `c` begins in `a` and ends with `w`. -/
def NotBefore (start : α → Bool) (part : α → List α → Bool) (a w c : List α) : Prop :=
  ∀ v ≠ [], v <:+ a → ¬ Run start part (v ++ w) c

theorem parts_append : Parts part (v ++ w) c ↔ Parts part v (w ++ c) ∧ Parts part w c := by
  induction v with
  | nil => simp [Parts]
  | cons x v ih => simp only [List.cons_append, Parts, ih, List.append_assoc, and_assoc]

theorem parts_singleton : Parts part [x] c ↔ part x c = true := by simp [Parts]

theorem head?_append_left (h : v ≠ []) (w : List α) : (v ++ w).head? = v.head? := by
  obtain ⟨x, v, rfl⟩ := List.exists_cons_of_ne_nil h
  rfl

theorem Run.ne_nil (h : Run start part w c) : w ≠ [] := by
  rintro rfl
  exact Bool.false_ne_true h.starts

theorem run_append (h : v ≠ []) :
    Run start part (v ++ w) c ↔ Run start part v (w ++ c) ∧ Parts part w c := by
  constructor
  · rintro ⟨hstarts, hparts⟩
    rw [head?_append_left h] at hstarts
    obtain ⟨hv, hw⟩ := parts_append.mp hparts
    exact ⟨⟨hstarts, hv⟩, hw⟩
  · rintro ⟨⟨hstarts, hv⟩, hw⟩
    exact ⟨by rw [head?_append_left h, hstarts], parts_append.mpr ⟨hv, hw⟩⟩

theorem Run.left (h : Run start part (v ++ w) c) (hv : v ≠ []) : Run start part v (w ++ c) :=
  ((run_append hv).mp h).1

theorem run_concat (h : w ≠ []) :
    Run start part (w ++ [x]) c ↔ Run start part w (x :: c) ∧ part x c = true := by
  rw [run_append h, parts_singleton, List.singleton_append]

theorem Parts.continues (h : Parts part v c) (hv : v ≠ []) : continues part (v ++ c) = true := by
  obtain ⟨x, v, rfl⟩ := List.exists_cons_of_ne_nil hv
  exact h.1

theorem apart_nil : Apart start part [] c :=
  fun _ hv hsuffix _ => absurd (List.suffix_nil.mp hsuffix) hv

theorem apart_of_continues (h : continues part c = false) : Apart start part a c :=
  fun _ _ _ _ => h

theorem Apart.skip (h : Apart start part a (x :: c)) (hx : start x = false) :
    Apart start part (a ++ [x]) c := by
  intro v hv hsuffix hrun
  rcases List.suffix_concat_iff.mp hsuffix with rfl | ⟨v, rfl, hv'⟩
  · exact absurd rfl hv
  · by_cases hempty : v = []
    · subst hempty
      have hstarts := hrun.starts
      rw [List.nil_append, List.head?_cons, Option.any_some, hx] at hstarts
      exact absurd hstarts Bool.false_ne_true
    · obtain ⟨hv, hpart⟩ := (run_concat hempty).mp hrun
      have hapart := h v hempty hv' hv
      rw [continues, hpart] at hapart
      exact absurd hapart Bool.true_eq_false.mp

theorem Apart.enter (h : Apart start part a (x :: c)) : NotBefore start part a [x] c := by
  intro v hv hsuffix hrun
  obtain ⟨hrun, hpart⟩ := (run_concat hv).mp hrun
  have hapart := h v hv hsuffix hrun
  rw [continues, hpart] at hapart
  exact absurd hapart Bool.true_eq_false.mp

theorem NotBefore.step (h : NotBefore start part a w (x :: c)) :
    NotBefore start part a (w ++ [x]) c := by
  intro v hv hsuffix hrun
  rw [← List.append_assoc] at hrun
  exact h v hv hsuffix ((run_concat (by simp [hv])).mp hrun).1

theorem NotBefore.maximal (h : NotBefore start part a w c) (hrun : Run start part w c)
    (hend : continues part c = false) : Maximal start part ⟨a, w, c⟩ := by
  refine ⟨hrun, fun a' v v' c' ha hc hlong => ?_⟩
  dsimp only at ha hc hlong
  have hassoc := List.append_assoc v w v'
  constructor
  · by_contra hv
    rw [← hassoc] at hlong
    have hleft := hlong.left (by simp [hv])
    rw [← hc] at hleft
    exact h v hv ⟨a', ha.symm⟩ hleft
  · by_contra hv'
    rw [← hassoc] at hlong
    have hparts := (parts_append.mp hlong.parts).2
    rw [hc, hparts.continues hv'] at hend
    exact absurd hend Bool.true_eq_false.mp

/-- The state of `runsFrom`: no run has begun, or the one that has could not begin earlier. -/
def Begun (start : α → Bool) (part : α → List α → Bool) (a w c : List α) : Prop :=
  if w = [] then Apart start part a c
  else Run start part w c ∧ NotBefore start part a w c

theorem begun_nil : Begun start part a [] c ↔ Apart start part a c := by
  rw [Begun, if_pos rfl]

theorem begun_cons :
    Begun start part a (x :: w) c ↔
      Run start part (x :: w) c ∧ NotBefore start part a (x :: w) c := by
  rw [Begun, if_neg (List.cons_ne_nil x w)]

theorem Apart.begun (h : Apart start part a (x :: c)) (hx : start x = true)
    (hpart : part x c = true) : Begun start part a [x] c :=
  begun_cons.mpr ⟨⟨hx, parts_singleton.mpr hpart⟩, h.enter⟩

theorem Begun.step {y : α} (h : Begun start part a (y :: w) (x :: c)) (hpart : part x c = true) :
    Begun start part a (y :: w ++ [x]) c := by
  obtain ⟨hrun, hbefore⟩ := begun_cons.mp h
  exact begun_cons.mpr ⟨(run_concat (List.cons_ne_nil y w)).mpr ⟨hrun, hpart⟩, hbefore.step⟩

theorem Begun.ended {y : α} (hx : start x = false) (hpart : part x c = false) :
    Begun start part (a ++ (y :: w ++ [x])) [] c := by
  rw [begun_nil, ← List.append_assoc]
  exact (apart_of_continues (c := x :: c) hpart).skip hx

variable {o : Occurrence α}

theorem Run.start_head (h : Run start part w c) (hlist : w ++ c = x :: u) : start x = true := by
  obtain ⟨y, w, rfl⟩ := List.exists_cons_of_ne_nil h.ne_nil
  obtain ⟨rfl, -⟩ := List.cons_eq_cons.mp hlist
  exact h.starts

theorem Maximal.passes (h : Maximal start part o) (hlist : o.list = a ++ x :: c)
    (hx : start x = false) (hle : a.length ≤ o.before.length) :
    (a ++ [x]).length ≤ o.before.length := by
  rw [List.length_append, List.length_singleton]
  refine Nat.lt_of_le_of_ne hle fun heq => ?_
  obtain ⟨-, hrest⟩ := List.append_inj hlist heq.symm
  rw [h.run.start_head hrest] at hx
  exact Bool.false_ne_true hx.symm

theorem Maximal.eq_of_begins (h : Maximal start part o) (hlist : o.list = a ++ (w ++ c))
    (hrun : Run start part w c) (hend : continues part c = false)
    (hle : a.length ≤ o.before.length) (hlt : o.before.length < (a ++ w).length) :
    o = ⟨a, w, c⟩ := by
  obtain ⟨before, word, behind⟩ := o
  rw [Occurrence.list] at hlist
  dsimp only at hlist hle hlt
  obtain ⟨u, rfl, hrest⟩ : ∃ u, before = a ++ u ∧ w ++ c = u ++ (word ++ behind) := by
    rcases List.append_eq_append_iff.mp hlist with ⟨u, rfl, hrest⟩ | ⟨u, hbefore, hrest⟩
    · have hempty : u = [] := by
        rw [List.length_append] at hle
        exact List.length_eq_zero_iff.mp (by omega)
      subst hempty
      exact ⟨[], by simp, by simpa using hrest.symm⟩
    · exact ⟨u, hbefore, hrest⟩
  rw [List.length_append, List.length_append] at hlt
  obtain ⟨u', rfl, hword⟩ : ∃ u', w = u ++ u' ∧ word ++ behind = u' ++ c := by
    rcases List.append_eq_append_iff.mp hrest with ⟨m, rfl, -⟩ | ⟨u', hw, hword⟩
    · rw [List.length_append] at hlt
      omega
    · exact ⟨u', hw, hword⟩
  -- the run cannot go on behind the place where the other one ends
  obtain ⟨m, rfl, rfl⟩ : ∃ m, u' = word ++ m ∧ behind = m ++ c := by
    rcases List.append_eq_append_iff.mp hword with ⟨m, hu, hbehind⟩ | ⟨m, rfl, rfl⟩
    · exact ⟨m, hu, hbehind⟩
    · have hempty : m = [] := by
        by_contra hm
        rw [(parts_append.mp h.run.parts).2.continues hm] at hend
        exact absurd hend Bool.true_eq_false.mp
      subst hempty
      exact ⟨[], by simp, by simp⟩
  obtain ⟨rfl, rfl⟩ := h.longest a u m c rfl rfl hrun
  simp

theorem runsFrom_place (ho : o ∈ runsFrom start part a w c) :
    o.list = a ++ (w ++ c) ∧ a <+: o.before := by
  induction a, w, c using runsFrom.induct start part with
  | case1 a => exact absurd ho List.not_mem_nil
  | case2 a y w =>
      obtain rfl := List.mem_singleton.mp ho
      exact ⟨rfl, List.prefix_rfl⟩
  | case3 a x c hx ih =>
      rw [runsFrom, if_pos hx] at ho
      exact ih ho
  | case4 a x c hx ih =>
      rw [runsFrom, if_neg hx] at ho
      obtain ⟨hlist, hprefix⟩ := ih ho
      exact ⟨by simpa using hlist, (List.prefix_append a [x]).trans hprefix⟩
  | case5 a y w x c hx ih =>
      rw [runsFrom, if_pos hx] at ho
      obtain ⟨hlist, hprefix⟩ := ih ho
      exact ⟨by simpa using hlist, hprefix⟩
  | case6 a y w x c hx ih =>
      rw [runsFrom, if_neg hx] at ho
      rcases List.mem_cons.mp ho with rfl | ho
      · exact ⟨rfl, List.prefix_rfl⟩
      · obtain ⟨hlist, hprefix⟩ := ih ho
        exact ⟨by simpa using hlist, (List.prefix_append a _).trans hprefix⟩

theorem runsFrom_parts (hstart : ∀ x c, start x = true → part x c = true) (h : Parts part w c)
    (ho : o ∈ runsFrom start part a w c) : Parts part o.word o.behind := by
  induction a, w, c using runsFrom.induct start part with
  | case1 a => exact absurd ho List.not_mem_nil
  | case2 a y w =>
      obtain rfl := List.mem_singleton.mp ho
      exact h
  | case3 a x c hx ih =>
      rw [runsFrom, if_pos hx] at ho
      exact ih (parts_singleton.mpr (hstart x c hx)) ho
  | case4 a x c hx ih =>
      rw [runsFrom, if_neg hx] at ho
      exact ih trivial ho
  | case5 a y w x c hx ih =>
      rw [runsFrom, if_pos hx] at ho
      exact ih (parts_append.mpr ⟨h, parts_singleton.mpr hx⟩) ho
  | case6 a y w x c hx ih =>
      rw [runsFrom, if_neg hx] at ho
      rcases List.mem_cons.mp ho with rfl | ho
      · exact h
      · exact ih trivial ho

theorem runsFrom_maximal (hstart : ∀ x c, start x = true → part x c = true)
    (h : Begun start part a w c) (ho : o ∈ runsFrom start part a w c) :
    Maximal start part o := by
  induction a, w, c using runsFrom.induct start part with
  | case1 a => exact absurd ho List.not_mem_nil
  | case2 a y w =>
      obtain rfl := List.mem_singleton.mp ho
      obtain ⟨hrun, hbefore⟩ := begun_cons.mp h
      exact hbefore.maximal hrun rfl
  | case3 a x c hx ih =>
      rw [runsFrom, if_pos hx] at ho
      exact ih ((begun_nil.mp h).begun hx (hstart x c hx)) ho
  | case4 a x c hx ih =>
      rw [runsFrom, if_neg hx] at ho
      exact ih (begun_nil.mpr ((begun_nil.mp h).skip (Bool.eq_false_iff.mpr hx))) ho
  | case5 a y w x c hx ih =>
      rw [runsFrom, if_pos hx] at ho
      exact ih (h.step hx) ho
  | case6 a y w x c hx ih =>
      rw [runsFrom, if_neg hx] at ho
      have hfalse := Bool.eq_false_iff.mpr hx
      rcases List.mem_cons.mp ho with rfl | ho
      · obtain ⟨hrun, hbefore⟩ := begun_cons.mp h
        exact hbefore.maximal hrun hfalse
      · exact ih (.ended (Bool.eq_false_iff.mpr (mt (hstart x c) hx)) hfalse) ho

theorem runsFrom_complete (hstart : ∀ x c, start x = true → part x c = true)
    (h : Begun start part a w c) (hmaximal : Maximal start part o)
    (hlist : o.list = a ++ (w ++ c)) (hle : a.length ≤ o.before.length) :
    o ∈ runsFrom start part a w c := by
  induction a, w, c using runsFrom.induct start part with
  | case1 a =>
      have hlength := congrArg List.length hlist
      rw [Occurrence.list] at hlength
      simp only [List.length_append, List.length_nil] at hlength
      exact absurd (List.length_eq_zero_iff.mp (by omega)) hmaximal.run.ne_nil
  | case2 a y w =>
      have hlength := congrArg List.length hlist
      have hpos := List.length_pos_of_ne_nil hmaximal.run.ne_nil
      rw [Occurrence.list] at hlength
      simp only [List.length_append, List.length_nil] at hlength
      refine List.mem_singleton.mpr
        (hmaximal.eq_of_begins hlist (begun_cons.mp h).1 rfl hle ?_)
      rw [List.length_append]
      omega
  | case3 a x c hx ih =>
      rw [runsFrom, if_pos hx]
      exact ih ((begun_nil.mp h).begun hx (hstart x c hx)) hlist hle
  | case4 a x c hx ih =>
      have hfalse := Bool.eq_false_iff.mpr hx
      rw [runsFrom, if_neg hx]
      exact ih (begun_nil.mpr ((begun_nil.mp h).skip hfalse)) (by simpa using hlist)
        (hmaximal.passes hlist hfalse hle)
  | case5 a y w x c hx ih =>
      rw [runsFrom, if_pos hx]
      exact ih (h.step hx) (by simpa using hlist) hle
  | case6 a y w x c hx ih =>
      have hfalse := Bool.eq_false_iff.mpr hx
      have hnone := Bool.eq_false_iff.mpr (mt (hstart x c) hx)
      rw [runsFrom, if_neg hx, List.mem_cons]
      by_cases hlt : o.before.length < (a ++ y :: w).length
      · exact .inl (hmaximal.eq_of_begins hlist (begun_cons.mp h).1 hfalse hle hlt)
      · rw [← List.append_assoc] at hlist
        have hbehind := hmaximal.passes hlist hnone (by omega)
        rw [List.append_assoc] at hbehind
        exact .inr (ih (.ended hnone hfalse) (by simpa using hlist) hbehind)

theorem runsFrom_ordered (start : α → Bool) (part : α → List α → Bool) (a w c : List α) :
    (runsFrom start part a w c).Pairwise fun o o' => o.before.length < o'.before.length := by
  induction a, w, c using runsFrom.induct start part with
  | case1 a => exact .nil
  | case2 a y w => exact List.pairwise_singleton _ _
  | case3 a x c hx ih =>
      rw [runsFrom, if_pos hx]
      exact ih
  | case4 a x c hx ih =>
      rw [runsFrom, if_neg hx]
      exact ih
  | case5 a y w x c hx ih =>
      rw [runsFrom, if_pos hx]
      exact ih
  | case6 a y w x c hx ih =>
      rw [runsFrom, if_neg hx, List.pairwise_cons]
      refine ⟨fun o ho => ?_, ih⟩
      have hle := (runsFrom_place ho).2.length_le
      rw [List.length_append, List.length_append, List.length_cons] at hle
      dsimp only
      omega

/-- The maximal runs of a list. -/
def runs (start : α → Bool) (part : α → List α → Bool) (l : List α) : List (Occurrence α) :=
  runsFrom start part [] [] l

theorem begun_start : Begun start part [] [] c := begun_nil.mpr apart_nil

theorem mem_runs {l : List α} (hstart : ∀ x c, start x = true → part x c = true) :
    o ∈ runs start part l ↔ Maximal start part o ∧ o.list = l := by
  constructor
  · intro ho
    exact ⟨runsFrom_maximal hstart begun_start ho, (runsFrom_place ho).1⟩
  · rintro ⟨hmaximal, hlist⟩
    exact runsFrom_complete hstart begun_start hmaximal hlist (Nat.zero_le _)

end NiceEditor.MaximalRuns
