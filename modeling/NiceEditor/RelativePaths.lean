import Mathlib.Data.List.Count
import Mathlib.Data.List.GetD
import Mathlib.Logic.Function.Iterate
import NiceEditor.NormalizedPaths

namespace NiceEditor.RelativePaths

open NiceEditor.LexicalPaths
open NiceEditor.Pools
open NiceEditor.Paths
open NiceEditor.NormalizedPaths

/-- `max_prefix`, byte by byte -/
def maxPrefix : List Byte → List Byte → Nat
  | x :: a, y :: b => if x = y then maxPrefix a b + 1 else 0
  | _, _ => 0

/-- The loop of `relative_file_path` that looks for the last directory that both paths are in. From
`i` on it takes as many turns as there are bytes up to `n`; `b[i]` is not NUL before the end of
`b`. -/
def dirLoop (a b : List Byte) (n : Nat) : Nat → Nat → Nat → Nat
  | 0, _, j => j
  | turns + 1, i, j =>
      if a.getD i 0 = slash then
        if i = n ∧ i < b.length then j else dirLoop a b n turns (i + 1) i
      else dirLoop a b n turns (i + 1) j

def commonDir (a b : List Byte) : Nat :=
  let n := maxPrefix a b
  dirLoop a b n (n + 1) 0 0

def upDirs (a b : List Byte) : Nat := (b.drop (commonDir a b)).count slash

/-- The memory that `relative_file_path` asks for -/
def relativeSize (a b : List Byte) : Nat := 3 * upDirs a b + (a.drop (commonDir a b)).length + 2

/-- What `relative_file_path` writes there -/
def relativeText (a b : List Byte) : List Byte :=
  (List.replicate (upDirs a b) (up ++ [slash])).flatten ++ a.drop (commonDir a b + 1)

/-- `relative_file_path`; `none` is NULL. -/
def relativeFilePath (a b : List Byte) : Option (List Byte) :=
  match normalizePath a with
  | none => none
  | some a =>
      if a.head? ≠ some slash ∨ b.head? ≠ some slash then none
      else normalizePath (relativeText a b)

/-- A turn of the loop of `absolute_file_path`. What has been written stands from right to left, in
front of what is still to be read. -/
def copyTurn : List Byte × List Byte → List Byte × List Byte
  | (c, []) => (c, [])
  | (c, x :: r) =>
      if (x :: r).take 3 = up ++ [slash] then ((c.dropWhile (· ≠ slash)).tail, r.drop 2)
      else if (x :: r).take 2 = here ++ [slash] then (c, r.drop 1)
      else
        ((r.takeWhile (· ≠ slash)).reverse ++ x :: slash :: c, (r.dropWhile (· ≠ slash)).drop 1)

/-- The memory that `absolute_file_path` asks for -/
def absoluteSize (a b : List Byte) : Nat := a.length + b.length + 2

/-- What `absolute_file_path` has written behind a directory after some turns. Every turn reads a
byte at least. -/
def absoluteText (turns : Nat) (a b : List Byte) : List Byte :=
  (copyTurn^[turns] (b.reverse, a)).1.reverse

/-- `absolute_file_path`; `none` is NULL. -/
def absoluteFilePath (a b : List Byte) : Option (List Byte) :=
  if b.head? ≠ some slash then none
  else
    match if rooted a then relativeFilePath a b else some a, normalizePath b with
    | some a, some b => normalizePath (absoluteText a.length a b)
    | _, _ => none

/-- A normalised absolute path of a directory, the root or without a slash at its end -/
def Directory (st : List (List Byte)) (b : List Byte) : Prop :=
  (∀ k ∈ st, Ordinary k) ∧ b = render true st

/-- The path to `a` relative to a directory leads back to `a`. -/
def Inverse (a b : List Byte) : Prop :=
  ∃ r, relativeFilePath a b = some r ∧ rooted r = false ∧
    absoluteFilePath r b = absoluteFilePath a b ∧
    absoluteFilePath a b = some (render true (denotes a).2)

/-- The absolute path of `x` is that of the directory, followed by `x`, resolved from left to
right. -/
def Resolves (x : List Byte) (st : List (List Byte)) (b : List Byte) : Prop :=
  absoluteFilePath x b = some (render true (resolve up true st (steps x)))

/-- Nothing is written behind the memory that has been asked for, and normalisation, which is done
in place, needs no more. -/
structure Fits (a b : List Byte) : Prop where
  relative : (relativeText a b).length + 1 ≤ relativeSize a b
  absolute : ∀ turns, (absoluteText turns a b).length + 1 ≤ absoluteSize a b
  normalized : ∀ s r, normalizePath s = some r → r.length ≤ s.length

/-- The components of a path behind an empty one, and the one that comes with it, do not climb above
them. There are `depth` names since the last empty component. -/
def strayFree : Option Nat → List (List Byte) → Bool
  | _, [] => true
  | depth, k :: ks =>
      if k = up then
        match depth with
        | none => strayFree none ks
        | some 0 => false
        | some (n + 1) => strayFree (some n) ks
      else if k = here then strayFree depth ks
      else if k = [] then
        match ks with
        | [] => true
        | k :: ks => strayFree (some (if Ordinary k then 1 else 0)) ks
      else strayFree (depth.map (· + 1)) ks

/-- The components that `absolute_file_path` has written, the last one on top, behind those that it
still reads -/
def copied : List (List Byte) → List (List Byte) → List (List Byte)
  | st, [] => st
  | st, k :: ks =>
      if k = up then copied st.tail ks
      else if k = here then copied st ks
      else if k = [] then
        match ks with
        | [] => st
        | k :: ks => copied (k :: [] :: st) ks
      else copied (k :: st) ks

/-- What is written of the components in a stack, from right to left -/
def stackBytes (st : List (List Byte)) : List Byte :=
  st.foldr (fun k l => k.reverse ++ slash :: l) []

attribute [grind =] copyTurn

variable {a b c r k : List Byte} {st ks : List (List Byte)} {n : Nat}

theorem copyTurn_done (turns : Nat) : copyTurn^[turns] (c, []) = (c, []) :=
  Function.iterate_fixed rfl turns

theorem stackBytes_cons : stackBytes (k :: st) = k.reverse ++ slash :: stackBytes st := rfl

theorem stackBytes_tail (hst : ∀ k ∈ st, slash ∉ k) :
    ((stackBytes st).dropWhile (· ≠ slash)).tail = stackBytes st.tail := by
  cases st with
  | nil => rfl
  | cons k st =>
      have hk := hst k List.mem_cons_self
      have hdrop := (@span_component k.reverse (slash :: stackBytes st)
        (fun hmem => hk (List.mem_reverse.mp hmem)) (.inr ⟨_, rfl⟩)).2
      rw [stackBytes_cons, hdrop]
      rfl

theorem copyTurn_up (hst : ∀ k ∈ st, slash ∉ k) (r : List Byte) :
    copyTurn (stackBytes st, up ++ slash :: r) = (stackBytes st.tail, r) := by
  have hup : up ++ slash :: r = dot :: (dot :: slash :: r) := rfl
  have hthree : (dot :: (dot :: slash :: r)).take 3 = up ++ [slash] := rfl
  rw [hup, copyTurn, if_pos hthree, stackBytes_tail hst]
  rfl

theorem copyTurn_here (c r : List Byte) : copyTurn (c, here ++ slash :: r) = (c, r) := by
  have hthree : ¬ (here ++ slash :: r).take 3 = up ++ [slash] := fun heq =>
    absurd (take_three (k := here) (by decide) (.inr ⟨r, rfl⟩) heq) (by decide)
  have hhere : here ++ slash :: r = dot :: (slash :: r) := rfl
  have htwo : (dot :: (slash :: r)).take 2 = here ++ [slash] := rfl
  rw [hhere] at hthree ⊢
  rw [copyTurn, if_neg hthree, if_pos htwo]
  rfl

theorem take_two (hk : slash ∉ k) (hrest : r = [] ∨ ∃ t, r = slash :: t)
    (h : (k ++ r).take 2 = here ++ [slash]) : k = here := by
  obtain _ | ⟨x, _ | ⟨y, k⟩⟩ := k
  · obtain rfl | ⟨t, rfl⟩ := hrest
    · exact absurd h.symm (List.cons_ne_nil _ _)
    · exact absurd (List.cons.inj h).1 (by decide)
  · rw [(List.cons.inj h).1]
    rfl
  · have hy := (List.cons.inj (List.cons.inj h).2).1
    exact absurd (by rw [hy]; simp) hk

theorem copyTurn_name (hne : k ≠ []) (hk : slash ∉ k) (hup : k ≠ up) (hhere : k ≠ here)
    (hrest : r = [] ∨ ∃ t, r = slash :: t) (c : List Byte) :
    copyTurn (c, k ++ r) = (k.reverse ++ slash :: c, r.drop 1) := by
  obtain _ | ⟨x, k⟩ := k
  · exact absurd rfl hne
  obtain ⟨htake, hdrop⟩ := span_component (k := k) (fun hy => hk (List.mem_cons_of_mem _ hy)) hrest
  rw [List.cons_append, copyTurn, if_neg, if_neg, htake, hdrop]
  · simp
  · exact fun heq => hhere (take_two hk hrest heq)
  · exact fun heq => hup (take_three hk hrest heq)

theorem copyTurn_empty (hk : slash ∉ k) (hrest : r = [] ∨ ∃ t, r = slash :: t) (c : List Byte) :
    copyTurn (c, slash :: (k ++ r)) = (k.reverse ++ slash :: slash :: c, r.drop 1) := by
  obtain ⟨htake, hdrop⟩ := span_component hk hrest
  rw [copyTurn, if_neg, if_neg, htake, hdrop]
  · exact fun heq => absurd (List.cons.inj heq).1 (by decide)
  · exact fun heq => absurd (List.cons.inj heq).1 (by decide)

/-- What stands behind the first of some components -/
def behind (ks : List (List Byte)) : List Byte :=
  if ks = [] then [] else slash :: [slash].intercalate ks

theorem intercalate_cons : [slash].intercalate (k :: ks) = k ++ behind ks := by
  cases ks with
  | nil => simp [behind]
  | cons k' ks =>
      rw [List.intercalate_cons_of_ne_nil (List.cons_ne_nil _ _), behind,
        if_neg (List.cons_ne_nil _ _)]
      simp

theorem behind_cases (ks : List (List Byte)) : behind ks = [] ∨ ∃ t, behind ks = slash :: t := by
  rw [behind]
  split
  · exact .inl rfl
  · exact .inr ⟨_, rfl⟩

theorem drop_behind (ks : List (List Byte)) : (behind ks).drop 1 = [slash].intercalate ks := by
  rw [behind]
  split
  · case _ hks =>
    rw [hks]
    rfl
  · rfl

theorem behind_of_ne_nil (hks : ks ≠ []) : behind ks = slash :: [slash].intercalate ks := if_neg hks

theorem copied_up : copied st (up :: ks) = copied st.tail ks := by
  cases ks <;> exact if_pos rfl

theorem copied_here : copied st (here :: ks) = copied st ks := by
  have hne : here ≠ up := by decide
  cases ks <;> exact (if_neg hne).trans (if_pos rfl)

theorem copied_empty : copied st ([] :: k :: ks) = copied (k :: [] :: st) ks := by
  have hup : [] ≠ up := by decide
  have hhere : [] ≠ here := by decide
  exact (if_neg hup).trans ((if_neg hhere).trans (if_pos rfl))

theorem copied_name (hup : k ≠ up) (hhere : k ≠ here) (hne : k ≠ []) :
    copied st (k :: ks) = copied (k :: st) ks := by
  cases ks <;> exact (if_neg hup).trans ((if_neg hhere).trans (if_neg hne))

theorem getLastD_cons (hks : ks ≠ []) : (k :: ks).getLastD [] = ks.getLastD [] := by
  cases ks with
  | nil => exact absurd rfl hks
  | cons k' ks => rfl

/-- The loop of `absolute_file_path` over a path whose last component is ordinary -/
theorem copyTurn_run (hks : ∀ k ∈ ks, slash ∉ k) (hlast : ks ≠ [] → Ordinary (ks.getLastD []))
    (hst : ∀ k ∈ st, slash ∉ k) :
    ∃ n ≤ ([slash].intercalate ks).length,
      copyTurn^[n] (stackBytes st, [slash].intercalate ks) = (stackBytes (copied st ks), []) := by
  have hturn : ∀ {st st' : List (List Byte)} {s : List Byte} {ks : List (List Byte)},
      copyTurn (stackBytes st, s) = (stackBytes st', [slash].intercalate ks) →
      ([slash].intercalate ks).length < s.length →
      (∃ n ≤ ([slash].intercalate ks).length,
        copyTurn^[n] (stackBytes st', [slash].intercalate ks) = (stackBytes (copied st' ks), [])) →
      ∃ n ≤ s.length, copyTurn^[n] (stackBytes st, s) = (stackBytes (copied st' ks), []) := by
    rintro st st' s ks hstep hlt ⟨n, hn, hrun⟩
    refine ⟨n + 1, by omega, ?_⟩
    rw [Function.iterate_succ_apply, hstep, hrun]
  have hlength : ∀ {k : List Byte} {ks : List (List Byte)}, k ≠ [] →
      ([slash].intercalate ks).length < ([slash].intercalate (k :: ks)).length := by
    intro k ks hne
    have hlen := List.length_pos_iff.mpr hne
    have hdrop := congrArg List.length (drop_behind ks)
    rw [List.length_drop] at hdrop
    rw [intercalate_cons, List.length_append]
    omega
  induction st, ks using copied.induct with
  | case1 st => exact ⟨0, le_rfl, rfl⟩
  | case2 st ks ih =>
      have hne : ks ≠ [] := by
        rintro rfl
        exact absurd (hlast (List.cons_ne_nil _ _)) (by decide)
      rw [copied_up]
      refine hturn ?_ (hlength (by decide))
        (ih (fun k hk => hks k (List.mem_cons_of_mem _ hk)) ?_ ?_)
      · rw [intercalate_cons, behind_of_ne_nil hne]
        exact copyTurn_up hst _
      · exact fun _ => getLastD_cons hne ▸ hlast (List.cons_ne_nil _ _)
      · exact fun k hk => hst k (List.mem_of_mem_tail hk)
  | case3 st ks _ ih =>
      have hne : ks ≠ [] := by
        rintro rfl
        exact absurd (hlast (List.cons_ne_nil _ _)) (by decide)
      rw [copied_here]
      refine hturn ?_ (hlength (by decide))
        (ih (fun k hk => hks k (List.mem_cons_of_mem _ hk)) ?_ hst)
      · rw [intercalate_cons, behind_of_ne_nil hne]
        exact copyTurn_here _ _
      · exact fun _ => getLastD_cons hne ▸ hlast (List.cons_ne_nil _ _)
  | case4 st hup hhere => exact absurd (hlast (List.cons_ne_nil _ _)).1 (not_not.mpr rfl)
  | case5 st k ks hup hhere ih =>
      have hk : slash ∉ k := hks k (by simp)
      have hs : [slash].intercalate ([] :: k :: ks) = slash :: (k ++ behind ks) := by
        rw [intercalate_cons, behind_of_ne_nil (List.cons_ne_nil _ _), intercalate_cons]
        rfl
      rw [copied_empty]
      refine hturn ?_ ?_ (ih (fun k hk => hks k (by simp [hk])) ?_ ?_)
      · rw [hs, copyTurn_empty hk (behind_cases ks), drop_behind]
        rfl
      · have hdrop := congrArg List.length (drop_behind ks)
        rw [List.length_drop] at hdrop
        rw [hs, List.length_cons, List.length_append]
        omega
      · intro hne
        have hlast' := hlast (List.cons_ne_nil _ _)
        rw [getLastD_cons (List.cons_ne_nil _ _), getLastD_cons hne] at hlast'
        exact hlast'
      · exact List.forall_mem_cons.mpr ⟨hk, List.forall_mem_cons.mpr ⟨List.not_mem_nil, hst⟩⟩
  | case6 st k ks hup hhere hne ih =>
      have hk : slash ∉ k := hks k List.mem_cons_self
      rw [copied_name hup hhere hne]
      refine hturn ?_ (hlength hne) (ih (fun k hk => hks k (List.mem_cons_of_mem _ hk)) ?_ ?_)
      · rw [intercalate_cons, copyTurn_name hne hk hup hhere (behind_cases ks), drop_behind]
        rfl
      · exact fun hne' => getLastD_cons hne' ▸ hlast (List.cons_ne_nil _ _)
      · exact List.forall_mem_cons.mpr ⟨hk, hst⟩

theorem mem_copied {x : List Byte} (h : x ∈ copied st ks) : x ∈ st ∨ x ∈ ks := by
  induction st, ks using copied.induct with
  | case1 st => exact .inl h
  | case2 st ks ih =>
      rw [copied_up] at h
      exact (ih h).imp List.mem_of_mem_tail (List.mem_cons_of_mem _)
  | case3 st ks _ ih =>
      rw [copied_here] at h
      exact (ih h).imp_right (List.mem_cons_of_mem _)
  | case4 st _ _ => exact .inl h
  | case5 st k ks _ _ ih =>
      rw [copied_empty] at h
      obtain hmem | hmem := ih h
      · simp only [List.mem_cons] at hmem ⊢
        tauto
      · exact .inr (by simp [hmem])
  | case6 st k ks hup hhere hne ih =>
      rw [copied_name hup hhere hne] at h
      obtain hmem | hmem := ih h
      · simp only [List.mem_cons] at hmem ⊢
        tauto
      · exact .inr (by simp [hmem])

theorem copied_last (hnil : ks ≠ []) (hlast : Ordinary (ks.getLastD [])) :
    ∃ st', copied st ks = ks.getLastD [] :: st' := by
  induction st, ks using copied.induct with
  | case1 st => exact absurd rfl hnil
  | case2 st ks ih =>
      by_cases hks : ks = []
      · subst hks
        exact absurd hlast (by decide)
      · rw [getLastD_cons hks] at hlast ⊢
        rw [copied_up]
        exact ih hks hlast
  | case3 st ks _ ih =>
      by_cases hks : ks = []
      · subst hks
        exact absurd hlast (by decide)
      · rw [getLastD_cons hks] at hlast ⊢
        rw [copied_here]
        exact ih hks hlast
  | case4 st hup hhere => exact absurd hlast.1 (not_not.mpr rfl)
  | case5 st k ks hup hhere ih =>
      rw [copied_empty, getLastD_cons (List.cons_ne_nil _ _)]
      rw [getLastD_cons (List.cons_ne_nil _ _)] at hlast
      by_cases hks : ks = []
      · subst hks
        exact ⟨_, rfl⟩
      · rw [getLastD_cons hks] at hlast ⊢
        exact ih hks hlast
  | case6 st k ks hup hhere hne ih =>
      rw [copied_name hup hhere hne]
      by_cases hks : ks = []
      · subst hks
        exact ⟨_, rfl⟩
      · rw [getLastD_cons hks] at hlast ⊢
        exact ih hks hlast

/-- A component is passed, as part of an absolute path. -/
def pass (st : List (List Byte)) (k : List Byte) : List (List Byte) :=
  if k = [] ∨ k = here then st else enter up true st k

/-- What the components in a stack lead to, read from the bottom -/
def placeOf (st : List (List Byte)) : List (List Byte) := st.reverse.foldl pass []

theorem pass_empty : pass st [] = st := if_pos (.inl rfl)

theorem pass_here : pass st here = st := if_pos (.inr rfl)

theorem pass_enter (hne : k ≠ []) (hhere : k ≠ here) : pass st k = enter up true st k :=
  if_neg (not_or.mpr ⟨hne, hhere⟩)

theorem pass_up : pass st up = enter up true st up := pass_enter (by decide) (by decide)

theorem pass_name (hk : Ordinary k) : pass st k = k :: st := by
  rw [pass_enter hk.1 hk.2.2.1, enter_name hk.2.2.2]

theorem foldl_pass (st ks : List (List Byte)) :
    ks.foldl pass st = resolve up true st ((ks.filter (· ≠ [])).filter (· ≠ here)) := by
  induction ks generalizing st with
  | nil => rfl
  | cons k ks ih =>
      rw [List.foldl_cons, ih]
      by_cases hne : k = []
      · rw [hne, pass_empty, List.filter_cons_of_neg (by simp)]
      · by_cases hhere : k = here
        · rw [hhere, pass_here, List.filter_cons_of_pos (by decide),
            List.filter_cons_of_neg (by simp)]
        · rw [pass_enter hne hhere, List.filter_cons_of_pos (by simpa using hne),
            List.filter_cons_of_pos (by simpa using hhere), resolve_cons]

theorem placeOf_cons : placeOf (k :: st) = pass (placeOf st) k := by
  rw [placeOf, placeOf, List.reverse_cons, List.foldl_append]
  rfl

theorem placeOf_names (hst : ∀ k ∈ st, Ordinary k) : placeOf st = st := by
  induction st with
  | nil => rfl
  | cons k st ih =>
      rw [placeOf_cons, ih fun k hk => hst k (List.mem_cons_of_mem _ hk),
        pass_name (hst k List.mem_cons_self)]

/-- Only names have been copied behind the root. -/
def Plain (st : List (List Byte)) : Prop :=
  ∃ names, (∀ k ∈ names, Ordinary k) ∧ (st = names ∨ st = names ++ [[]])

/-- `n` names have been copied behind a component that is none. -/
def Literal (n : Nat) (st : List (List Byte)) : Prop :=
  ∃ names k rest, st = names ++ k :: rest ∧ names.length = n ∧ (∀ k ∈ names, Ordinary k) ∧
    ¬ Ordinary k

/-- What `strayFree` knows about the components that have been copied -/
def Known (depth : Option Nat) (st : List (List Byte)) : Prop :=
  match depth with
  | none => Plain st
  | some n => Literal n st

theorem Literal.tail (h : Literal (n + 1) st) :
    ∃ k st', st = k :: st' ∧ Ordinary k ∧ Literal n st' := by
  obtain ⟨names, k, rest, rfl, hlen, hnames, hk⟩ := h
  obtain _ | ⟨name, names⟩ := names
  · exact absurd hlen.symm (Nat.succ_ne_zero n)
  · exact ⟨name, _, rfl, hnames name List.mem_cons_self, names, k, rest, rfl,
      Nat.succ_injective hlen, fun k hk => hnames k (List.mem_cons_of_mem _ hk), hk⟩

theorem Known.cons {depth : Option Nat} (h : Known depth st) (hk : Ordinary k) :
    Known (depth.map (· + 1)) (k :: st) := by
  cases depth with
  | none =>
      obtain ⟨names, hnames, hst⟩ := h
      refine ⟨k :: names, List.forall_mem_cons.mpr ⟨hk, hnames⟩, ?_⟩
      obtain rfl | rfl := hst
      · exact .inl rfl
      · exact .inr rfl
  | some n =>
      obtain ⟨names, k', rest, rfl, hlen, hnames, hk'⟩ := h
      exact ⟨k :: names, k', rest, rfl, by rw [List.length_cons, hlen],
        List.forall_mem_cons.mpr ⟨hk, hnames⟩, hk'⟩

theorem literal_empty (k : List Byte) (st : List (List Byte)) :
    Literal (if Ordinary k then 1 else 0) (k :: [] :: st) := by
  by_cases hk : Ordinary k
  · rw [if_pos hk]
    exact ⟨[k], [], st, rfl, rfl, List.forall_mem_singleton.mpr hk, by decide⟩
  · rw [if_neg hk]
    exact ⟨[], k, [] :: st, rfl, rfl, fun k hk => absurd hk List.not_mem_nil, hk⟩

theorem Plain.tail (h : Plain st) : Plain st.tail ∧ placeOf st.tail = pass (placeOf st) up := by
  obtain ⟨names, hnames, hst⟩ := h
  obtain _ | ⟨name, names⟩ := names
  · refine ⟨⟨[], hnames, .inl ?_⟩, ?_⟩
    · obtain rfl | rfl := hst <;> rfl
    · rw [pass_up]
      obtain rfl | rfl := hst
      · exact enter_up_root.symm
      · exact enter_up_root.symm
  · have hname := hnames name List.mem_cons_self
    have hplain : Plain st.tail := by
      refine ⟨names, fun k hk => hnames k (List.mem_cons_of_mem _ hk), ?_⟩
      obtain rfl | rfl := hst
      · exact .inl rfl
      · exact .inr rfl
    have hcons : st = name :: st.tail := by obtain rfl | rfl := hst <;> rfl
    refine ⟨hplain, ?_⟩
    conv_rhs => rw [hcons, placeOf_cons, pass_name hname, pass_up, enter_up_name hname.2.2.2]

section StrayFree

variable {depth : Option Nat}

theorem strayFree_up : strayFree none (up :: ks) = strayFree none ks := by
  cases ks <;> exact if_pos rfl

theorem strayFree_stray : strayFree (some 0) (up :: ks) = false := by
  cases ks <;> exact if_pos rfl

theorem strayFree_leave : strayFree (some (n + 1)) (up :: ks) = strayFree (some n) ks := by
  cases ks <;> exact if_pos rfl

theorem strayFree_here : strayFree depth (here :: ks) = strayFree depth ks := by
  have hne : here ≠ up := by decide
  cases ks <;> exact (if_neg hne).trans (if_pos rfl)

theorem strayFree_empty : strayFree depth ([] :: k :: ks) =
    strayFree (some (if Ordinary k then 1 else 0)) ks := by
  have hup : [] ≠ up := by decide
  have hhere : [] ≠ here := by decide
  exact (if_neg hup).trans ((if_neg hhere).trans (if_pos rfl))

theorem strayFree_name (hup : k ≠ up) (hhere : k ≠ here) (hne : k ≠ []) :
    strayFree depth (k :: ks) = strayFree (depth.map (· + 1)) ks := by
  cases ks <;> exact (if_neg hup).trans ((if_neg hhere).trans (if_neg hne))

theorem placeOf_copied (h : Known depth st) (hfree : strayFree depth ks = true)
    (hks : ∀ k ∈ ks, slash ∉ k) : placeOf (copied st ks) = ks.foldl pass (placeOf st) := by
  induction depth, ks using strayFree.induct generalizing st with
  | case1 => rfl
  | case2 ks ih =>
      obtain ⟨hplain, hplace⟩ := Plain.tail h
      rw [strayFree_up] at hfree
      rw [copied_up, ih hplain hfree fun k hk => hks k (List.mem_cons_of_mem _ hk), hplace,
        List.foldl_cons]
  | case3 ks =>
      rw [strayFree_stray] at hfree
      exact absurd hfree nofun
  | case4 ks n ih =>
      obtain ⟨k, st, rfl, hk, hst⟩ := Literal.tail h
      rw [strayFree_leave] at hfree
      rw [copied_up, List.tail_cons, ih hst hfree fun k hk => hks k (List.mem_cons_of_mem _ hk),
        List.foldl_cons, placeOf_cons, pass_name hk, pass_up, enter_up_name hk.2.2.2]
  | case5 depth ks _ ih =>
      rw [strayFree_here] at hfree
      rw [copied_here, ih h hfree fun k hk => hks k (List.mem_cons_of_mem _ hk), List.foldl_cons,
        pass_here]
  | case6 depth _ _ => exact pass_empty.symm
  | case7 depth k ks _ _ ih =>
      rw [strayFree_empty] at hfree
      rw [copied_empty, ih (literal_empty k st) hfree fun k hk => hks k (by simp [hk]),
        placeOf_cons, placeOf_cons, List.foldl_cons, List.foldl_cons, pass_empty]
  | case8 depth k ks hup hhere hne ih =>
      have hk : Ordinary k := ⟨hne, hks k List.mem_cons_self, hhere, hup⟩
      rw [strayFree_name hup hhere hne] at hfree
      rw [copied_name hup hhere hne,
        ih (h.cons hk) hfree fun k hk => hks k (List.mem_cons_of_mem _ hk), placeOf_cons,
        List.foldl_cons]

/-- How many levels a component leads down -/
def descent (k : List Byte) : Int := if k = [] ∨ k = here then 0 else if k = up then -1 else 1

def descents (ks : List (List Byte)) : Int := (ks.map descent).sum

theorem descents_cons : descents (k :: ks) = descent k + descents ks := List.sum_cons

theorem descents_append (st ks : List (List Byte)) :
    descents (st ++ ks) = descents st + descents ks := by
  rw [descents, List.map_append, List.sum_append]
  rfl

theorem descents_reverse (ks : List (List Byte)) : descents ks.reverse = descents ks := by
  rw [descents, List.map_reverse, List.sum_reverse]
  rfl

theorem descent_le (k : List Byte) : descent k ≤ 1 := by
  rw [descent]
  repeat' split
  all_goals decide

theorem descent_name (hne : k ≠ []) (hhere : k ≠ here) (hup : k ≠ up) : descent k = 1 := by
  rw [descent, if_neg (not_or.mpr ⟨hne, hhere⟩), if_neg hup]

theorem descent_literal (hk : ¬ Ordinary k) (hslash : slash ∉ k) : descent k ≤ 0 := by
  rw [descent]
  split
  · exact le_rfl
  · case _ hnot =>
    rw [if_pos]
    · decide
    · by_contra hup
      obtain ⟨hne, hhere⟩ := not_or.mp hnot
      exact hk ⟨hne, hslash, hhere, hup⟩

theorem descents_tail (st : List (List Byte)) : descents st - 1 ≤ descents st.tail := by
  cases st with
  | nil => decide
  | cons k st =>
      have hle := descent_le k
      rw [descents_cons, List.tail_cons]
      omega

theorem le_descents_copied (st ks : List (List Byte)) :
    descents st + descents ks ≤ descents (copied st ks) := by
  induction st, ks using copied.induct with
  | case1 st => exact (Int.add_zero _).le
  | case2 st ks ih =>
      have htail := descents_tail st
      have hup : descent up = -1 := by decide
      rw [copied_up, descents_cons, hup]
      omega
  | case3 st ks _ ih =>
      have hhere : descent here = 0 := by decide
      rw [copied_here, descents_cons, hhere]
      omega
  | case4 st _ _ => exact (Int.add_zero _).le
  | case5 st k ks _ _ ih =>
      have hempty : descent [] = 0 := by decide
      rw [descents_cons, descents_cons, hempty] at ih
      rw [copied_empty, descents_cons, descents_cons, hempty]
      omega
  | case6 st k ks hup hhere hne ih =>
      rw [descents_cons] at ih
      rw [copied_name hup hhere hne, descents_cons]
      omega

/-- A component is removed that is no name: what has been copied leads further down. -/
theorem lt_descents_copied (h : ∀ n, depth = some n → Literal n st)
    (hfree : strayFree depth ks = false) (hks : ∀ k ∈ ks, slash ∉ k) (hst : ∀ k ∈ st, slash ∉ k) :
    descents st + descents ks < descents (copied st ks) := by
  have hup : descent up = -1 := by decide
  have hhere : descent here = 0 := by decide
  have hempty : descent [] = 0 := by decide
  induction depth, ks using strayFree.induct generalizing st with
  | case1 depth => exact absurd hfree nofun
  | case2 ks ih =>
      rw [strayFree_up] at hfree
      have hlt := @ih st.tail nofun hfree (fun k hk => hks k (List.mem_cons_of_mem _ hk))
        (fun k hk => hst k (List.mem_of_mem_tail hk))
      have htail := descents_tail st
      rw [copied_up, descents_cons, hup]
      omega
  | case3 ks =>
      obtain ⟨names, k, rest, rfl, hlen, -, hk⟩ := h 0 rfl
      obtain rfl := List.length_eq_zero_iff.mp hlen
      have hle := le_descents_copied rest ks
      have hliteral := descent_literal hk (hst k List.mem_cons_self)
      rw [copied_up, descents_cons, hup, List.nil_append, descents_cons, List.tail_cons]
      omega
  | case4 ks n ih =>
      obtain ⟨k, st, rfl, hk, hst'⟩ := Literal.tail (h _ rfl)
      rw [strayFree_leave] at hfree
      have hlt := @ih st (fun m hm => by rw [← Option.some.inj hm]; exact hst') hfree
        (fun k hk => hks k (List.mem_cons_of_mem _ hk))
        (fun k hk => hst k (List.mem_cons_of_mem _ hk))
      have hname := descent_le k
      rw [copied_up, List.tail_cons, descents_cons, descents_cons, hup]
      omega
  | case5 depth ks _ ih =>
      rw [strayFree_here] at hfree
      have hlt := ih h hfree (fun k hk => hks k (List.mem_cons_of_mem _ hk)) hst
      rw [copied_here, descents_cons, hhere]
      omega
  | case6 depth _ _ => exact absurd hfree nofun
  | case7 depth k ks _ _ ih =>
      rw [strayFree_empty] at hfree
      have hlt := @ih (k :: [] :: st)
        (fun m hm => by rw [← Option.some.inj hm]; exact literal_empty k st) hfree
        (fun k hk => hks k (by simp [hk]))
        (List.forall_mem_cons.mpr ⟨hks k (by simp),
          List.forall_mem_cons.mpr ⟨List.not_mem_nil, hst⟩⟩)
      rw [descents_cons, descents_cons, hempty] at hlt
      rw [copied_empty, descents_cons, descents_cons, hempty]
      omega
  | case8 depth k ks hup' hhere' hne ih =>
      rw [strayFree_name hup' hhere' hne] at hfree
      have hk : Ordinary k := ⟨hne, hks k List.mem_cons_self, hhere', hup'⟩
      have hlt := @ih (k :: st) ?_ hfree (fun k hk => hks k (List.mem_cons_of_mem _ hk))
        (List.forall_mem_cons.mpr ⟨hks k List.mem_cons_self, hst⟩)
      · rw [descents_cons] at hlt
        rw [copied_name hup' hhere' hne, descents_cons]
        omega
      · intro m hm
        obtain ⟨n, rfl, rfl⟩ := Option.map_eq_some_iff.mp hm
        exact @Known.cons _ _ (some n) (h n rfl) hk

end StrayFree

/-- A stack with `n` names at the bottom, so many that no `..` gets to the root -/
def Deep (st : List (List Byte)) (n : Nat) : Prop :=
  ∃ top m, st = top ++ List.replicate m [0x64] ∧ top.count up + n ≤ m

theorem ordinary_d : Ordinary [0x64] := by decide

theorem deep_cons {m : Nat} (h : Deep st m) (hle : n + 1 ≤ m) : Deep (k :: st) n := by
  obtain ⟨top, i, rfl, hcount⟩ := h
  refine ⟨k :: top, i, rfl, ?_⟩
  have hcons : (k :: top).count up ≤ top.count up + 1 := by
    rw [List.count_cons]
    split <;> omega
  omega

theorem deep_tail (h : Deep st (n + 1)) : Deep st.tail n := by
  obtain ⟨top, m, rfl, hcount⟩ := h
  obtain _ | ⟨k, top⟩ := top
  · obtain _ | m := m
    · omega
    · exact ⟨[], m, rfl, by simp at hcount ⊢; omega⟩
  · refine ⟨top, m, rfl, ?_⟩
    rw [List.count_cons] at hcount
    omega

theorem deep_copied {m : Nat} (h : Deep st (ks.length + m)) : Deep (copied st ks) m := by
  induction st, ks using copied.induct with
  | case1 st =>
      rw [List.length_nil, Nat.zero_add] at h
      exact h
  | case2 st ks ih =>
      rw [copied_up]
      rw [List.length_cons, Nat.add_right_comm] at h
      exact ih (deep_tail h)
  | case3 st ks _ ih =>
      obtain ⟨top, i, hst, hcount⟩ := h
      rw [copied_here]
      rw [List.length_cons] at hcount
      exact ih ⟨top, i, hst, by omega⟩
  | case4 st _ _ =>
      obtain ⟨top, i, hst, hcount⟩ := h
      exact ⟨top, i, hst, by omega⟩
  | case5 st k ks _ _ ih =>
      rw [copied_empty]
      rw [List.length_cons, List.length_cons] at h
      refine ih (deep_cons (m := ks.length + m + 1) ?_ le_rfl)
      exact deep_cons h (by omega)
  | case6 st k ks hup hhere hne ih =>
      rw [copied_name hup hhere hne]
      rw [List.length_cons] at h
      exact ih (deep_cons h (by omega))

theorem settled_placeOf (st : List (List Byte)) : Settled up true (placeOf st) := by
  rw [placeOf, foldl_pass]
  exact settled_resolve settled_nil _

/-- So deep in a directory, every component `..` leads a level up. -/
theorem length_placeOf (h : Deep st 0) : ((placeOf st).length : Int) = descents st := by
  obtain ⟨top, m, rfl, hcount⟩ := h
  have hd : descent [0x64] = 1 := by decide
  have hbase : ∀ m, ((placeOf (List.replicate m [0x64])).length : Int) =
      descents (List.replicate m [0x64]) := by
    intro m
    rw [placeOf_names fun k hk => List.eq_of_mem_replicate hk ▸ ordinary_d]
    induction m with
    | zero => rfl
    | succ m ih =>
        rw [List.replicate_succ, List.length_cons, descents_cons, hd, ← ih]
        push_cast
        omega
  suffices hlen : ((placeOf (top ++ List.replicate m [0x64])).length : Int) =
      descents (top ++ List.replicate m [0x64]) ∧
      (m : Int) - top.count up ≤ descents (top ++ List.replicate m [0x64]) from hlen.1
  induction top with
  | nil =>
      refine ⟨hbase m, ?_⟩
      have hlen := hbase m
      rw [placeOf_names fun k hk => List.eq_of_mem_replicate hk ▸ ordinary_d,
        List.length_replicate] at hlen
      rw [List.nil_append, ← hlen]
      simp
  | cons k top ih =>
      rw [List.count_cons] at hcount ⊢
      obtain ⟨hlen, hle⟩ := ih (by omega)
      have hsettled := settled_placeOf (top ++ List.replicate m [0x64])
      rw [List.cons_append, placeOf_cons, descents_cons]
      set st := top ++ List.replicate m [0x64]
      by_cases hne : k = []
      · have hzero : descent [] = 0 := by decide
        rw [hne, pass_empty, hzero]
        exact ⟨by omega, by rw [if_neg (by decide)]; omega⟩
      by_cases hhere : k = here
      · have hzero : descent here = 0 := by decide
        rw [hhere, pass_here, hzero]
        exact ⟨by omega, by rw [if_neg (by decide)]; omega⟩
      by_cases hup : k = up
      · have hone : descent up = -1 := by decide
        rw [hup, if_pos (by decide)] at hcount
        rw [hup, pass_up, hone, if_pos (by decide)]
        cases hplace : placeOf st with
        | nil =>
            rw [hplace, List.length_nil] at hlen
            push_cast at hlen
            omega
        | cons name st' =>
            rw [hplace] at hlen hsettled
            have hname : name ≠ up := fun heq =>
              settled_root.mp hsettled (heq ▸ List.mem_cons_self)
            rw [enter_up_name hname]
            rw [List.length_cons] at hlen
            push_cast at hlen
            exact ⟨by omega, by omega⟩
      · have hname := descent_name hne hhere hup
        rw [pass_enter hne hhere, enter_name hup, hname, if_neg (by simpa using hup),
          List.length_cons]
        push_cast
        exact ⟨by omega, by omega⟩

theorem stackBytes_reverse (hst : st ≠ []) : (stackBytes st).reverse = render true st := by
  induction st with
  | nil => exact absurd rfl hst
  | cons k st ih =>
      by_cases hnil : st = []
      · subst hnil
        simp [stackBytes, render]
      · rw [stackBytes_cons, List.reverse_append, List.reverse_cons, ih hnil, List.reverse_reverse]
        have happend := @intercalate_append st.reverse (by simpa using hnil) k
        rw [render, render, List.reverse_cons, happend]
        simp

/-- The stack that a directory stands for; the root is an empty component. -/
def baseOf (st : List (List Byte)) : List (List Byte) := if st = [] then [[]] else st

theorem directory_bytes (st : List (List Byte)) :
    (render true st).reverse = stackBytes (baseOf st) := by
  rw [baseOf]
  split
  · case _ hst =>
    rw [hst]
    rfl
  · case _ hst => rw [← stackBytes_reverse hst, List.reverse_reverse]

theorem plain_baseOf (hst : ∀ k ∈ st, Ordinary k) : Plain (baseOf st) := by
  rw [baseOf]
  split
  · exact ⟨[], fun k hk => absurd hk List.not_mem_nil, .inr rfl⟩
  · exact ⟨st, hst, .inl rfl⟩

theorem baseOf_slashless (hst : ∀ k ∈ st, Ordinary k) : ∀ k ∈ baseOf st, slash ∉ k := by
  rw [baseOf]
  split
  · exact List.forall_mem_singleton.mpr List.not_mem_nil
  · exact fun k hk => (hst k hk).2.1

theorem placeOf_baseOf (hst : ∀ k ∈ st, Ordinary k) : placeOf (baseOf st) = st := by
  rw [baseOf]
  split
  · case _ hnil =>
    rw [hnil, placeOf_cons, pass_empty]
    rfl
  · exact placeOf_names hst

theorem final_names (hst : ∀ k ∈ st, Ordinary k) (hne : st ≠ []) : Final true st where
  named := fun k hk => ⟨(hst k hk).1, (hst k hk).2.1⟩
  notHere := fun hmem => (hst _ hmem).2.2.1 rfl
  settled := settled_root.mpr fun hmem => (hst _ hmem).2.2.2 rfl
  ordinary := by
    obtain ⟨k, st', rfl⟩ := List.exists_cons_of_ne_nil hne
    exact ⟨k, st', rfl, hst k List.mem_cons_self⟩

theorem normalizePath_directory (hst : ∀ k ∈ st, Ordinary k) :
    normalizePath (render true st) = some (render true st) := by
  by_cases hne : st = []
  · subst hne
    decide
  · exact (final_names hst hne).fixed

theorem splitOn_slashless (x : List Byte) : ∀ k ∈ x.splitOn slash, slash ∉ k := fun _ hk =>
  LineText.not_mem_of_mem_splitOn slash hk

theorem absoluteText_eq {x : List Byte} (hlast : Ordinary (lastComponent x))
    (hst : ∀ k ∈ st, Ordinary k) :
    absoluteText x.length x (render true st) =
      render true (copied (baseOf st) (x.splitOn slash)) := by
  obtain ⟨n, hn, hrun⟩ :=
    copyTurn_run (splitOn_slashless x) (fun _ => hlast) (baseOf_slashless hst)
  rw [List.intercalate_splitOn] at hn hrun
  obtain ⟨m, hm⟩ := Nat.le.dest hn
  obtain ⟨st', hcopied⟩ := @copied_last (baseOf st) _ (List.splitOn_ne_nil slash x) hlast
  rw [absoluteText, directory_bytes, ← hm, Nat.add_comm, Function.iterate_add_apply, hrun,
    copyTurn_done, stackBytes_reverse]
  rw [hcopied]
  exact List.cons_ne_nil _ _

theorem normalizePath_written (hne : st ≠ []) (hst : ∀ k ∈ st, slash ∉ k)
    (hlast : Ordinary (st.headD [])) :
    normalizePath (render true st) = some (render true (placeOf st)) ∧ Final true (placeOf st) := by
  have hsplit : (render true st).splitOn slash = [] :: st.reverse := by
    have hrender : render true st = slash :: [slash].intercalate st.reverse := rfl
    rw [hrender, List.splitOn_cons_eq_if_modifyHead, if_pos (beq_self_eq_true slash),
      List.splitOn_intercalate slash (fun k hk => hst k (List.mem_reverse.mp hk))
        (by simpa using hne)]
  have hlastComponent : lastComponent (render true st) = st.headD [] := by
    obtain ⟨k, st', rfl⟩ := List.exists_cons_of_ne_nil hne
    rw [lastComponent, hsplit, List.reverse_cons, ← List.cons_append, List.getLastD_concat]
    rfl
  have hdenotes : (denotes (render true st)).2 = placeOf st := by
    have hrooted : rooted (render true st) = true := rfl
    rw [denotes, hrooted, steps, components, hsplit, placeOf, foldl_pass,
      List.filter_cons_of_neg (by simp)]
  rw [← hdenotes]
  exact normalizePath_absolute rfl (by rw [hlastComponent]; exact hlast)

theorem absoluteFilePath_relative {x : List Byte} (hroot : rooted x = false)
    (hlast : Ordinary (lastComponent x)) (hst : ∀ k ∈ st, Ordinary k) :
    absoluteFilePath x (render true st) =
        some (render true (placeOf (copied (baseOf st) (x.splitOn slash)))) ∧
      Final true (placeOf (copied (baseOf st) (x.splitOn slash))) := by
  obtain ⟨st', hcopied⟩ := @copied_last (baseOf st) _ (List.splitOn_ne_nil slash x) hlast
  have hslashless : ∀ k ∈ copied (baseOf st) (x.splitOn slash), slash ∉ k := fun k hk =>
    (mem_copied hk).elim (baseOf_slashless hst k) (splitOn_slashless x k)
  have hne : copied (baseOf st) (x.splitOn slash) ≠ [] := by
    rw [hcopied]
    exact List.cons_ne_nil _ _
  have htop : Ordinary ((copied (baseOf st) (x.splitOn slash)).headD []) := by
    rw [hcopied]
    exact hlast
  obtain ⟨hrun, hfinal⟩ := normalizePath_written hne hslashless htop
  refine ⟨?_, hfinal⟩
  have hslash : ¬ (render true st).head? ≠ some slash := not_not.mpr rfl
  rw [absoluteFilePath, if_neg hslash, hroot, normalizePath_directory hst,
    if_neg Bool.false_ne_true]
  dsimp only
  rw [absoluteText_eq hlast hst, hrun]

theorem steps_foldl (x : List Byte) (st : List (List Byte)) :
    (x.splitOn slash).foldl pass st = resolve up true st (steps x) := foldl_pass _ _

theorem render_injective {st' : List (List Byte)} (h : Final true st) (h' : Final true st')
    (heq : render true st = render true st') : st = st' := by
  have hdenotes := h.denotes
  rw [heq, h'.denotes] at hdenotes
  exact (Prod.mk.inj hdenotes).2.symm

/-- `absolute_file_path` resolves a path in every directory exactly when it removes no component
that is no name. -/
theorem resolves_iff {x : List Byte} (hroot : rooted x = false)
    (hlast : Ordinary (lastComponent x)) :
    (∀ st b, Directory st b → Resolves x st b) ↔ strayFree none (x.splitOn slash) = true := by
  constructor
  · intro h
    by_contra hfree
    set st := List.replicate ((x.splitOn slash).length + 1) ([0x64] : List Byte) with hst
    have hnames : ∀ k ∈ st, Ordinary k := fun k hk => List.eq_of_mem_replicate hk ▸ ordinary_d
    have hbase : baseOf st = st := if_neg (by simp [hst])
    obtain ⟨hrun, hfinal⟩ := absoluteFilePath_relative hroot hlast hnames
    rw [hbase] at hrun hfinal
    have hresolves := h st _ ⟨hnames, rfl⟩
    rw [Resolves, hrun, Option.some.injEq, ← steps_foldl] at hresolves
    have hexpected : (x.splitOn slash).foldl pass st =
        placeOf ((x.splitOn slash).reverse ++ st) := by
      rw [placeOf, List.reverse_append, List.reverse_reverse, List.foldl_append]
      have hplace : st.reverse.foldl pass [] = st := placeOf_names hnames
      rw [hplace]
    rw [hexpected] at hresolves
    obtain ⟨m, s', -, hspelled⟩ := exists_spelled hlast
    have hfinal' : Final true (placeOf ((x.splitOn slash).reverse ++ st)) := by
      rw [← hexpected, steps_foldl]
      exact final_resolve_above (fun k hk => ⟨(hnames k hk).1, (hnames k hk).2.1⟩)
        (fun hmem => (hnames _ hmem).2.2.1 rfl)
        (settled_root.mpr fun hmem => (hnames _ hmem).2.2.2 rfl) hspelled
    have hsame := congrArg (fun st => (List.length st : Int))
      (render_injective hfinal hfinal' hresolves)
    have hdeep : Deep (copied st (x.splitOn slash)) 0 :=
      deep_copied ⟨[], _, hst.trans (List.nil_append _).symm, by rw [List.count_nil]; omega⟩
    have hdeep' : Deep ((x.splitOn slash).reverse ++ st) 0 := by
      refine ⟨(x.splitOn slash).reverse, _, congrArg _ hst, ?_⟩
      have hcount := List.count_le_length (a := up) (l := (x.splitOn slash).reverse)
      rw [List.length_reverse] at hcount
      omega
    have hlt := @lt_descents_copied st _ none nofun
      (Bool.not_eq_true _ ▸ hfree) (splitOn_slashless x) (fun k hk => (hnames k hk).2.1)
    rw [length_placeOf hdeep, length_placeOf hdeep', descents_append, descents_reverse] at hsame
    omega
  · rintro hfree st b ⟨hnames, rfl⟩
    obtain ⟨hrun, -⟩ := absoluteFilePath_relative hroot hlast hnames
    have hplace := @placeOf_copied _ _ none (plain_baseOf hnames) hfree (splitOn_slashless x)
    rw [Resolves, hrun, hplace, placeOf_baseOf hnames, steps_foldl]

/-- Components, each behind a slash -/
def joined (ks : List (List Byte)) : List Byte := (ks.map (slash :: ·)).flatten

theorem joined_cons : joined (k :: ks) = slash :: (k ++ joined ks) := rfl

theorem joined_eq (hne : ks ≠ []) : joined ks = slash :: [slash].intercalate ks := by
  induction ks with
  | nil => exact absurd rfl hne
  | cons k ks ih =>
      rw [joined_cons, intercalate_cons]
      by_cases hks : ks = []
      · subst hks
        rfl
      · rw [ih hks, behind_of_ne_nil hks]

theorem render_joined (hne : st ≠ []) : render true st = joined st.reverse := by
  rw [joined_eq (by simpa using hne)]
  rfl

theorem joined_split {u v : List Byte} (hks : ∀ k ∈ ks, slash ∉ k)
    (hv : v = [] ∨ ∃ t, v = slash :: t) (h : joined ks = u ++ v) :
    ∃ p q, ks = p ++ q ∧ u = joined p ∧ v = joined q := by
  induction ks generalizing u with
  | nil =>
      obtain ⟨rfl, rfl⟩ := List.append_eq_nil_iff.mp h.symm
      exact ⟨[], [], rfl, rfl, rfl⟩
  | cons k ks ih =>
      cases u with
      | nil => exact ⟨[], k :: ks, rfl, rfl, h.symm⟩
      | cons x u =>
          rw [joined_cons, List.cons_append] at h
          obtain ⟨rfl, h'⟩ := List.cons.inj h
          obtain ⟨w, rfl, hw⟩ | ⟨w, rfl, rfl⟩ := List.append_eq_append_iff.mp h'
          · obtain ⟨p, q, rfl, rfl, rfl⟩ := ih (fun k hk => hks k (List.mem_cons_of_mem _ hk)) hw
            exact ⟨k :: p, q, rfl, rfl, rfl⟩
          · cases w with
            | nil => exact ⟨[u], ks, by rw [List.append_nil]; rfl, (List.append_nil _).symm, rfl⟩
            | cons x w =>
                obtain hnil | ⟨t, ht⟩ := hv
                · exact absurd hnil (List.cons_ne_nil _ _)
                · have hx := (List.cons.inj ht).1
                  exact absurd (by rw [hx]; simp) (hks _ List.mem_cons_self)

theorem splitOn_of_joined (hks : ∀ k ∈ ks, slash ∉ k) : (joined ks).splitOn slash = [] :: ks := by
  by_cases hne : ks = []
  · subst hne
    rfl
  · rw [joined_eq hne, List.splitOn_cons_eq_if_modifyHead, if_pos (beq_self_eq_true slash),
      List.splitOn_intercalate slash hks hne]

theorem joined_injective {p q : List (List Byte)} (hp : ∀ k ∈ p, slash ∉ k)
    (hq : ∀ k ∈ q, slash ∉ k) (h : joined p = joined q) : p = q := by
  have hsplit := congrArg (List.splitOn slash) h
  rw [splitOn_of_joined hp, splitOn_of_joined hq] at hsplit
  exact (List.cons.inj hsplit).2

theorem count_joined (hks : ∀ k ∈ ks, slash ∉ k) : (joined ks).count slash = ks.length := by
  induction ks with
  | nil => rfl
  | cons k ks ih =>
      rw [joined_cons, List.count_cons_self, List.count_append,
        List.count_eq_zero.mpr (hks k List.mem_cons_self),
        ih fun k hk => hks k (List.mem_cons_of_mem _ hk), List.length_cons]
      omega

/-- Both paths are the same up to place `j`, where a component starts in both of them. -/
structure Boundary (a b : List Byte) (j : Nat) : Prop where
  same : b.take j = a.take j
  left : ∃ t, a.drop j = slash :: t
  right : b.drop j = [] ∨ ∃ t, b.drop j = slash :: t

theorem maxPrefix_take (a b : List Byte) : ∀ j ≤ maxPrefix a b, b.take j = a.take j := by
  induction a generalizing b with
  | nil =>
      intro j hj
      obtain rfl := Nat.le_zero.mp hj
      rfl
  | cons x a ih =>
      intro j hj
      cases j with
      | zero => rfl
      | succ j =>
          cases b with
          | nil => exact absurd hj (Nat.not_succ_le_zero j)
          | cons y b =>
              rw [maxPrefix] at hj
              split at hj
              · case _ heq =>
                rw [heq, List.take_succ_cons, List.take_succ_cons, ih b j (by omega)]
              · exact absurd hj (Nat.not_succ_le_zero j)

theorem drop_slash {i : Nat} (h : a.getD i 0 = slash) : ∃ t, a.drop i = slash :: t := by
  obtain hlt | hge := Nat.lt_or_ge i a.length
  · rw [List.getD_eq_getElem _ _ hlt] at h
    exact ⟨_, by rw [List.drop_eq_getElem_cons hlt, h]⟩
  · rw [List.getD_eq_default _ _ hge] at h
    exact absurd h (by decide)

theorem drop_same {i : Nat} (hi : i < maxPrefix a b) (h : a.getD i 0 = slash) :
    ∃ t, b.drop i = slash :: t := by
  refine drop_slash ?_
  have hsame := congrArg (fun l => l.getD i 0) (maxPrefix_take a b (i + 1) hi)
  rw [List.getD_eq_getElem?_getD, List.getD_eq_getElem?_getD, List.getElem?_take_of_lt (by omega),
    List.getElem?_take_of_lt (by omega), ← List.getD_eq_getElem?_getD,
    ← List.getD_eq_getElem?_getD] at hsame
  rw [hsame, h]

theorem dirLoop_boundary {turns i j : Nat} (h : Boundary a b j)
    (hi : i + turns = maxPrefix a b + 1) :
    Boundary a b (dirLoop a b (maxPrefix a b) turns i j) := by
  induction turns generalizing i j with
  | zero => exact h
  | succ turns ih =>
      rw [dirLoop]
      split
      · case _ hslash =>
        split
        · exact h
        · case _ hstop =>
          refine ih ⟨maxPrefix_take a b i (by omega), drop_slash hslash, ?_⟩ (by omega)
          obtain hlt | hge := Nat.lt_or_ge i (maxPrefix a b)
          · exact .inr (drop_same hlt hslash)
          · refine .inl (List.drop_eq_nil_iff.mpr ?_)
            by_contra hlen
            exact hstop ⟨by omega, by omega⟩
      · exact ih h (by omega)

theorem commonDir_boundary (ha : a.head? = some slash) (hb : b.head? = some slash) :
    Boundary a b (commonDir a b) := by
  have hhead : ∀ {s : List Byte}, s.head? = some slash → ∃ t, s.drop 0 = slash :: t := by
    intro s hs
    cases s with
    | nil => exact absurd hs nofun
    | cons x s => exact ⟨s, by rw [← Option.some.inj hs]; rfl⟩
  exact dirLoop_boundary ⟨rfl, hhead ha, .inr (hhead hb)⟩ (Nat.zero_add _)

theorem exists_common {p q : List (List Byte)} (hp : ∀ k ∈ p, slash ∉ k) (hq : ∀ k ∈ q, slash ∉ k)
    {j : Nat} (h : Boundary (joined p) (joined q) j) :
    ∃ front p' q', p = front ++ p' ∧ q = front ++ q' ∧ p' ≠ [] ∧
      (joined p).drop j = joined p' ∧ (joined q).drop j = joined q' := by
  obtain ⟨front, p', rfl, htake, hdrop⟩ := joined_split hp (.inr h.left)
    (List.take_append_drop j (joined p)).symm
  obtain ⟨front', q', rfl, htake', hdrop'⟩ := joined_split hq h.right
    (List.take_append_drop j (joined q)).symm
  have hfront : front' = front := by
    refine joined_injective (fun k hk => hq k (List.mem_append_left _ hk))
      (fun k hk => hp k (List.mem_append_left _ hk)) ?_
    rw [← htake, ← htake', h.same]
  subst hfront
  refine ⟨front', p', q', rfl, rfl, ?_, hdrop, hdrop'⟩
  rintro rfl
  obtain ⟨t, ht⟩ := h.left
  rw [hdrop] at ht
  exact absurd ht nofun

theorem common_root {p : List (List Byte)} (hp : Named p) {j : Nat}
    (h : Boundary (joined p) [slash] j) : j = 0 := by
  obtain ⟨front, p', rfl, htake, -⟩ := joined_split (fun k hk => (hp k hk).2) (.inr h.left)
    (List.take_append_drop j (joined p)).symm
  cases front with
  | nil =>
      cases j with
      | zero => rfl
      | succ j =>
          rw [← h.same] at htake
          exact absurd htake nofun
  | cons k front =>
      have hne := (hp k List.mem_cons_self).1
      have hlen := List.length_pos_iff.mpr hne
      have htwo := congrArg List.length htake
      rw [← h.same, joined_cons, List.length_cons, List.length_append] at htwo
      have hone := List.length_take_le j [slash]
      rw [List.length_take, List.length_singleton] at htwo
      omega

theorem relativeText_eq {names : List (List Byte)} {n : Nat} (hne : names ≠ [])
    (hdrop : a.drop (commonDir a b) = joined names) (hup : upDirs a b = n) :
    relativeText a b = render false (names.reverse ++ List.replicate n up) := by
  have hrest : a.drop (commonDir a b + 1) = [slash].intercalate names := by
    rw [← List.tail_drop, hdrop, joined_eq hne]
    rfl
  have hjoin : ∀ n, (List.replicate n (up ++ [slash])).flatten ++ [slash].intercalate names =
      [slash].intercalate (List.replicate n up ++ names) := by
    intro n
    induction n with
    | zero => rfl
    | succ n ih =>
        rw [List.replicate_succ, List.replicate_succ, List.cons_append, intercalate_cons,
          behind_of_ne_nil (by simp [hne]), ← ih, List.flatten_cons]
        simp
  rw [relativeText, hup, hrest, hjoin, render, List.reverse_append, List.reverse_reverse,
    List.reverse_replicate]
  rfl

theorem resolve_out {names : List (List Byte)} (hnames : up ∉ names) :
    resolve up true (names ++ st) (List.replicate names.length up) = st := by
  induction names with
  | nil => rfl
  | cons k names ih =>
      have hk : k ≠ up := fun heq => hnames (heq ▸ List.mem_cons_self)
      rw [List.length_cons, List.replicate_succ, resolve_cons, List.cons_append, enter_up_name hk]
      exact ih fun hmem => hnames (List.mem_cons_of_mem _ hmem)

theorem resolve_in {names : List (List Byte)} (hnames : up ∉ names) :
    resolve up true st names = names.reverse ++ st := by
  induction names generalizing st with
  | nil => rfl
  | cons k names ih =>
      have hk : k ≠ up := fun heq => hnames (heq ▸ List.mem_cons_self)
      rw [resolve_cons, enter_name hk, ih fun hmem => hnames (List.mem_cons_of_mem _ hmem)]
      simp

theorem strayFree_of_not_mem (h : [] ∉ ks) : strayFree none ks = true := by
  induction ks with
  | nil => rfl
  | cons k ks ih =>
      have hrest := ih fun hmem => h (List.mem_cons_of_mem _ hmem)
      have hne : k ≠ [] := fun heq => h (heq ▸ List.mem_cons_self)
      by_cases hup : k = up
      · rw [hup, strayFree_up, hrest]
      · by_cases hhere : k = here
        · rw [hhere, strayFree_here, hrest]
        · rw [strayFree_name hup hhere hne]
          exact hrest

theorem names_of_final (h : Final true st) : ∀ k ∈ st, Ordinary k := fun k hk =>
  ⟨(h.named k hk).1, (h.named k hk).2, fun heq => h.notHere (heq ▸ hk),
    fun heq => settled_root.mp h.settled (heq ▸ hk)⟩

theorem exists_relative {st' : List (List Byte)} (h : Final true st)
    (hst' : ∀ k ∈ st', Ordinary k) :
    ∃ names n, relativeText (render true st) (render true st') =
        render false (names.reverse ++ List.replicate n up) ∧
      names ≠ [] ∧ (∀ k ∈ names, Ordinary k) ∧
      resolve up true st' (List.replicate n up ++ names) = st := by
  have hnames := names_of_final h
  have hslash : ∀ k ∈ st.reverse, slash ∉ k := fun k hk =>
    (h.named k (List.mem_reverse.mp hk)).2
  have hup : up ∉ st.reverse := fun hmem =>
    settled_root.mp h.settled (List.mem_reverse.mp hmem)
  have hboundary := commonDir_boundary (a := render true st) (b := render true st') rfl rfl
  rw [render_joined h.ne_nil] at hboundary ⊢
  by_cases hne : st' = []
  · subst hne
    have hroot := common_root (fun k hk => h.named k (List.mem_reverse.mp hk)) hboundary
    have hrender : render true [] = [slash] := rfl
    rw [hrender] at hroot ⊢
    refine ⟨st.reverse, 1, relativeText_eq (by simpa using h.ne_nil) ?_ ?_, by simpa using h.ne_nil,
      fun k hk => hnames k (List.mem_reverse.mp hk), ?_⟩
    · rw [hroot]
      rfl
    · rw [upDirs, hroot]
      rfl
    · rw [resolve_append, List.replicate_one, resolve_cons, enter_up_root, resolve_nil,
        resolve_in hup, List.reverse_reverse, List.append_nil]
  · have hslash' : ∀ k ∈ st'.reverse, slash ∉ k := fun k hk =>
      (hst' k (List.mem_reverse.mp hk)).2.1
    rw [render_joined hne] at hboundary ⊢
    obtain ⟨front, p, q, hp, hq, hpne, hdrop, hdrop'⟩ := exists_common hslash hslash' hboundary
    have hqslash : ∀ k ∈ q, slash ∉ k := fun k hk => hslash' k (hq ▸ List.mem_append_right _ hk)
    refine ⟨p, q.length, relativeText_eq hpne hdrop ?_, hpne, fun k hk => ?_, ?_⟩
    · rw [upDirs, hdrop', count_joined hqslash]
    · exact hnames k (List.mem_reverse.mp (hp ▸ List.mem_append_right _ hk))
    · have hst'eq : st' = q.reverse ++ front.reverse := by
        rw [← List.reverse_append, ← hq, List.reverse_reverse]
      have hqup : up ∉ q.reverse := fun hmem =>
        (hst' up (by rw [hst'eq]; simp [List.mem_reverse.mp hmem])).2.2.2 rfl
      have hpup : up ∉ p := fun hmem => hup (hp ▸ List.mem_append_right _ hmem)
      rw [resolve_append, hst'eq, ← @List.length_reverse _ q, resolve_out hqup, resolve_in hpup,
        ← List.reverse_append, ← hp, List.reverse_reverse]

theorem final_relative {names : List (List Byte)} (hne : names ≠ [])
    (hnames : ∀ k ∈ names, Ordinary k)
    (n : Nat) : Final false (names.reverse ++ List.replicate n up) where
  named := by
    intro k hk
    obtain hmem | hmem := List.mem_append.mp hk
    · have hk' := hnames k (List.mem_reverse.mp hmem)
      exact ⟨hk'.1, hk'.2.1⟩
    · rw [List.eq_of_mem_replicate hmem]
      decide
  notHere := by
    intro hmem
    obtain hmem | hmem := List.mem_append.mp hmem
    · exact (hnames here (List.mem_reverse.mp hmem)).2.2.1 rfl
    · exact absurd (List.eq_of_mem_replicate hmem) (by decide)
  settled := ⟨names.reverse, n, rfl, fun hmem => (hnames up (List.mem_reverse.mp hmem)).2.2.2 rfl,
    nofun⟩
  ordinary := by
    obtain ⟨k, st', hst⟩ := List.exists_cons_of_ne_nil (show names.reverse ≠ [] by simpa using hne)
    refine ⟨k, st' ++ List.replicate n up, by rw [hst]; rfl, ?_⟩
    exact hnames k (List.mem_reverse.mp (hst ▸ List.mem_cons_self))

theorem Final.lastComponent (h : Final false st) : Ordinary (lastComponent (render false st)) := by
  obtain ⟨k, st', hst, hk⟩ := h.ordinary
  have hrender : render false st = [slash].intercalate st.reverse := rfl
  rw [Paths.lastComponent, hrender, h.splitOn, hst, List.reverse_cons, List.getLastD_concat]
  exact hk

theorem inverse (hroot : rooted a = true) (hlast : Ordinary (lastComponent a))
    (hb : Directory st b) : Inverse a b := by
  obtain ⟨hst, rfl⟩ := hb
  obtain ⟨hrun, hfinal⟩ := normalizePath_absolute hroot hlast
  obtain ⟨names, n, htext, hne, hnames, hresolve⟩ := exists_relative hfinal hst
  have hrelative := final_relative hne hnames n
  set r := render false (names.reverse ++ List.replicate n up) with hr
  have hslash : ¬ ((render true (denotes a).2).head? ≠ some slash ∨
      (render true st).head? ≠ some slash) := not_or.mpr ⟨not_not.mpr rfl, not_not.mpr rfl⟩
  have hrel : relativeFilePath a (render true st) = some r := by
    rw [relativeFilePath, hrun]
    dsimp only
    rw [if_neg hslash, htext]
    exact hrelative.fixed
  have hfree : strayFree none (r.splitOn slash) = true := by
    refine strayFree_of_not_mem fun hmem => ?_
    rw [hr] at hmem
    have hsplit : (render false (names.reverse ++ List.replicate n up)).splitOn slash = _ :=
      hrelative.splitOn
    rw [hsplit] at hmem
    exact (hrelative.named [] (List.mem_reverse.mp hmem)).1 rfl
  have hback : absoluteFilePath r (render true st) = some (render true (denotes a).2) := by
    rw [(resolves_iff hrelative.rooted (Final.lastComponent hrelative)).mpr hfree st _ ⟨hst, rfl⟩,
      hrelative.steps, List.reverse_append, List.reverse_reverse, List.reverse_replicate, hresolve]
  have hsame : absoluteFilePath r (render true st) = absoluteFilePath a (render true st) := by
    rw [absoluteFilePath, absoluteFilePath, hrelative.rooted, hroot, if_neg Bool.false_ne_true,
      if_pos rfl, hrel]
  exact ⟨r, hrel, hrelative.rooted, hsame, hsame ▸ hback⟩

/-- In front of what is still to be read there is room for it, and for a slash. -/
def Room (n : Nat) (p : List Byte × List Byte) : Prop :=
  if p.2 = [] then p.1.length ≤ n + 1 else p.1.length + p.2.length ≤ n

theorem Room.turn {p : List Byte × List Byte} (h : Room n p) : Room n (copyTurn p) := by
  obtain ⟨c, aa⟩ := p
  cases aa with
  | nil => exact h
  | cons x r =>
      have hroom : c.length + (r.length + 1) ≤ n := h
      have hshort : ∀ (c' r' : List Byte), c'.length + r'.length ≤ n → Room n (c', r') := by
        intro c' r' hle
        rw [Room]
        split
        · dsimp only
          omega
        · exact hle
      rw [copyTurn]
      split
      · have hle := (List.dropWhile_suffix (p := (· ≠ slash)) (l := c)).length_le
        refine hshort _ _ ?_
        rw [List.length_tail, List.length_drop]
        omega
      split
      · refine hshort _ _ ?_
        rw [List.length_drop]
        omega
      · have hsplit := congrArg List.length
          (List.takeWhile_append_dropWhile (p := (· ≠ slash)) (l := r))
        rw [List.length_append] at hsplit
        rw [Room]
        split
        · simp only [List.length_append, List.length_reverse, List.length_cons]
          omega
        · case _ hmore =>
          have hpos := List.length_pos_iff.mpr hmore
          dsimp only at hpos ⊢
          rw [List.length_drop] at hpos ⊢
          simp only [List.length_append, List.length_reverse, List.length_cons]
          omega

theorem fits (a b : List Byte) : Fits a b where
  relative := by
    have hups : ∀ n, (List.replicate n (up ++ [slash])).flatten.length = 3 * n := by
      intro n
      induction n with
      | zero => rfl
      | succ n ih =>
          have hthree : (up ++ [slash]).length = 3 := rfl
          rw [List.replicate_succ, List.flatten_cons, List.length_append, ih, hthree]
          omega
    rw [relativeText, relativeSize, List.length_append, hups, List.length_drop, List.length_drop]
    omega
  absolute := by
    intro turns
    have hroom : Room (a.length + b.length) (copyTurn^[turns] (b.reverse, a)) := by
      refine Function.Iterate.rec (Room (a.length + b.length)) ?_ (fun p hp => hp.turn) turns
      rw [Room]
      dsimp only
      rw [List.length_reverse]
      split <;> omega
    rw [absoluteText, absoluteSize, List.length_reverse]
    rw [Room] at hroom
    split at hroom <;> omega
  normalized := fun _ _ h => normalizePath_length h

/-- Absolute and relative paths are inverse, and nothing is written outside; the absolute path of
`x` is the right one in every directory exactly when no component behind an empty one climbs above
it. -/
theorem filePaths_iff {x : List Byte} (hroot : rooted x = false)
    (hlast : Ordinary (lastComponent x)) :
    ((∀ a st b, rooted a = true → Ordinary (lastComponent a) → Directory st b → Inverse a b) ∧
      (∀ st b, Directory st b → Resolves x st b) ∧ ∀ a b, Fits a b) ↔
      strayFree none (x.splitOn slash) = true := by
  rw [← resolves_iff hroot hlast]
  exact ⟨fun h => h.2.1, fun h => ⟨fun a st b ha hlast hb => inverse ha hlast hb, h, fits⟩⟩

/-- The path `../p//q/./r` in `/b` -/
theorem filePaths_empty :
    Resolves [dot, dot, slash, 0x70, slash, slash, 0x71, slash, dot, slash, 0x72] [[0x62]]
      [slash, 0x62] :=
  ((filePaths_iff (by decide) (by decide)).mpr (by decide)).2.1 [[0x62]] [slash, 0x62]
    ⟨by decide, by decide⟩

/-- In `/b`, the path `p///../q` is made `/b/p/q`. -/
theorem not_filePaths :
    ¬ ∀ x : List Byte, rooted x = false → Ordinary (lastComponent x) →
      (∀ a st b, rooted a = true → Ordinary (lastComponent a) → Directory st b → Inverse a b) ∧
        (∀ st b, Directory st b → Resolves x st b) ∧ ∀ a b, Fits a b := by
  intro h
  obtain ⟨-, hresolves, -⟩ :=
    h [0x70, slash, slash, slash, dot, dot, slash, 0x71] (by decide) (by decide)
  have hb := hresolves [[0x62]] [slash, 0x62] ⟨by decide, by decide⟩
  have hresult : absoluteFilePath [0x70, slash, slash, slash, dot, dot, slash, 0x71]
      [slash, 0x62] = some [slash, 0x62, slash, 0x70, slash, 0x71] := by decide
  rw [Resolves, hresult] at hb
  exact absurd hb (by decide)

end NiceEditor.RelativePaths
