import NiceEditor.Paths

namespace NiceEditor.NormalizedPaths

open NiceEditor.LexicalPaths
open NiceEditor.Pools
open NiceEditor.Paths

/-- A path behind the slash of the root -/
def body (s : List Byte) : List Byte := if rooted s then s.tail else s

/-- A path has no empty component, no component `.`, and no name in front of `..`. -/
structure Clean (s : List Byte) : Prop where
  notEmpty : [] ∉ (body s).splitOn slash
  notHere : here ∉ (body s).splitOn slash
  notCancelled : ∀ front name rest,
    (body s).splitOn slash = front ++ name :: up :: rest → name = up

/-- `normalize_path` ends with a clean path that it does not change again, and that denotes what the
path did. -/
def Sound (s : List Byte) : Prop :=
  ∃ r, normalizePath s = some r ∧ Clean r ∧ normalizePath r = some r ∧ denotes r = denotes s

/-- The start of a path can be kept as it is: at the root, or when it is `..` or a name that no
`..` leaves. -/
def KeepsStart (s : List Byte) : Prop :=
  rooted s = true ∨
    ∃ k ks, components s = k :: ks ∧ k ≠ here ∧
      (k = up ∨ climbs up 0 (ks.filter (· ≠ here)) = false)

/-- A stack of components that `normalize_path` can end with -/
structure Final (root : Bool) (st : List (List Byte)) : Prop where
  named : Named st
  notHere : here ∉ st
  settled : Settled up root st
  ordinary : ∃ k st', st = k :: st' ∧ Ordinary k

variable {s r k : List Byte} {st ks : List (List Byte)} {root : Bool}

theorem splitOn_joined (hst : Named st) (hne : st ≠ []) :
    ([slash].intercalate st.reverse).splitOn slash = st.reverse :=
  List.splitOn_intercalate slash (fun k hk => (hst k (List.mem_reverse.mp hk)).2)
    (by simpa using hne)

theorem off_joined (hst : Named st) (hne : st ≠ []) : Off ([slash].intercalate st.reverse) := by
  intro heq
  obtain ⟨t, ht⟩ : ∃ t, [slash].intercalate st.reverse = slash :: t := by
    revert heq
    cases [slash].intercalate st.reverse with
    | nil => exact nofun
    | cons x t => exact fun heq => ⟨t, by rw [Option.some.inj heq]⟩
  have hsplit := splitOn_joined hst hne
  rw [ht, List.splitOn_cons_eq_if_modifyHead, if_pos (beq_self_eq_true slash)] at hsplit
  have hmem : [] ∈ st.reverse := hsplit ▸ List.mem_cons_self
  exact (hst [] (List.mem_reverse.mp hmem)).1 rfl

theorem Final.ne_nil (h : Final root st) : st ≠ [] := by
  obtain ⟨k, st', rfl, -⟩ := h.ordinary
  exact List.cons_ne_nil _ _

theorem Final.splitOn (h : Final root st) :
    ([slash].intercalate st.reverse).splitOn slash = st.reverse := splitOn_joined h.named h.ne_nil

theorem Final.off (h : Final root st) : Off ([slash].intercalate st.reverse) :=
  off_joined h.named h.ne_nil

theorem Final.rooted (h : Final root st) : rooted (render root st) = root := by
  cases root with
  | true => rfl
  | false => exact decide_eq_false h.off

theorem Final.body (h : Final root st) :
    body (render root st) = [slash].intercalate st.reverse := by
  rw [NormalizedPaths.body, h.rooted, render]
  cases root <;> rfl

theorem Final.components (h : Final root st) : components (render root st) = st.reverse := by
  have hfilter : st.reverse.filter (· ≠ []) = st.reverse :=
    List.filter_eq_self.mpr fun k hk =>
      decide_eq_true (h.named k (List.mem_reverse.mp hk)).1
  have hsplit := h.splitOn
  cases root with
  | true =>
      have hrender : render true st = slash :: [slash].intercalate st.reverse := rfl
      rw [Paths.components, hrender, List.splitOn_cons_eq_if_modifyHead,
        if_pos (beq_self_eq_true slash), hsplit, List.filter_cons_of_neg (by simp), hfilter]
  | false =>
      have hrender : render false st = [slash].intercalate st.reverse := rfl
      rw [Paths.components, hrender, hsplit, hfilter]

theorem Final.filter_here (h : Final root st) : st.reverse.filter (· ≠ here) = st.reverse :=
  List.filter_eq_self.mpr fun _ hk =>
    decide_eq_true fun heq => h.notHere (heq ▸ List.mem_reverse.mp hk)

theorem Final.steps (h : Final root st) : steps (render root st) = st.reverse := by
  rw [Paths.steps, h.components, h.filter_here]

theorem Final.denotes (h : Final root st) : denotes (render root st) = (root, st) := by
  rw [Paths.denotes, h.rooted, h.steps, resolve_reverse h.settled]

theorem Final.clean (h : Final root st) : Clean (render root st) := by
  have hparts : (NormalizedPaths.body (render root st)).splitOn slash = st.reverse := by
    rw [h.body, h.splitOn]
  refine ⟨?_, ?_, ?_⟩
  · rw [hparts]
    exact fun hmem => (h.named [] (List.mem_reverse.mp hmem)).1 rfl
  · rw [hparts]
    exact fun hmem => h.notHere (List.mem_reverse.mp hmem)
  · intro front name rest heq
    rw [hparts] at heq
    have hst : st = rest.reverse ++ up :: name :: front.reverse := by
      rw [← List.reverse_reverse st, heq]
      simp
    have hsettled := h.settled
    rw [hst] at hsettled
    obtain ⟨-, n, hn⟩ := hsettled.of_append.below_up
    exact (List.eq_of_mem_replicate (hn ▸ List.mem_cons_self : name ∈ List.replicate n up))

theorem Final.spelled (h : Final root st) :
    Spelled st.reverse ([slash].intercalate st.reverse) := by
  obtain ⟨k, st', hst, hk⟩ := h.ordinary
  have hlast : Ordinary (lastComponent ([slash].intercalate st.reverse)) := by
    rw [lastComponent, h.splitOn, hst, List.reverse_cons, List.getLastD_concat]
    exact hk
  have hcomponents : Paths.components ([slash].intercalate st.reverse) = st.reverse := by
    rw [Paths.components, h.splitOn]
    exact List.filter_eq_self.mpr fun k hk =>
      decide_eq_true (h.named k (List.mem_reverse.mp hk)).1
  obtain ⟨m, s', heq, hs'⟩ := exists_spelled hlast
  cases m with
  | succ m =>
      refine absurd ?_ h.off
      rw [heq, List.replicate_succ]
      rfl
  | zero =>
      rw [List.replicate_zero, List.nil_append] at heq
      rw [hcomponents] at hs'
      rw [heq]
      exact hs'

theorem Final.fixed (h : Final root st) :
    normalizePath (render root st) = some (render root st) := by
  have hspelled := h.spelled
  cases root with
  | true =>
      have hrun := normalizePath_rooted hspelled 0
      rw [h.filter_here, resolve_reverse h.settled] at hrun
      exact hrun
  | false =>
      obtain ⟨front, k, rfl⟩ : ∃ front k, st = front ++ [k] := by
        obtain ⟨k, st', rfl, -⟩ := h.ordinary
        exact ⟨_, _, (List.dropLast_append_getLast (List.cons_ne_nil k st')).symm⟩
      have hhere : k ≠ here := fun heq => h.notHere (by simp [heq])
      have hfilter : front.reverse.filter (· ≠ here) = front.reverse :=
        List.filter_eq_self.mpr fun x hx => decide_eq_true fun heq =>
          h.notHere (List.mem_append_left _ (heq ▸ List.mem_reverse.mp hx))
      rw [List.reverse_append, List.reverse_singleton, List.singleton_append] at hspelled
      have hrun := normalizePath_relative hspelled hhere
      rw [hfilter, resolve_reverse h.settled.front] at hrun
      have hrender : render false (front ++ [k]) = [slash].intercalate (k :: front.reverse) := by
        rw [render, List.reverse_append, List.reverse_singleton, List.singleton_append]
        rfl
      rw [hrender]
      rw [hrender] at hrun
      exact hrun

theorem final_resolve_above (hnamed : Named st) (hhere : here ∉ st) (hsettled : Settled up root st)
    (h : Spelled ks s) : Final root (resolve up root st (ks.filter (· ≠ here))) where
  named := by
    intro k hk
    obtain hmem | hmem := mem_resolve hk
    · exact hnamed k hmem
    · exact h.named k (List.mem_of_mem_filter hmem)
  notHere := by
    intro hmem
    obtain hst | hfilter := mem_resolve hmem
    · exact hhere hst
    · exact absurd rfl (of_decide_eq_true (List.mem_filter.mp hfilter).2)
  settled := settled_resolve hsettled _
  ordinary := h.resolve root st

theorem final_resolve (h : Spelled ks s) :
    Final root (resolve up root [] (ks.filter (· ≠ here))) :=
  final_resolve_above (fun _ hk => absurd hk List.not_mem_nil) List.not_mem_nil settled_nil h

theorem Final.sound (h : Final root st) (hrun : normalizePath s = some (render root st))
    (hs : Paths.denotes s = (root, st)) : Sound s :=
  ⟨_, hrun, h.clean, h.fixed, h.denotes.trans hs.symm⟩

theorem not_clean_of_climbs (h : Spelled (k :: ks) s) (hup : k ≠ up)
    (hclimbs : climbs up 0 (ks.filter (· ≠ here)) = true) :
    ¬ Clean (render false (resolve up false [] (ks.filter (· ≠ here)) ++ [k])) := by
  set st := resolve up false [] (ks.filter (· ≠ here)) ++ [k] with hst
  have hnamed : Named st := by
    intro x hx
    obtain hmem | hmem := List.mem_append.mp hx
    · have hks := (mem_resolve hmem).resolve_left List.not_mem_nil
      exact h.named x (List.mem_cons_of_mem _ (List.mem_of_mem_filter hks))
    · rw [List.mem_singleton.mp hmem]
      exact h.named k List.mem_cons_self
  have hne : st ≠ [] := by simp [hst]
  have hbody : body (render false st) = [slash].intercalate st.reverse := by
    have hrooted : rooted (render false st) = false := decide_eq_false (off_joined hnamed hne)
    rw [body, hrooted]
    rfl
  obtain ⟨st', hst'⟩ := @resolve_climbs _ _ _ [] _ hclimbs List.not_mem_nil
  have hparts : (body (render false st)).splitOn slash = [] ++ k :: up :: st'.reverse := by
    rw [hbody, splitOn_joined hnamed hne, hst, hst']
    simp
  exact fun hclean => hup (hclean.notCancelled _ _ _ hparts)

theorem resolve_kept (hhere : k ≠ here)
    (hkept : k = up ∨ climbs up 0 (ks.filter (· ≠ here)) = false) :
    resolve up false [] ((k :: ks).filter (· ≠ here)) =
      resolve up false [] (ks.filter (· ≠ here)) ++ [k] := by
  have hfilter : (k :: ks).filter (· ≠ here) = k :: ks.filter (· ≠ here) := by simp [hhere]
  rw [hfilter, resolve_cons]
  by_cases hup : k = up
  · rw [hup, enter_up_nil]
    exact resolve_above_up [] _
  · rw [enter_name hup]
    exact (@resolve_above _ _ _ [] _ _ (hkept.resolve_left hup) List.not_mem_nil).2 false

theorem normalizePath_absolute (hroot : rooted s = true) (hlast : Ordinary (lastComponent s)) :
    normalizePath s = some (render true (denotes s).2) ∧ Final true (denotes s).2 := by
  obtain ⟨m, s', hs, hspelled⟩ := exists_spelled hlast
  rw [denotes, hroot]
  refine ⟨?_, final_resolve hspelled⟩
  cases m with
  | succ m =>
      have hrun := normalizePath_rooted hspelled m
      rw [← hs] at hrun
      exact hrun
  | zero =>
      rw [List.replicate_zero, List.nil_append] at hs
      rw [← hs] at hspelled
      exact absurd ((decide_eq_false hspelled.off).symm.trans hroot) nofun

/-- `normalize_path` is sound for a path exactly when it can keep its start. -/
theorem normalizePath_sound_iff (hlast : Ordinary (lastComponent s)) : Sound s ↔ KeepsStart s := by
  obtain ⟨m, s', hs, hspelled⟩ := exists_spelled hlast
  cases m with
  | succ m =>
      have hrooted : rooted s = true := by
        rw [hs]
        rfl
      obtain ⟨hrun, hfinal⟩ := normalizePath_absolute hrooted hlast
      exact ⟨fun _ => .inl hrooted, fun _ => hfinal.sound hrun (by rw [denotes, hrooted])⟩
  | zero =>
      rw [List.replicate_zero, List.nil_append] at hs
      rw [← hs] at hspelled
      have hrooted : rooted s = false := decide_eq_false hspelled.off
      generalize hks : components s = ks at hspelled
      obtain _ | ⟨k, ks⟩ := ks
      · cases hspelled
      by_cases hhere : k = here
      · subst hhere
        constructor
        · rintro ⟨r, hrun, -, -, hdenotes⟩
          rw [normalizePath_here hspelled, Option.some.injEq] at hrun
          have hroot := congrArg Prod.fst hdenotes
          rw [← hrun] at hroot
          exact absurd (hroot.trans hrooted) nofun
        · rintro (hroot | ⟨k, ks', heq, hne, -⟩)
          · exact absurd (hrooted.symm.trans hroot) nofun
          · rw [hks, List.cons.injEq] at heq
            exact absurd heq.1.symm hne
      · have hrun := normalizePath_relative hspelled hhere
        constructor
        · rintro ⟨r, hrun', hclean, -, -⟩
          refine .inr ⟨k, ks, hks, hhere, ?_⟩
          by_contra hnot
          obtain ⟨hup, hclimbs⟩ := not_or.mp hnot
          rw [hrun, Option.some.injEq] at hrun'
          rw [← hrun'] at hclean
          exact not_clean_of_climbs hspelled hup (Bool.not_eq_false _ ▸ hclimbs) hclean
        · rintro (hroot | ⟨k', ks', heq, -, hkept⟩)
          · exact absurd (hrooted.symm.trans hroot) nofun
          · rw [hks, List.cons.injEq] at heq
            obtain ⟨rfl, rfl⟩ := heq
            rw [← resolve_kept hhere hkept] at hrun
            refine (@final_resolve _ _ false hspelled).sound hrun ?_
            rw [denotes, hrooted, steps, hks]

/-- The path `a/./b//../c` -/
theorem normalizePath_sound_inside :
    Sound [0x61, slash, dot, slash, 0x62, slash, slash, dot, dot, slash, 0x63] :=
  (normalizePath_sound_iff (by decide)).mpr
    (.inr ⟨[0x61], [here, [0x62], up, [0x63]], by decide, by decide, .inr (by decide)⟩)

/-- The path `./a` becomes `/a`. -/
theorem not_normalizePath_sound :
    ¬ ∀ s : List Byte, Ordinary (lastComponent s) → Sound s := by
  intro h
  obtain ⟨r, hrun, -, -, hdenotes⟩ := h [dot, slash, 0x61] (by decide)
  have hresult : normalizePath [dot, slash, 0x61] = some [slash, 0x61] := by decide
  rw [hresult, Option.some.injEq] at hrun
  rw [← hrun] at hdenotes
  exact absurd hdenotes (by decide)

end NiceEditor.NormalizedPaths
