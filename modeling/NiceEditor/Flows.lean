import Mathlib.Data.List.Dedup

namespace NiceEditor.Flows

/-- How a statement is left before its end. -/
inductive Exit
  | brk | cont | ret
deriving DecidableEq, Repr

/-- What is left of a procedure when the data that its conditions look at are forgotten.  A
condition that is kept is an operation that does nothing, or nothing at all, in the states
in which the condition does not hold. -/
inductive Flow (ι : Type)
  | skip
  | op (i : ι)
  | seq (p q : Flow ι)
  | choose (p q : Flow ι)
  | loop (p : Flow ι)
  | exit (e : Exit)
  | body (p : Flow ι)

/-- Some statements one after the other -/
def block {ι : Type} : List (Flow ι) → Flow ι
  | [] => .skip
  | [p] => p
  | p :: ps => .seq p (block ps)

/-- A conditional statement -/
def optional {ι : Type} (p : Flow ι) : Flow ι := .choose p .skip

variable {ι σ α β : Type}

/-- The statement `p` is executed from state `s`, in which it ends at `s'`, maybe by an exit. -/
inductive Runs (step : ι → σ → σ → Prop) : Flow ι → σ → Option Exit → σ → Prop
  | skip (s : σ) : Runs step .skip s none s
  | op {i : ι} {s s' : σ} (h : step i s s') : Runs step (.op i) s none s'
  | seq {p q : Flow ι} {s s' s'' : σ} {e : Option Exit} (first : Runs step p s none s')
      (second : Runs step q s' e s'') : Runs step (.seq p q) s e s''
  | seqExit {p q : Flow ι} {s s' : σ} {e : Exit} (first : Runs step p s (some e) s') :
      Runs step (.seq p q) s (some e) s'
  | left {p q : Flow ι} {s s' : σ} {e : Option Exit} (h : Runs step p s e s') :
      Runs step (.choose p q) s e s'
  | right {p q : Flow ι} {s s' : σ} {e : Option Exit} (h : Runs step q s e s') :
      Runs step (.choose p q) s e s'
  | loopDone {p : Flow ι} (s : σ) : Runs step (.loop p) s none s
  | loopNext {p : Flow ι} {s s' s'' : σ} {e e' : Option Exit} (turn : Runs step p s e s')
      (he : e = none ∨ e = some .cont) (rest : Runs step (.loop p) s' e' s'') :
      Runs step (.loop p) s e' s''
  | loopBreak {p : Flow ι} {s s' : σ} (turn : Runs step p s (some .brk) s') :
      Runs step (.loop p) s none s'
  | loopReturn {p : Flow ι} {s s' : σ} (turn : Runs step p s (some .ret) s') :
      Runs step (.loop p) s (some .ret) s'
  | exit (e : Exit) (s : σ) : Runs step (.exit e) s (some e) s
  | body {p : Flow ι} {s s' : σ} {e : Option Exit} (h : Runs step p s e s') :
      Runs step (.body p) s none s'

/-- All results of a function that can fail -/
def collect (g : α → Option (List β)) : List α → Option (List β)
  | [] => some []
  | a :: as => do
      let r ← g a
      let rs ← collect g as
      some (r ++ rs)

theorem collect_subset {g : α → Option (List β)} {as : List α} {r : List β} {a : α}
    (h : collect g as = some r) (ha : a ∈ as) : ∃ ra, g a = some ra ∧ ra ⊆ r := by
  induction as generalizing r with
  | nil => cases ha
  | cons a' as ih =>
      obtain ⟨r₁, hr₁, r₂, hr₂, hr⟩ : ∃ r₁, g a' = some r₁ ∧ ∃ r₂, collect g as = some r₂ ∧
          some (r₁ ++ r₂) = some r := by
        simpa only [collect, Option.bind_eq_bind, Option.bind_eq_some_iff] using h
      cases hr
      rcases List.mem_cons.mp ha with rfl | ha
      · exact ⟨r₁, hr₁, List.subset_append_left _ _⟩
      · obtain ⟨ra, hra, hsubset⟩ := ih hr₂ ha
        exact ⟨ra, hra, List.Subset.trans hsubset (List.subset_append_right _ _)⟩

variable [DecidableEq α]

/-- The elements that can be reached, if they are found in so many rounds. -/
def closure (next : List α → Option (List α)) : Nat → List α → Option (List α)
  | 0, _ => none
  | rounds + 1, as => do
      let as' ← next as
      if as' ⊆ as then some as else closure next rounds (as ++ as').dedup

theorem closure_spec {next : List α → Option (List α)} {rounds : Nat} {as reached : List α}
    (h : closure next rounds as = some reached) :
    as ⊆ reached ∧ ∃ as', next reached = some as' ∧ as' ⊆ reached := by
  induction rounds generalizing as with
  | zero => cases h
  | succ rounds ih =>
      obtain ⟨as', has', hrest⟩ : ∃ as', next as = some as' ∧
          (if as' ⊆ as then some as else closure next rounds (as ++ as').dedup) = some reached := by
        simpa only [closure, Option.bind_eq_bind, Option.bind_eq_some_iff] using h
      split at hrest
      · rename_i hsubset
        cases hrest
        exact ⟨List.Subset.refl _, as', has', hsubset⟩
      · obtain ⟨hreached, hclosed⟩ := ih hrest
        refine ⟨fun a ha => hreached ?_, hclosed⟩
        exact List.mem_dedup.mpr (List.mem_append_left _ ha)

/-- The states in which the next turn of a loop starts -/
def continued (r : List (Option Exit × α)) : List α :=
  r.filterMap fun x => if x.1 = none ∨ x.1 = some .cont then some x.2 else none

/-- How a loop ends when a turn ends so -/
def leaves (r : List (Option Exit × α)) : List (Option Exit × α) :=
  r.filterMap fun x =>
    if x.1 = some .brk then some (none, x.2) else if x.1 = some .ret then some x else none

/-- The ends that a statement can have in the states that `a` describes, if no operation is
refused.  `post` gives what describes the states after an operation. -/
def ends (post : ι → α → Option (List α)) : Flow ι → α → Option (List (Option Exit × α))
  | .skip, a => some [(none, a)]
  | .op i, a => (post i a).map fun r => r.map fun a' => (none, a')
  | .seq p q, a => do
      let r ← ends post p a
      let r' ← collect
        (fun x => if x.1 = none then ends post q x.2 else some [(x.1, x.2)]) r
      some r'.dedup
  | .choose p q, a => do
      let r ← ends post p a
      let r' ← ends post q a
      some (r ++ r').dedup
  | .loop p, a => do
      let reached ← closure (fun as => (collect (ends post p) as).map continued) 4 [a]
      let r ← collect (ends post p) reached
      some ((reached.map fun a' => (none, a')) ++ leaves r)
  | .exit e, a => some [(some e, a)]
  | .body p, a => (ends post p a).map fun r => (r.map fun x => (none, x.2)).dedup

variable {step : ι → σ → σ → Prop} {post : ι → α → Option (List α)} {γ : α → σ → Prop}

omit [DecidableEq α] in
theorem loop_ends {p : Flow ι} {reached : List α} {r : List (Option Exit × α)}
    (hbody : ∀ {a s e s'}, a ∈ reached → γ a s → Runs step p s e s' →
      ∃ a', (e, a') ∈ r ∧ γ a' s')
    (hnext : continued r ⊆ reached) {q : Flow ι} {s s' : σ} {e : Option Exit}
    (hruns : Runs step q s e s') (hq : q = .loop p) {a : α} (ha : a ∈ reached) (hs : γ a s) :
    ∃ a', (e, a') ∈ (reached.map fun a' => (none, a')) ++ leaves r ∧ γ a' s' := by
  induction hruns generalizing a with
  | loopDone s =>
      exact ⟨a, List.mem_append_left _ (List.mem_map.mpr ⟨a, ha, rfl⟩), hs⟩
  | loopNext turn he rest _ ih =>
      obtain rfl : _ = p := Flow.loop.inj hq
      obtain ⟨a₁, ha₁, hs₁⟩ := hbody ha hs turn
      have hreached : a₁ ∈ reached :=
        hnext (List.mem_filterMap.mpr ⟨_, ha₁, if_pos he⟩)
      exact ih rfl hreached hs₁
  | loopBreak turn _ =>
      obtain rfl : _ = p := Flow.loop.inj hq
      obtain ⟨a₁, ha₁, hs₁⟩ := hbody ha hs turn
      exact ⟨a₁, List.mem_append_right _ (List.mem_filterMap.mpr ⟨_, ha₁, if_pos rfl⟩), hs₁⟩
  | loopReturn turn _ =>
      obtain rfl : _ = p := Flow.loop.inj hq
      obtain ⟨a₁, ha₁, hs₁⟩ := hbody ha hs turn
      refine ⟨a₁, List.mem_append_right _ (List.mem_filterMap.mpr ⟨_, ha₁, ?_⟩), hs₁⟩
      rw [if_neg (by simp), if_pos rfl]
  | _ => cases hq

/-- If `post` describes what the operations do, every execution ends as `ends` says. -/
theorem ends_sound
    (hpost : ∀ i a r s s', post i a = some r → γ a s → step i s s' → ∃ a' ∈ r, γ a' s')
    {p : Flow ι} {a : α} {r : List (Option Exit × α)} (h : ends post p a = some r) {s s' : σ}
    {e : Option Exit} (hs : γ a s) (hruns : Runs step p s e s') :
    ∃ a', (e, a') ∈ r ∧ γ a' s' := by
  induction p generalizing a r s e s' with
  | skip =>
      cases h
      cases hruns
      exact ⟨a, List.mem_singleton_self _, hs⟩
  | op i =>
      obtain ⟨r', hr', rfl⟩ := Option.map_eq_some_iff.mp h
      cases hruns with
      | op hstep =>
          obtain ⟨a', ha', hs'⟩ := hpost _ _ _ _ _ hr' hs hstep
          exact ⟨a', List.mem_map.mpr ⟨a', ha', rfl⟩, hs'⟩
  | seq p q ihp ihq =>
      obtain ⟨r₁, hr₁, r₂, hr₂, hr⟩ : ∃ r₁, ends post p a = some r₁ ∧ ∃ r₂, collect
          (fun x => if x.1 = none then ends post q x.2 else some [(x.1, x.2)]) r₁ = some r₂ ∧
            some r₂.dedup = some r := by
        simpa only [ends, Option.bind_eq_bind, Option.bind_eq_some_iff] using h
      cases hr
      cases hruns with
      | seq first second =>
          obtain ⟨a₁, ha₁, hs₁⟩ := ihp hr₁ hs first
          obtain ⟨r₃, hr₃, hsubset⟩ := collect_subset hr₂ ha₁
          rw [if_pos rfl] at hr₃
          obtain ⟨a₂, ha₂, hs₂⟩ := ihq hr₃ hs₁ second
          exact ⟨a₂, List.mem_dedup.mpr (hsubset ha₂), hs₂⟩
      | seqExit first =>
          obtain ⟨a₁, ha₁, hs₁⟩ := ihp hr₁ hs first
          obtain ⟨r₃, hr₃, hsubset⟩ := collect_subset hr₂ ha₁
          rw [if_neg (by simp)] at hr₃
          cases hr₃
          exact ⟨a₁, List.mem_dedup.mpr (hsubset (List.mem_singleton_self _)), hs₁⟩
  | choose p q ihp ihq =>
      obtain ⟨r₁, hr₁, r₂, hr₂, hr⟩ : ∃ r₁, ends post p a = some r₁ ∧ ∃ r₂,
          ends post q a = some r₂ ∧ some (r₁ ++ r₂).dedup = some r := by
        simpa only [ends, Option.bind_eq_bind, Option.bind_eq_some_iff] using h
      cases hr
      cases hruns with
      | left hleft =>
          obtain ⟨a', ha', hs'⟩ := ihp hr₁ hs hleft
          exact ⟨a', List.mem_dedup.mpr (List.mem_append_left _ ha'), hs'⟩
      | right hright =>
          obtain ⟨a', ha', hs'⟩ := ihq hr₂ hs hright
          exact ⟨a', List.mem_dedup.mpr (List.mem_append_right _ ha'), hs'⟩
  | loop p ih =>
      obtain ⟨reached, hreached, r₁, hr₁, hr⟩ : ∃ reached,
          closure (fun as => (collect (ends post p) as).map continued) 4 [a] = some reached ∧
            ∃ r₁, collect (ends post p) reached = some r₁ ∧
              some ((reached.map fun a' => (none, a')) ++ leaves r₁) = some r := by
        simpa only [ends, Option.bind_eq_bind, Option.bind_eq_some_iff] using h
      cases hr
      obtain ⟨hstart, as', has', hclosed⟩ := closure_spec hreached
      obtain ⟨r₂, hr₂, rfl⟩ := Option.map_eq_some_iff.mp has'
      obtain rfl : r₁ = r₂ := Option.some.inj (hr₁.symm.trans hr₂)
      refine loop_ends (fun ha hs hturn => ?_) hclosed hruns rfl
        (hstart (List.mem_singleton_self _)) hs
      obtain ⟨ra, hra, hsubset⟩ := collect_subset hr₁ ha
      obtain ⟨a', ha', hs'⟩ := ih hra hs hturn
      exact ⟨a', hsubset ha', hs'⟩
  | exit x =>
      cases h
      cases hruns
      exact ⟨a, List.mem_singleton_self _, hs⟩
  | body p ih =>
      obtain ⟨r₁, hr₁, rfl⟩ := Option.map_eq_some_iff.mp h
      cases hruns with
      | body hbody =>
          obtain ⟨a', ha', hs'⟩ := ih hr₁ hs hbody
          exact ⟨a', List.mem_dedup.mpr (List.mem_map.mpr ⟨_, ha', rfl⟩), hs'⟩

/-- Whether all ends of a procedure are described by what satisfies `ok`. -/
def always (post : ι → α → Option (List α)) (p : Flow ι) (a : α) (ok : α → Bool) : Bool :=
  match ends post p a with
  | none => false
  | some r => r.all fun x => ok x.2

theorem always_sound
    (hpost : ∀ i a r s s', post i a = some r → γ a s → step i s s' → ∃ a' ∈ r, γ a' s')
    {p : Flow ι} {a : α} {ok : α → Bool} (h : always post p a ok = true) {s s' : σ}
    {e : Option Exit} (hs : γ a s) (hruns : Runs step p s e s') :
    ∃ a', ok a' = true ∧ γ a' s' := by
  unfold always at h
  split at h
  · cases h
  · rename_i r hr
    obtain ⟨a', ha', hs'⟩ := ends_sound hpost hr hs hruns
    exact ⟨a', List.all_eq_true.mp h _ ha', hs'⟩

end NiceEditor.Flows
