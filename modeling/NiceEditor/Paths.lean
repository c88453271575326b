import Mathlib.Data.List.TakeWhile
import NiceEditor.LexicalPaths
import NiceEditor.LineText
import NiceEditor.Pools

namespace NiceEditor.Paths

open NiceEditor.Pools
open NiceEditor.LineText
open NiceEditor.LexicalPaths

def slash : Byte := 0x2F

def dot : Byte := 0x2E

/-- The component `.` -/
def here : List Byte := [dot]

/-- The component `..` -/
def up : List Byte := [dot, dot]

/-- The loop of `normalize_path` that removes slashes and dots before a slash -/
def squeeze : List Byte → List Byte
  | x :: y :: r => if (x = dot ∨ x = slash) ∧ y = slash then squeeze (y :: r) else x :: y :: r
  | r => r

/-- The loop at the end of a turn of `normalize_path`: `p` goes back over slashes. What is before
`p` stands in `l`, from right to left, and what is from `p` on in `r`. -/
def backOver : List Byte → List Byte → List Byte × List Byte
  | x :: l, y :: r => if y = slash ∧ x = slash then backOver l (x :: y :: r) else (x :: l, y :: r)
  | l, r => (l, r)

/-- What stands before the slash and the component that `../` at `p` cancels. `t` goes back to that
slash, or to the start of the path. -/
def cancelled (l r : List Byte) : Option (List Byte) :=
  match l with
  | [] => none
  | x :: l =>
      if x = slash then
        let name := (l.takeWhile (· ≠ slash)).reverse
        match l.dropWhile (· ≠ slash) with
        | [] => if l = [] then some [] else none
        | _ :: l => if l = [] ∨ (name ++ slash :: r).take 3 ≠ up ++ [slash] then some l else none
      else none

/-- A turn of `normalize_path`, up to the loop at its end -/
def normalizeStep (l r : List Byte) : List Byte × List Byte :=
  if (r.getD 0 0 = dot ∨ r.getD 0 0 = slash) ∧ r.getD 1 0 = slash then (l, squeeze r)
  else if r.getD 0 0 = slash then (slash :: l, r.tail)
  else if r.take 3 = up ++ [slash] then
    match cancelled l r with
    | some l => (slash :: l, r.drop 3)
    | none => (dot :: dot :: l, r.drop 2)
  else ((r.takeWhile (· ≠ slash)).reverse ++ l, r.dropWhile (· ≠ slash))

def normalizeTurn (l r : List Byte) : List Byte × List Byte :=
  let (l, r) := normalizeStep l r
  backOver l r

/-- The loop of `normalize_path` -/
def normalizeLoop : Nat → List Byte → List Byte → Option (List Byte)
  | 0, _, _ => none
  | turns + 1, l, r =>
      if r = [] then some l.reverse
      else
        let (l, r) := normalizeTurn l r
        normalizeLoop turns l r

/-- `normalize_path`. There are at most two turns for a byte; `none` is a path for which that is
not enough. -/
def normalizePath (s : List Byte) : Option (List Byte) := normalizeLoop (2 * s.length + 1) [] s

/-- The component at the end of a path -/
def lastComponent (s : List Byte) : List Byte := (s.splitOn slash).getLastD []

/-- A component that is the name of something -/
def Ordinary (w : List Byte) : Prop := w ≠ [] ∧ slash ∉ w ∧ w ≠ here ∧ w ≠ up

/-- The components of a path that are not empty -/
def components (s : List Byte) : List (List Byte) := (s.splitOn slash).filter (· ≠ [])

/-- The components that lead somewhere -/
def steps (s : List Byte) : List (List Byte) := (components s).filter (· ≠ here)

def rooted (s : List Byte) : Bool := s.head? = some slash

/-- What a path denotes, its components being resolved from left to right -/
def denotes (s : List Byte) : Bool × List (List Byte) :=
  (rooted s, resolve up (rooted s) [] (steps s))

/-- A path that is read from a stack of components -/
def render (root : Bool) (st : List (List Byte)) : List Byte :=
  (if root then [slash] else []) ++ [slash].intercalate st.reverse

/-- The bytes before a component, from right to left: those of the components in a stack, behind
those of `base` -/
def above (base : List Byte) (st : List (List Byte)) : List Byte :=
  st.foldr (fun k l => slash :: (k.reverse ++ l)) base

/-- A string does not start with a slash. -/
def Off (s : List Byte) : Prop := s.head? ≠ some slash

/-- Component by component, a path that does not start with a slash and ends with the name of
something -/
inductive Spelled : List (List Byte) → List Byte → Prop
  | last {w : List Byte} (hw : Ordinary w) : Spelled [w] w
  | cons {w s : List Byte} {ks : List (List Byte)} (m : Nat) (hne : w ≠ []) (hw : slash ∉ w)
      (h : Spelled ks s) : Spelled (w :: ks) (w ++ (List.replicate (m + 1) slash ++ s))

/-- The loop of `normalize_path` gets from one place to another in some turns, as many as `bound` at
most. -/
def Reaches (bound : Nat) (p q : List Byte × List Byte) : Prop :=
  ∃ n ≤ bound, ∀ turns,
    normalizeLoop (turns + n) p.1 p.2 = normalizeLoop turns q.1 q.2

variable {l r s w k rest base : List Byte} {st ks : List (List Byte)} {m bound bound' : Nat}
variable {p q q' : List Byte × List Byte}

instance : DecidablePred Ordinary := fun _ => inferInstanceAs (Decidable (_ ∧ _ ∧ _ ∧ _))

theorem Reaches.refl : Reaches bound p p := ⟨0, Nat.zero_le _, fun _ => rfl⟩

theorem Reaches.mono (h : Reaches bound p q) (hle : bound ≤ bound') : Reaches bound' p q := by
  obtain ⟨n, hn, hruns⟩ := h
  exact ⟨n, hn.trans hle, hruns⟩

theorem Reaches.trans (h : Reaches bound p q) (h' : Reaches bound' q q') :
    Reaches (bound + bound') p q' := by
  obtain ⟨n, hn, hruns⟩ := h
  obtain ⟨n', hn', hruns'⟩ := h'
  refine ⟨n' + n, by omega, fun turns => ?_⟩
  rw [← Nat.add_assoc, hruns, hruns']

theorem reaches_turn (hr : r ≠ []) : Reaches 1 (l, r) (normalizeTurn l r) :=
  ⟨1, le_rfl, fun turns => by rw [normalizeLoop, if_neg hr]⟩

theorem squeeze_length (s : List Byte) : (squeeze s).length ≤ s.length := by
  induction s with
  | nil => exact le_rfl
  | cons x s ih =>
      cases s with
      | nil => exact le_rfl
      | cons y s =>
          rw [squeeze]
          split
          · exact ih.trans (Nat.le_succ _)
          · exact le_rfl

theorem backOver_length (l r : List Byte) :
    (backOver l r).1.length + (backOver l r).2.length = l.length + r.length := by
  induction l generalizing r with
  | nil => rfl
  | cons x l ih =>
      cases r with
      | nil => rfl
      | cons y r =>
          rw [backOver]
          split
          · rw [ih]
            simp only [List.length_cons]
            omega
          · rfl

theorem cancelled_length (h : cancelled l r = some s) : s.length < l.length := by
  cases l with
  | nil => exact absurd h nofun
  | cons x l =>
      rw [cancelled] at h
      split at h
      · dsimp only at h
        have hle := (List.dropWhile_suffix (p := (· ≠ slash)) (l := l)).length_le
        split at h
        · split at h
          · rw [← Option.some.inj h]
            exact Nat.succ_pos _
          · exact absurd h nofun
        · case _ l' hdrop =>
          rw [hdrop, List.length_cons] at hle
          split at h
          · rw [← Option.some.inj h, List.length_cons]
            omega
          · exact absurd h nofun
      · exact absurd h nofun

theorem normalizeTurn_length (l r : List Byte) :
    (normalizeTurn l r).1.length + (normalizeTurn l r).2.length ≤ l.length + r.length := by
  suffices hstep : (normalizeStep l r).1.length + (normalizeStep l r).2.length ≤
      l.length + r.length by
    rw [normalizeTurn]
    dsimp only
    rw [backOver_length]
    exact hstep
  rw [normalizeStep]
  split
  · have hle := squeeze_length r
    dsimp only
    omega
  split
  · case _ hslash =>
    cases r with
    | nil => exact absurd hslash (by decide)
    | cons x r =>
        simp only [List.length_cons, List.tail_cons]
        omega
  split
  · case _ hthree =>
    have hlen := congrArg List.length hthree
    rw [List.length_take] at hlen
    have hthree' : (up ++ [slash]).length = 3 := rfl
    split
    · case _ l' hcancel =>
      have hlt := cancelled_length hcancel
      simp only [List.length_cons, List.length_drop]
      omega
    · simp only [List.length_cons, List.length_drop]
      omega
  · have hsplit := congrArg List.length
      (List.takeWhile_append_dropWhile (p := (· ≠ slash)) (l := r))
    rw [List.length_append] at hsplit
    simp only [List.length_append, List.length_reverse]
    omega

theorem normalizePath_length (h : normalizePath s = some w) : w.length ≤ s.length := by
  have hloop : ∀ turns l r, normalizeLoop turns l r = some w → w.length ≤ l.length + r.length := by
    intro turns
    induction turns with
    | zero => exact fun l r hrun => absurd hrun nofun
    | succ turns ih =>
        intro l r hrun
        rw [normalizeLoop] at hrun
        split at hrun
        · rw [← Option.some.inj hrun, List.length_reverse]
          omega
        · exact (ih _ _ hrun).trans (normalizeTurn_length l r)
  have hle := hloop _ _ _ h
  rwa [List.length_nil, Nat.zero_add] at hle

theorem off_nil : Off [] := nofun

theorem off_append (hne : w ≠ []) (hw : slash ∉ w) (s : List Byte) : Off (w ++ s) := by
  cases w with
  | nil => exact absurd rfl hne
  | cons x w =>
      intro heq
      exact hw (by rw [Option.some.inj heq]; exact List.mem_cons_self)

theorem off_reverse (hw : slash ∉ w) : Off w.reverse := by
  intro heq
  exact hw (List.mem_reverse.mp (List.mem_of_mem_head? (Option.mem_def.mpr heq)))

theorem backOver_off (h : Off r) : backOver l r = (l, r) := by
  unfold backOver
  split
  · case _ x l y r =>
    rw [if_neg]
    rintro ⟨rfl, -⟩
    exact h rfl
  · rfl

theorem backOver_off_left (h : Off l) : backOver l r = (l, r) := by
  unfold backOver
  split
  · case _ x l y r =>
    rw [if_neg]
    rintro ⟨-, rfl⟩
    exact h rfl
  · rfl

theorem backOver_slash (h : Off l) :
    backOver (slash :: l) (slash :: r) = (l, slash :: slash :: r) := by
  rw [backOver, if_pos ⟨rfl, rfl⟩, backOver_off_left h]

theorem squeeze_off (h : Off s) : squeeze (slash :: s) = slash :: s := by
  cases s with
  | nil => rfl
  | cons x s =>
      rw [squeeze, if_neg]
      rintro ⟨-, rfl⟩
      exact h rfl

theorem squeeze_slashes (h : Off rest) (m : Nat) :
    squeeze (List.replicate (m + 1) slash ++ rest) = slash :: rest := by
  induction m with
  | zero => exact squeeze_off h
  | succ m ih =>
      have hstep : squeeze (List.replicate (m + 2) slash ++ rest) =
          squeeze (List.replicate (m + 1) slash ++ rest) :=
        if_pos ⟨.inr rfl, rfl⟩
      rw [hstep, ih]

theorem getD_off (h : Off s) : s.getD 0 0 ≠ slash := by
  cases s with
  | nil => exact (by decide : (0 : Byte) ≠ slash)
  | cons x s => exact fun heq => h (congrArg some heq)

theorem reaches_slashes (hl : Off l) (hrest : Off rest) (m : Nat) :
    Reaches 2 (l, List.replicate (m + 1) slash ++ rest) (slash :: l, rest) := by
  have hone : Reaches 1 (l, slash :: rest) (slash :: l, rest) := by
    have hstep : normalizeStep l (slash :: rest) = (slash :: l, rest) := by
      rw [normalizeStep, if_neg (fun hcond => getD_off hrest hcond.2)]
      exact if_pos rfl
    have hturn := reaches_turn (l := l) (List.cons_ne_nil slash rest)
    rw [normalizeTurn, hstep] at hturn
    dsimp only at hturn
    rw [backOver_off hrest] at hturn
    exact hturn
  cases m with
  | zero => exact hone.mono (by decide)
  | succ m =>
      have hstep : normalizeStep l (List.replicate (m + 2) slash ++ rest) = (l, slash :: rest) := by
        rw [← squeeze_slashes hrest (m + 1)]
        exact if_pos ⟨.inr rfl, rfl⟩
      have hturn := reaches_turn (l := l) (r := List.replicate (m + 2) slash ++ rest)
        (List.cons_ne_nil _ _)
      rw [normalizeTurn, hstep] at hturn
      dsimp only at hturn
      rw [backOver_off_left hl] at hturn
      exact hturn.trans hone

theorem reaches_settled (hl : Off l) (hrest : Off rest) (m : Nat) :
    Reaches 2 (backOver (slash :: l) (List.replicate m slash ++ rest)) (slash :: l, rest) := by
  cases m with
  | zero =>
      rw [List.replicate_zero, List.nil_append, backOver_off hrest]
      exact Reaches.refl
  | succ m =>
      rw [List.replicate_succ, List.cons_append, backOver_slash hl]
      exact reaches_slashes hl hrest (m + 1)

theorem squeeze_here (hrest : Off rest) (m : Nat) :
    squeeze (here ++ (List.replicate (m + 1) slash ++ rest)) = slash :: rest := by
  have hstep : squeeze (here ++ (List.replicate (m + 1) slash ++ rest)) =
      squeeze (List.replicate (m + 1) slash ++ rest) := if_pos ⟨.inl rfl, rfl⟩
  rw [hstep, squeeze_slashes hrest]

theorem turn_here (hrest : Off rest) (m : Nat) :
    Reaches 1 (l, here ++ (List.replicate (m + 1) slash ++ rest)) (backOver l (slash :: rest)) := by
  have hstep : normalizeStep l (here ++ (List.replicate (m + 1) slash ++ rest)) =
      (l, slash :: rest) := by
    rw [← squeeze_here hrest m]
    exact if_pos ⟨.inl rfl, rfl⟩
  have hturn := reaches_turn (l := l) (r := here ++ (List.replicate (m + 1) slash ++ rest))
    (List.cons_ne_nil _ _)
  rw [normalizeTurn, hstep] at hturn
  exact hturn

theorem reaches_here (hl : Off l) (hrest : Off rest) (m : Nat) :
    Reaches 3 (slash :: l, here ++ (List.replicate (m + 1) slash ++ rest)) (slash :: l, rest) :=
  (turn_here hrest m).trans (reaches_settled hl hrest 1)

theorem reaches_here_start (hrest : Off rest) (m : Nat) :
    Reaches 3 ([], here ++ (List.replicate (m + 1) slash ++ rest)) ([slash], rest) := by
  have hturn := turn_here (l := []) hrest m
  rw [backOver_off_left off_nil] at hturn
  exact hturn.trans (reaches_slashes off_nil hrest 0)

theorem span_component (hk : slash ∉ k) (hrest : rest = [] ∨ ∃ r, rest = slash :: r) :
    (k ++ rest).takeWhile (· ≠ slash) = k ∧ (k ++ rest).dropWhile (· ≠ slash) = rest := by
  have hpass : ∀ x ∈ k, (decide (x ≠ slash)) = true := fun x hx =>
    decide_eq_true fun heq => hk (heq ▸ hx)
  rw [List.takeWhile_append_of_pos hpass, List.dropWhile_append_of_pos hpass]
  obtain rfl | ⟨r, rfl⟩ := hrest
  · exact ⟨List.append_nil k, rfl⟩
  · exact ⟨List.append_nil k, rfl⟩

theorem take_three (hk : slash ∉ k) (hrest : rest = [] ∨ ∃ r, rest = slash :: r)
    (h : (k ++ rest).take 3 = up ++ [slash]) : k = up := by
  have hstart : ∀ n t, rest.take (n + 1) ≠ dot :: t := by
    intro n t heq
    obtain rfl | ⟨r, rfl⟩ := hrest
    · exact absurd heq.symm (List.cons_ne_nil _ _)
    · exact absurd (List.cons.inj heq).1 (by decide)
  obtain _ | ⟨x, _ | ⟨y, _ | ⟨z, k⟩⟩⟩ := k
  · exact absurd h (hstart 2 _)
  · exact absurd (List.cons.inj h).2 (hstart 1 _)
  · obtain ⟨hx, h₁⟩ := List.cons.inj h
    rw [hx, (List.cons.inj h₁).1]
    rfl
  · obtain ⟨-, h₁⟩ := List.cons.inj h
    obtain ⟨-, h₂⟩ := List.cons.inj h₁
    exact absurd (by rw [(List.cons.inj h₂).1]; simp) hk

theorem normalizeStep_name (hne : k ≠ []) (hk : slash ∉ k) (hhere : k ≠ here) (hup : k ≠ up)
    (hrest : rest = [] ∨ ∃ r, rest = slash :: r) :
    normalizeStep l (k ++ rest) = (k.reverse ++ l, rest) := by
  obtain ⟨htake, hdrop⟩ := span_component hk hrest
  obtain _ | ⟨x, k⟩ := k
  · exact absurd rfl hne
  have hx : x ≠ slash := fun heq => hk (heq ▸ List.mem_cons_self)
  have hdots : ¬ (x = dot ∧ (k ++ rest).getD 0 0 = slash) := by
    rintro ⟨rfl, heq⟩
    obtain _ | ⟨y, k⟩ := k
    · exact hhere rfl
    · have hy : y = slash := heq
      exact hk (hy ▸ List.mem_cons_of_mem _ List.mem_cons_self)
  have hthree : (x :: k ++ rest).take 3 ≠ up ++ [slash] := fun heq =>
    hup (take_three hk hrest heq)
  have hfirst : ¬ (x :: k ++ rest).getD 0 0 = slash := hx
  rw [normalizeStep, if_neg, if_neg hfirst, if_neg hthree, htake, hdrop]
  rintro ⟨hdot | hslash, hnext⟩
  · exact hdots ⟨hdot, hnext⟩
  · exact hx hslash

theorem reaches_name (hne : k ≠ []) (hk : slash ∉ k) (hhere : k ≠ here) (hup : k ≠ up)
    (hrest : Off rest) (m : Nat) :
    Reaches 3 (l, k ++ (List.replicate (m + 1) slash ++ rest))
      (slash :: (k.reverse ++ l), rest) := by
  have hoff : Off (k.reverse ++ l) :=
    off_append (by simpa using hne) (fun hmem => hk (List.mem_reverse.mp hmem)) l
  have hturn := reaches_turn (l := l) (r := k ++ (List.replicate (m + 1) slash ++ rest))
    (by simp [hne])
  have hstep := @normalizeStep_name l _ (List.replicate (m + 1) slash ++ rest) hne hk
    hhere hup (.inr ⟨_, rfl⟩)
  rw [normalizeTurn, hstep] at hturn
  dsimp only at hturn
  rw [backOver_off_left hoff] at hturn
  exact hturn.trans (reaches_slashes hoff hrest m)

theorem reaches_last (hw : Ordinary w) : Reaches 1 (l, w) (w.reverse ++ l, []) := by
  obtain ⟨hne, hslash, hhere, hup⟩ := hw
  have hturn := reaches_turn (l := l) hne
  have hstep := normalizeStep_name (l := l) hne hslash hhere hup (.inl rfl)
  rw [List.append_nil] at hstep
  rw [normalizeTurn, hstep] at hturn
  dsimp only at hturn
  rw [backOver_off off_nil] at hturn
  exact hturn

theorem cancelled_component (hk : slash ∉ k) (l r : List Byte) :
    cancelled (slash :: (k.reverse ++ slash :: l)) r =
      if l = [] ∨ k ≠ up then some l else none := by
  obtain ⟨htake, hdrop⟩ := @span_component _ (slash :: l)
    (fun hmem => hk (List.mem_reverse.mp hmem)) (.inr ⟨l, rfl⟩)
  have hthree : (k ++ slash :: r).take 3 ≠ up ++ [slash] ↔ k ≠ up :=
    not_congr ⟨take_three hk (.inr ⟨r, rfl⟩), fun heq => by rw [heq]; rfl⟩
  rw [cancelled, if_pos rfl]
  dsimp only
  rw [htake, hdrop, List.reverse_reverse]
  exact if_congr (or_congr Iff.rfl hthree) rfl rfl

theorem cancelled_base (hw : slash ∉ w) (r : List Byte) :
    cancelled (slash :: w.reverse) r = if w = [] then some [] else none := by
  have hdrop : w.reverse.dropWhile (· ≠ slash) = [] :=
    List.dropWhile_eq_nil_iff.mpr fun x hx =>
      decide_eq_true fun heq => hw (heq ▸ List.mem_reverse.mp hx)
  rw [cancelled, if_pos rfl]
  dsimp only
  rw [hdrop]
  exact if_congr List.reverse_eq_nil_iff rfl rfl

/-- The components of a stack are not empty and without slashes. -/
def Named (st : List (List Byte)) : Prop := ∀ k ∈ st, k ≠ [] ∧ slash ∉ k

theorem above_eq (hw : slash ∉ w) (hst : Named st) :
    ∃ l, above (slash :: w.reverse) st = slash :: l ∧ Off l ∧ (l = [] → st = [] ∧ w = []) := by
  cases st with
  | nil =>
      exact ⟨w.reverse, rfl, off_reverse hw, fun h => ⟨rfl, List.reverse_eq_nil_iff.mp h⟩⟩
  | cons k st =>
      obtain ⟨hne, hk⟩ := hst k List.mem_cons_self
      have hne' : k.reverse ≠ [] := by simpa using hne
      refine ⟨k.reverse ++ above (slash :: w.reverse) st, rfl, ?_, fun h => ?_⟩
      · exact off_append hne' (fun hmem => hk (List.mem_reverse.mp hmem)) _
      · exact absurd (List.append_eq_nil_iff.mp h).1 hne'

theorem cancelled_above (hw : slash ∉ w) (hst : Named st) (hroot : w = [] → up ∉ st)
    (r : List Byte) :
    (∃ l, cancelled (above (slash :: w.reverse) st) r = some l ∧ Off l ∧
        slash :: l = above (slash :: w.reverse) (enter up (decide (w = [])) st up)) ∨
      (cancelled (above (slash :: w.reverse) st) r = none ∧
        up :: st = enter up (decide (w = [])) st up) := by
  cases st with
  | nil =>
      have hbase := cancelled_base hw r
      by_cases hnil : w = []
      · subst hnil
        exact .inl ⟨[], hbase, off_nil, by rw [decide_eq_true rfl, enter_up_root]; rfl⟩
      · rw [if_neg hnil] at hbase
        exact .inr ⟨hbase, by rw [decide_eq_false hnil, enter_up_nil]⟩
  | cons k st =>
      obtain ⟨hne, hk⟩ := hst k List.mem_cons_self
      obtain ⟨l, habove, hoff, hl⟩ := above_eq hw fun k' hk' => hst k' (List.mem_cons_of_mem _ hk')
      have hcancel : cancelled (above (slash :: w.reverse) (k :: st)) r =
          if l = [] ∨ k ≠ up then some l else none := by
        have hcons : above (slash :: w.reverse) (k :: st) = slash :: (k.reverse ++ slash :: l) := by
          rw [← habove]
          rfl
        rw [hcons]
        exact cancelled_component hk l r
      by_cases hup : k = up
      · have hne : l ≠ [] := fun hnil => hroot (hl hnil).2 (hup ▸ List.mem_cons_self)
        rw [if_neg (not_or.mpr ⟨hne, not_not.mpr hup⟩)] at hcancel
        exact .inr ⟨hcancel, by rw [hup, enter_up_up]⟩
      · rw [if_pos (.inr hup)] at hcancel
        exact .inl ⟨l, hcancel, hoff, by rw [enter_up_name hup, habove]⟩

theorem normalizeStep_up (l r : List Byte) :
    normalizeStep l (up ++ slash :: r) =
      match cancelled l (up ++ slash :: r) with
      | some l => (slash :: l, r)
      | none => (dot :: dot :: l, slash :: r) := by
  have hfirst : ¬ (((up ++ slash :: r).getD 0 0 = dot ∨ (up ++ slash :: r).getD 0 0 = slash) ∧
      (up ++ slash :: r).getD 1 0 = slash) := fun hcond =>
    absurd hcond.2 (by decide : dot ≠ slash)
  have hsecond : ¬ (up ++ slash :: r).getD 0 0 = slash := (by decide : dot ≠ slash)
  have hthird : (up ++ slash :: r).take 3 = up ++ [slash] := rfl
  rw [normalizeStep, if_neg hfirst, if_neg hsecond, if_pos hthird]
  rfl

theorem reaches_up_kept
    (hnone : cancelled l (up ++ (List.replicate (m + 1) slash ++ rest)) = none) (hrest : Off rest) :
    Reaches 3 (l, up ++ (List.replicate (m + 1) slash ++ rest))
      (slash :: dot :: dot :: l, rest) := by
  have hoff : Off (dot :: dot :: l) := fun heq => absurd (Option.some.inj heq) (by decide)
  have hturn := reaches_turn (l := l) (r := up ++ (List.replicate (m + 1) slash ++ rest))
    (List.cons_ne_nil _ _)
  have hstep : normalizeStep l (up ++ (List.replicate (m + 1) slash ++ rest)) =
      (dot :: dot :: l, List.replicate (m + 1) slash ++ rest) := by
    have hup := normalizeStep_up l (List.replicate m slash ++ rest)
    have hsame : up ++ slash :: (List.replicate m slash ++ rest) =
        up ++ (List.replicate (m + 1) slash ++ rest) := rfl
    rw [hsame, hnone] at hup
    exact hup
  rw [normalizeTurn, hstep] at hturn
  dsimp only at hturn
  rw [backOver_off_left hoff] at hturn
  exact hturn.trans (reaches_slashes hoff hrest m)

theorem reaches_up (hw : slash ∉ w) (hst : Named st) (hroot : w = [] → up ∉ st) (hrest : Off rest)
    (m : Nat) :
    Reaches 3 (above (slash :: w.reverse) st, up ++ (List.replicate (m + 1) slash ++ rest))
      (above (slash :: w.reverse) (enter up (decide (w = [])) st up), rest) := by
  set l := above (slash :: w.reverse) st
  obtain ⟨l', hsome, hoff, habove⟩ | ⟨hnone, habove⟩ :=
    cancelled_above hw hst hroot (up ++ (List.replicate (m + 1) slash ++ rest))
  · have hturn := reaches_turn (l := l) (r := up ++ (List.replicate (m + 1) slash ++ rest))
      (List.cons_ne_nil _ _)
    have hstep : normalizeStep l (up ++ (List.replicate (m + 1) slash ++ rest)) =
        (slash :: l', List.replicate m slash ++ rest) := by
      have hup := normalizeStep_up l (List.replicate m slash ++ rest)
      have hsame : up ++ slash :: (List.replicate m slash ++ rest) =
          up ++ (List.replicate (m + 1) slash ++ rest) := rfl
      rw [hsame, hsome] at hup
      exact hup
    rw [normalizeTurn, hstep] at hturn
    rw [← habove]
    exact hturn.trans (reaches_settled hoff hrest m)
  · rw [← habove]
    exact reaches_up_kept hnone hrest

theorem reaches_enter (hw : slash ∉ w) (hst : Named st) (hroot : w = [] → up ∉ st) (hne : k ≠ [])
    (hk : slash ∉ k) (hrest : Off rest) (m : Nat) :
    Reaches 3 (above (slash :: w.reverse) st, k ++ (List.replicate (m + 1) slash ++ rest))
      (above (slash :: w.reverse) (if k = here then st else enter up (decide (w = [])) st k),
        rest) := by
  by_cases hhere : k = here
  · obtain ⟨l, habove, hoff, -⟩ := above_eq hw hst
    rw [if_pos hhere, hhere, habove]
    exact reaches_here hoff hrest m
  · rw [if_neg hhere]
    by_cases hup : k = up
    · rw [hup]
      exact reaches_up hw hst hroot hrest m
    · rw [enter_name hup]
      exact reaches_name hne hk hhere hup hrest m

theorem named_enter (hst : Named st) (hne : k ≠ []) (hk : slash ∉ k) (root : Bool) :
    Named (enter up root st k) := by
  intro x hx
  obtain hmem | rfl := mem_enter hx
  · exact hst x hmem
  · exact ⟨hne, hk⟩

theorem Spelled.off (h : Spelled ks s) : Off s := by
  cases h with
  | last hw =>
      have hoff := off_append hw.1 hw.2.1 []
      rwa [List.append_nil] at hoff
  | cons m hne hw h => exact off_append hne hw _

theorem Spelled.named (h : Spelled ks s) : Named ks := by
  induction h with
  | last hw => exact List.forall_mem_singleton.mpr ⟨hw.1, hw.2.1⟩
  | cons m hne hw h ih => exact List.forall_mem_cons.mpr ⟨⟨hne, hw⟩, ih⟩

theorem reaches_spelled (h : Spelled ks s) (hw : slash ∉ w) (hst : Named st)
    (hsettled : Settled up (decide (w = [])) st) :
    Reaches (2 * s.length) (above (slash :: w.reverse) st, s)
      ((above (slash :: w.reverse)
        (resolve up (decide (w = [])) st (ks.filter (· ≠ here)))).tail, []) := by
  have hroot : ∀ {st}, Settled up (decide (w = [])) st → w = [] → up ∉ st := by
    intro st hsettled hnil
    rw [decide_eq_true hnil] at hsettled
    exact settled_root.mp hsettled
  induction h generalizing st with
  | @last k hk =>
      obtain ⟨hne, hslash, hhere, hup⟩ := hk
      have hfilter : [k].filter (· ≠ here) = [k] := by simp [hhere]
      rw [hfilter, resolve_cons, resolve_nil, enter_name hup]
      have hlen := List.length_pos_iff.mpr hne
      exact (reaches_last ⟨hne, hslash, hhere, hup⟩).mono (by omega)
  | @cons k s ks m hne hk h ih =>
      have hlen := List.length_pos_iff.mpr hne
      have henter := reaches_enter hw hst (hroot hsettled) hne hk h.off m
      have hbound : 3 + 2 * s.length ≤ 2 * (k ++ (List.replicate (m + 1) slash ++ s)).length := by
        simp only [List.length_append, List.length_replicate]
        omega
      by_cases hhere : k = here
      · rw [if_pos hhere] at henter
        have hfilter : (k :: ks).filter (· ≠ here) = ks.filter (· ≠ here) := by simp [hhere]
        rw [hfilter]
        exact (henter.trans (ih hst hsettled)).mono hbound
      · rw [if_neg hhere] at henter
        have hfilter : (k :: ks).filter (· ≠ here) = k :: ks.filter (· ≠ here) := by simp [hhere]
        rw [hfilter, resolve_cons]
        have hrest := ih (named_enter hst hne hk _) (hsettled.enter k)
        exact (henter.trans hrest).mono hbound

theorem intercalate_append (hks : ks ≠ []) (k : List Byte) :
    [slash].intercalate (ks ++ [k]) = [slash].intercalate ks ++ slash :: k := by
  induction ks with
  | nil => exact absurd rfl hks
  | cons w ks ih =>
      cases ks with
      | nil => simp
      | cons w' ks =>
          have hrest := ih (List.cons_ne_nil _ _)
          rw [List.cons_append, List.intercalate_cons_of_ne_nil (by simp), hrest,
            List.intercalate_cons_of_ne_nil (List.cons_ne_nil _ _)]
          simp

theorem above_render (w k : List Byte) (st : List (List Byte)) :
    (above (slash :: w.reverse) (k :: st)).tail.reverse = render false (k :: st ++ [w]) := by
  induction st generalizing k with
  | nil => simp [above, render]
  | cons k' st ih =>
      have hinner : (k'.reverse ++ above (slash :: w.reverse) st).reverse =
          render false (k' :: st ++ [w]) := ih k'
      have houter : (above (slash :: w.reverse) (k :: k' :: st)).tail.reverse =
          (k'.reverse ++ above (slash :: w.reverse) st).reverse ++ slash :: k := by
        simp [above]
      have hrender : render false (k :: (k' :: st ++ [w])) =
          render false (k' :: st ++ [w]) ++ slash :: k := by
        rw [render, List.reverse_cons]
        exact intercalate_append (by simp) k
      rw [houter, hinner]
      exact hrender.symm

theorem render_root {k : List Byte} {st : List (List Byte)} :
    render false (k :: st ++ [[]]) = render true (k :: st) := by
  rw [render, render, List.reverse_append, List.reverse_singleton, List.singleton_append,
    List.intercalate_cons_of_ne_nil (by simp)]
  rfl

/-- A path is spelled by its components, behind the slashes that it may start with. -/
theorem exists_spelled (hlast : Ordinary (lastComponent s)) :
    ∃ m s', s = List.replicate m slash ++ s' ∧ Spelled (components s) s' := by
  have hspelled : ∀ ls : List (List Byte), ls ≠ [] → (∀ l ∈ ls, slash ∉ l) →
      Ordinary (ls.getLastD []) → ∃ m s', [slash].intercalate ls = List.replicate m slash ++ s' ∧
        Spelled (ls.filter (· ≠ [])) s' := by
    intro ls
    induction ls with
    | nil => exact fun hne => absurd rfl hne
    | cons w ls ih =>
        intro _ hslash hlast
        have hw := hslash w List.mem_cons_self
        cases ls with
        | nil =>
            have hordinary : Ordinary w := hlast
            have hfilter : [w].filter (· ≠ []) = [w] := by simp [hordinary.1]
            refine ⟨0, w, by simp, ?_⟩
            rw [hfilter]
            exact .last hordinary
        | cons w' ls =>
            obtain ⟨m, s', heq, hrest⟩ := ih (List.cons_ne_nil _ _)
              (fun l hl => hslash l (List.mem_cons_of_mem _ hl)) hlast
            have hjoin : [slash].intercalate (w :: w' :: ls) =
                w ++ (List.replicate (m + 1) slash ++ s') := by
              rw [List.intercalate_cons_of_ne_nil (List.cons_ne_nil _ _), heq, List.replicate_succ]
              simp
            by_cases hne : w = []
            · have hfilter : (w :: w' :: ls).filter (· ≠ []) = (w' :: ls).filter (· ≠ []) := by
                simp [hne]
              refine ⟨m + 1, s', by rw [hjoin, hne, List.nil_append], ?_⟩
              rw [hfilter]
              exact hrest
            · have hfilter : (w :: w' :: ls).filter (· ≠ []) =
                  w :: (w' :: ls).filter (· ≠ []) := by
                simp [hne]
              refine ⟨0, _, hjoin, ?_⟩
              rw [hfilter]
              exact .cons m hne hw hrest
  have hparts := hspelled (s.splitOn slash) (List.splitOn_ne_nil _ _)
    (fun l hl => not_mem_of_mem_splitOn slash hl) hlast
  rw [List.intercalate_splitOn] at hparts
  exact hparts

theorem Spelled.last_step (h : Spelled ks s) :
    ∃ front w, ks.filter (· ≠ here) = front ++ [w] ∧ Ordinary w := by
  induction h with
  | @last w hw => exact ⟨[], w, by simp [hw.2.2.1], hw⟩
  | @cons k s ks m hne hk h ih =>
      obtain ⟨front, w, heq, hw⟩ := ih
      by_cases hhere : k = here
      · exact ⟨front, w, by rw [← heq]; simp [hhere], hw⟩
      · exact ⟨k :: front, w, by rw [List.cons_append, ← heq]; simp [hhere], hw⟩

theorem Spelled.resolve (h : Spelled ks s) (root : Bool) (st : List (List Byte)) :
    ∃ k st', resolve up root st (ks.filter (· ≠ here)) = k :: st' ∧ Ordinary k := by
  obtain ⟨front, w, heq, hw⟩ := h.last_step
  refine ⟨w, LexicalPaths.resolve up root st front, ?_, hw⟩
  rw [heq, resolve_append, resolve_cons, resolve_nil, enter_name hw.2.2.2]

theorem normalizePath_of_reaches (h : Reaches (2 * s.length) ([], s) (l, [])) :
    normalizePath s = some l.reverse := by
  obtain ⟨n, hn, hruns⟩ := h
  obtain ⟨turns, hturns⟩ := Nat.le.dest hn
  have hrun := hruns (turns + 1)
  rw [normalizePath, show 2 * s.length + 1 = turns + 1 + n by omega, hrun, normalizeLoop,
    if_pos rfl]

theorem reaches_root (h : Spelled ks s) :
    ∃ l, Reaches (2 * s.length) ([slash], s) (l, []) ∧
      l.reverse = render true (resolve up true [] (ks.filter (· ≠ here))) := by
  have hrun := @reaches_spelled _ [] [] _ h List.not_mem_nil
    (fun k hk => absurd hk List.not_mem_nil) settled_nil
  obtain ⟨k, st, heq, -⟩ := h.resolve true []
  refine ⟨_, hrun, ?_⟩
  rw [decide_eq_true rfl, heq, above_render, render_root]

theorem normalizePath_rooted (h : Spelled ks s) (m : Nat) :
    normalizePath (List.replicate (m + 1) slash ++ s) =
      some (render true (resolve up true [] (ks.filter (· ≠ here)))) := by
  obtain ⟨l, hrun, hl⟩ := reaches_root h
  rw [← hl]
  refine normalizePath_of_reaches (((reaches_slashes off_nil h.off m).trans hrun).mono ?_)
  simp only [List.length_append, List.length_replicate]
  omega

theorem normalizePath_here (h : Spelled (here :: ks) s) :
    normalizePath s = some (render true (resolve up true [] (ks.filter (· ≠ here)))) := by
  cases h with
  | last hw => exact absurd rfl hw.2.2.1
  | @cons _ s _ m hne hw h =>
      obtain ⟨l, hrun, hl⟩ := reaches_root h
      rw [← hl]
      refine normalizePath_of_reaches (((reaches_here_start h.off m).trans hrun).mono ?_)
      simp only [List.length_append, List.length_replicate, here, List.length_singleton]
      omega

theorem normalizePath_relative (h : Spelled (k :: ks) s) (hhere : k ≠ here) :
    normalizePath s = some (render false (resolve up false [] (ks.filter (· ≠ here)) ++ [k])) := by
  cases h with
  | last hw =>
      have hlen := List.length_pos_iff.mpr hw.1
      rw [normalizePath_of_reaches ((reaches_last (l := []) hw).mono (by omega))]
      simp [render]
  | @cons _ s _ m hne hk h =>
      have hfirst : Reaches 3 ([], k ++ (List.replicate (m + 1) slash ++ s))
          (above (slash :: k.reverse) [], s) := by
        by_cases hup : k = up
        · rw [hup]
          exact reaches_up_kept rfl h.off
        · have hname := reaches_name (l := []) hne hk hhere hup h.off m
          rw [List.append_nil] at hname
          exact hname
      have hrun := @reaches_spelled _ _ [] _ h hk (fun k hk => absurd hk List.not_mem_nil)
        settled_nil
      rw [decide_eq_false hne] at hrun
      obtain ⟨k', st, heq, -⟩ := h.resolve false []
      have hlen := List.length_pos_iff.mpr hne
      rw [normalizePath_of_reaches ((hfirst.trans hrun).mono ?_), heq, above_render]
      simp only [List.length_append, List.length_replicate]
      omega

end NiceEditor.Paths
