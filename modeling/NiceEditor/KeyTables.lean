import Mathlib.Data.List.Basic
import NiceEditor.KeyBindings
import NiceEditor.SortedLists

namespace NiceEditor.KeyTables

open NiceEditor.Pools
open NiceEditor.SortedLists
open NiceEditor.KeyBindings

/-- The table is strictly decreasing, which is the order of `keycmp`. -/
def Sorted (key : List TermKey) : Prop :=
  key.Pairwise fun k k' => strcmp k.string k'.string = .gt

instance (key : List TermKey) : Decidable (Sorted key) :=
  inferInstanceAs (Decidable (List.Pairwise _ key))

/-- The code that a sequence is bound to. -/
def codeOf (key : List TermKey) (t : List Byte) : Option Int :=
  (key.find? fun k => k.string = t).map TermKey.code

variable {key a b : List TermKey} {k : TermKey} {r s t u : List Byte} {code : Int}
variable {source : ConfigSource}

section Order

theorem strcmp_eq_compare (s t : List Byte) : strcmp s t = compare s t := by
  induction s, t using strcmp.induct with
  | case1 => rfl
  | case2 => rfl
  | case3 => rfl
  | case4 c s d t ih =>
      rw [strcmp, ih]
      exact List.compareLex_cons_cons.symm

theorem strcmp_gt_trans (h : strcmp r s = .gt) (h' : strcmp s t = .gt) : strcmp r t = .gt := by
  rw [strcmp_eq_compare] at *
  exact Std.TransCmp.gt_trans h h'

theorem strcmp_gt_iff : strcmp s t = .gt ↔ strcmp t s = .lt := by
  rw [strcmp_eq_compare, strcmp_eq_compare]
  exact Std.OrientedCmp.gt_iff_lt

theorem strcmp_eq_iff : strcmp s t = .eq ↔ s = t := by
  rw [strcmp_eq_compare]
  exact Std.LawfulEqCmp.compare_eq_iff_eq

theorem strcmp_self (s : List Byte) : strcmp s s = .eq := strcmp_eq_iff.mpr rfl

theorem strcmp_prefix (s u : List Byte) : strcmp (s ++ u) s ≠ .lt := by
  induction s with
  | nil => cases u <;> simp [strcmp]
  | cons c s ih =>
      rw [List.cons_append, strcmp, show compare c c = .eq from Std.ReflCmp.compare_self]
      exact ih

theorem prefix_of_between (hlow : strcmp t s = .gt) (hhigh : strcmp (s ++ u) t = .gt) :
    s <+: t := by
  induction s generalizing t with
  | nil => exact List.nil_prefix
  | cons c s ih =>
      cases t with
      | nil => simp [strcmp] at hlow
      | cons d t =>
          rw [strcmp, Ordering.then_eq_gt] at hlow
          rw [List.cons_append, strcmp, Ordering.then_eq_gt] at hhigh
          have hcd : c = d := by
            by_contra hne
            rcases hlow with hdc | ⟨heq, -⟩
            · rcases hhigh with hcd | ⟨heq, -⟩
              · rw [Std.OrientedCmp.gt_iff_lt] at hcd
                rw [hcd] at hdc
                simp at hdc
              · exact hne (Std.LawfulEqCmp.compare_eq_iff_eq.mp heq)
            · exact hne (Std.LawfulEqCmp.compare_eq_iff_eq.mp heq).symm
          subst hcd
          simp only [Std.ReflCmp.compare_self, reduceCtorEq, true_and, false_or] at hlow hhigh
          exact (List.prefix_cons_inj c).mpr (ih hlow hhigh)

end Order

section Search

/-- The entries before `pos` are greater than `s` and do not start with it; those from
`pos` on are smaller. -/
structure Splits (key : List TermKey) (s : List Byte) (pos : Nat) : Prop where
  le : pos ≤ key.length
  before : ∀ k ∈ key.take pos, strcmp k.string s = .gt ∧ ¬ s <+: k.string
  after : ∀ k ∈ key.drop pos, strcmp k.string s = .lt

/-- What `binsearch` returns: an entry that starts with `s`, or the place of `s`. -/
def Searched (key : List TermKey) (s : List Byte) (pos : Int) : Prop :=
  (∃ a k b, key = a ++ k :: b ∧ s <+: k.string ∧ pos = -a.length - 1) ∨
    (0 ≤ pos ∧ Splits key s pos.toNat)

theorem Sorted.middle (h : Sorted (a ++ k :: b)) :
    (∀ x ∈ a, strcmp x.string k.string = .gt) ∧ ∀ x ∈ b, strcmp k.string x.string = .gt := by
  obtain ⟨-, htail, hcross⟩ := List.pairwise_append.mp h
  exact ⟨fun x hx => hcross x hx k List.mem_cons_self, (List.pairwise_cons.mp htail).1⟩

theorem not_prefix_of_gt (hxk : strcmp r t = .gt) (hks : strcmp t s = .gt) (hno : ¬ s <+: t) :
    strcmp r s = .gt ∧ ¬ s <+: r := by
  refine ⟨strcmp_gt_trans hxk hks, ?_⟩
  rintro ⟨u, rfl⟩
  exact hno (prefix_of_between hks hxk)

/-- The loop of `binsearch`: what is outside the interval has been decided. -/
theorem binsearchLoop_spec (h : Sorted key) {turns l n : Nat} (hturns : n ≤ turns)
    (hlen : l + n ≤ key.length)
    (hbefore : ∀ x ∈ key.take l, strcmp x.string s = .gt ∧ ¬ s <+: x.string)
    (hafter : ∀ x ∈ key.drop (l + n), strcmp x.string s = .lt) :
    Searched key s (binsearchLoop key s turns l (l + n - 1)) := by
  induction turns generalizing l n with
  | zero =>
      obtain rfl : n = 0 := by omega
      change Searched key s (l : Int)
      exact .inr ⟨by omega, by simpa using hlen, by simpa using hbefore, by simpa using hafter⟩
  | succ turns ih =>
      rw [binsearchLoop]
      by_cases hn : n = 0
      · subst hn
        rw [if_pos (by omega)]
        exact .inr ⟨by omega, by simpa using hlen, by simpa using hbefore, by simpa using hafter⟩
      · rw [if_neg (by omega)]
        obtain ⟨m, hm, hlm, hmr⟩ :
            ∃ m : Nat, ((l : Int) + (l + n - 1)) / 2 = m ∧ l ≤ m ∧ m < l + n :=
          ⟨((l + (l + n - 1)) / 2), by omega, by omega, by omega⟩
        have hmlen : m < key.length := by omega
        have hsplit : key = key.take m ++ key[m] :: key.drop (m + 1) := by
          rw [← List.drop_eq_getElem_cons, List.take_append_drop]
        have hmiddle := Sorted.middle (hsplit ▸ h)
        dsimp only
        rw [hm, Int.toNat_natCast, List.getElem?_eq_getElem hmlen, Option.map_some,
          Option.getD_some]
        by_cases hprefix : s <+: key[m].string
        · rw [if_pos (by simpa using hprefix)]
          refine .inl ⟨_, _, _, hsplit, hprefix, ?_⟩
          rw [List.length_take, Nat.min_eq_left hmlen.le]
        · rw [if_neg (by simpa using hprefix)]
          cases hcmp : strcmp key[m].string s with
          | gt =>
              have hrest := @ih (m + 1) (l + n - (m + 1)) (by omega) (by omega) ?_ ?_
              · dsimp only
                rwa [show ((m : Int) + 1) = ((m + 1 : Nat) : Int) by omega,
                  show ((l : Int) + n - 1) =
                    ((m + 1 : Nat) : Int) + ((l + n - (m + 1) : Nat) : Int) - 1 by omega]
              · intro x hx
                rw [List.take_succ_eq_append_getElem hmlen, List.mem_append,
                  List.mem_singleton] at hx
                rcases hx with hx | rfl
                · exact not_prefix_of_gt (hmiddle.1 x hx) hcmp hprefix
                · exact ⟨hcmp, hprefix⟩
              · rwa [show m + 1 + (l + n - (m + 1)) = l + n by omega]
          | lt =>
              have hrest := @ih l (m - l) (by omega) (by omega) hbefore ?_
              · dsimp only
                rwa [show ((m : Int) - 1) = (l : Int) + ((m - l : Nat) : Int) - 1 by omega]
              · intro x hx
                rw [show l + (m - l) = m by omega, List.drop_eq_getElem_cons hmlen,
                  List.mem_cons] at hx
                rcases hx with rfl | hx
                · exact hcmp
                · rw [← strcmp_gt_iff] at hcmp ⊢
                  exact strcmp_gt_trans hcmp (hmiddle.2 x hx)
          | eq => exact absurd (strcmp_eq_iff.mp hcmp ▸ List.prefix_rfl) hprefix

theorem binsearch_spec (h : Sorted key) (s : List Byte) : Searched key s (binsearch key s) := by
  have hall := binsearchLoop_spec (s := s) (l := 0) h (le_refl key.length) (by omega) (by simp)
    (by simp)
  rwa [Nat.cast_zero, Int.zero_add] at hall

theorem Splits.not_prefix {pos : Nat} (h : Splits key s pos) (hk : k ∈ key) : ¬ s <+: k.string := by
  rw [← List.take_append_drop pos key, List.mem_append] at hk
  rcases hk with hk | hk
  · exact (h.before k hk).2
  · rintro ⟨u, hu⟩
    have hlt := h.after k hk
    rw [← hu] at hlt
    exact strcmp_prefix s u hlt

theorem binsearch_neg_iff (h : Sorted key) :
    binsearch key s < 0 ↔ ∃ k ∈ key, s <+: k.string := by
  rcases binsearch_spec h s with ⟨a, k, b, hkey, hprefix, hpos⟩ | ⟨hpos, hsplits⟩
  · exact iff_of_true (by omega) ⟨k, by simp [hkey], hprefix⟩
  · exact iff_of_false (by omega) fun ⟨k, hk, hprefix⟩ => hsplits.not_prefix hk hprefix

theorem Splits.sorted (h : Sorted key) {pos : Nat} (hsplits : Splits key k.string pos) :
    Sorted (key.take pos ++ k :: key.drop pos) := by
  have hpair := (List.take_append_drop pos key) ▸ h
  obtain ⟨hfront, hback, hcross⟩ := List.pairwise_append.mp hpair
  refine List.pairwise_append.mpr ⟨hfront, List.pairwise_cons.mpr ⟨fun x hx => ?_, hback⟩, ?_⟩
  · exact strcmp_gt_iff.mpr (hsplits.after x hx)
  · intro x hx y hy
    rcases List.mem_cons.mp hy with rfl | hy
    · exact (hsplits.before x hx).1
    · exact hcross x hx y hy

end Search

section Set

theorem codeOf_middle (h : Sorted (a ++ k :: b)) : codeOf (a ++ k :: b) k.string = some k.code := by
  have hnone : (a.find? fun x => x.string = k.string) = none := by
    rw [List.find?_eq_none]
    intro x hx heq
    have hgt := h.middle.1 x hx
    rw [of_decide_eq_true heq, strcmp_self] at hgt
    simp at hgt
  rw [codeOf, List.find?_append, hnone, List.find?_cons_of_pos (by simp)]
  rfl

theorem codeOf_other (hne : t ≠ k.string) : codeOf (a ++ k :: b) t = codeOf (a ++ b) t := by
  rw [codeOf, codeOf, List.find?_append, List.find?_append,
    List.find?_cons_of_neg (by simpa using hne.symm)]

/-- The table has no room for another sequence. -/
def Full (key : List TermKey) : Prop := maxTermKey - 1 ≤ key.length

/-- The code that `key_may_set` binds the sequence to. -/
def wantedCode (code : Int) : Int := if code < 0 then -code - 1 else code

theorem keyMaySet_cases (h : Sorted key) (s : List Byte) (code : Int) (source : ConfigSource) :
    (keyMaySet key s code source).2 = key ∧ (Full key ∨ 0 ≤ code ∧ binsearch key s < 0) ∨
      (∃ a k b, ¬ Full key ∧ code < 0 ∧ key = a ++ k :: b ∧ s <+: k.string ∧
        binsearch key s = -a.length - 1 ∧
        (keyMaySet key s code source).2 =
          a ++ { k with code := wantedCode code, source := source } :: b) ∨
      (∃ a b, ¬ Full key ∧ 0 ≤ binsearch key s ∧ key = a ++ b ∧ Splits key s a.length ∧
        (keyMaySet key s code source).2 = a ++ ⟨s, wantedCode code, source⟩ :: b) := by
  unfold keyMaySet
  by_cases hfull : maxTermKey - 1 ≤ key.length
  · rw [if_pos hfull]
    exact .inl ⟨rfl, .inl hfull⟩
  rw [if_neg hfull]
  dsimp only
  rcases binsearch_spec h s with ⟨a, k, b, hkey, hprefix, hpos⟩ | ⟨hpos, hsplits⟩
  · rw [if_pos (by omega)]
    by_cases hcode : code < 0
    · refine .inr (.inl ⟨a, k, b, hfull, hcode, hkey, hprefix, hpos, ?_⟩)
      rw [if_pos hcode, hpos, show (-(-(a.length : Int) - 1) - 1).toNat = a.length by omega, hkey,
        wantedCode, if_pos hcode, List.modify_eq_take_drop, List.take_left, List.drop_left]
      rfl
    · rw [if_neg hcode]
      exact .inl ⟨rfl, .inr ⟨by omega, by omega⟩⟩
  · rw [if_neg (by omega)]
    refine .inr (.inr ⟨key.take (binsearch key s).toNat, key.drop (binsearch key s).toNat, hfull,
      hpos, (List.take_append_drop _ _).symm, ?_, ?_⟩)
    · rwa [List.length_take, Nat.min_eq_left hsplits.le]
    · exact insertIdx_eq hsplits.le

theorem Sorted.recode {k' : TermKey} (h : Sorted (a ++ k :: b)) (hk : k'.string = k.string) :
    Sorted (a ++ k' :: b) := by
  obtain ⟨hfront, hback, hcross⟩ := List.pairwise_append.mp h
  obtain ⟨hhead, htail⟩ := List.pairwise_cons.mp hback
  refine List.pairwise_append.mpr ⟨hfront, List.pairwise_cons.mpr ⟨?_, htail⟩, ?_⟩
  · rwa [hk]
  · intro x hx y hy
    rcases List.mem_cons.mp hy with rfl | hy
    · rw [hk]
      exact hcross x hx k List.mem_cons_self
    · exact hcross x hx y (List.mem_cons_of_mem k hy)

theorem keyMaySet_sorted (h : Sorted key) (s : List Byte) (code : Int) (source : ConfigSource) :
    Sorted (keyMaySet key s code source).2 := by
  rcases keyMaySet_cases h s code source with ⟨hsame, -⟩ | ⟨a, k, b, -, -, hkey, -, -, hset⟩ |
    ⟨a, b, -, -, hkey, hsplits, hset⟩
  · rwa [hsame]
  · rw [hset]
    exact Sorted.recode (k := k) (hkey ▸ h) rfl
  · have hsorted := Splits.sorted (k := ⟨s, wantedCode code, source⟩) h hsplits
    rw [hset]
    rwa [hkey, List.take_left, List.drop_left] at hsorted

/-- A call changes the code of its own sequence or of none. -/
def Keeps (key : List TermKey) (s : List Byte) (code : Int) (source : ConfigSource) : Prop :=
  let key' := (keyMaySet key s code source).2
  (∀ t, t ≠ s → codeOf key' t = codeOf key t) ∧
    (codeOf key' s = codeOf key s ∨ codeOf key' s = some (wantedCode code))

/-- When the call has a negative code, the entry that `binsearch` finds is that of the
sequence itself, or has the wanted code already. -/
def Spares (key : List TermKey) (s : List Byte) (code : Int) : Prop :=
  ¬ Full key → code < 0 → ∀ a k b, key = a ++ k :: b → binsearch key s = -a.length - 1 →
    k.string = s ∨ k.code = wantedCode code

/-- A call keeps the other codes exactly when it does not hit the entry of a sequence that
merely starts with its own. -/
theorem keeps_iff (h : Sorted key) : Keeps key s code source ↔ Spares key s code := by
  rcases keyMaySet_cases h s code source with ⟨hsame, hrefused⟩ |
    ⟨a, k, b, hroom, hcode, hkey, -, hpos, hset⟩ | ⟨a, b, -, hpos, hkey, hsplits, hset⟩
  · refine iff_of_true ?_ ?_
    · rw [Keeps, hsame]
      exact ⟨fun t _ => rfl, .inl rfl⟩
    · rintro hroom hcode
      rcases hrefused with hfull | ⟨hpositive, -⟩
      · exact absurd hfull hroom
      · omega
  · subst hkey
    have hcodeOf := codeOf_middle h
    rw [Keeps, hset]
    constructor
    · rintro ⟨hothers, -⟩ - - a' k' b' heq hpos'
      obtain ⟨rfl, hrest⟩ := List.append_inj heq (by omega)
      obtain ⟨rfl, rfl⟩ := List.cons.inj hrest
      refine or_iff_not_imp_left.mpr fun hne => ?_
      have hkept := hothers k.string hne
      have hnew := codeOf_middle (k := { k with code := wantedCode code, source := source })
        (h.recode rfl)
      exact Option.some.inj (hcodeOf.symm.trans (hkept.symm.trans hnew))
    · intro hspares
      have hnew := codeOf_middle (k := { k with code := wantedCode code, source := source })
        (h.recode rfl)
      have hothers : ∀ t, t ≠ k.string →
          codeOf (a ++ { k with code := wantedCode code, source := source } :: b) t =
            codeOf (a ++ k :: b) t := fun t ht =>
        (codeOf_other (k := { k with code := wantedCode code, source := source }) ht).trans
          (codeOf_other ht).symm
      rcases hspares hroom hcode a k b rfl hpos with rfl | hsame
      · exact ⟨hothers, .inr hnew⟩
      · have hall : ∀ t, codeOf (a ++ { k with code := wantedCode code, source := source } :: b) t =
            codeOf (a ++ k :: b) t := fun t => by
          by_cases ht : t = k.string
          · rw [ht, hcodeOf, hsame]
            exact hnew
          · exact hothers t ht
        exact ⟨fun t _ => hall t, .inl (hall s)⟩
  · refine iff_of_true ?_ fun _ _ a' k' b' _ hneg => by omega
    rw [Keeps, hset, hkey]
    refine ⟨fun t ht => codeOf_other ht, .inr ?_⟩
    have hsorted := Splits.sorted (k := ⟨s, wantedCode code, source⟩) h hsplits
    rw [hkey, List.take_left, List.drop_left] at hsorted
    exact codeOf_middle hsorted

end Set

section Runs

/-- A call of `key_may_set` -/
structure Call where
  capString : List Byte
  code : Int
  source : ConfigSource

/-- The table after some calls. -/
def setKeys (key : List TermKey) (calls : List Call) : List TermKey :=
  calls.foldl (fun key c => (keyMaySet key c.capString c.code c.source).2) key

theorem setKeys_sorted (h : Sorted key) (calls : List Call) : Sorted (setKeys key calls) := by
  induction calls generalizing key with
  | nil => exact h
  | cons c calls ih => exact ih (keyMaySet_sorted h c.capString c.code c.source)

/-- After any calls the table is in order, `binsearch` finds what starts with a string, or
the place of the string, and the next call keeps the codes of the other sequences exactly
when it spares them. -/
theorem setKeys_keeps (h : Sorted key) (calls : List Call) :
    Sorted (setKeys key calls) ∧
      (∀ s, (binsearch (setKeys key calls) s < 0 ↔ ∃ k ∈ setKeys key calls, s <+: k.string) ∧
        (0 ≤ binsearch (setKeys key calls) s →
          binsearch (setKeys key calls) s ≤ (setKeys key calls).length ∧ ∀ code source,
            Sorted ((setKeys key calls).insertIdx (binsearch (setKeys key calls) s).toNat
              ⟨s, code, source⟩))) ∧
      ∀ c : Call, Keeps (setKeys key calls) c.capString c.code c.source ↔
        Spares (setKeys key calls) c.capString c.code := by
  have hsorted := setKeys_sorted h calls
  refine ⟨hsorted, fun s => ⟨binsearch_neg_iff hsorted, fun hpos => ?_⟩,
    fun c => keeps_iff hsorted⟩
  rcases binsearch_spec hsorted s with ⟨a, k, b, -, -, hneg⟩ | ⟨-, hsplits⟩
  · omega
  · have hle := hsplits.le
    refine ⟨by omega, fun code source => ?_⟩
    rw [insertIdx_eq hle]
    exact Splits.sorted (k := ⟨s, code, source⟩) hsorted hsplits

/-- The cursor keys of a terminal -/
def cursorKeys : List TermKey := [⟨[27, 91, 66], 259, .builtIn⟩, ⟨[27, 91, 65], 258, .builtIn⟩]

theorem setKeys_keeps_cursorKeys :
    Sorted (setKeys cursorKeys [⟨[27, 79], 5, .userPrefs⟩]) ∧
      (∀ s, (binsearch (setKeys cursorKeys [⟨[27, 79], 5, .userPrefs⟩]) s < 0 ↔
          ∃ k ∈ setKeys cursorKeys [⟨[27, 79], 5, .userPrefs⟩], s <+: k.string) ∧
        (0 ≤ binsearch (setKeys cursorKeys [⟨[27, 79], 5, .userPrefs⟩]) s →
          binsearch (setKeys cursorKeys [⟨[27, 79], 5, .userPrefs⟩]) s ≤
              (setKeys cursorKeys [⟨[27, 79], 5, .userPrefs⟩]).length ∧ ∀ code source,
            Sorted ((setKeys cursorKeys [⟨[27, 79], 5, .userPrefs⟩]).insertIdx
              (binsearch (setKeys cursorKeys [⟨[27, 79], 5, .userPrefs⟩]) s).toNat
              ⟨s, code, source⟩))) ∧
      ∀ c : Call, Keeps (setKeys cursorKeys [⟨[27, 79], 5, .userPrefs⟩]) c.capString c.code
          c.source ↔
        Spares (setKeys cursorKeys [⟨[27, 79], 5, .userPrefs⟩]) c.capString c.code :=
  setKeys_keeps (by decide) [⟨[27, 79], 5, .userPrefs⟩]

/-- A sequence that both cursor keys start with takes the code of one of them. -/
theorem not_keeps : Sorted cursorKeys ∧ ¬ Keeps cursorKeys [27, 91] (-6) .userPrefs := by
  refine ⟨by decide, fun hkeeps => ?_⟩
  have hother := hkeeps.1 [27, 91, 66] (by decide)
  revert hother
  decide

end Runs

end NiceEditor.KeyTables
