import NiceEditor.PoolOwnership
import Mathlib.Data.List.Nodup

namespace NiceEditor.PoolOperations

open NiceEditor.Cells
open NiceEditor.Pools
open NiceEditor.Ownership
open NiceEditor.PoolOwnership

variable {strict : Prop} {b b' : CharPools} {p : Ptr} {n : Nat}

theorem pool_unique (hb : PoolsOk b) {c d : CharPool} (hc : c ∈ b.charPoolList)
    (hd : d ∈ b.charPoolList) (heq : c.pool = d.pool) : c = d :=
  List.inj_on_of_nodup_map hb.nodup hc hd heq

theorem used_lt_size (hb : PoolsOk b) {c : CharPool} (hc : c ∈ b.charPoolList)
    {i : Nat} (hused : Used b c.pool i) : i < c.size := by
  obtain ⟨⟨d, hd, heq, hi⟩, -⟩ := hused
  rwa [pool_unique hb hd hc heq] at hi

theorem getCharPool_of_used (hused : Used b p.block p.off) :
    ∃ c ∈ b.charPoolList, c.pool = p.block ∧ getCharPool b p = some c := by
  obtain ⟨⟨d, hd, hpool, hi⟩, -⟩ := hused
  unfold getCharPool
  cases hfind : b.charPoolList.find? fun c => c.pool = p.block ∧ p.off < c.size with
  | none =>
      have := List.find?_eq_none.mp hfind d hd
      simp [hpool, hi] at this
  | some c =>
      have hc := List.find?_some hfind
      simp only [decide_eq_true_eq] at hc
      exact ⟨c, List.mem_of_find?_eq_some hfind, hc.1, rfl⟩

theorem segment_used (hown : Owns False b [⟨some p, n⟩]) {i : Nat}
    (hlow : p.off ≤ i) (hhigh : i < p.off + n) : Used b p.block i :=
  hown.used _ (List.mem_singleton_self _) _ _ (covers_some.mpr ⟨rfl, hlow, hhigh⟩)

theorem map_update_eq_self {c : CharPool} {others : List CharPool}
    (hne : ∀ d ∈ others, d.pool ≠ c.pool) :
    (others.map fun d => if d.pool = c.pool then c else d) = others := by
  conv_rhs => rw [← List.map_id others]
  exact List.map_congr_left fun d hd => by simp [hne d hd]

theorem setCharPool_perm {c c' : CharPool} {others : List CharPool}
    (hne : ∀ d ∈ others, d.pool ≠ c'.pool)
    (hlist : b.charPoolList.Perm (c :: others)) (hpool : c'.pool = c.pool) :
    (setCharPool b c').charPoolList.Perm (c' :: others) := by
  refine (hlist.map _).trans ?_
  rw [List.map_cons, map_update_eq_self hne, if_pos hpool.symm]

theorem filter_perm {c : CharPool} {others : List CharPool} (hb : PoolsOk b)
    (hlist : b.charPoolList.Perm (c :: others)) :
    (b.charPoolList.filter fun d => d.pool ≠ c.pool).Perm others := by
  refine (hlist.filter _).trans ?_
  rw [List.filter_cons_of_neg (by simp)]
  rw [List.filter_eq_self.mpr fun d hd => by simpa using hb.others_ne hlist d hd]

/-- Dropping a pool without used characters. -/
theorem cellStep_drop {c : CharPool} {others : List CharPool} {old : List LineDesc}
    (hb : PoolsOk b) (hlist : b.charPoolList.Perm (c :: others))
    (hlist' : b'.charPoolList.Perm others)
    (hmem : ∀ block, block ≠ c.pool → b'.mem block = b.mem block)
    (hnext : b'.nextBlock = b.nextBlock)
    (hold : ∀ ld ∈ old, ∀ block i, Covers ld block i → block = c.pool)
    (hempty : ∀ i, i < c.size → b.mem c.pool i ≠ 0 → ∃ ld ∈ old, Covers ld c.pool i)
    (halloc : b'.allocatedChars = b.allocatedChars - c.size)
    (hfree : b'.freeChars = b.freeChars - zeroCount (b.mem c.pool) c.size) :
    CellStep b old b' [] := by
  have hin : ∀ d ∈ others, d ∈ b.charPoolList := fun d hd =>
    hlist.mem_iff.mpr (List.mem_cons_of_mem _ hd)
  have hne := hb.others_ne hlist
  have hused' : ∀ block i, Used b' block i ↔
      (∃ d ∈ others, d.pool = block ∧ i < d.size) ∧ b.mem block i ≠ 0 := by
    intro block i
    unfold Used
    constructor
    · rintro ⟨⟨d, hd, rfl, hi⟩, hval⟩
      have hd' := hlist'.mem_iff.mp hd
      rw [hmem _ (hne d hd')] at hval
      exact ⟨⟨d, hd', rfl, hi⟩, hval⟩
    · rintro ⟨⟨d, hd, rfl, hi⟩, hval⟩
      rw [← hmem _ (hne d hd)] at hval
      exact ⟨⟨d, hlist'.mem_iff.mpr hd, rfl, hi⟩, hval⟩
  refine
    { pools := ⟨?_, ?_, ?_⟩
      null := by simp
      used := by simp
      apart := List.Pairwise.nil
      fresh := by simp
      kept := ?_
      all := ?_
      allocated := ?_
      free := ?_ }
  · have hnodup := (hlist.map CharPool.pool).nodup_iff.mp hb.nodup
    rw [List.map_cons, List.nodup_cons] at hnodup
    exact (hlist'.map CharPool.pool).nodup_iff.mpr hnodup.2
  · intro d hd
    rw [hnext]
    exact hb.old d (hin d (hlist'.mem_iff.mp hd))
  · intro d hd
    rw [hmem _ (hne d (hlist'.mem_iff.mp hd))]
    exact hb.exact d (hin d (hlist'.mem_iff.mp hd))
  · intro block i hused hnot
    obtain ⟨⟨rfl, hi⟩ | hex, hval⟩ := (used_iff hlist).mp hused
    · exact absurd (hempty i hi hval) hnot
    · obtain ⟨d, hd, rfl, hi⟩ := hex
      exact ⟨(hused' _ i).mpr ⟨⟨d, hd, rfl, hi⟩, hval⟩, congrFun (hmem _ (hne d hd)) i⟩
  · intro block i hused _
    obtain ⟨⟨d, hd, rfl, hi⟩, hval⟩ := (hused' block i).mp hused
    refine ⟨⟨⟨d, hin d hd, rfl, hi⟩, hval⟩, ?_⟩
    rintro ⟨ld, hld, hcov⟩
    exact hne d hd (hold ld hld _ i hcov)
  · intro h
    rw [poolChars, (hlist'.map _).sum_eq, halloc, h, poolChars_of_perm hlist]
    omega
  · intro h
    rw [zeroChars, (hlist'.map _).sum_eq, zeroCounts_congr fun d hd => hmem _ (hne d hd),
      hfree, h, zeroChars_of_perm hlist]
    omega

section Release

theorem firstUsed_scan {m : Nat → Byte} {first last : Nat} (hle : first ≤ last) :
    let first' := first + zerosAfter m (last + 1) (last + 1 - first) first
    first ≤ first' ∧ (∀ i, first ≤ i → i < first' → m i = 0) ∧
      (first' ≤ last → m first' ≠ 0) := by
  intro first'
  refine ⟨Nat.le_add_right _ _, fun i hlow hhigh => zerosAfter_zero m _ _ _ hlow hhigh, ?_⟩
  intro hlast
  exact zerosAfter_stop m _ _ _ (by omega) (by omega)

theorem lastUsed_scan {m : Nat → Byte} {first last : Nat} :
    let back := zerosBefore m (last + 1 - first) (last + 1)
    (∀ i, last < i + back → i ≤ last → m i = 0) ∧
      (first + back ≤ last → m (last - back) ≠ 0) := by
  intro back
  refine ⟨fun i hlow hhigh => 
    zerosBefore_zero m (last + 1 - first) (last + 1) (by omega) (by omega), ?_⟩
  intro hlast
  have := zerosBefore_stop m (last + 1 - first) (last + 1)
    (by omega) (by omega)
  rwa [Nat.add_sub_cancel] at this

variable {m m' : Nat → Byte} {off first back : Nat} {c : CharPool}

/-- Segment `off`, `n` of the cells has been set to zero. -/
structure Cleared (m m' : Nat → Byte) (off n : Nat) : Prop where
  inside : ∀ i, off ≤ i → i < off + n → m' i = 0
  outside : ∀ i, i < off ∨ off + n ≤ i → m' i = m i

theorem cleared_writeCells (m : Nat → Byte) (off n : Nat) :
    Cleared m (writeCells m off (List.replicate n 0)) off n where
  inside i hlow hhigh := by
    rw [writeCells_of_inside _ hlow (by simpa using hhigh), List.getElem_replicate]
  outside i hi := writeCells_of_outside _ (by simpa using hi)

theorem Cleared.ne_zero (h : Cleared m m' off n) {i : Nat} (hne : m' i ≠ 0) :
    m i ≠ 0 ∧ (i < off ∨ off + n ≤ i) := by
  by_cases hi : i < off ∨ off + n ≤ i
  · exact ⟨h.outside i hi ▸ hne, hi⟩
  · exact absurd (h.inside i (by omega) (by omega)) hne

theorem Cleared.zeroCount_eq (h : Cleared m m' off n) {size : Nat} (hsize : off + n ≤ size)
    (hcells : ∀ i, off ≤ i → i < off + n → m i ≠ 0) :
    zeroCount m' size = zeroCount m size + n := by
  have hcount := zeroCount_change _ _ _ hsize h.outside
  rwa [count_zero_readCells_of_zero h.inside, count_zero_readCells_of_ne_zero hcells,
    Nat.add_zero] at hcount

/-- `first_used` of a pool after `free_chars` -/
def firstAfter (m : Nat → Byte) (c : CharPool) (off : Nat) : Nat :=
  if off = c.firstUsed
    then c.firstUsed + zerosAfter m (c.lastUsed + 1) (c.lastUsed + 1 - c.firstUsed) c.firstUsed
    else c.firstUsed

/-- How far `free_chars` steps `last_used` back. -/
def backAfter (m : Nat → Byte) (c : CharPool) (first stop : Nat) : Nat :=
  if stop = c.lastUsed + 1 then zerosBefore m (c.lastUsed + 1 - first) (c.lastUsed + 1) else 0

/-- The ends of a pool have moved over zeros, up to a used character. -/
structure Ends (m : Nat → Byte) (c : CharPool) (first back : Nat) : Prop where
  before : ∀ i, c.firstUsed ≤ i → i < first → m i = 0
  first_ne : first ≤ c.lastUsed → m first ≠ 0
  behind : ∀ i, c.lastUsed < i + back → i ≤ c.lastUsed → m i = 0
  last_ne : first + back ≤ c.lastUsed → m (c.lastUsed - back) ≠ 0

theorem ends_after (h : Cleared m m' off n) (hexact : PoolExact m c) (hn : 0 < n)
    (hsize : off + n ≤ c.size) (hcells : ∀ i, off ≤ i → i < off + n → m i ≠ 0) :
    Ends m' c (firstAfter m' c off) (backAfter m' c (firstAfter m' c off) (off + n)) := by
  obtain ⟨hfirst, hlast⟩ := hexact.within off (by omega) (hcells off le_rfl (by omega))
  have hend := (hexact.within (off + (n - 1)) (by omega) (hcells _ (by omega) (by omega))).2
  have hbefore : (∀ i, c.firstUsed ≤ i → i < firstAfter m' c off → m' i = 0) ∧
      (firstAfter m' c off ≤ c.lastUsed → m' (firstAfter m' c off) ≠ 0) := by
    rw [firstAfter]
    split
    · exact (firstUsed_scan (by omega)).2
    · refine ⟨fun i hlow hhigh => by omega, fun _ => ?_⟩
      rw [h.outside _ (Or.inl (by omega))]
      exact hexact.firstUsed_ne
  generalize firstAfter m' c off = first at hbefore
  have hbehind : (∀ i, c.lastUsed < i + backAfter m' c first (off + n) → i ≤ c.lastUsed →
      m' i = 0) ∧ (first + backAfter m' c first (off + n) ≤ c.lastUsed →
        m' (c.lastUsed - backAfter m' c first (off + n)) ≠ 0) := by
    rw [backAfter]
    split
    · exact lastUsed_scan
    · refine ⟨fun i hlow hhigh => by omega, fun _ => ?_⟩
      rw [Nat.sub_zero, h.outside _ (Or.inr (by omega))]
      exact hexact.lastUsed_ne
  exact ⟨hbefore.1, hbefore.2, hbehind.1, hbehind.2⟩

theorem Ends.gone (hends : Ends m' c first back) (h : Cleared m m' off n)
    (hexact : PoolExact m c) (hmet : c.lastUsed < first + back) :
    ∀ i, i < c.size → m' i = 0 := by
  intro i hi
  by_contra hne
  obtain ⟨hlow, hhigh⟩ := hexact.within i hi (h.ne_zero hne).1
  by_cases hif : i < first
  · exact hne (hends.before i hlow hif)
  · exact hne (hends.behind i (by omega) hhigh)

theorem Ends.exact (hends : Ends m' c first back) (h : Cleared m m' off n)
    (hexact : PoolExact m c) (hstay : ¬ c.lastUsed < first + back) :
    PoolExact m' { c with firstUsed := first, lastUsed := c.lastUsed - back } where
  lastUsed_lt := by
    have hlast := hexact.lastUsed_lt
    dsimp only
    omega
  firstUsed_ne := hends.first_ne (by omega)
  lastUsed_ne := hends.last_ne (by omega)
  within i hi hne := by
    obtain ⟨hlow, hhigh⟩ := hexact.within i hi (h.ne_zero hne).1
    refine ⟨?_, ?_⟩
    · by_contra hif
      exact hne (hends.before i hlow (by simpa using hif))
    · by_contra hif
      simp only [not_le] at hif
      exact hne (hends.behind i (by omega) hhigh)

theorem covers_singleton {block i : Nat} :
    (∃ ld ∈ [(⟨some p, n⟩ : LineDesc)], Covers ld block i) ↔
      block = p.block ∧ p.off ≤ i ∧ i < p.off + n := by
  simp only [List.mem_singleton, exists_eq_left, covers_some]

theorem freeChars_eq (hget : getCharPool b p = some c) (hn : n ≠ 0) :
    freeChars b (some p) n =
      let m := writeCells (b.mem p.block) p.off (List.replicate n 0)
      let first := firstAfter m c p.off
      let back := backAfter m c first (p.off + n)
      let b := { b with mem := Function.update b.mem p.block m, freeChars := b.freeChars + n }
      if c.lastUsed < first + back then
        { b with
          charPoolList := b.charPoolList.filter fun d => d.pool ≠ c.pool
          allocatedChars := b.allocatedChars - c.size
          freeChars := b.freeChars - c.size }
      else setCharPool b { c with firstUsed := first, lastUsed := c.lastUsed - back } := by
  simp only [freeChars, hget, if_neg hn, store, Function.update_self]
  rfl

/-- `free_chars` gives a whole segment back. -/
theorem freeChars_exchanges (hn : 0 < n) :
    Exchanges (Owns strict) lineBytes b [⟨some p, n⟩] (freeChars b (some p) n) [] := by
  apply CellStep.exchanges
  intro hown
  have hb := hown.pools
  obtain ⟨c, hc, hpool, hget⟩ :=
    getCharPool_of_used (segment_used hown le_rfl (by omega))
  have hsize : p.off + n ≤ c.size := by
    have := used_lt_size hb hc (i := p.off + (n - 1))
      (hpool ▸ segment_used hown (by omega) (by omega))
    omega
  have hcells : ∀ i, p.off ≤ i → i < p.off + n → b.mem p.block i ≠ 0 := fun i hlow hhigh =>
    (segment_used hown hlow hhigh).2
  have hlist : b.charPoolList.Perm (c :: b.charPoolList.erase c) := List.perm_cons_erase hc
  have hexact := hb.exact c hc
  rw [hpool] at hexact
  have hclear := cleared_writeCells (b.mem p.block) p.off n
  have hends := ends_after hclear hexact hn hsize hcells
  have hcount := hclear.zeroCount_eq hsize hcells
  have hold : ∀ ld ∈ [(⟨some p, n⟩ : LineDesc)], ∀ block i, Covers ld block i →
      block = c.pool := fun ld hld block i hcov =>
    (covers_singleton.mp ⟨ld, hld, hcov⟩).1.trans hpool.symm
  rw [freeChars_eq hget hn.ne']
  dsimp only
  generalize writeCells (b.mem p.block) p.off (List.replicate n 0) = m at hclear hends hcount
  generalize firstAfter m c p.off = first at hends ⊢
  generalize backAfter m c first (p.off + n) = back at hends ⊢
  split
  · rename_i hgone
    have hzero := hends.gone hclear hexact hgone
    refine cellStep_drop hb hlist (filter_perm hb hlist)
      (fun block hblock => Function.update_of_ne (hpool ▸ hblock) _ _) rfl hold ?_ rfl ?_
    · intro i hi hne
      rw [covers_singleton]
      by_contra hout
      have hsame := hclear.outside i (by omega)
      exact hne (by rw [hpool, ← hsame, hzero i hi])
    · have hall : zeroCount m c.size = c.size :=
        count_zero_readCells_of_zero fun i _ hi => hzero i (by omega)
      simp only [hpool]
      omega
  · rename_i hstay
    have hchange : PoolChange b (setCharPool
        { b with
          mem := Function.update b.mem p.block m
          freeChars := b.freeChars + n }
        { c with firstUsed := first, lastUsed := c.lastUsed - back }) c
        { c with firstUsed := first, lastUsed := c.lastUsed - back }
        (b.charPoolList.erase c) :=
      { before := hlist
        after := setCharPool_perm (fun d hd => hb.others_ne hlist d hd) hlist rfl
        pool := rfl
        size := rfl
        mem := fun block hblock => Function.update_of_ne (hpool ▸ hblock) _ _
        next := rfl }
    have hmem : (setCharPool
        { b with
          mem := Function.update b.mem p.block m
          freeChars := b.freeChars + n }
        { c with firstUsed := first, lastUsed := c.lastUsed - back }).mem c.pool = m := by
      rw [hpool]
      exact Function.update_self ..
    refine hchange.cellStep hb ?_ (by simp) List.Pairwise.nil hold (by simp) (by simp) ?_ ?_
      rfl ?_
    · rw [hmem]
      exact hends.exact hclear hexact hstay
    · intro i hi hne hnold
      rw [covers_singleton] at hnold
      rw [hmem, hpool]
      exact hclear.outside i (by omega)
    · intro i hi hne _
      rw [hmem] at hne
      obtain ⟨hne', hout⟩ := hclear.ne_zero hne
      refine ⟨hpool ▸ hne', fun hcov => ?_⟩
      have hin := covers_singleton.mp hcov
      omega
    · rw [hmem, hpool]
      show (b.freeChars + n : Int) + _ = _
      omega

end Release

section Claim

/-- The cells from `lo` up to `hi` become one segment: those of `old` were in
use before, all the others were free. -/
theorem cellStep_extend {c c' : CharPool} {others : List CharPool} (old : List LineDesc)
    (lo hi : Nat) (hb : PoolsOk b) (change : PoolChange b b' c c' others)
    (hlt : lo < hi) (hsize : hi ≤ c.size)
    (hfirst : c'.firstUsed = min c.firstUsed lo)
    (hlast : c'.lastUsed = max c.lastUsed (hi - 1))
    (hold : ∀ ld ∈ old, ∀ block i, Covers ld block i → block = c.pool ∧ lo ≤ i ∧ i < hi)
    (hzero : ∀ i, lo ≤ i → i < hi → (¬ ∃ ld ∈ old, Covers ld c.pool i) →
      b.mem c.pool i = 0)
    (hin : ∀ i, lo ≤ i → i < hi → b'.mem c.pool i ≠ 0)
    (hout : ∀ i, i < lo ∨ hi ≤ i → b'.mem c.pool i = b.mem c.pool i)
    (halloc : b'.allocatedChars = b.allocatedChars)
    (hfree : b'.freeChars + (readCells (b.mem c.pool) lo (hi - lo)).count 0 = b.freeChars) :
    CellStep b old b' [⟨some ⟨c.pool, lo⟩, hi - lo⟩] := by
  have hexact := hb.exact c (change.before.mem_iff.mpr List.mem_cons_self)
  have hcover : ∀ block i, (∃ ld ∈ [(⟨some ⟨c.pool, lo⟩, hi - lo⟩ : LineDesc)],
      Covers ld block i) ↔ block = c.pool ∧ lo ≤ i ∧ i < hi := by
    intro block i
    simp only [List.mem_singleton, exists_eq_left, covers_some]
    omega
  refine change.cellStep hb ?_ ?_ (List.pairwise_singleton _ _)
    (fun ld hld block i hcov => (hold ld hld block i hcov).1) ?_ ?_ ?_ ?_ halloc ?_
  · have hfirst_in := hexact.within c.firstUsed
    refine ⟨?_, ?_, ?_, ?_⟩
    · rw [hlast, change.size]
      have := hexact.lastUsed_lt
      omega
    · rw [hfirst]
      rcases Nat.lt_or_ge c.firstUsed lo with hlow | hlow
      · rw [Nat.min_eq_left (by omega), hout _ (Or.inl hlow)]
        exact hexact.firstUsed_ne
      · rw [Nat.min_eq_right hlow]
        exact hin lo le_rfl hlt
    · rw [hlast]
      rcases Nat.lt_or_ge c.lastUsed hi with hhigh | hhigh
      · rw [Nat.max_eq_right (by omega)]
        exact hin _ (by omega) (by omega)
      · rw [Nat.max_eq_left (by omega), hout _ (Or.inr hhigh)]
        exact hexact.lastUsed_ne
    · intro i hi' hne
      rw [change.size] at hi'
      by_cases hbetween : lo ≤ i ∧ i < hi
      · omega
      · rw [hout i (by omega)] at hne
        have := hexact.within i hi' hne
        omega
  · intro ld hld
    rw [List.mem_singleton.mp hld]
    simp only [reduceCtorEq, false_iff]
    omega
  · intro ld hld block i hcov
    obtain ⟨hblock, hlow, hhigh⟩ := (hcover block i).mp ⟨ld, hld, hcov⟩
    exact ⟨hblock, by omega, hin i hlow hhigh⟩
  · intro ld hld i hcov hne
    obtain ⟨-, hlow, hhigh⟩ := (hcover c.pool i).mp ⟨ld, hld, hcov⟩
    by_contra hnot
    exact hne (hzero i hlow hhigh hnot)
  · intro i _ hne hnot
    refine hout i ?_
    by_contra hbetween
    exact hne (hzero i (by omega) (by omega) hnot)
  · intro i _ hne hnot
    rw [hcover] at hnot
    have hi' : i < lo ∨ hi ≤ i := by omega
    refine ⟨hout i hi' ▸ hne, ?_⟩
    rintro ⟨ld, hld, hcov⟩
    have := hold ld hld _ i hcov
    omega
  · have hchange := zeroCount_change (m := b.mem c.pool) c.size lo (hi - lo) (by omega)
      (fun i hi' => hout i (by omega))
    rw [count_zero_readCells_of_ne_zero fun i hlow hhigh => hin i hlow (by omega),
      Nat.add_zero] at hchange
    omega

/-- A new pool is put on the list for one segment at its start. -/
theorem cellStep_newPool {c : CharPool} {n : Nat} (hb : PoolsOk b)
    (hlist : b'.charPoolList = c :: b.charPoolList) (hblock : c.pool = b.nextBlock)
    (hnext : b'.nextBlock = b.nextBlock + 1)
    (hmem : ∀ block, block ≠ c.pool → b'.mem block = b.mem block)
    (hn : 0 < n) (hsize : n ≤ c.size) (hfirst : c.firstUsed = 0) (hlast : c.lastUsed = n - 1)
    (hin : ∀ i, i < n → b'.mem c.pool i ≠ 0) (hout : ∀ i, n ≤ i → b'.mem c.pool i = 0)
    (halloc : b'.allocatedChars = b.allocatedChars + c.size)
    (hfree : b'.freeChars = b.freeChars + (c.size - n)) :
    CellStep b [] b' [⟨some ⟨c.pool, 0⟩, n⟩] := by
  have hold : ∀ d ∈ b.charPoolList, d.pool ≠ c.pool := fun d hd => by
    have := hb.old d hd
    omega
  have hperm : b'.charPoolList.Perm (c :: b.charPoolList) := hlist ▸ List.Perm.refl _
  have hused : ∀ block i, Used b' block i ↔
      (block = c.pool ∧ i < n) ∨ Used b block i := by
    intro block i
    rw [used_iff hperm]
    constructor
    · rintro ⟨⟨rfl, _⟩ | ⟨d, hd, rfl, hi⟩, hne⟩
      · refine Or.inl ⟨rfl, ?_⟩
        by_contra hge
        exact hne (hout i (by omega))
      · exact Or.inr ⟨⟨d, hd, rfl, hi⟩, hmem _ (hold d hd) ▸ hne⟩
    · rintro (⟨rfl, hi⟩ | ⟨⟨d, hd, rfl, hi⟩, hne⟩)
      · exact ⟨Or.inl ⟨rfl, by omega⟩, hin i hi⟩
      · exact ⟨Or.inr ⟨d, hd, rfl, hi⟩, (hmem _ (hold d hd)).symm ▸ hne⟩
  have hnot : ∀ i, ¬ Used b c.pool i := by
    rintro i ⟨⟨d, hd, heq, -⟩, -⟩
    exact hold d hd heq
  refine
    { pools := ⟨?_, ?_, ?_⟩
      null := ?_
      used := ?_
      apart := List.pairwise_singleton _ _
      fresh := ?_
      kept := ?_
      all := ?_
      allocated := ?_
      free := ?_ }
  · rw [hlist, List.map_cons, List.nodup_cons]
    refine ⟨fun hmem => ?_, hb.nodup⟩
    obtain ⟨d, hd, heq⟩ := List.mem_map.mp hmem
    exact hold d hd heq
  · intro d hd
    rw [hlist] at hd
    rcases List.mem_cons.mp hd with rfl | hd
    · omega
    · have := hb.old d hd
      omega
  · intro d hd
    rw [hlist] at hd
    rcases List.mem_cons.mp hd with rfl | hd
    · refine ⟨by omega, ?_, ?_, ?_⟩
      · exact hin _ (by omega)
      · exact hin _ (by omega)
      · intro i hi hne
        refine ⟨by omega, ?_⟩
        by_contra hgt
        exact hne (hout i (by omega))
    · rw [hmem _ (hold d hd)]
      exact hb.exact d hd
  · intro ld hld
    rw [List.mem_singleton.mp hld]
    simp only [reduceCtorEq, false_iff]
    omega
  · intro ld hld block i hcov
    rw [List.mem_singleton.mp hld, covers_some] at hcov
    exact (hused block i).mpr (Or.inl ⟨hcov.1, by simpa using hcov.2.2⟩)
  · intro ld hld block i hcov h
    rw [List.mem_singleton.mp hld, covers_some] at hcov
    obtain rfl : block = c.pool := hcov.1
    exact absurd h (hnot i)
  · intro block i h _
    refine ⟨(hused block i).mpr (Or.inr h), ?_⟩
    rw [hmem]
    rintro rfl
    exact hnot i h
  · intro block i h hnew
    rcases (hused block i).mp h with ⟨rfl, hi⟩ | h
    · exact absurd ⟨_, List.mem_singleton_self _, covers_some.mpr ⟨rfl, by simp, by simpa⟩⟩ hnew
    · exact ⟨h, by simp⟩
  · intro h
    rw [halloc, h, poolChars_of_perm hperm]
    simp only [poolChars]
    omega
  · intro h
    have hcounts := zeroCounts_congr (b := b) fun d hd => hmem _ (hold d hd)
    rw [hfree, h, zeroChars_of_perm hperm, hcounts]
    have hcount := zeroCount_change (m := fun _ => (0 : Byte)) c.size 0 n (by omega)
      (fun i hi => hout i (by omega))
    have hzeros : ∀ k, (readCells (fun _ => (0 : Byte)) 0 k).count 0 = k :=
      fun k => count_zero_readCells_of_zero fun _ _ _ => rfl
    have hfull : zeroCount (fun _ => (0 : Byte)) c.size = c.size := hzeros c.size
    rw [hzeros, count_zero_readCells_of_ne_zero fun i _ hi => hin i (by omega),
      hfull] at hcount
    simp only [zeroChars]
    omega

theorem scanPools_perm {len : Nat} {pools others : List CharPool} {found : CharPool}
    (h : scanPools len pools = some (p, found, others)) :
    ∃ c, pools.Perm (c :: others) ∧ allocInPool len c = some (p, found) := by
  induction pools generalizing others with
  | nil => simp [scanPools] at h
  | cons c rest ih =>
      simp only [scanPools] at h
      split at h
      · rename_i p' cp halloc
        simp only [Option.some.injEq, Prod.mk.injEq] at h
        obtain ⟨rfl, rfl, rfl⟩ := h
        exact ⟨c, List.Perm.refl _, halloc⟩
      · obtain ⟨⟨p', found', others'⟩, hrec, heq⟩ := Option.map_eq_some_iff.mp h
        simp only [Prod.mk.injEq] at heq
        obtain ⟨rfl, rfl, rfl⟩ := heq
        obtain ⟨d, hperm, halloc⟩ := ih hrec
        exact ⟨d, (hperm.cons c).trans (List.Perm.swap d c _), halloc⟩

theorem allocInPool_spec {len : Nat} {c found : CharPool}
    (h : allocInPool len c = some (p, found)) :
    found.pool = c.pool ∧ found.size = c.size ∧ p.block = c.pool ∧
      ((p.off + len = c.firstUsed ∧ found.firstUsed = p.off ∧ found.lastUsed = c.lastUsed) ∨
        (p.off = c.lastUsed + 1 ∧ p.off + len ≤ c.size ∧
          found.firstUsed = c.firstUsed ∧ found.lastUsed = c.lastUsed + len)) := by
  unfold allocInPool at h
  split at h
  · simp only [Option.some.injEq, Prod.mk.injEq] at h
    obtain ⟨rfl, rfl⟩ := h
    refine ⟨rfl, rfl, rfl, Or.inl ⟨?_, rfl, rfl⟩⟩
    simp only
    omega
  · split at h
    · simp only [Option.some.injEq, Prod.mk.injEq] at h
      obtain ⟨rfl, rfl⟩ := h
      refine ⟨rfl, rfl, rfl, Or.inr ⟨rfl, ?_, rfl, rfl⟩⟩
      simp only
      omega
    · simp at h

theorem allocCharPool_some {size : Nat} {c : CharPool} {b₁ : CharPools}
    (h : allocCharPool b size = (some c, b₁)) :
    c = ⟨b.nextBlock, if size < stdPoolSize then stdPoolSize else size, 0, 0⟩ ∧
      b₁ = { b with
        answers := fun n => b.answers (n + 1)
        mem := Function.update b.mem b.nextBlock fun _ => 0
        nextBlock := b.nextBlock + 1 } := by
  cases hans : b.answers 0 with
  | false => simp [allocCharPool, request, hans] at h
  | true =>
      simp only [allocCharPool, request, hans, if_true, Prod.mk.injEq,
        Option.some.injEq] at h
      exact ⟨h.1.symm, h.2.symm⟩

/-- `alloc_chars` followed by the copy of a text into the characters it
returned. -/
theorem allocChars_exchanges {xs : List Byte} {b₁ : CharPools} (hxs : xs ≠ [])
    (hne : ∀ x ∈ xs, x ≠ 0) (h : allocChars b xs.length = (some p, b₁)) :
    Exchanges (Owns strict) lineBytes b [] (store b₁ p xs) [⟨some p, xs.length⟩] := by
  have hlen : 0 < xs.length := List.length_pos_iff.mpr hxs
  apply CellStep.exchanges
  intro hown
  have hb := hown.pools
  unfold allocChars at h
  rw [if_neg (Nat.ne_of_gt hlen)] at h
  split at h
  · rename_i p' found others hscan
    simp only [Prod.mk.injEq, Option.some.injEq] at h
    obtain ⟨rfl, rfl⟩ := h
    obtain ⟨c, hlist, halloc⟩ := scanPools_perm hscan
    obtain ⟨hpool, hsize, hblock, hplace⟩ := allocInPool_spec halloc
    have hexact := hb.exact c (hlist.mem_iff.mpr List.mem_cons_self)
    have hfirst_last := (hexact.within _ hexact.lastUsed_lt hexact.lastUsed_ne).1
    have hlast := hexact.lastUsed_lt
    have hchange : PoolChange b
        (store { b with
          charPoolList := found :: others
          freeChars := b.freeChars - xs.length } p' xs) c found others :=
      { before := hlist
        after := List.Perm.refl _
        pool := hpool
        size := hsize
        mem := fun block hne => Function.update_of_ne (hblock ▸ hne) _ _
        next := rfl }
    have hzero : ∀ i, p'.off ≤ i → i < p'.off + xs.length → b.mem c.pool i = 0 := by
      intro i hlow hhigh
      by_contra hval
      have := hexact.within i (by omega) hval
      omega
    have hmem : (store { b with
          charPoolList := found :: others
          freeChars := b.freeChars - xs.length } p' xs).mem c.pool =
        writeCells (b.mem c.pool) p'.off xs := by
      rw [← hblock]
      exact Function.update_self ..
    have hstep := cellStep_extend [] _ _
      hb hchange (by omega) (by omega) (by omega) (by omega) (by simp)
      (fun i hlow hhigh _ => hzero i hlow hhigh)
      (fun i hlow hhigh => by
        rw [hmem]
        exact hne _ (writeCells_mem _ hlow hhigh))
      (fun i hi => by
        rw [hmem]
        exact writeCells_of_outside _ hi) rfl
      (by
        rw [count_zero_readCells_of_zero fun i hlow hhigh => hzero i hlow (by omega)]
        show b.freeChars - (xs.length : Int) + _ = _
        omega)
    rwa [← hblock, Nat.add_sub_cancel_left] at hstep
  · split at h
    · rename_i cp b₂ hnew
      simp only [Prod.mk.injEq, Option.some.injEq] at h
      obtain ⟨rfl, rfl⟩ := h
      obtain ⟨rfl, rfl⟩ := allocCharPool_some hnew
      have hmem : ∀ i, (writeCells (fun _ => 0) 0 xs) i =
          if h : i < xs.length then xs[i] else 0 := by
        intro i
        split
        · rename_i hi
          rw [writeCells_of_inside _ (Nat.zero_le _) (by omega)]
          simp
        · exact writeCells_of_outside _ (by omega)
      refine cellStep_newPool
        (c := ⟨b.nextBlock, if xs.length < stdPoolSize then stdPoolSize else xs.length,
          0, xs.length - 1⟩) hb rfl rfl rfl ?_ hlen ?_ rfl rfl ?_ ?_ rfl rfl
      · intro block hblock
        simp only [store] at hblock ⊢
        rw [Function.update_of_ne hblock, Function.update_of_ne hblock]
      · simp only
        split <;> omega
      · intro i hi
        simp only [store, Function.update_self]
        rw [hmem, dif_pos hi]
        exact hne _ (List.getElem_mem _)
      · intro i hi
        simp only [store, Function.update_self]
        rw [hmem, dif_neg (by omega)]
    · simp at h

end Claim

end NiceEditor.PoolOperations
