import NiceEditor.Pools
import NiceEditor.Ownership
import Mathlib.Algebra.BigOperators.Group.List.Basic
import Mathlib.Algebra.Order.Group.Int

namespace NiceEditor.PoolOwnership

open NiceEditor.Cells
open NiceEditor.Pools
open NiceEditor.Ownership

/-- `first_used` and `last_used` are the least and the greatest index of a
non-zero byte of the pool. -/
structure PoolExact (m : Nat → Byte) (c : CharPool) : Prop where
  lastUsed_lt : c.lastUsed < c.size
  firstUsed_ne : m c.firstUsed ≠ 0
  lastUsed_ne : m c.lastUsed ≠ 0
  within : ∀ i, i < c.size → m i ≠ 0 → c.firstUsed ≤ i ∧ i ≤ c.lastUsed

/-- The pools of a buffer are distinct blocks, each with exact ends. -/
structure PoolsOk (b : CharPools) : Prop where
  nodup : (b.charPoolList.map CharPool.pool).Nodup
  old : ∀ c ∈ b.charPoolList, c.pool < b.nextBlock
  exact : ∀ c ∈ b.charPoolList, PoolExact (b.mem c.pool) c

/-- Cell `i` of `block` belongs to the segment of a line. -/
def Covers (ld : LineDesc) (block i : Nat) : Prop :=
  ∃ off, ld.line = some ⟨block, off⟩ ∧ off ≤ i ∧ i < off + ld.lineLen

/-- Cell `i` of `block` is a used character of some pool. -/
def Used (b : CharPools) (block i : Nat) : Prop :=
  (∃ c ∈ b.charPoolList, c.pool = block ∧ i < c.size) ∧ b.mem block i ≠ 0

/-- Two segments have no cell in common. -/
def Apart (x y : LineDesc) : Prop := ∀ block i, Covers x block i → ¬ Covers y block i

/-- The zero bytes over all pools. -/
def zeroChars (b : CharPools) : Nat :=
  (b.charPoolList.map fun c => zeroCount (b.mem c.pool) c.size).sum

/-- The sum of the sizes of the pools. -/
def poolChars (b : CharPools) : Nat :=
  (b.charPoolList.map CharPool.size).sum

/-- The lines `lds` own their segments.  When `strict` holds, they own all the
characters in use and the two counters of the buffer are right. -/
structure Owns (strict : Prop) (b : CharPools) (lds : List LineDesc) : Prop where
  pools : PoolsOk b
  null : ∀ ld ∈ lds, ld.line = none ↔ ld.lineLen = 0
  used : ∀ ld ∈ lds, ∀ block i, Covers ld block i → Used b block i
  apart : lds.Pairwise Apart
  all : strict → ∀ block i, Used b block i → ∃ ld ∈ lds, Covers ld block i
  allocated : strict → b.allocatedChars = poolChars b
  free : strict → b.freeChars = zeroChars b

variable {strict : Prop} {b b' : CharPools} {lds old new : List LineDesc}

@[simp] theorem covers_some {p : Ptr} {n block i : Nat} :
    Covers ⟨some p, n⟩ block i ↔ block = p.block ∧ p.off ≤ i ∧ i < p.off + n := by
  constructor
  · rintro ⟨off, hline, hlow, hhigh⟩
    obtain rfl := Option.some.inj hline
    exact ⟨rfl, hlow, hhigh⟩
  · rintro ⟨rfl, hlow, hhigh⟩
    exact ⟨p.off, rfl, hlow, hhigh⟩

@[simp] theorem not_covers_none {n block i : Nat} : ¬ Covers ⟨none, n⟩ block i := by
  rintro ⟨off, hline, -, -⟩
  exact absurd hline (by simp)

theorem Apart.symm {x y : LineDesc} (h : Apart x y) : Apart y x :=
  fun block i hy hx => h block i hx hy

theorem Owns.perm {held held' : List LineDesc} (hperm : held.Perm held')
    (h : Owns strict b held) : Owns strict b held' where
  pools := h.pools
  null := fun ld hld => h.null ld (hperm.mem_iff.mpr hld)
  used := fun ld hld => h.used ld (hperm.mem_iff.mpr hld)
  apart := (hperm.pairwise_iff fun hxy => Apart.symm hxy).mp h.apart
  all := fun hs block i hi => by
    obtain ⟨ld, hld, hcov⟩ := h.all hs block i hi
    exact ⟨ld, hperm.mem_iff.mp hld, hcov⟩
  allocated := h.allocated
  free := h.free

/-- What one operation does to the cells: it gives up the segments `old` and
takes the segments `new`; used cells of other lines are untouched. -/
structure CellStep (b : CharPools) (old : List LineDesc)
    (b' : CharPools) (new : List LineDesc) : Prop where
  pools : PoolsOk b'
  null : ∀ ld ∈ new, ld.line = none ↔ ld.lineLen = 0
  used : ∀ ld ∈ new, ∀ block i, Covers ld block i → Used b' block i
  apart : new.Pairwise Apart
  fresh : ∀ ld ∈ new, ∀ block i, Covers ld block i → Used b block i →
    ∃ ld ∈ old, Covers ld block i
  kept : ∀ block i, Used b block i → (¬ ∃ ld ∈ old, Covers ld block i) →
    Used b' block i ∧ b'.mem block i = b.mem block i
  all : ∀ block i, Used b' block i → (¬ ∃ ld ∈ new, Covers ld block i) →
    Used b block i ∧ ¬ ∃ ld ∈ old, Covers ld block i
  allocated : b.allocatedChars = poolChars b → b'.allocatedChars = poolChars b'
  free : b.freeChars = zeroChars b → b'.freeChars = zeroChars b'

theorem not_covered_of_rest {rest : List LineDesc}
    (hown : Owns strict b (old ++ rest)) {ld : LineDesc} (hld : ld ∈ rest)
    {block i : Nat} (hcov : Covers ld block i) : ¬ ∃ ld ∈ old, Covers ld block i := by
  rintro ⟨x, hx, hxcov⟩
  exact (List.pairwise_append.mp hown.apart).2.2 x hx ld hld block i hxcov hcov

theorem CellStep.owns (step : CellStep b old b' new) {rest : List LineDesc}
    (hown : Owns strict b (old ++ rest)) : Owns strict b' (new ++ rest) where
  pools := step.pools
  null := fun ld hld => by
    rcases List.mem_append.mp hld with hnew | hrest
    · exact step.null ld hnew
    · exact hown.null ld (List.mem_append_right _ hrest)
  used := fun ld hld block i hcov => by
    rcases List.mem_append.mp hld with hnew | hrest
    · exact step.used ld hnew block i hcov
    · exact (step.kept block i (hown.used ld (List.mem_append_right _ hrest) block i hcov)
        (not_covered_of_rest hown hrest hcov)).1
  apart := by
    refine List.pairwise_append.mpr
      ⟨step.apart, (List.pairwise_append.mp hown.apart).2.1, ?_⟩
    intro x hx y hy block i hxcov hycov
    have hused := hown.used y (List.mem_append_right _ hy) block i hycov
    exact not_covered_of_rest hown hy hycov (step.fresh x hx block i hxcov hused)
  all := fun hs block i hi => by
    by_cases hnew : ∃ ld ∈ new, Covers ld block i
    · obtain ⟨ld, hld, hcov⟩ := hnew
      exact ⟨ld, List.mem_append_left _ hld, hcov⟩
    · obtain ⟨hused, hold⟩ := step.all block i hi hnew
      obtain ⟨ld, hld, hcov⟩ := hown.all hs block i hused
      rcases List.mem_append.mp hld with hin | hrest
      · exact absurd ⟨ld, hin, hcov⟩ hold
      · exact ⟨ld, List.mem_append_right _ hrest, hcov⟩
  allocated := fun hs => step.allocated (hown.allocated hs)
  free := fun hs => step.free (hown.free hs)

theorem lineBytes_congr {ld : LineDesc}
    (h : ∀ block i, Covers ld block i → b'.mem block i = b.mem block i) :
    lineBytes b' ld = lineBytes b ld := by
  obtain ⟨line, n⟩ := ld
  cases line with
  | none => rfl
  | some p =>
      exact readCells_congr fun i hlow hhigh =>
        h p.block i (covers_some.mpr ⟨rfl, hlow, hhigh⟩)

theorem CellStep.lineBytes (step : CellStep b old b' new) {rest : List LineDesc}
    (hown : Owns strict b (old ++ rest)) {ld : LineDesc} (hld : ld ∈ rest) :
    lineBytes b' ld = lineBytes b ld :=
  lineBytes_congr fun block i hcov =>
    (step.kept block i (hown.used ld (List.mem_append_right _ hld) block i hcov)
      (not_covered_of_rest hown hld hcov)).2

theorem Owns.weaken (hown : Owns strict b lds) : Owns False b lds where
  pools := hown.pools
  null := hown.null
  used := hown.used
  apart := hown.apart
  all := False.elim
  allocated := False.elim
  free := False.elim

theorem Owns.left {rest : List LineDesc} (hown : Owns strict b (old ++ rest)) :
    Owns False b old where
  pools := hown.pools
  null := fun ld hld => hown.null ld (List.mem_append_left _ hld)
  used := fun ld hld => hown.used ld (List.mem_append_left _ hld)
  apart := (List.pairwise_append.mp hown.apart).1
  all := False.elim
  allocated := False.elim
  free := False.elim

theorem CellStep.exchanges (h : Owns False b old → CellStep b old b' new) :
    Exchanges (Owns strict) Pools.lineBytes b old b' new where
  inv := fun _ hown => (h hown.left).owns hown
  view := fun _ hown _ hr => (h hown.left).lineBytes hown hr

theorem cellStep_regroup (hb : PoolsOk b)
    (hnull : ∀ ld ∈ new, ld.line = none ↔ ld.lineLen = 0)
    (hapart : new.Pairwise Apart)
    (hold : ∀ ld ∈ old, ∀ block i, Covers ld block i → Used b block i)
    (hcells : ∀ block i, (∃ ld ∈ old, Covers ld block i) ↔ ∃ ld ∈ new, Covers ld block i) :
    CellStep b old b new where
  pools := hb
  null := hnull
  used := fun ld hld block i hcov => by
    obtain ⟨x, hx, hxcov⟩ := (hcells block i).mpr ⟨ld, hld, hcov⟩
    exact hold x hx block i hxcov
  apart := hapart
  fresh := fun ld hld block i hcov _ => (hcells block i).mpr ⟨ld, hld, hcov⟩
  kept := fun _ _ hused _ => ⟨hused, rfl⟩
  all := fun block i hused hnew => ⟨hused, fun h => hnew ((hcells block i).mp h)⟩
  allocated := id
  free := id

section OnePool

variable {c c' : CharPool} {others : List CharPool}

theorem used_iff (hlist : b.charPoolList.Perm (c :: others)) {block i : Nat} :
    Used b block i ↔
      ((block = c.pool ∧ i < c.size) ∨ ∃ d ∈ others, d.pool = block ∧ i < d.size) ∧
        b.mem block i ≠ 0 := by
  unfold Used
  refine and_congr_left fun _ => ?_
  constructor
  · rintro ⟨d, hd, rfl, hi⟩
    rcases List.mem_cons.mp (hlist.mem_iff.mp hd) with rfl | hd
    · exact Or.inl ⟨rfl, hi⟩
    · exact Or.inr ⟨d, hd, rfl, hi⟩
  · rintro (⟨rfl, hi⟩ | ⟨d, hd, rfl, hi⟩)
    · exact ⟨c, hlist.mem_iff.mpr (List.mem_cons_self), rfl, hi⟩
    · exact ⟨d, hlist.mem_iff.mpr (List.mem_cons_of_mem _ hd), rfl, hi⟩

theorem zeroChars_of_perm (hlist : b.charPoolList.Perm (c :: others)) :
    zeroChars b = zeroCount (b.mem c.pool) c.size +
      (others.map fun d => zeroCount (b.mem d.pool) d.size).sum := by
  rw [zeroChars, (hlist.map _).sum_eq, List.map_cons, List.sum_cons]

theorem poolChars_of_perm (hlist : b.charPoolList.Perm (c :: others)) :
    poolChars b = c.size + (others.map CharPool.size).sum := by
  rw [poolChars, (hlist.map _).sum_eq, List.map_cons, List.sum_cons]

theorem PoolsOk.others_ne (hb : PoolsOk b) (hlist : b.charPoolList.Perm (c :: others)) :
    ∀ d ∈ others, d.pool ≠ c.pool := by
  have hnodup : ((c :: others).map CharPool.pool).Nodup :=
    (hlist.map _).nodup_iff.mp hb.nodup
  rw [List.map_cons, List.nodup_cons] at hnodup
  intro d hd heq
  exact hnodup.1 (heq ▸ List.mem_map_of_mem hd)

theorem zeroCounts_congr (hmem : ∀ d ∈ others, b'.mem d.pool = b.mem d.pool) :
    (others.map fun d => zeroCount (b'.mem d.pool) d.size) =
      others.map fun d => zeroCount (b.mem d.pool) d.size :=
  List.map_congr_left fun d hd => by rw [hmem d hd]

/-- An operation that touches the pool `c` only and leaves it as `c'`. -/
structure PoolChange (b b' : CharPools) (c c' : CharPool)
    (others : List CharPool) : Prop where
  before : b.charPoolList.Perm (c :: others)
  after : b'.charPoolList.Perm (c' :: others)
  pool : c'.pool = c.pool
  size : c'.size = c.size
  mem : ∀ block, block ≠ c.pool → b'.mem block = b.mem block
  next : b'.nextBlock = b.nextBlock

theorem PoolChange.poolsOk (change : PoolChange b b' c c' others) (hb : PoolsOk b)
    (hexact : PoolExact (b'.mem c.pool) c') : PoolsOk b' where
  nodup := by
    have hnodup := (change.before.map CharPool.pool).nodup_iff.mp hb.nodup
    refine (change.after.map CharPool.pool).nodup_iff.mpr ?_
    rwa [List.map_cons, change.pool, ← List.map_cons]
  old := fun d hd => by
    rw [change.next]
    rcases List.mem_cons.mp (change.after.mem_iff.mp hd) with rfl | hd
    · rw [change.pool]
      exact hb.old c (change.before.mem_iff.mpr List.mem_cons_self)
    · exact hb.old d (change.before.mem_iff.mpr (List.mem_cons_of_mem _ hd))
  exact := fun d hd => by
    rcases List.mem_cons.mp (change.after.mem_iff.mp hd) with rfl | hd
    · rwa [change.pool]
    · rw [change.mem _ (hb.others_ne change.before d hd)]
      exact hb.exact d (change.before.mem_iff.mpr (List.mem_cons_of_mem _ hd))

theorem PoolChange.used_iff_of_ne (change : PoolChange b b' c c' others)
    {block i : Nat} (hne : block ≠ c.pool) : Used b' block i ↔ Used b block i := by
  rw [used_iff change.before, used_iff change.after, change.mem block hne, change.pool,
    change.size]

theorem PoolChange.used_iff_before (change : PoolChange b b' c c' others)
    (hb : PoolsOk b) {i : Nat} :
    Used b c.pool i ↔ i < c.size ∧ b.mem c.pool i ≠ 0 := by
  rw [used_iff change.before]
  constructor
  · rintro ⟨⟨-, hi⟩ | ⟨d, hd, heq, -⟩, hne⟩
    · exact ⟨hi, hne⟩
    · exact absurd heq (hb.others_ne change.before d hd)
  · rintro ⟨hi, hne⟩
    exact ⟨Or.inl ⟨rfl, hi⟩, hne⟩

theorem PoolChange.used_iff_after (change : PoolChange b b' c c' others)
    (hb : PoolsOk b) {i : Nat} :
    Used b' c.pool i ↔ i < c.size ∧ b'.mem c.pool i ≠ 0 := by
  rw [used_iff change.after, change.pool, change.size]
  constructor
  · rintro ⟨⟨-, hi⟩ | ⟨d, hd, heq, -⟩, hne⟩
    · exact ⟨hi, hne⟩
    · exact absurd heq (hb.others_ne change.before d hd)
  · rintro ⟨hi, hne⟩
    exact ⟨Or.inl ⟨rfl, hi⟩, hne⟩

theorem PoolChange.zeroChars (change : PoolChange b b' c c' others) (hb : PoolsOk b) :
    zeroChars b' + zeroCount (b.mem c.pool) c.size =
      zeroChars b + zeroCount (b'.mem c.pool) c.size := by
  rw [zeroChars_of_perm change.before, zeroChars_of_perm change.after, change.pool,
    change.size, zeroCounts_congr fun d hd => change.mem _ (hb.others_ne change.before d hd)]
  omega

theorem PoolChange.poolChars (change : PoolChange b b' c c' others) :
    poolChars b' = poolChars b := by
  rw [poolChars_of_perm change.before, poolChars_of_perm change.after, change.size]

/-- A pool change is a cell step when the cells it writes are those of `old`
and `new`. -/
theorem PoolChange.cellStep (change : PoolChange b b' c c' others) (hb : PoolsOk b)
    (hexact : PoolExact (b'.mem c.pool) c')
    (hnull : ∀ ld ∈ new, ld.line = none ↔ ld.lineLen = 0)
    (hapart : new.Pairwise Apart)
    (hold : ∀ ld ∈ old, ∀ block i, Covers ld block i → block = c.pool)
    (hnew : ∀ ld ∈ new, ∀ block i, Covers ld block i →
      block = c.pool ∧ i < c.size ∧ b'.mem c.pool i ≠ 0)
    (hfresh : ∀ ld ∈ new, ∀ i, Covers ld c.pool i → b.mem c.pool i ≠ 0 →
      ∃ ld ∈ old, Covers ld c.pool i)
    (hkept : ∀ i, i < c.size → b.mem c.pool i ≠ 0 →
      (¬ ∃ ld ∈ old, Covers ld c.pool i) → b'.mem c.pool i = b.mem c.pool i)
    (hall : ∀ i, i < c.size → b'.mem c.pool i ≠ 0 →
      (¬ ∃ ld ∈ new, Covers ld c.pool i) →
      b.mem c.pool i ≠ 0 ∧ ¬ ∃ ld ∈ old, Covers ld c.pool i)
    (halloc : b'.allocatedChars = b.allocatedChars)
    (hfree : b'.freeChars + zeroCount (b.mem c.pool) c.size =
      b.freeChars + zeroCount (b'.mem c.pool) c.size) :
    CellStep b old b' new where
  pools := change.poolsOk hb hexact
  null := hnull
  used := fun ld hld block i hcov => by
    obtain ⟨rfl, hi, hne⟩ := hnew ld hld block i hcov
    exact (change.used_iff_after hb).mpr ⟨hi, hne⟩
  apart := hapart
  fresh := fun ld hld block i hcov hused => by
    obtain ⟨rfl, -, -⟩ := hnew ld hld block i hcov
    exact hfresh ld hld i hcov ((change.used_iff_before hb).mp hused).2
  kept := fun block i hused hnot => by
    by_cases hblock : block = c.pool
    · subst hblock
      obtain ⟨hi, hne⟩ := (change.used_iff_before hb).mp hused
      have heq := hkept i hi hne hnot
      exact ⟨(change.used_iff_after hb).mpr ⟨hi, heq ▸ hne⟩, heq⟩
    · exact ⟨(change.used_iff_of_ne hblock).mpr hused,
        congrFun (change.mem block hblock) i⟩
  all := fun block i hused hnot => by
    by_cases hblock : block = c.pool
    · subst hblock
      obtain ⟨hi, hne⟩ := (change.used_iff_after hb).mp hused
      obtain ⟨hne', hnold⟩ := hall i hi hne hnot
      exact ⟨(change.used_iff_before hb).mpr ⟨hi, hne'⟩, hnold⟩
    · refine ⟨(change.used_iff_of_ne hblock).mp hused, ?_⟩
      rintro ⟨ld, hld, hcov⟩
      exact hblock (hold ld hld block i hcov)
  allocated := fun h => by rw [halloc, h, change.poolChars]
  free := fun h => by
    have := change.zeroChars hb
    omega

end OnePool

end NiceEditor.PoolOwnership
