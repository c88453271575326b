import NiceEditor.PoolOperations

namespace NiceEditor.PoolSegments

open NiceEditor.Cells
open NiceEditor.Pools
open NiceEditor.Ownership
open NiceEditor.PoolOwnership
open NiceEditor.PoolOperations

variable {strict : Prop} {b b₁ : CharPools} {p : Ptr} {n : Nat} {xs ys : List Byte}

@[simp] theorem Ptr.add_block (p : Ptr) (n : Nat) : (p.add n).block = p.block := rfl
@[simp] theorem Ptr.add_off (p : Ptr) (n : Nat) : (p.add n).off = p.off + n := rfl
@[simp] theorem Ptr.sub_block (p : Ptr) (n : Nat) : (p.sub n).block = p.block := rfl
@[simp] theorem Ptr.sub_off (p : Ptr) (n : Nat) : (p.sub n).off = p.off - n := rfl

@[simp] theorem load_length (b : CharPools) (p : Ptr) (n : Nat) : (load b p n).length = n :=
  readCells_length _ _ _

theorem store_mem_self (b : CharPools) (p : Ptr) (xs : List Byte) :
    (store b p xs).mem p.block = writeCells (b.mem p.block) p.off xs :=
  Function.update_self ..

theorem store_mem_of_ne (b : CharPools) {p : Ptr} (xs : List Byte) {block : Nat}
    (h : block ≠ p.block) : (store b p xs).mem block = b.mem block :=
  Function.update_of_ne h ..

theorem load_store (b : CharPools) (p : Ptr) (xs : List Byte) :
    load (store b p xs) p xs.length = xs := by
  rw [load, store_mem_self, readCells_writeCells]

theorem lineBytes_store (b : CharPools) (p : Ptr) (h : xs.length = n) :
    lineBytes (store b p xs) ⟨some p, n⟩ = xs := by
  subst h
  exact load_store b p xs

theorem load_ne_zero (hown : Owns False b [⟨some p, n⟩]) : ∀ x ∈ load b p n, x ≠ 0 := by
  intro x hx
  obtain ⟨i, hlow, hhigh, rfl⟩ := mem_readCells.mp hx
  exact (segment_used hown hlow hhigh).2

theorem load_add (b : CharPools) (p : Ptr) (m n : Nat) :
    load b p (m + n) = load b p m ++ load b (p.add m) n :=
  readCells_add _ _ _ _

theorem load_take (b : CharPools) (p : Ptr) {m n : Nat} (h : m ≤ n) :
    (load b p n).take m = load b p m :=
  readCells_take _ h

theorem load_drop (b : CharPools) (p : Ptr) {m n : Nat} (h : m ≤ n) :
    (load b p n).drop m = load b (p.add m) (n - m) :=
  readCells_drop _ h

theorem segment_ne_null (hn : 0 < n) :
    ((⟨some p, n⟩ : LineDesc).line = none ↔ (⟨some p, n⟩ : LineDesc).lineLen = 0) := by
  simp only [reduceCtorEq, false_iff]
  omega

variable (strict) in
theorem split_exchanges {m : Nat} (hm : 0 < m) (hn : 0 < n) :
    Exchanges (Owns strict) lineBytes b [⟨some p, m + n⟩] b
      [⟨some p, m⟩, ⟨some (p.add m), n⟩] := by
  apply CellStep.exchanges
  intro hown
  refine cellStep_regroup hown.pools ?_ ?_ hown.used ?_
  · simp only [List.mem_cons, List.not_mem_nil, or_false]
    rintro ld (rfl | rfl)
    · exact segment_ne_null hm
    · exact segment_ne_null hn
  · refine List.pairwise_pair.mpr fun block i hx hy => ?_
    simp only [covers_some, Ptr.add_block, Ptr.add_off] at hx hy
    omega
  · intro block i
    simp only [List.mem_cons, List.not_mem_nil, or_false, exists_eq_or_imp, exists_eq_left,
      covers_some, Ptr.add_block, Ptr.add_off]
    omega

theorem join_exchanges {m : Nat} (hm : 0 < m) :
    Exchanges (Owns strict) lineBytes b [⟨some p, m⟩, ⟨some (p.add m), n⟩] b
      [⟨some p, m + n⟩] := by
  apply CellStep.exchanges
  intro hown
  refine cellStep_regroup hown.pools ?_ (List.pairwise_singleton _ _) hown.used ?_
  · simp only [List.mem_singleton, forall_eq]
    exact segment_ne_null (by omega)
  · intro block i
    simp only [List.mem_cons, List.not_mem_nil, or_false, exists_eq_or_imp, exists_eq_left,
      covers_some, Ptr.add_block, Ptr.add_off]
    omega

theorem empty_exchanges (lines lines' : List LineDesc)
    (h : ∀ ld ∈ lines, ld = ⟨none, 0⟩) (h' : ∀ ld ∈ lines', ld = ⟨none, 0⟩) :
    Exchanges (Owns strict) lineBytes b lines b lines' := by
  have hcov : ∀ {ls : List LineDesc}, (∀ ld ∈ ls, ld = ⟨none, 0⟩) →
      ∀ block i, ¬ ∃ ld ∈ ls, Covers ld block i := by
    rintro ls hls block i ⟨ld, hld, hcov⟩
    rw [hls ld hld] at hcov
    exact not_covers_none hcov
  apply CellStep.exchanges
  intro hown
  refine cellStep_regroup hown.pools ?_ ?_ hown.used ?_
  · intro ld hld
    rw [h' ld hld]
    simp
  · refine List.pairwise_of_forall_mem_list fun x hx y _ block i hxcov => ?_
    exact absurd ⟨x, hx, hxcov⟩ (hcov h' block i)
  · intro block i
    exact iff_of_false (hcov h block i) (hcov h' block i)

/-- The characters of a segment may be rewritten in place. -/
theorem store_exchanges (hn : 0 < n) (hlen : xs.length = n) (hne : ∀ x ∈ xs, x ≠ 0) :
    Exchanges (Owns strict) lineBytes b [⟨some p, n⟩] (store b p xs) [⟨some p, n⟩] := by
  subst hlen
  apply CellStep.exchanges
  intro hown
  have hb := hown.pools
  obtain ⟨c, hc, hpool, -⟩ := getCharPool_of_used (segment_used hown le_rfl (by omega))
  have hexact := hb.exact c hc
  have hin : ∀ i, p.off ≤ i → i < p.off + xs.length → i < c.size ∧ b.mem c.pool i ≠ 0 :=
    fun i hlow hhigh => by
      have hused := segment_used hown hlow hhigh
      rw [← hpool] at hused
      exact ⟨used_lt_size hb hc hused, hused.2⟩
  have hends := hexact.within p.off (hin _ le_rfl (by omega)).1 (hin _ le_rfl (by omega)).2
  have hlast := hexact.within (p.off + (xs.length - 1)) (hin _ (by omega) (by omega)).1
    (hin _ (by omega) (by omega)).2
  have hbound := (hin (p.off + (xs.length - 1)) (by omega) (by omega)).1
  have hchange : PoolChange b (store b p xs) c c (b.charPoolList.erase c) :=
    { before := List.perm_cons_erase hc
      after := List.perm_cons_erase hc
      pool := rfl
      size := rfl
      mem := fun block hblock => store_mem_of_ne b xs (hpool ▸ hblock)
      next := rfl }
  have hmem : (store b p xs).mem c.pool = writeCells (b.mem c.pool) p.off xs := by
    rw [hpool]
    exact store_mem_self b p xs
  have hstep := cellStep_extend _ _ (p.off + xs.length) hb hchange (by omega) (by omega) (by omega)
    (by omega)
    (by
      simp only [List.mem_singleton, forall_eq, covers_some]
      omega)
    (fun i hlow hhigh hnot => absurd
      ⟨_, List.mem_singleton_self _, covers_some.mpr ⟨hpool, hlow, hhigh⟩⟩ hnot)
    (fun i hlow hhigh => by
      rw [hmem]
      exact hne _ (writeCells_mem _ hlow hhigh))
    (fun i hi => by
      rw [hmem]
      exact writeCells_of_outside _ hi) rfl
    (by
      rw [count_zero_readCells_of_ne_zero fun i hlow hhigh => (hin i hlow (by omega)).2]
      simp [store])
  rwa [hpool, Nat.add_sub_cancel_left] at hstep

theorem allocCharsAround_some {len after : Nat} {first : Bool}
    (h : allocCharsAround b ⟨some p, len⟩ n first = (some after, b₁)) :
    ∃ c before, getCharPool b p = some c ∧ before + after = n ∧ before ≤ p.off ∧
      (p.off + len ≤ c.size → p.off + len + after ≤ c.size) ∧
      (∀ i, p.off ≤ i + before → i < p.off → b.mem p.block i = 0) ∧
      (∀ i, p.off + len ≤ i → i < p.off + len + after → b.mem p.block i = 0) ∧
      b₁ = { setCharPool b { c with
        firstUsed := if c.firstUsed = p.off then p.off - before else c.firstUsed
        lastUsed := if c.lastUsed + 1 = p.off + len
          then p.off + len + after - 1 else c.lastUsed } with
        freeChars := b.freeChars - n } := by
  simp only [allocCharsAround] at h
  cases hget : getCharPool b p with
  | none => simp [hget] at h
  | some c =>
      simp only [hget] at h
      split at h
      · rename_i hsum
        simp only [Prod.mk.injEq, Option.some.injEq] at h
        obtain ⟨hafter, rfl⟩ := h
        refine ⟨c, (scanAround (b.mem p.block) c p.off len n first).1, rfl, by omega, ?_⟩
        subst hafter
        cases first with
        | true =>
            exact ⟨zerosBefore_le_start _ _ _, zerosAfter_le_bound _ _ _ _,
              fun i hlow hhigh => zerosBefore_zero _ _ _ (Nat.sub_le_of_le_add hlow) hhigh,
              fun i hlow hhigh => zerosAfter_zero _ _ _ _ hlow hhigh, rfl⟩
        | false =>
            exact ⟨zerosBefore_le_start _ _ _, zerosAfter_le_bound _ _ _ _,
              fun i hlow hhigh => zerosBefore_zero _ _ _ (Nat.sub_le_of_le_add hlow) hhigh,
              fun i hlow hhigh => zerosAfter_zero _ _ _ _ hlow hhigh, rfl⟩
      · simp at h

theorem allocCharsAround_le {len after : Nat} {first : Bool}
    (h : allocCharsAround b ⟨some p, len⟩ n first = (some after, b₁)) :
    after ≤ n ∧ n - after ≤ p.off := by
  obtain ⟨c, before, -, hsum, hbefore, -⟩ := allocCharsAround_some h
  omega

theorem allocCharsAround_mem {ld : LineDesc} {result : Option Nat} {first : Bool}
    (h : allocCharsAround b ld n first = (result, b₁)) : b₁.mem = b.mem := by
  unfold allocCharsAround at h
  split at h
  · exact (congrArg (fun r => r.2.mem) h).symm
  · split at h
    · exact (congrArg (fun r => r.2.mem) h).symm
    · simp only at h
      split at h
      · exact (congrArg (fun r => r.2.mem) h).symm
      · exact (congrArg (fun r => r.2.mem) h).symm

theorem allocCharsAround_none {ld : LineDesc} {first : Bool}
    (h : allocCharsAround b ld n first = (none, b₁)) : b₁ = b := by
  unfold allocCharsAround at h
  split at h
  · exact (congrArg Prod.snd h).symm
  · split at h
    · exact (congrArg Prod.snd h).symm
    · simp only at h
      split at h
      · simp at h
      · exact (congrArg Prod.snd h).symm

variable (strict) in
/-- `alloc_chars_around` followed by the rewriting of the line, which now
begins `n - after` characters earlier. -/
theorem allocCharsAround_exchanges {len after : Nat} {first : Bool} (hlen : 0 < len)
    (h : allocCharsAround b ⟨some p, len⟩ n first = (some after, b₁))
    (hxs : xs.length = len + n) (hne : ∀ x ∈ xs, x ≠ 0) :
    Exchanges (Owns strict) lineBytes b [⟨some p, len⟩]
      (store b₁ (p.sub (n - after)) xs) [⟨some (p.sub (n - after)), len + n⟩] := by
  obtain ⟨c, before, hget, hsum, hbefore, hafter, hzeroBefore, hzeroAfter, rfl⟩ :=
    allocCharsAround_some h
  obtain rfl : before = n - after := by omega
  apply CellStep.exchanges
  intro hown
  have hb := hown.pools
  have hsegment : ∀ i, p.off ≤ i → i < p.off + len → Used b p.block i :=
    fun i hlow hhigh => segment_used hown hlow hhigh
  obtain ⟨c', hc, hpool, hget'⟩ := getCharPool_of_used (hsegment p.off le_rfl (by omega))
  obtain rfl : c' = c := Option.some.inj (hget'.symm.trans hget)
  have hexact := hb.exact c' hc
  have hin : ∀ i, p.off ≤ i → i < p.off + len → i < c'.size ∧ b.mem c'.pool i ≠ 0 :=
    fun i hlow hhigh => by
      have hused := hsegment i hlow hhigh
      rw [← hpool] at hused
      exact ⟨used_lt_size hb hc hused, hused.2⟩
  have hends := hexact.within p.off (hin _ le_rfl (by omega)).1 (hin _ le_rfl (by omega)).2
  have hlast := hexact.within (p.off + (len - 1)) (hin _ (by omega) (by omega)).1
    (hin _ (by omega) (by omega)).2
  have hbound := (hin (p.off + (len - 1)) (by omega) (by omega)).1
  have hfirst_out : c'.firstUsed < p.off → c'.firstUsed + (n - after) < p.off := by
    intro hlt
    by_contra hge
    exact hexact.firstUsed_ne (hpool ▸ hzeroBefore _ (by omega) hlt)
  have hlast_out : p.off + len ≤ c'.lastUsed → p.off + len + after ≤ c'.lastUsed := by
    intro hle
    by_contra hlt
    exact hexact.lastUsed_ne (hpool ▸ hzeroAfter _ hle (by omega))
  set c₁ : CharPool := { c' with
    firstUsed := if c'.firstUsed = p.off then p.off - (n - after) else c'.firstUsed
    lastUsed := if c'.lastUsed + 1 = p.off + len
      then p.off + len + after - 1 else c'.lastUsed } with hc₁
  have hchange : PoolChange b
      (store { setCharPool b c₁ with freeChars := b.freeChars - n } (p.sub (n - after)) xs)
      c' c₁ (b.charPoolList.erase c') :=
    { before := List.perm_cons_erase hc
      after := setCharPool_perm
        (fun d hd => hb.others_ne (List.perm_cons_erase hc) d hd)
        (List.perm_cons_erase hc) rfl
      pool := rfl
      size := rfl
      mem := fun block hblock => store_mem_of_ne _ xs (hpool ▸ hblock)
      next := rfl }
  have hmem : (store { setCharPool b c₁ with freeChars := b.freeChars - n }
      (p.sub (n - after)) xs).mem c'.pool =
        writeCells (b.mem c'.pool) (p.off - (n - after)) xs := by
    rw [hpool]
    exact store_mem_self _ (p.sub (n - after)) xs
  have hstep := cellStep_extend [⟨some p, len⟩] (p.off - (n - after))
    (p.off + len + after) hb hchange (by omega) (by have := hafter (by omega); omega)
    (by
      simp only [hc₁]
      split <;> omega)
    (by
      simp only [hc₁]
      split <;> omega)
    (by
      simp only [List.mem_singleton, forall_eq, covers_some]
      omega)
    (fun i hlow hhigh hnot => by
      rw [hpool]
      rcases Nat.lt_or_ge i p.off with hi | hi
      · exact hzeroBefore i (by omega) hi
      · refine hzeroAfter i ?_ hhigh
        by_contra hlt
        exact hnot ⟨_, List.mem_singleton_self _, covers_some.mpr ⟨hpool, hi, by omega⟩⟩)
    (fun i hlow hhigh => by
      rw [hmem]
      exact hne _ (writeCells_mem _ hlow (by omega)))
    (fun i hi => by
      rw [hmem]
      exact writeCells_of_outside _ (by omega)) rfl
    (by
      have hsplit : p.off + len + after - (p.off - (n - after)) =
          (n - after) + (len + after) := by omega
      rw [hsplit, readCells_add, readCells_add, List.count_append, List.count_append,
        count_zero_readCells_of_zero, count_zero_readCells_of_ne_zero,
        count_zero_readCells_of_zero]
      · simp only [store]
        omega
      · intro i hlow hhigh
        rw [hpool]
        exact hzeroAfter i (by omega) (by omega)
      · intro i hlow hhigh
        exact (hin i (by omega) (by omega)).2
      · intro i hlow hhigh
        rw [hpool]
        exact hzeroBefore i (by omega) (by omega))
  have hlen' : p.off + len + after - (p.off - (n - after)) = len + n := by omega
  rwa [hpool, hlen'] at hstep

end NiceEditor.PoolSegments
