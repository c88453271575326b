import NiceEditor.PoolSegments

/-!
What `insert_stream` and `delete_stream` do to the characters of a line: every
branch of the two loops, as a function of the line descriptors involved.
-/

namespace NiceEditor.LineEdits

open NiceEditor.Cells
open NiceEditor.Pools
open NiceEditor.Ownership
open NiceEditor.PoolOwnership
open NiceEditor.PoolOperations
open NiceEditor.PoolSegments

/-- `insert_stream` puts the characters `s` into a line at `pos`; `none` when
no memory is left. -/
def insertInLine (b : CharPools) (ld : LineDesc) (pos : Nat) (s : List Byte) :
    Option LineDesc × CharPools :=
  match ld.line with
  | none =>
      match allocChars b s.length with
      | (some p, b) => (some ⟨some p, s.length⟩, store b p s)
      | (none, b) => (none, b)
  | some line =>
      match allocCharsAround b ld s.length (decide (pos < ld.lineLen / 2)) with
      | (none, b) =>
          -- There are not enough characters around the line.
          match allocChars b (ld.lineLen + s.length) with
          | (some p, b) =>
              let b := store b p
                (load b line pos ++ s ++ load b (line.add pos) (ld.lineLen - pos))
              (some ⟨some p, ld.lineLen + s.length⟩, freeChars b (some line) ld.lineLen)
          | (none, b) => (none, b)
      | (some result, b) =>
          let before := s.length - result
          let b := if before ≠ 0 then store b (line.sub before) (load b line pos) else b
          let b := if result ≠ 0 then
            store b (line.add (pos + result)) (load b (line.add pos) (ld.lineLen - pos)) else b
          let b := store b ((line.sub before).add pos) s
          (some ⟨some (line.sub before), ld.lineLen + s.length⟩, b)

/-- `insert_stream` breaks a line at `cut`: the tail keeps its characters. -/
def splitLine (ld : LineDesc) (cut : Nat) : LineDesc × LineDesc :=
  if cut < ld.lineLen then
    (⟨if cut = 0 then none else ld.line, cut⟩,
      ⟨ld.line.map fun line => line.add cut, ld.lineLen - cut⟩)
  else (ld, ⟨none, 0⟩)

/-- `delete_stream` joins a line with the next one; `none` when no memory is
left. -/
def joinLines (b : CharPools) (ld next : LineDesc) : Option LineDesc × CharPools :=
  let len := ld.lineLen + next.lineLen
  match ld.line, next.line with
  | none, line => (some ⟨line, len⟩, b)
  | some line, none => (some ⟨some line, len⟩, b)
  | some line, some nextLine =>
      if line.add ld.lineLen = nextLine then (some ⟨some line, len⟩, b)
      else
        match allocCharsAround b ld next.lineLen false with
        | (some n, b) =>
            let before := next.lineLen - n
            let b := if n < next.lineLen
              then store b (line.sub before) (load b line ld.lineLen) else b
            let line := line.sub before
            let b := store b (line.add ld.lineLen) (load b nextLine next.lineLen)
            (some ⟨some line, len⟩, freeChars b (some nextLine) next.lineLen)
        | (none, b) =>
            match allocCharsAround b next ld.lineLen true with
            | (some m, b) =>
                let b := if m ≠ 0
                  then store b (nextLine.add m) (load b nextLine next.lineLen) else b
                let nextLine := nextLine.add m
                let b := store b (nextLine.sub ld.lineLen) (load b line ld.lineLen)
                (some ⟨some (nextLine.sub ld.lineLen), len⟩,
                  freeChars b (some line) ld.lineLen)
            | (none, b) =>
                match allocChars b len with
                | (some p, b) =>
                    let b := store b p
                      (load b line ld.lineLen ++ load b nextLine next.lineLen)
                    let b := freeChars b (some line) ld.lineLen
                    (some ⟨some p, len⟩, freeChars b (some nextLine) next.lineLen)
                | (none, b) => (none, b)

/-- `delete_stream` removes `n` characters of a line from `pos` on. -/
def removeChars (b : CharPools) (ld : LineDesc) (pos n : Nat) : LineDesc × CharPools :=
  match ld.line with
  | none => (ld, b)
  | some line =>
      let (line, b) :=
        if n = ld.lineLen - pos then (line, freeChars b (some (line.add pos)) n)
        else if pos < ld.lineLen / 2 then
          let b := store b (line.add n) (load b line pos)
          (line.add n, freeChars b (some line) n)
        else
          let b := store b (line.add pos) (load b (line.add (pos + n)) (ld.lineLen - pos - n))
          (line, freeChars b (some (line.add (ld.lineLen - n))) n)
      (⟨if ld.lineLen - n = 0 then none else some line, ld.lineLen - n⟩, b)

variable {strict : Prop} {b b' : CharPools} {ld ld' next : LineDesc} {p q : Ptr}
variable {pos n : Nat} {s xs ys : List Byte}

section Stores

theorem store_load_self (b : CharPools) (p : Ptr) (n : Nat) :
    store b p (load b p n) = b := by
  have hmem : writeCells (b.mem p.block) p.off (load b p n) = b.mem p.block := by
    funext i
    by_cases hi : p.off ≤ i ∧ i < p.off + n
    · rw [writeCells_of_inside _ hi.1 (by simpa using hi.2)]
      have := readCells_getElem? (b.mem p.block) p.off n (i - p.off)
      rw [if_pos (by omega), Nat.add_sub_cancel' hi.1] at this
      exact (List.getElem?_eq_some_iff.mp this).2
    · exact writeCells_of_outside _ (by rw [load_length]; omega)
  rw [store, hmem, Function.update_eq_self]

theorem store_store (b : CharPools) (p : Ptr) (xs ys : List Byte) :
    store (store b p xs) (p.add xs.length) ys = store b p (xs ++ ys) := by
  simp only [store, Ptr.add_block, Ptr.add_off, Function.update_self, Function.update_idem,
    writeCells_append]

theorem load_store_of_disjoint (b : CharPools)
    (h : q.block ≠ p.block ∨ q.off + n ≤ p.off ∨ p.off + xs.length ≤ q.off) :
    load (store b p xs) q n = load b q n := by
  by_cases hblock : q.block = p.block
  · rw [load, load, hblock, store_mem_self]
    exact readCells_writeCells_of_disjoint _ (h.resolve_left (absurd hblock))
  · rw [load, store_mem_of_ne _ _ hblock]
    rfl

theorem store_comm (b : CharPools)
    (hblock : q.block = p.block)
    (h : q.off + ys.length ≤ p.off ∨ p.off + xs.length ≤ q.off) :
    store (store b p xs) q ys = store (store b q ys) p xs := by
  have hmem : writeCells (writeCells (b.mem p.block) p.off xs) q.off ys =
      writeCells (writeCells (b.mem p.block) q.off ys) p.off xs := by
    funext i
    by_cases hp : p.off ≤ i ∧ i < p.off + xs.length
    · rw [writeCells_of_outside _ (by omega), writeCells_of_inside _ hp.1 hp.2,
        writeCells_of_inside _ hp.1 hp.2]
    · rw [writeCells_of_outside _ (show i < p.off ∨ p.off + xs.length ≤ i by omega)]
      by_cases hq : q.off ≤ i ∧ i < q.off + ys.length
      · rw [writeCells_of_inside _ hq.1 hq.2, writeCells_of_inside _ hq.1 hq.2]
      · rw [writeCells_of_outside _ (by omega), writeCells_of_outside _ (by omega),
          writeCells_of_outside _ (by omega)]
  simp only [store, hblock, Function.update_self, Function.update_idem, hmem]

theorem store_gap (b : CharPools) {line : Ptr} {len before after : Nat}
    (hbefore : before ≤ line.off) (hs : s.length = before + after) :
    store (store (store b (line.sub before) (load b line pos)) (line.add (pos + after))
        (load (store b (line.sub before) (load b line pos)) (line.add pos) (len - pos)))
        ((line.sub before).add pos) s =
      store b (line.sub before) (load b line pos ++ s ++ load b (line.add pos) (len - pos)) := by
  have hcut : (line.sub before).add (load b line pos).length = (line.sub before).add pos := by
    rw [load_length]
  have hend : (line.sub before).add (load b line pos ++ s).length = line.add (pos + after) := by
    simp only [Ptr.sub, Ptr.add, List.length_append, load_length, hs]
    congr 1
    omega
  rw [load_store_of_disjoint b (q := line.add pos) (Or.inr (Or.inr (by
      simp only [Ptr.sub_off, load_length, Ptr.add_off]; omega))),
    store_comm (p := line.add (pos + after)) (q := (line.sub before).add pos) _ rfl
      (Or.inl (by simp only [Ptr.sub_off, Ptr.add_off]; omega)),
    ← hcut, store_store, ← hend, store_store]

end Stores

theorem Exchanges.regroup {old old' new new' : List LineDesc}
    (step : Exchanges (Owns strict) lineBytes b old b' new) (hold : old'.Perm old)
    (hnew : new.Perm new') : Exchanges (Owns strict) lineBytes b old' b' new' :=
  step.perm (fun hperm h => h.perm hperm) hold hnew

theorem Owns.cases_line (hown : Owns strict b [ld]) :
    ld = ⟨none, 0⟩ ∨ ∃ p n, 0 < n ∧ ld = ⟨some p, n⟩ := by
  have hnull := hown.null ld (List.mem_singleton_self _)
  obtain ⟨line, len⟩ := ld
  cases line with
  | none =>
      obtain rfl : len = 0 := hnull.mp rfl
      exact Or.inl rfl
  | some p =>
      simp only [reduceCtorEq, false_iff] at hnull
      exact Or.inr ⟨p, len, by omega, rfl⟩

theorem Owns.block_lt (hown : Owns strict b [⟨some p, n⟩]) (hn : 0 < n) :
    p.block < b.nextBlock := by
  obtain ⟨⟨c, hc, hpool, -⟩, -⟩ := hown.used _ (List.mem_singleton_self _) p.block p.off
    (covers_some.mpr ⟨rfl, le_rfl, by omega⟩)
  exact hpool ▸ hown.pools.old c hc

theorem allocChars_mem {len block : Nat} {r : Option Ptr} (h : allocChars b len = (r, b'))
    (hlt : block < b.nextBlock) : b'.mem block = b.mem block := by
  unfold allocChars at h
  split at h
  · exact (congrArg (fun r => r.2.mem block) h).symm
  · split at h
    · exact (congrArg (fun r => r.2.mem block) h).symm
    · split at h
      · rename_i hnew
        obtain ⟨-, rfl⟩ := allocCharPool_some hnew
        obtain ⟨-, rfl⟩ := Prod.mk.inj h
        exact Function.update_of_ne (by omega) ..
      · rename_i hnew
        cases hans : b.answers 0 <;>
          simp only [allocCharPool, request, hans, if_true, Bool.false_eq_true, if_false,
            Prod.mk.injEq, reduceCtorEq, true_and, false_and] at hnew
        obtain ⟨-, rfl⟩ := Prod.mk.inj h
        exact (congrArg (fun b => b.mem block) hnew).symm

theorem allocChars_exchanges_cons {held : List LineDesc} {b₁ : CharPools} (hxs : xs ≠ [])
    (hne : ∀ x ∈ xs, x ≠ 0) (h : allocChars b xs.length = (some p, b₁)) :
    Exchanges (Owns strict) lineBytes b held (store b₁ p xs)
      (⟨some p, xs.length⟩ :: held) :=
  (allocChars_exchanges hxs hne h).frame held

theorem freeChars_exchanges_cons {held : List LineDesc} (hn : 0 < n) :
    Exchanges (Owns strict) lineBytes b (⟨some p, n⟩ :: held) (freeChars b (some p) n) held :=
  (freeChars_exchanges hn).frame held

variable (strict) in
/-- The line has been given the characters `s` at `pos`. -/
theorem insertInLine_spec (hown : Owns False b [ld]) (hs : s ≠ []) (hne : ∀ x ∈ s, x ≠ 0)
    (hpos : pos ≤ ld.lineLen) (h : insertInLine b ld pos s = (some ld', b')) :
    Exchanges (Owns strict) lineBytes b [ld] b' [ld'] ∧
      lineBytes b' ld' = (lineBytes b ld).take pos ++ s ++ (lineBytes b ld).drop pos := by
  have hlen : 0 < s.length := List.length_pos_iff.mpr hs
  rcases Owns.cases_line hown with rfl | ⟨line, len, hline, rfl⟩
  · -- There is no character allocated on this line.
    simp only [insertInLine] at h
    split at h
    · rename_i p b₁ halloc
      obtain ⟨hld, rfl⟩ := Prod.mk.inj h
      obtain rfl := Option.some.inj hld
      refine ⟨(empty_exchanges _ _ (by simp) (by simp)).trans (allocChars_exchanges hs hne halloc),
        ?_⟩
      rw [lineBytes_store _ _ rfl]
      simp [lineBytes]
    · simp at h
  · have hload : ∀ x ∈ load b line len, x ≠ 0 := load_ne_zero hown
    simp only at hpos
    have hbytes : lineBytes b ⟨some line, len⟩ = load b line len := rfl
    have hnonzero : ∀ x ∈ load b line pos ++ s ++ load b (line.add pos) (len - pos), x ≠ 0 := by
      intro x hx
      rw [← load_take b line hpos, ← load_drop b line hpos] at hx
      rcases List.mem_append.mp hx with hx | hx
      · rcases List.mem_append.mp hx with hx | hx
        · exact hload x (List.mem_of_mem_take hx)
        · exact hne x hx
      · exact hload x (List.mem_of_mem_drop hx)
    rw [hbytes, load_take b line hpos, load_drop b line hpos]
    simp only [insertInLine] at h
    split at h
    · -- There are not enough characters around the line.
      rename_i b₁ haround
      obtain rfl := allocCharsAround_none haround
      split at h
      · rename_i p b₂ halloc
        obtain ⟨hld, rfl⟩ := Prod.mk.inj h
        obtain rfl := Option.some.inj hld
        have hmem := allocChars_mem halloc (Owns.block_lt hown hline)
        have hsame : ∀ (q : Ptr) (k : Nat), q.block = line.block → load b₂ q k = load b₁ q k := by
          intro q k hq
          rw [load, load, hq, hmem]
        rw [hsame line pos rfl, hsame (line.add pos) (len - pos) rfl]
        set xs := load b₁ line pos ++ s ++ load b₁ (line.add pos) (len - pos) with hxs
        have hxslen : xs.length = len + s.length := by
          simp only [hxs, List.length_append, load_length]
          omega
        rw [← hxslen] at halloc ⊢
        have hnil : xs ≠ [] := List.length_pos_iff.mp (by omega)
        have hmove : ∀ {strict : Prop}, Exchanges (Owns strict) lineBytes b₁
            [⟨some line, len⟩] (store b₂ p xs) [⟨some line, len⟩, ⟨some p, xs.length⟩] :=
          Exchanges.regroup (allocChars_exchanges_cons hnil hnonzero halloc)
            (List.Perm.refl _) (List.Perm.swap _ _ _)
        refine ⟨hmove.trans (freeChars_exchanges_cons hline), ?_⟩
        rw [(freeChars_exchanges hline).view _ (hmove.inv [] hown) _
          (List.mem_singleton_self _), lineBytes_store _ _ rfl]
      · simp at h
    · -- There are enough free characters around the line.
      rename_i result b₁ haround
      obtain ⟨hld, rfl⟩ := Prod.mk.inj h
      obtain rfl := Option.some.inj hld
      obtain ⟨hresult, hbefore⟩ := allocCharsAround_le haround
      have hmem := allocCharsAround_mem haround
      have hsame : ∀ (q : Ptr) (k : Nat), load b₁ q k = load b q k := by
        intro q k
        rw [load, load, hmem]
      have hfirst : (if s.length - result ≠ 0
          then store b₁ (line.sub (s.length - result)) (load b₁ line pos) else b₁) =
          store b₁ (line.sub (s.length - result)) (load b₁ line pos) := by
        split
        · rfl
        · rename_i hzero
          rw [not_not.mp hzero]
          exact (store_load_self b₁ line pos).symm
      have hsecond : ∀ b₂ : CharPools, (if result ≠ 0
          then store b₂ (line.add (pos + result)) (load b₂ (line.add pos) (len - pos)) else b₂) =
          store b₂ (line.add (pos + result)) (load b₂ (line.add pos) (len - pos)) := by
        intro b₂
        split
        · rfl
        · rename_i hzero
          rw [not_not.mp hzero]
          exact (store_load_self b₂ (line.add pos) (len - pos)).symm
      rw [hfirst, hsecond, store_gap b₁ hbefore (by omega), hsame, hsame]
      have hxslen : (load b line pos ++ s ++ load b (line.add pos) (len - pos)).length =
          len + s.length := by
        simp only [List.length_append, load_length]
        omega
      exact ⟨allocCharsAround_exchanges strict hline haround hxslen hnonzero,
        lineBytes_store _ _ hxslen⟩

theorem answers_exchanges {held : List LineDesc} (answers : Nat → Bool) :
    Exchanges (Owns strict) lineBytes b held { b with answers := answers } held where
  inv := fun _ h =>
    { pools := ⟨h.pools.nodup, h.pools.old, h.pools.exact⟩
      null := h.null
      used := h.used
      apart := h.apart
      all := h.all
      allocated := h.allocated
      free := h.free }
  view := fun _ _ _ _ => rfl

theorem allocChars_none {len : Nat} (h : allocChars b len = (none, b')) :
    ∃ answers, b' = { b with answers := answers } := by
  unfold allocChars at h
  split at h
  · exact ⟨b.answers, (Prod.mk.inj h).2.symm⟩
  · split at h
    · simp at h
    · split at h
      · simp at h
      · rename_i hnew
        obtain ⟨-, rfl⟩ := Prod.mk.inj h
        cases hans : b.answers 0 <;>
          simp only [allocCharPool, request, hans, if_true, Bool.false_eq_true, if_false,
            Prod.mk.injEq, reduceCtorEq, true_and, false_and] at hnew
        exact ⟨_, hnew.symm⟩

theorem insertInLine_none (h : insertInLine b ld pos s = (none, b')) :
    ∃ answers, b' = { b with answers := answers } := by
  unfold insertInLine at h
  split at h
  · split at h
    · simp at h
    · rename_i halloc
      obtain ⟨-, rfl⟩ := Prod.mk.inj h
      exact allocChars_none halloc
  · split at h
    · rename_i haround
      obtain rfl := allocCharsAround_none haround
      split at h
      · simp at h
      · rename_i halloc
        obtain ⟨-, rfl⟩ := Prod.mk.inj h
        exact allocChars_none halloc
    · simp at h

theorem splitLine_exchanges {cut : Nat} (hown : Owns False b [ld]) (hcut : cut ≤ ld.lineLen) :
    Exchanges (Owns strict) lineBytes b [ld] b [(splitLine ld cut).1, (splitLine ld cut).2] := by
  unfold splitLine
  split
  · rename_i hlt
    rcases Owns.cases_line hown with rfl | ⟨line, len, -, rfl⟩
    · simp at hlt
    · simp only at hlt
      rcases Nat.eq_zero_or_pos cut with rfl | hpos
      · exact (empty_exchanges [] [⟨none, 0⟩] (by simp)
          (by simp)).frame [⟨some line, len⟩]
      · rw [if_neg (by omega)]
        have hlen : cut + (len - cut) = len := by omega
        have hsplit := split_exchanges strict (b := b) (p := line) hpos
          (show 0 < len - cut by omega)
        rwa [hlen] at hsplit
  · exact Exchanges.regroup
      ((empty_exchanges [] [⟨none, 0⟩] (by simp) (by simp)).frame [ld])
      (List.Perm.refl _) (List.Perm.swap _ _ _)

theorem splitLine_bytes {cut : Nat} (hown : Owns False b [ld]) (hcut : cut ≤ ld.lineLen) :
    lineBytes b (splitLine ld cut).1 = (lineBytes b ld).take cut ∧
      lineBytes b (splitLine ld cut).2 = (lineBytes b ld).drop cut := by
  rcases Owns.cases_line hown with rfl | ⟨line, len, -, rfl⟩
  · simp [splitLine, lineBytes]
  · simp only at hcut
    have hbytes : lineBytes b ⟨some line, len⟩ = load b line len := rfl
    rw [hbytes, load_take b line hcut, load_drop b line hcut]
    unfold splitLine
    split
    · rcases Nat.eq_zero_or_pos cut with rfl | hpos
      · exact ⟨rfl, rfl⟩
      · rw [if_neg (by omega)]
        exact ⟨rfl, rfl⟩
    · rename_i hge
      obtain rfl : cut = len := by simp only at hge; omega
      simp [lineBytes, load]

theorem lineBytes_length (hnull : ld.line = none ↔ ld.lineLen = 0) :
    (lineBytes b ld).length = ld.lineLen := by
  obtain ⟨line, len⟩ := ld
  cases line with
  | none => simpa [lineBytes] using (hnull.mp rfl).symm
  | some p => exact load_length b p len

theorem insertInLine_lineLen (hnull : ld.line = none ↔ ld.lineLen = 0)
    (h : insertInLine b ld pos s = (some ld', b')) : ld'.lineLen = ld.lineLen + s.length := by
  unfold insertInLine at h
  split at h
  · rename_i hline
    rw [hnull.mp hline, Nat.zero_add]
    split at h
    · rw [← Option.some.inj (Prod.mk.inj h).1]
    · simp at h
  · split at h
    · split at h
      · rw [← Option.some.inj (Prod.mk.inj h).1]
      · simp at h
    · rw [← Option.some.inj (Prod.mk.inj h).1]

theorem around_disjoint {line : Ptr} {len m after : Nat} {first : Bool} (hlen : 0 < len)
    (hm : 0 < m) (hown : Owns False b [⟨some line, len⟩, ⟨some q, m⟩])
    (h : allocCharsAround b ⟨some line, len⟩ n first = (some after, b')) :
    q.block ≠ line.block ∨ q.off + m ≤ line.off - (n - after) ∨
      line.off + len + after ≤ q.off := by
  obtain ⟨c, before, -, hsum, hbefore, -, hzeroBefore, hzeroAfter, -⟩ :=
    allocCharsAround_some h
  by_contra hoverlap
  push Not at hoverlap
  obtain ⟨hblock, hlow, hhigh⟩ := hoverlap
  -- A common cell of the two ranges.
  obtain ⟨i, hqlow, hqhigh, hilow, hihigh⟩ : ∃ i, q.off ≤ i ∧ i < q.off + m ∧
      line.off - (n - after) ≤ i ∧ i < line.off + len + after :=
    ⟨max q.off (line.off - (n - after)), by omega, by omega, by omega, by omega⟩
  have hcov : Covers ⟨some q, m⟩ line.block i := covers_some.mpr ⟨hblock.symm, hqlow, hqhigh⟩
  have hused := hown.used _ (List.mem_cons_of_mem _ (List.mem_singleton_self _)) _ _ hcov
  rcases Nat.lt_or_ge i line.off with hi | hi
  · exact hused.2 (hzeroBefore i (by omega) hi)
  rcases Nat.lt_or_ge i (line.off + len) with hi' | hi'
  · have hapart := (List.pairwise_pair.mp hown.apart) line.block i
      (covers_some.mpr ⟨rfl, hi, hi'⟩)
    exact hapart hcov
  · exact hused.2 (hzeroAfter i hi' hihigh)

theorem store_firstGrown {line nextLine : Ptr} {len nextLen : Nat} {b₁ : CharPools}
    (hlen : 0 < len) (hnextLen : 0 < nextLen)
    (hown : Owns False b [⟨some line, len⟩, ⟨some nextLine, nextLen⟩])
    (haround : allocCharsAround b ⟨some line, len⟩ nextLen false = (some n, b₁)) :
    let start := line.sub (nextLen - n)
    let b₂ := if n < nextLen then store b₁ start (load b₁ line len) else b₁
    store b₂ (start.add len) (load b₂ nextLine nextLen) =
      store b₁ start (load b line len ++ load b nextLine nextLen) := by
  dsimp only
  obtain ⟨hn, hbefore⟩ := allocCharsAround_le haround
  have hsame : ∀ (q : Ptr) (k : Nat), load b₁ q k = load b q k := fun q k => by
    rw [load, load, allocCharsAround_mem haround]
  have hdisjoint := around_disjoint hlen hnextLen hown haround
  have hfirst : (if n < nextLen then store b₁ (line.sub (nextLen - n)) (load b₁ line len)
      else b₁) = store b₁ (line.sub (nextLen - n)) (load b₁ line len) := by
    split
    · rfl
    · rw [show nextLen - n = 0 by omega]
      exact (store_load_self b₁ line len).symm
  have hcut : (line.sub (nextLen - n)).add len =
      (line.sub (nextLen - n)).add (load b₁ line len).length := by
    rw [load_length]
  rw [hfirst, load_store_of_disjoint b₁ (by
      simp only [Ptr.sub_block, Ptr.sub_off, load_length]
      omega), hcut, store_store, hsame, hsame]

theorem add_sub_of_le {m k : Nat} (q : Ptr) (hm : m ≤ k) : (q.add m).sub k = q.sub (k - m) := by
  simp only [Ptr.add, Ptr.sub]
  congr 1
  omega

theorem store_nextGrown {line nextLine : Ptr} {len nextLen m : Nat} {b₁ : CharPools}
    (hlen : 0 < len) (hnextLen : 0 < nextLen)
    (hown : Owns False b [⟨some nextLine, nextLen⟩, ⟨some line, len⟩])
    (haround : allocCharsAround b ⟨some nextLine, nextLen⟩ len true = (some m, b₁)) :
    let b₂ := if m ≠ 0 then store b₁ (nextLine.add m) (load b₁ nextLine nextLen) else b₁
    store b₂ ((nextLine.add m).sub len) (load b₂ line len) =
      store b₁ (nextLine.sub (len - m)) (load b line len ++ load b nextLine nextLen) := by
  dsimp only
  obtain ⟨hm, hbefore⟩ := allocCharsAround_le haround
  have hsame : ∀ (q : Ptr) (k : Nat), load b₁ q k = load b q k := fun q k => by
    rw [load, load, allocCharsAround_mem haround]
  have hdisjoint := around_disjoint hnextLen hlen hown haround
  have hfirst : (if m ≠ 0 then store b₁ (nextLine.add m) (load b₁ nextLine nextLen) else b₁) =
      store b₁ (nextLine.add m) (load b₁ nextLine nextLen) := by
    split
    · rfl
    · rename_i hzero
      rw [not_not.mp hzero]
      exact (store_load_self b₁ nextLine nextLen).symm
  have hstart := add_sub_of_le nextLine hm
  have hcut : nextLine.add m = (nextLine.sub (len - m)).add (load b line len).length := by
    simp only [Ptr.add, Ptr.sub, load_length]
    congr 1
    omega
  rw [hfirst, hstart, load_store_of_disjoint b₁ (by
      simp only [Ptr.add_block, Ptr.add_off, load_length]
      omega), hsame, hsame,
    store_comm (p := nextLine.add m) (q := nextLine.sub (len - m)) b₁ rfl (by
      simp only [Ptr.add_off, Ptr.sub_off, load_length]
      omega), hcut, store_store]

variable (strict) in
theorem grown_freed {m : Nat} (hm : 0 < m)
    (hgrow : ∀ {strict : Prop}, Exchanges (Owns strict) lineBytes b [ld] b' [ld'])
    (hown : Owns False b [ld, ⟨some q, m⟩]) :
    Exchanges (Owns strict) lineBytes b [ld, ⟨some q, m⟩] (freeChars b' (some q) m) [ld'] ∧
      lineBytes (freeChars b' (some q) m) ld' = lineBytes b' ld' := by
  have hown' : Owns False b' [ld', ⟨some q, m⟩] := (hgrow.frame [⟨some q, m⟩]).inv [] hown
  refine ⟨(hgrow.frame [⟨some q, m⟩]).trans (Exchanges.regroup (freeChars_exchanges_cons hm)
    (List.Perm.swap _ _ _) (List.Perm.refl _)), ?_⟩
  exact (freeChars_exchanges hm).view _ (hown'.perm (List.Perm.swap _ _ _)) _
    (List.mem_singleton_self _)

theorem moved_exchanges {line : Ptr} {len : Nat} {b₁ : CharPools} (hlen : 0 < len) (hxs : xs ≠ [])
    (hne : ∀ x ∈ xs, x ≠ 0) (halloc : allocChars b xs.length = (some p, b₁)) :
    Exchanges (Owns strict) lineBytes b [⟨some line, len⟩]
      (freeChars (store b₁ p xs) (some line) len) [⟨some p, xs.length⟩] :=
  (allocChars_exchanges_cons hxs hne halloc).trans
    (Exchanges.regroup (freeChars_exchanges_cons hlen) (List.Perm.swap _ _ _) (List.Perm.refl _))

variable (strict) in
/-- Two lines have been joined into one. -/
theorem joinLines_spec (hown : Owns False b [ld, next])
    (h : joinLines b ld next = (some ld', b')) :
    Exchanges (Owns strict) lineBytes b [ld, next] b' [ld'] ∧
      lineBytes b' ld' = lineBytes b ld ++ lineBytes b next := by
  have hld : Owns False b [ld] := Owns.left hown
  have hswap : Owns False b [next, ld] := hown.perm (List.Perm.swap _ _ _)
  have hnext : Owns False b [next] := Owns.left hswap
  rcases Owns.cases_line hld with rfl | ⟨line, len, hlen, rfl⟩
  · simp only [joinLines, Nat.zero_add] at h
    obtain ⟨hres, rfl⟩ := Prod.mk.inj h
    obtain rfl := Option.some.inj hres
    exact ⟨(empty_exchanges [⟨none, 0⟩] [] (by simp) (by simp)).frame _,
      rfl⟩
  rcases Owns.cases_line hnext with rfl | ⟨nextLine, nextLen, hnextLen, rfl⟩
  · simp only [joinLines, Nat.add_zero] at h
    obtain ⟨hres, rfl⟩ := Prod.mk.inj h
    obtain rfl := Option.some.inj hres
    refine ⟨Exchanges.regroup
      ((empty_exchanges [⟨none, 0⟩] [] (by simp) (by simp)).frame _)
      (List.Perm.swap _ _ _) (List.Perm.refl _), ?_⟩
    simp [lineBytes]
  have hbytes : ∀ p n, lineBytes b ⟨some p, n⟩ = load b p n := fun _ _ => rfl
  have hload : ∀ x ∈ load b line len ++ load b nextLine nextLen, x ≠ 0 := by
    intro x hx
    rcases List.mem_append.mp hx with hx | hx
    · exact load_ne_zero hld x hx
    · exact load_ne_zero hnext x hx
  have hloadLen : (load b line len ++ load b nextLine nextLen).length = len + nextLen := by
    simp
  rw [hbytes, hbytes]
  simp only [joinLines] at h
  split at h
  · -- The contents are adjacent.
    rename_i hadjacent
    obtain ⟨hres, rfl⟩ := Prod.mk.inj h
    obtain rfl := Option.some.inj hres
    subst hadjacent
    exact ⟨join_exchanges hlen, load_add b line len nextLen⟩
  split at h
  · -- The first line grows.
    rename_i n b₁ haround
    obtain ⟨hres, rfl⟩ := Prod.mk.inj h
    obtain rfl := Option.some.inj hres
    rw [store_firstGrown hlen hnextLen hown haround]
    obtain ⟨hexchanges, hline⟩ := grown_freed strict hnextLen
      (allocCharsAround_exchanges _ hlen haround hloadLen hload) hown
    exact ⟨hexchanges, hline.trans (lineBytes_store _ _ hloadLen)⟩
  rename_i b₁ haround
  obtain rfl := allocCharsAround_none haround
  split at h
  · -- The next line grows.
    rename_i m b₂ haround'
    obtain ⟨hres, rfl⟩ := Prod.mk.inj h
    obtain rfl := Option.some.inj hres
    rw [store_nextGrown hlen hnextLen hswap haround',
      add_sub_of_le nextLine (allocCharsAround_le haround').1]
    have hloadLen' : (load b₁ line len ++ load b₁ nextLine nextLen).length = nextLen + len := by
      omega
    have hgrow : ∀ {strict : Prop}, Exchanges (Owns strict) lineBytes b₁ _ _ _ :=
      allocCharsAround_exchanges _ hnextLen haround' hloadLen' hload
    rw [Nat.add_comm nextLen len] at hgrow
    obtain ⟨hexchanges, hline⟩ := grown_freed strict hlen hgrow hswap
    exact ⟨Exchanges.regroup hexchanges (List.Perm.swap _ _ _) (List.Perm.refl _),
      hline.trans (lineBytes_store _ _ hloadLen)⟩
  rename_i b₂ haround'
  obtain rfl := allocCharsAround_none haround'
  split at h
  · -- Both lines move.
    rename_i p b₃ halloc
    obtain ⟨hres, rfl⟩ := Prod.mk.inj h
    obtain rfl := Option.some.inj hres
    have hsame : ∀ (q : Ptr) (k : Nat), q.block < b₂.nextBlock → load b₃ q k = load b₂ q k :=
      fun q k hq => by rw [load, load, allocChars_mem halloc hq]
    rw [hsame line len (Owns.block_lt hld hlen),
      hsame nextLine nextLen (Owns.block_lt hnext hnextLen)]
    rw [← hloadLen] at halloc ⊢
    have hnil : load b₂ line len ++ load b₂ nextLine nextLen ≠ [] :=
      List.length_pos_iff.mp (by omega)
    obtain ⟨hexchanges, hline⟩ := grown_freed strict hnextLen
      (moved_exchanges hlen hnil hload halloc) hown
    set xs := load b₂ line len ++ load b₂ nextLine nextLen
    have hmove : Exchanges (Owns False) lineBytes b₂ [⟨some line, len⟩] (store b₃ p xs)
        [⟨some p, xs.length⟩, ⟨some line, len⟩] := allocChars_exchanges_cons hnil hload halloc
    have hview := (freeChars_exchanges hlen).view _
      ((hmove.inv [] hld).perm (List.Perm.swap _ _ _)) _ (List.mem_singleton_self _)
    exact ⟨hexchanges, hline.trans (hview.trans (lineBytes_store _ _ rfl))⟩
  · simp at h

theorem joinLines_none (h : joinLines b ld next = (none, b')) :
    ∃ answers, b' = { b with answers := answers } := by
  simp only [joinLines] at h
  split at h
  · simp at h
  · simp at h
  split at h
  · simp at h
  split at h
  · simp at h
  rename_i haround
  obtain rfl := allocCharsAround_none haround
  split at h
  · simp at h
  rename_i haround'
  obtain rfl := allocCharsAround_none haround'
  split at h
  · simp at h
  · rename_i halloc
    obtain ⟨-, rfl⟩ := Prod.mk.inj h
    exact allocChars_none halloc

theorem store_inside (b : CharPools) (line : Ptr) (skip rest : Nat) (xs : List Byte) :
    store b (line.add skip) xs =
      store b line (load b line skip ++ xs ++ load b (line.add (skip + xs.length)) rest) := by
  have hcut : line.add skip = line.add (load b line skip).length := by rw [load_length]
  have hend : line.add (skip + xs.length) = line.add (load b line skip ++ xs).length := by
    rw [List.length_append, load_length]
  have hload : load b (line.add (skip + xs.length)) rest =
      load (store b (line.add skip) xs) (line.add (skip + xs.length)) rest := by
    rw [load_store_of_disjoint]
    simp only [Ptr.add_off]
    omega
  have hinner : store b line (load b line skip ++ xs) = store b (line.add skip) xs := by
    rw [← store_store, store_load_self, load_length]
  rw [hload, ← store_store, hinner, List.length_append, load_length, store_load_self]

variable (strict) in
theorem dropFront_spec {line : Ptr} {len : Nat} (hn : 0 < n) (hlt : n < len)
    (hxs : xs.length = len) (hne : ∀ x ∈ xs, x ≠ 0) (hown : Owns False b [⟨some line, len⟩]) :
    Exchanges (Owns strict) lineBytes b [⟨some line, len⟩]
        (freeChars (store b line xs) (some line) n) [⟨some (line.add n), len - n⟩] ∧
      lineBytes (freeChars (store b line xs) (some line) n) ⟨some (line.add n), len - n⟩ =
        xs.drop n := by
  have hlen : n + (len - n) = len := by omega
  have hsplit : ∀ {strict : Prop}, Exchanges (Owns strict) lineBytes b [⟨some line, len⟩]
      (store b line xs) [⟨some line, n⟩, ⟨some (line.add n), len - n⟩] := by
    intro strict
    refine (store_exchanges (by omega) hxs hne).trans ?_
    have := split_exchanges strict (b := store b line xs) (p := line) hn
      (show 0 < len - n by omega)
    rwa [hlen] at this
  refine ⟨hsplit.trans (freeChars_exchanges_cons hn), ?_⟩
  rw [(freeChars_exchanges hn).view _ (hsplit.inv [] hown) _
    (List.mem_singleton_self _)]
  have hbytes := lineBytes_store b line hxs
  exact (load_drop (store b line xs) line (Nat.le_of_lt hlt)).symm.trans
    (congrArg (List.drop n) hbytes)

variable (strict) in
theorem dropBack_spec {line : Ptr} {len : Nat} (keep : Nat) (hkeep : 0 < keep) (hlt : keep < len)
    (hxs : xs.length = len) (hne : ∀ x ∈ xs, x ≠ 0) (hown : Owns False b [⟨some line, len⟩]) :
    Exchanges (Owns strict) lineBytes b [⟨some line, len⟩]
        (freeChars (store b line xs) (some (line.add keep)) (len - keep))
        [⟨some line, keep⟩] ∧
      lineBytes (freeChars (store b line xs) (some (line.add keep)) (len - keep))
        ⟨some line, keep⟩ = xs.take keep := by
  have hlen : keep + (len - keep) = len := by omega
  have hsplit : ∀ {strict : Prop}, Exchanges (Owns strict) lineBytes b [⟨some line, len⟩]
      (store b line xs) [⟨some (line.add keep), len - keep⟩, ⟨some line, keep⟩] := by
    intro strict
    have := split_exchanges strict (b := store b line xs) (p := line) hkeep
      (show 0 < len - keep by omega)
    rw [hlen] at this
    exact Exchanges.regroup ((store_exchanges (by omega) hxs hne).trans this)
      (List.Perm.refl _) (List.Perm.swap _ _ _)
  have hfree : 0 < len - keep := by omega
  refine ⟨hsplit.trans (freeChars_exchanges_cons hfree), ?_⟩
  rw [(freeChars_exchanges hfree).view _ (hsplit.inv [] hown) _
    (List.mem_singleton_self _)]
  have hbytes := lineBytes_store b line hxs
  exact (load_take (store b line xs) line (Nat.le_of_lt hlt)).symm.trans
    (congrArg (List.take keep) hbytes)

variable (strict) in
/-- `n` characters have been removed from the line at `pos`. -/
theorem removeChars_spec (hown : Owns False b [ld]) (hn : 0 < n) (hpos : pos + n ≤ ld.lineLen) :
    Exchanges (Owns strict) lineBytes b [ld] (removeChars b ld pos n).2
        [(removeChars b ld pos n).1] ∧
      lineBytes (removeChars b ld pos n).2 (removeChars b ld pos n).1 =
        (lineBytes b ld).take pos ++ (lineBytes b ld).drop (pos + n) := by
  rcases Owns.cases_line hown with rfl | ⟨line, len, hlen, rfl⟩
  · simp only at hpos
    omega
  simp only at hpos
  have hbytes : ∀ p n, lineBytes b ⟨some p, n⟩ = load b p n := fun _ _ => rfl
  have hload := load_ne_zero hown
  have hnonzero : ∀ skip k, skip + k ≤ len → ∀ x ∈ load b (line.add skip) k, x ≠ 0 := by
    intro skip k hle x hx
    refine hload x (List.mem_of_mem_drop (i := skip) ?_)
    rw [load_drop b line (by omega)]
    exact List.mem_of_mem_take (i := k) (by rwa [load_take _ _ (by omega)])
  have hself : store b line (load b line len) = b := store_load_self b line len
  rw [hbytes]
  simp only [removeChars]
  split
  · -- The end of the line goes.
    rename_i hend
    have hdrop : (load b line len).drop (pos + n) = [] :=
      List.drop_eq_nil_of_le (by rw [load_length]; omega)
    rw [hdrop, List.append_nil]
    rcases Nat.eq_zero_or_pos pos with rfl | hpos'
    · obtain rfl : n = len := by omega
      rw [if_pos (by omega), Nat.sub_self]
      exact ⟨(freeChars_exchanges hlen).trans (empty_exchanges _ _ (by simp) (by simp)), rfl⟩
    · have hback := dropBack_spec strict pos hpos' (show pos < len by omega)
        (load_length b line len) hload hown
      rw [hself, ← hend] at hback
      rw [if_neg (by omega), show len - n = pos by omega]
      exact hback
  · rw [if_neg (show ¬ len - n = 0 by omega), load_take b line (by omega),
      load_drop b line (by omega)]
    split
    · -- The head of the line moves.
      have hxs : (load b line n ++ load b line pos ++
          load b (line.add (n + pos)) (len - n - pos)).length = len := by
        simp only [List.length_append, load_length]
        omega
      have hstore := store_inside b line n (len - n - pos) (load b line pos)
      rw [load_length] at hstore
      rw [hstore]
      have hfront := dropFront_spec strict hn (show n < len by omega) hxs (by
        intro x hx
        rcases List.mem_append.mp hx with hx | hx
        · rcases List.mem_append.mp hx with hx | hx
          · exact hnonzero 0 n (by omega) x hx
          · exact hnonzero 0 pos (by omega) x hx
        · exact hnonzero _ _ (by omega) x hx) hown
      rw [List.append_assoc, List.drop_left' (load_length b line n),
        ← List.append_assoc] at hfront
      rw [Nat.add_comm pos n, Nat.sub_add_eq]
      exact hfront
    · -- The tail of the line moves.
      have hxs : (load b line pos ++ load b (line.add (pos + n)) (len - pos - n) ++
          load b (line.add (pos + (len - pos - n))) n).length = len := by
        simp only [List.length_append, load_length]
        omega
      have hstore := store_inside b line pos n (load b (line.add (pos + n)) (len - pos - n))
      rw [load_length] at hstore
      rw [hstore]
      have hback := dropBack_spec strict (len - n) (by omega) (by omega) hxs
        (by
          intro x hx
          rcases List.mem_append.mp hx with hx | hx
          · rcases List.mem_append.mp hx with hx | hx
            · exact hnonzero 0 pos (by omega) x hx
            · exact hnonzero _ _ (by omega) x hx
          · exact hnonzero _ _ (by omega) x hx) hown
      have htake : (load b line pos ++ load b (line.add (pos + n)) (len - pos - n) ++
          load b (line.add (pos + (len - pos - n))) n).take (len - n) =
            load b line pos ++ load b (line.add (pos + n)) (len - pos - n) :=
        List.take_left' (by simp only [List.length_append, load_length]; omega)
      rw [htake, show len - (len - n) = n by omega] at hback
      rw [Nat.sub_add_eq]
      exact hback

theorem freeChars_answers {ptr : Option Ptr} : (freeChars b ptr n).answers = b.answers := by
  unfold freeChars
  split
  · rfl
  · split
    · rfl
    · split
      · rfl
      · simp only
        rw [apply_ite CharPools.answers]
        exact ite_self _

theorem allocCharsAround_answers {r : Option Nat} {first : Bool}
    (h : allocCharsAround b ld n first = (r, b')) : b'.answers = b.answers := by
  unfold allocCharsAround at h
  split at h
  · exact (Prod.mk.inj h).2 ▸ rfl
  · split at h
    · exact (Prod.mk.inj h).2 ▸ rfl
    · simp only at h
      split at h
      · exact (Prod.mk.inj h).2 ▸ rfl
      · exact (Prod.mk.inj h).2 ▸ rfl

theorem removeChars_answers : (removeChars b ld pos n).2.answers = b.answers := by
  unfold removeChars
  split
  · rfl
  · simp only
    split
    · exact freeChars_answers
    · split
      · exact freeChars_answers
      · exact freeChars_answers

section Granting

variable (hgrant : Granting b.answers)

include hgrant

theorem allocChars_granting (hlen : 0 < n) :
    ∃ p b', allocChars b n = (some p, b') ∧ Granting b'.answers := by
  unfold allocChars
  rw [if_neg (by omega)]
  split
  · exact ⟨_, _, rfl, hgrant⟩
  · obtain ⟨cp, b₁, hnew, hgrant₁⟩ : ∃ cp b₁, allocCharPool b n = (some cp, b₁) ∧
        Granting b₁.answers := by
      simp only [allocCharPool, request, hgrant 0, if_true]
      exact ⟨_, _, rfl, fun n => hgrant (n + 1)⟩
    rw [hnew]
    exact ⟨_, _, rfl, hgrant₁⟩

theorem joinLines_granting (hlen : ld.line = none ↔ ld.lineLen = 0) :
    ∃ d b', joinLines b ld next = (some d, b') ∧ Granting b'.answers := by
  simp only [joinLines]
  split
  · exact ⟨_, _, rfl, hgrant⟩
  · exact ⟨_, _, rfl, hgrant⟩
  rename_i line nextLine hline _
  split
  · exact ⟨_, _, rfl, hgrant⟩
  split
  · rename_i b₁ haround
    refine ⟨_, _, rfl, ?_⟩
    rw [freeChars_answers]
    have hanswers := allocCharsAround_answers haround
    rw [← hanswers] at hgrant
    split
    · exact hgrant
    · exact hgrant
  rename_i b₁ haround
  obtain rfl := allocCharsAround_none haround
  split
  · rename_i b₂ haround'
    refine ⟨_, _, rfl, ?_⟩
    rw [freeChars_answers]
    have hanswers := allocCharsAround_answers haround'
    rw [← hanswers] at hgrant
    split
    · exact hgrant
    · exact hgrant
  rename_i b₂ haround'
  obtain rfl := allocCharsAround_none haround'
  have hpos : ld.lineLen ≠ 0 := fun hzero => by simp [hlen.mpr hzero] at hline
  obtain ⟨p, b₃, halloc, hgrant₃⟩ :=
    allocChars_granting hgrant (n := ld.lineLen + next.lineLen) (by omega)
  rw [halloc]
  refine ⟨_, _, rfl, ?_⟩
  rw [freeChars_answers, freeChars_answers]
  exact hgrant₃

variable (ld pos) in
theorem insertInLine_granting (hs : s ≠ []) :
    ∃ d b', insertInLine b ld pos s = (some d, b') ∧ Granting b'.answers := by
  have hpos : 0 < s.length := List.length_pos_iff.mpr hs
  unfold insertInLine
  split
  · obtain ⟨p, b₁, halloc, hgrant₁⟩ := allocChars_granting hgrant hpos
    rw [halloc]
    exact ⟨_, _, rfl, hgrant₁⟩
  · split
    · rename_i b₁ haround
      obtain rfl := allocCharsAround_none haround
      obtain ⟨p, b₂, halloc, hgrant₂⟩ :=
        allocChars_granting hgrant (n := ld.lineLen + s.length) (by omega)
      rw [halloc]
      refine ⟨_, _, rfl, ?_⟩
      rw [freeChars_answers]
      exact hgrant₂
    · rename_i b₁ haround
      have hanswers := allocCharsAround_answers haround
      rw [← hanswers] at hgrant
      refine ⟨_, _, rfl, ?_⟩
      split <;> split <;> exact hgrant

end Granting

end NiceEditor.LineEdits
