import NiceEditor.DeleteRefinement
import NiceEditor.LoadStrategies
import NiceEditor.Runs

namespace NiceEditor.PoolInvariant

open NiceEditor.Pools
open NiceEditor.PoolOwnership
open NiceEditor.Ownership
open NiceEditor.BufferData
open NiceEditor.EditStream
open NiceEditor.InsertRefinement
open NiceEditor.DeleteRefinement
open NiceEditor.Load
open NiceEditor.LoadPools
open NiceEditor.LoadStrategies
open NiceEditor.Runs

variable {b b' : Buffer} {f : File}

/-- The representation invariant of the character pools. -/
structure PoolInvariant (b : Buffer) : Prop where
  used : ∀ c ∈ b.chars.charPoolList, ∀ i < c.size, b.chars.mem c.pool i ≠ 0 ↔
    ∃ (k : Nat) (ld : LineDesc), b.lineDescList[k]? = some ld ∧ Covers ld c.pool i ∧
      ∀ (k' : Nat) ld', b.lineDescList[k']? = some ld' → Covers ld' c.pool i → k' = k
  disjoint : b.lineDescList.Pairwise Apart
  inside : ∀ ld ∈ b.lineDescList, ∀ p, ld.line = some p →
    ∃ c ∈ b.chars.charPoolList, c.pool = p.block ∧ p.off + ld.lineLen ≤ c.size
  free : b.chars.freeChars = zeroChars b.chars
  allocated : b.chars.allocatedChars = poolChars b.chars
  exact : ∀ c ∈ b.chars.charPoolList, PoolExact (b.chars.mem c.pool) c
  kept : ∀ c ∈ b.chars.charPoolList, ∃ i < c.size, b.chars.mem c.pool i ≠ 0
  null : ∀ ld ∈ b.lineDescList, ld.line = none ↔ ld.lineLen = 0

theorem poolInvariant_of_owns (h : Owns True b.chars b.lineDescList) : PoolInvariant b where
  used := fun c hc i hi => by
    constructor
    · intro hne
      obtain ⟨ld, hld, hcov⟩ := h.all trivial c.pool i ⟨⟨c, hc, rfl, hi⟩, hne⟩
      obtain ⟨k, hk⟩ := List.mem_iff_getElem?.mp hld
      refine ⟨k, ld, hk, hcov, fun k' ld' hk' hcov' => ?_⟩
      obtain ⟨hlt, rfl⟩ := List.getElem?_eq_some_iff.mp hk
      obtain ⟨hlt', rfl⟩ := List.getElem?_eq_some_iff.mp hk'
      have hpair := List.pairwise_iff_getElem.mp h.apart
      rcases Nat.lt_trichotomy k k' with hless | rfl | hless
      · exact absurd hcov' (hpair k k' hlt hlt' hless _ _ hcov)
      · rfl
      · exact absurd hcov (hpair k' k hlt' hlt hless _ _ hcov')
    · rintro ⟨k, ld, hk, hcov, -⟩
      exact (h.used ld (List.mem_of_getElem? hk) c.pool i hcov).2
  disjoint := h.apart
  inside := fun ld hld p hp => by
    have hpos : 0 < ld.lineLen := by
      refine Nat.pos_of_ne_zero fun hzero => ?_
      rw [(h.null ld hld).mpr hzero] at hp
      simp at hp
    -- The pool of the last character of the line.
    obtain ⟨⟨c, hc, hblock, hlt⟩, -⟩ := h.used ld hld p.block (p.off + (ld.lineLen - 1))
      ⟨p.off, hp, by omega, by omega⟩
    exact ⟨c, hc, hblock, by omega⟩
  free := h.free trivial
  allocated := h.allocated trivial
  exact := h.pools.exact
  kept := fun c hc =>
    have hexact := h.pools.exact c hc
    ⟨c.lastUsed, hexact.lastUsed_lt, hexact.lastUsed_ne⟩
  null := h.null

/-- One call: a load, an insertion, a deletion, or anything that leaves the
characters and the lines alone. -/
inductive Call (allowed : Buffer → File → Prop) (b : Buffer) : Buffer → Prop
  | load (f : File) (h : allowed b f) : Call allowed b (loadFdInBuffer b f).2
  | insert (ld : Nat) (line : Int) (pos : Nat) (stream : List Byte) :
      Call allowed b (insertStream b ld line pos stream).2
  | delete (ld : Nat) (line : Int) (pos len : Nat) :
      Call allowed b (deleteStream b ld line pos len).2
  | other (b' : Buffer) (hchars : b'.chars = b.chars) (hlist : b'.lineDescList = b.lineDescList) :
      Call allowed b b'

/-- A buffer that has just been created. -/
def Fresh (b : Buffer) : Prop := ∃ ioUtf8 curB answers, b = newBuffer ioUtf8 curB answers

/-- The loads that leave a byte in the pool: the file is an empty regular
file, or it has a byte that ends no line and is read into the pool, or written to the file of a
mapping as far as `write` does not return -1. -/
def LeavesText (b : Buffer) (f : File) : Prop :=
  (f.seekable = true ∧ f.content = []) ∨
    (HasText b.opt f.content ∧ ¬ (f.seekable = true ∧ f.fd = 0 ∧ b.chars.answers 0 = true) ∧
      (f.seekable = true → b.chars.answers 0 = false → ∀ n, f.writeFails n = false))

theorem owns_load (h : LeavesText b f) :
    Owns True (loadFdInBuffer b f).2.chars (loadFdInBuffer b f).2.lineDescList := by
  by_cases hempty : f.seekable = true ∧ f.content = []
  · obtain ⟨undo, hload⟩ := loadFdInBuffer_empty (b := b) hempty.1 hempty.2
    rw [hload]
    exact owns_clearBuffer b
  · obtain ⟨htext, hfd, hseen⟩ := h.resolve_left hempty
    have houtcome := loadFdInBuffer_outcome False (b := b) (f := f)
      (fun hseek hnil => hempty ⟨hseek, hnil⟩) (fun _ => hseen) False.elim False.elim
    rw [textRead, if_neg hfd] at houtcome
    generalize loadFdInBuffer b f = r at houtcome ⊢
    cases houtcome with
    | failed status answers => exact owns_clearBuffer _
    | loaded b₁ cp hplaced hpos hframed =>
        refine finishLoad_owns True hplaced fun _ => ?_
        rwa [hframed]

theorem Call.owns (hown : Owns True b.chars b.lineDescList) (h : Call LeavesText b b') :
    Owns True b'.chars b'.lineDescList := by
  cases h with
  | load f hleaves => exact owns_load hleaves
  | insert ld line pos stream => exact owns_insertStream hown rfl
  | delete ld line pos len => exact owns_deleteStream hown rfl
  | other b' hchars hlist =>
      rw [hchars, hlist]
      exact hown

/-- In every run whose loads leave text in a pool, the representation invariant
holds in every state. -/
theorem reached_poolInvariant (h : Reached Fresh (Call LeavesText) b) : PoolInvariant b := by
  refine poolInvariant_of_owns (h.invariant
    ?_ fun b b' hown hcall => hcall.owns hown)
  rintro b ⟨ioUtf8, curB, answers, rfl⟩
  exact owns_clearBuffer _

/-- A run in which every load leaves text in a pool, and which ends with text in
a pool. -/
theorem reached_poolInvariant_hello :
    PoolInvariant (loadFdInBuffer (newBuffer false none fun _ => true)
      ⟨3, true, [104, 105], fun _ => false⟩).2 :=
  reached_poolInvariant (.next (.init ⟨false, none, fun _ => true, rfl⟩)
    (.load _ (Or.inr ⟨by decide, by decide, fun _ _ _ => rfl⟩)))

/-- A file that is one line feed leaves a byte counted in a pool that has been freed. -/
theorem not_poolInvariant_lineFeed :
    ¬ ∀ b, Reached Fresh (Call fun _ _ => True) b → PoolInvariant b := by
  intro hall
  have hinv := hall (loadFdInBuffer (newBuffer false none fun _ => true)
      ⟨3, true, [lf], fun _ => false⟩).2
    (.next (.init ⟨false, none, fun _ => true, rfl⟩) (.load _ trivial))
  exact absurd hinv.free (by decide)

end NiceEditor.PoolInvariant
