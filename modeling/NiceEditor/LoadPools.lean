import NiceEditor.MmapFiles
import NiceEditor.PoolOwnership

namespace NiceEditor.LoadPools

open NiceEditor.Cells
open NiceEditor.Pools
open NiceEditor.PoolOwnership
open NiceEditor.BufferData
open NiceEditor.Encoding
open NiceEditor.Load
open NiceEditor.LoadText

variable {b : Buffer} {cp : CharPool} {content : List Byte} {strict : Prop}

theorem isTerminator_nul (opt : Options) : isTerminator opt 0 = true := by
  simp [isTerminator]

theorem isTerminator_lf {opt : Options} (h : isTerminator opt cr = true) :
    isTerminator opt lf = true := by
  unfold isTerminator at h ⊢
  cases hbinary : opt.binary <;> simp_all [cr, lf]

/-- A pool holds the text of a file, cut into lines; it is not on the list of
pools yet. -/
structure Placed (content : List Byte) (cp : CharPool) (b : Buffer) : Prop where
  memory : Holds (isTerminator b.opt) (b.chars.mem cp.pool) 0 content
  beyond : ∀ i, content.length ≤ i → b.chars.mem cp.pool i = 0
  block : cp.pool < b.chars.nextBlock
  size : content.length ≤ cp.size
  pools : b.chars.charPoolList = []
  allocated : b.chars.allocatedChars = cp.size
  free : b.chars.freeChars =
    cp.size - content.length + (content.countP (isTerminator b.opt) : Nat)
  lds : b.lineDescList =
    (lineCuts (isTerminator b.opt) 0 0 content).map fun c => lineAt cp.pool c.1 c.2
  numLines : b.numLines = b.lineDescList.length
  crlf : b.isCRLF = (countLines (isTerminator b.opt) content).2.2

/-- A line of a document has a character of a file. -/
def HasText (opt : Options) (content : List Byte) : Prop :=
  ∃ c ∈ content, isTerminator opt c = false

instance (opt : Options) (content : List Byte) : Decidable (HasText opt content) :=
  inferInstanceAs (Decidable (∃ c ∈ content, _))

theorem covers_lineAt {block start len block' i : Nat} :
    Covers (lineAt block start len) block' i ↔ block' = block ∧ start ≤ i ∧ i < start + len := by
  unfold lineAt
  split
  · rename_i hlen
    simp only [not_covers_none, false_iff]
    omega
  · rw [covers_some]

theorem lineAt_null {block start len : Nat} :
    (lineAt block start len).line = none ↔ (lineAt block start len).lineLen = 0 := by
  unfold lineAt
  split <;> simp [*]

theorem lineBytes_lineAt (chars : CharPools) (block start len : Nat) :
    lineBytes chars (lineAt block start len) = readCells (chars.mem block) start len := by
  by_cases hlen : len = 0
  · simp [lineAt, lineBytes, hlen]
  · simp [lineAt, lineBytes, hlen, load]

theorem Placed.cover (h : Placed content cp b) (i : Nat) :
    (∃ ld ∈ b.lineDescList, Covers ld cp.pool i) ↔
      i < content.length ∧ b.chars.mem cp.pool i ≠ 0 := by
  have hcover := lineCuts_cover (isTerminator_nul b.opt) isTerminator_lf le_rfl h.memory i
  rw [h.lds]
  simp only [List.mem_map, exists_exists_and_eq_and, covers_lineAt, true_and]
  rw [hcover]
  simp

theorem Placed.block_of_covers (h : Placed content cp b) {ld : LineDesc}
    (hld : ld ∈ b.lineDescList) {block i : Nat} (hcov : Covers ld block i) :
    block = cp.pool := by
  rw [h.lds] at hld
  obtain ⟨c, -, rfl⟩ := List.mem_map.mp hld
  exact (covers_lineAt.mp hcov).1

theorem Placed.null (h : Placed content cp b) :
    ∀ ld ∈ b.lineDescList, ld.line = none ↔ ld.lineLen = 0 := by
  rw [h.lds]
  intro ld hld
  obtain ⟨c, -, rfl⟩ := List.mem_map.mp hld
  exact lineAt_null

theorem Placed.apart (h : Placed content cp b) : b.lineDescList.Pairwise Apart := by
  rw [h.lds, List.pairwise_map]
  refine (lineCuts_sorted le_rfl).imp ?_
  intro c d hcd block i hc hd
  have hlow := (covers_lineAt.mp hd).2.1
  have hhigh := (covers_lineAt.mp hc).2.2
  omega

theorem Placed.lines (h : Placed content cp b) :
    lines b = splitText (isTerminator b.opt) [] content := by
  rw [BufferData.lines, h.lds, List.map_map]
  have hbytes := lineCuts_bytes le_rfl h.memory
  rw [Nat.sub_self, readCells_zero] at hbytes
  rw [← hbytes]
  exact List.map_congr_left fun c _ => lineBytes_lineAt _ _ _ _

theorem Placed.zeroCount (h : Placed content cp b) :
    (zeroCount (b.chars.mem cp.pool) cp.size : Int) = b.chars.freeChars := by
  have hsize := h.size
  have hcells : readCells (b.chars.mem cp.pool) 0 cp.size =
      content.map (blank (isTerminator b.opt)) ++
        readCells (b.chars.mem cp.pool) content.length (cp.size - content.length) := by
    conv_lhs => rw [show cp.size = content.length + (cp.size - content.length) by omega]
    rw [readCells_add, h.memory, Nat.zero_add]
  have hterms : (content.map (blank (isTerminator b.opt))).count 0 =
      content.countP (isTerminator b.opt) := by
    rw [List.count, List.countP_map]
    refine List.countP_congr fun c _ => ?_
    rw [Function.comp_apply, beq_iff_eq, blank_eq_zero (isTerminator_nul _)]
  rw [Cells.zeroCount, hcells, List.count_append, hterms,
    count_zero_readCells_of_zero fun i hi _ => h.beyond i hi, h.free]
  omega

theorem Placed.kept_iff (h : Placed content cp b) :
    b.chars.freeChars < b.chars.allocatedChars ↔ HasText b.opt content := by
  have hsize := h.size
  have hcount : content.countP (isTerminator b.opt) < content.length ↔
      HasText b.opt content := by
    rw [lt_iff_le_and_ne, ne_eq, List.countP_eq_length]
    simp only [List.countP_le_length, true_and, HasText, not_forall, Bool.not_eq_true,
      exists_prop]
  rw [← hcount, h.free, h.allocated]
  omega

theorem Placed.cell (h : Placed content cp b) {i : Nat} {c : Byte} (hi : content[i]? = some c) :
    b.chars.mem cp.pool i = blank (isTerminator b.opt) c := by
  have hlt := (List.getElem?_eq_some_iff.mp hi).1
  have hcell : (readCells (b.chars.mem cp.pool) 0 content.length)[i]? =
      (content.map (blank (isTerminator b.opt)))[i]? := by rw [h.memory]
  rwa [readCells_getElem?, if_pos hlt, List.getElem?_map, hi, Option.map_some,
    Option.some_inj, Nat.zero_add] at hcell

theorem Placed.hasText_iff (h : Placed content cp b) :
    HasText b.opt content ↔ ∃ i < content.length, b.chars.mem cp.pool i ≠ 0 := by
  have hzero := blank_eq_zero (isTerminator_nul b.opt)
  constructor
  · rintro ⟨c, hc, hchar⟩
    obtain ⟨i, hi⟩ := List.mem_iff_getElem?.mp hc
    refine ⟨i, (List.getElem?_eq_some_iff.mp hi).1, ?_⟩
    rw [h.cell hi, ne_eq, hzero, hchar]
    simp
  · rintro ⟨i, hi, hne⟩
    refine ⟨content[i], List.getElem_mem hi, ?_⟩
    rwa [h.cell (List.getElem?_eq_getElem hi), ne_eq, hzero, Bool.not_eq_true] at hne

/-- The ends of the pool, as `load_fd_in_buffer` finds them. -/
def trimmed (m : Nat → Byte) (len : Nat) (cp : CharPool) : CharPool :=
  { cp with
    firstUsed := zerosAfter m len len 0
    lastUsed := len - 1 - zerosBefore m len len }

theorem trimmed_exact {m : Nat → Byte} {len : Nat} (hsize : len ≤ cp.size)
    (hbeyond : ∀ i, len ≤ i → m i = 0) (hcell : ∃ i < len, m i ≠ 0) :
    PoolExact m (trimmed m len cp) := by
  have hbefore : ∀ i, m i ≠ 0 → zerosAfter m len len 0 ≤ i := fun i hne => by
    by_contra hlt
    exact hne (zerosAfter_zero m len len 0 (Nat.zero_le i) (by omega))
  have hafter : ∀ i < len, m i ≠ 0 → i < len - zerosBefore m len len := fun i hi hne => by
    by_contra hle
    exact hne (zerosBefore_zero m len len (by omega) hi)
  obtain ⟨i, hi, hne⟩ := hcell
  have hfirst := hbefore i hne
  have hlast := hafter i hi hne
  refine ⟨?_, ?_, ?_, ?_⟩
  · simp only [trimmed]
    omega
  · have hstop := zerosAfter_stop m len len 0 (by omega) (by omega)
    rwa [Nat.zero_add] at hstop
  · exact zerosBefore_stop m len len (by omega) (by omega)
  · intro j hj hused
    have hjlen : j < len := by
      by_contra hle
      exact hused (hbeyond j (by omega))
    have hj' := hafter j hjlen hused
    refine ⟨hbefore j hused, ?_⟩
    simp only [trimmed]
    omega

/-- What the guess of the encoding makes of a text. -/
def guessEncoding (opt : Options) (content : List Byte) : EncodingType :=
  let encoding := detectEncoding (content.map (blank (isTerminator opt)))
  if encoding = .ascii then .ascii
  else if opt.utf8auto ∧ encoding = .utf8 then .utf8
  else .eightBit

theorem finishLoad_frame (h : Placed content cp b) :
    (finishLoad b cp content.length).chars =
        { b.chars with charPoolList := if HasText b.opt content
            then [trimmed (b.chars.mem cp.pool) content.length cp] else [] } ∧
      (finishLoad b cp content.length).lineDescList = b.lineDescList ∧
      (finishLoad b cp content.length).numLines = b.numLines ∧
      (finishLoad b cp content.length).isCRLF = b.isCRLF ∧
      (finishLoad b cp content.length).opt = b.opt ∧
      (finishLoad b cp content.length).encoding = guessEncoding b.opt content := by
  have hkept := h.kept_iff
  have hguess : detectEncoding (readCells (b.chars.mem cp.pool) 0 content.length) =
      detectEncoding (content.map (blank (isTerminator b.opt))) := by rw [h.memory]
  have hpools := h.pools
  unfold finishLoad guessEncoding
  simp only [hguess, hkept]
  by_cases htext : HasText b.opt content
  · by_cases hundo : b.opt.doUndo = true <;>
      simp [htext, hundo, resetPositionToSof, trimmed, hpools]
  · by_cases hundo : b.opt.doUndo = true <;> simp [htext, hundo, resetPositionToSof, ← hpools]

variable (strict) in
theorem finishLoad_owns (h : Placed content cp b) (hstrict : strict → HasText b.opt content) :
    Owns strict (finishLoad b cp content.length).chars
      (finishLoad b cp content.length).lineDescList := by
  obtain ⟨hchars, hlds, -⟩ := finishLoad_frame h
  rw [hchars, hlds]
  by_cases htext : HasText b.opt content
  · rw [if_pos htext]
    have hexact := trimmed_exact h.size h.beyond (h.hasText_iff.mp htext)
    refine ⟨⟨?_, ?_, ?_⟩, ?_, ?_, h.apart, ?_, ?_, ?_⟩
    · simp
    · simpa [trimmed] using h.block
    · rintro c hc
      obtain rfl := List.mem_singleton.mp hc
      exact hexact
    · exact h.null
    · intro ld hld block i hcov
      obtain rfl := h.block_of_covers hld hcov
      obtain ⟨hi, hne⟩ := (h.cover i).mp ⟨ld, hld, hcov⟩
      have hsize := h.size
      exact ⟨⟨_, List.mem_singleton_self _, rfl, by simp only [trimmed]; omega⟩, hne⟩
    · rintro - block i ⟨⟨c, hc, rfl, hi⟩, hne⟩
      obtain rfl := List.mem_singleton.mp hc
      refine (h.cover i).mpr ⟨?_, hne⟩
      by_contra hle
      exact hne (h.beyond i (by omega))
    · intro
      simp [h.allocated, poolChars, trimmed]
    · intro
      simp only [zeroChars, List.map_singleton, List.sum_singleton]
      exact h.zeroCount.symm
  · rw [if_neg htext]
    have hnone : ∀ ld ∈ b.lineDescList, ∀ block i, ¬ Covers ld block i := by
      intro ld hld block i hcov
      obtain rfl := h.block_of_covers hld hcov
      exact htext (h.hasText_iff.mpr ⟨i, (h.cover i).mp ⟨ld, hld, hcov⟩⟩)
    have hno : ¬ strict := fun hs => htext (hstrict hs)
    refine ⟨⟨List.nodup_nil, by simp, by simp⟩, h.null, fun ld hld block i hcov =>
      absurd hcov (hnone ld hld block i), h.apart, ?_, ?_, ?_⟩ <;> exact fun hs => absurd hs hno

theorem finishLoad_free (h : Placed content cp b) (hpos : 0 < cp.size)
    (htext : ¬ HasText b.opt content) :
    (finishLoad b cp content.length).chars.freeChars ≠
      zeroChars (finishLoad b cp content.length).chars := by
  obtain ⟨hchars, -⟩ := finishLoad_frame h
  have hcount := (not_congr h.kept_iff).mpr htext
  have hall := h.allocated
  rw [hchars, if_neg htext]
  simp only [zeroChars, List.map_nil, List.sum_nil]
  omega

theorem finishLoad_lines (h : Placed content cp b) :
    lines (finishLoad b cp content.length) = splitText (isTerminator b.opt) [] content := by
  obtain ⟨hchars, hlds, -⟩ := finishLoad_frame h
  rw [← h.lines, BufferData.lines, BufferData.lines, hlds, hchars]
  rfl

end NiceEditor.LoadPools
