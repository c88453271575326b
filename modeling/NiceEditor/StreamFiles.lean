import NiceEditor.CharStreams

namespace NiceEditor.StreamFiles

open NiceEditor.Blocks
open NiceEditor.WriteCalls
open NiceEditor.LineText
open NiceEditor.Streams
open NiceEditor.CharStreams
open NiceEditor.Pools
open NiceEditor.BufferData (Status EncodingType)

/-- `save_stream_to_fd` and `load_stream_from_fd` have their own errors. -/
inductive FileStatus
  | ok
  | error
  | errorWhileWriting
deriving DecidableEq, Repr

/-- An open file: what is in it, whether it can be sought, and how many bytes
`read_safely` gets. -/
structure OpenFile where
  content : List Byte
  seekable : Bool
  readable : Nat

/-- `strnlen_ne` -/
def strnlenNe : List Byte → Nat → Nat
  | _, 0 => 0
  | [], _ + 1 => 0
  | c :: s, n + 1 => if c = 0 then 0 else strnlenNe s n + 1

/-- `terminators[0]`; it is a NUL when CRs are preserved. -/
def crTerminator (preserveCR : Bool) : Byte := if preserveCR then 0 else 13

/-- The loop of `load_stream_from_fd`: the block is rewritten from the front, `j`
never being ahead of `i`. -/
def loadLoop (preserveCR : Bool) (len i j : Nat) (m : List Byte) : Nat × List Byte :=
  if i < len then
    let i' := if i < len - 1 ∧ preserveCR = false ∧ m.getD i 0 = 13 ∧ m.getD (i + 1) 0 = 10
      then i + 1 else i
    let m := m.set j (m.getD i' 0)
    let m := if m.getD j 0 = crTerminator preserveCR ∨ m.getD j 0 = 10 then m.set j 0 else m
    loadLoop preserveCR len (i' + 1) (j + 1) m
  else (j, m)
termination_by len - i
decreasing_by
  split <;> omega

/-- `realloc_char_stream`, of a stream that may be NULL. -/
def reallocOrAlloc (replies : Nat → MemoryReply) (cs : Option OwnedStream) (size : Nat) :
    Option OwnedStream :=
  match cs with
  | none => allocCharStream replies size
  | some cs =>
      match reallocCharStream (replies 0) cs size with
      | (true, cs) => some cs
      | (false, _) => none

/-- `load_stream_from_fd`: the stream that is returned. -/
def loadStreamFromFd (replies : Nat → MemoryReply) (cs : Option OwnedStream)
    (fd : Option OpenFile) (preserveCR binary : Bool) : Option OwnedStream :=
  match fd with
  | none => none
  | some file =>
      let len := file.content.length
      if file.seekable = false then none
      else
        match reallocOrAlloc replies cs len with
        | none => none
        | some cs =>
            if file.readable < len then none
            else
              let cs := cs.put 0 file.content
              if binary then some { cs with len := len }
              else
                let (j, m) := loadLoop preserveCR len 0 0 (cs.block.getD [])
                -- The bytes that have been merged are cleared.
                some { cs with
                  block := cs.block.map fun _ => overwrite m j (List.replicate (len - j) 0)
                  len := j }

/-- The line terminator, if `c` holds and the stream does not end here. -/
def writeIf (c : Prop) [Decidable c] (o : Output Byte) (bytes : List Byte) :
    Bool × Output Byte :=
  if c then write o bytes else (true, o)

/-- The loop of `save_stream_to_fd`, from `pos` on. -/
def saveLoop (crlf : Bool) (len pos : Nat) (m : List Byte) (o : Output Byte) :
    FileStatus × Output Byte :=
  if pos < len then
    let n := strnlenNe (m.drop pos) (len - pos)
    match write o ((m.drop pos).take n) with
    | (false, o) => (.errorWhileWriting, o)
    | (true, o) =>
        match writeIf (pos + n < len ∧ crlf) o [13] with
        | (false, o) => (.errorWhileWriting, o)
        | (true, o) =>
            match writeIf (pos + n < len) o [10] with
            | (false, o) => (.errorWhileWriting, o)
            | (true, o) => saveLoop crlf len (pos + n + 1) m o
  else (.ok, o)
termination_by len - pos
decreasing_by
  omega

/-- `save_stream_to_fd` -/
def saveStreamToFd (cs : Option OwnedStream) (o : Output Byte) (crlf binary : Bool) :
    FileStatus × Output Byte :=
  match cs with
  | none => (.error, o)
  | some cs =>
      if binary then
        match write o cs.bytes with
        | (false, o) => (.errorWhileWriting, o)
        | (true, o) => (.ok, o)
      else saveLoop crlf cs.len 0 (cs.block.getD []) o

variable {preserveCR crlf : Bool} {c : Byte} {l m rest bytes file : List Byte}
variable {i j len pos : Nat} {o : Output Byte} {cs : OwnedStream}

section Load

theorem loadStream_eq (c : Byte) (rest : List Byte) :
    loadStream preserveCR (c :: rest) =
      if preserveCR = false ∧ c = 13 ∧ rest.head? = some 10 then
        loadChar preserveCR 10 :: loadStream preserveCR rest.tail
      else loadChar preserveCR c :: loadStream preserveCR rest := by
  cases rest with
  | nil => simp [loadStream]
  | cons d rest =>
      rw [loadStream]
      by_cases h : preserveCR = false ∧ c = 13 ∧ d = 10
      · rw [if_pos (by simpa using h), if_pos (by simpa using h), h.2.2, List.tail_cons]
      · rw [if_neg (by simpa using h), if_neg (by simpa using h)]

/-- Where the next character is read: behind the CR of a pair. -/
def nextRead (preserveCR : Bool) (m : List Byte) (len i : Nat) : Nat :=
  if i < len - 1 ∧ preserveCR = false ∧ m.getD i 0 = 13 ∧ m.getD (i + 1) 0 = 10 then i + 1 else i

theorem nextRead_bounds (hi : i < len) :
    i ≤ nextRead preserveCR m len i ∧ nextRead preserveCR m len i < len := by
  unfold nextRead
  split <;> omega

theorem loadStream_drop (hi : i < m.length) :
    loadStream preserveCR (m.drop i) =
      loadChar preserveCR (m.getD (nextRead preserveCR m m.length i) 0) ::
        loadStream preserveCR (m.drop (nextRead preserveCR m m.length i + 1)) := by
  have hc : m.getD i 0 = m[i] := by simp [List.getD, hi]
  rw [List.drop_eq_getElem_cons hi, loadStream_eq, List.head?_drop, List.tail_drop, nextRead]
  by_cases hnext : i + 1 < m.length
  · have hd : m.getD (i + 1) 0 = m[i + 1] := by simp [List.getD, hnext]
    rw [List.getElem?_eq_getElem hnext, hc, hd]
    by_cases h : preserveCR = false ∧ m[i] = 13 ∧ m[i + 1] = 10
    · rw [if_pos (by simpa using h), if_pos ⟨by omega, h⟩, hd, h.2.2]
    · rw [if_neg (by simpa using h), if_neg (fun hall => h hall.2), hc]
  · rw [List.getElem?_eq_none (by omega), if_neg (by simp), if_neg (by omega), hc]

theorem set_loadChar (hj : j < m.length) :
    (if (m.set j c).getD j 0 = crTerminator preserveCR ∨ (m.set j c).getD j 0 = 10 then
        (m.set j c).set j 0
      else m.set j c) = m.set j (loadChar preserveCR c) := by
  have hget : (m.set j c).getD j 0 = c := by simp [List.getD, hj]
  rw [hget, List.set_set]
  by_cases h10 : c = 10
  · simp [h10, loadChar]
  · cases preserveCR <;> by_cases h : c = 13 <;> by_cases h0 : c = 0 <;>
      simp_all [loadChar, crTerminator]

variable (preserveCR) in
theorem loadLoop_spec (hlen : m.length = len) (hj : j ≤ i) (hi : i ≤ len) :
    (loadLoop preserveCR len i j m).1 ≤ len ∧
      (loadLoop preserveCR len i j m).2.length = len ∧
      (loadLoop preserveCR len i j m).2.take (loadLoop preserveCR len i j m).1 =
        m.take j ++ loadStream preserveCR (m.drop i) := by
  induction i, j, m using loadLoop.induct preserveCR len with
  | case1 i j m hless i' m₁ m₂ ih =>
      have hi' : i' = nextRead preserveCR m len i := rfl
      obtain ⟨hle, hlt⟩ : i ≤ i' ∧ i' < len := nextRead_bounds hless
      have hm₂ : m₂ = m.set j (loadChar preserveCR (m.getD i' 0)) := set_loadChar (by omega)
      have hturn := ih (by rw [hm₂, List.length_set, hlen]) (by omega) (by omega)
      have hback : m₂.drop (i' + 1) = m.drop (i' + 1) := by
        rw [hm₂, List.drop_set_of_lt (by omega)]
      have hfront : m₂.take (j + 1) = m.take j ++ [loadChar preserveCR (m.getD i' 0)] := by
        rw [hm₂, List.take_set, List.take_succ_eq_append_getElem (by omega)]
        rw [List.set_append_right _ _ (by simp), List.length_take, Nat.min_eq_left (by omega),
          Nat.sub_self, List.set_cons_zero]
      rw [loadLoop, if_pos hless]
      refine ⟨hturn.1, hturn.2.1, hturn.2.2.trans ?_⟩
      rw [hback, hfront, loadStream_drop (by omega : i < m.length), hlen, ← hi',
        List.append_assoc, List.singleton_append]
  | case2 i j m hdone =>
      rw [loadLoop, if_neg hdone, List.drop_eq_nil_of_le (by omega)]
      exact ⟨by omega, hlen, by simp [loadStream]⟩

end Load

section Save

theorem strnlenNe_eq (s : List Byte) (n : Nat) :
    strnlenNe s n = ((s.take n).takeWhile (· != 0)).length := by
  induction s, n using strnlenNe.induct with
  | case1 s => simp [strnlenNe]
  | case2 n => simp [strnlenNe]
  | case3 s n => simp [strnlenNe]
  | case4 c s n hc ih => simp [strnlenNe, hc, ih]

theorem exists_segment (s : List Byte) :
    ∃ l rest, 0 ∉ l ∧ l = s.takeWhile (· != 0) ∧ s = l ++ rest ∧
      (rest = [] ∨ ∃ rest', rest = 0 :: rest') := by
  refine ⟨s.takeWhile (· != 0), s.dropWhile (· != 0), ?_, rfl,
    List.takeWhile_append_dropWhile.symm, ?_⟩
  · exact fun h => by simpa using List.mem_takeWhile_imp h
  · cases hrest : s.dropWhile (· != 0) with
    | nil => exact .inl rfl
    | cons c rest' =>
        have hc := List.head_dropWhile_not (· != 0) (l := s) (by simp [hrest])
        simp only [hrest, List.head_cons] at hc
        exact .inr ⟨rest', by simpa using hc⟩

theorem saveStream_segment (hl : 0 ∉ l) : saveStream l crlf = l := by
  rw [saveStream, List.splitOn_eq_singleton hl, List.intercalate_singleton]

theorem saveStream_append (hl : 0 ∉ l) (rest : List Byte) :
    saveStream (l ++ 0 :: rest) crlf =
      l ++ ((if crlf then [13, 10] else [10]) ++ saveStream rest crlf) := by
  rw [saveStream, List.splitOn_append_cons_self, List.splitOn_eq_singleton hl,
    List.singleton_append, List.intercalate_cons_of_ne_nil (List.splitOn_ne_nil 0 rest),
    List.append_assoc, saveStream]

theorem writeIf_willing {p : Prop} [Decidable p] (h : o.Willing) (bytes : List Byte) :
    ∃ o', writeIf p o bytes = (true, o') ∧ o'.Willing ∧
      o'.file = o.file ++ if p then bytes else [] := by
  unfold writeIf
  split
  · exact write_willing h bytes
  · exact ⟨o, rfl, h, by simp⟩

variable (crlf pos) in
/-- The rest of the stream is written, its NULs as line terminators. -/
theorem saveLoop_spec (hm : len ≤ m.length) (h : o.Willing) :
    ∃ o', saveLoop crlf len pos m o = (.ok, o') ∧
      o'.file = o.file ++ saveStream ((m.take len).drop pos) crlf := by
  induction hn : len - pos using Nat.strong_induction_on generalizing pos o with
  | _ n ih =>
      rw [saveLoop]
      by_cases hpos : pos < len
      · rw [if_pos hpos]
        obtain ⟨l, rest, hl, hwhile, hsplit, hrest⟩ :=
          exists_segment ((m.drop pos).take (len - pos))
        have hcount : strnlenNe (m.drop pos) (len - pos) = l.length := by
          rw [strnlenNe_eq, hwhile]
        have htotal : l.length + rest.length = len - pos := by
          rw [← List.length_append, ← hsplit, List.length_take, List.length_drop]
          omega
        have hsegment : (m.drop pos).take l.length = l := by
          have htake := congrArg (List.take l.length) hsplit
          rwa [List.take_left, List.take_take, Nat.min_eq_left (by omega)] at htake
        have hback : (m.take len).drop (pos + l.length + 1) = rest.tail := by
          rw [Nat.add_assoc, ← List.drop_drop, List.drop_take, hsplit, ← List.drop_drop,
            List.drop_left, List.drop_one]
        obtain ⟨o₀, hwrite, hwilling, hfile₀⟩ := write_willing h l
        obtain ⟨o₁, hcr, hwilling₁, hfile₁⟩ := writeIf_willing
          (p := pos + l.length < len ∧ crlf = true) hwilling [13]
        obtain ⟨o₂, hlf, hwilling₂, hfile₂⟩ := writeIf_willing
          (p := pos + l.length < len) hwilling₁ [10]
        obtain ⟨o', hloop, hfile⟩ :=
          ih (len - (pos + l.length + 1)) (by omega) (pos + l.length + 1) hwilling₂ rfl
        refine ⟨o', ?_, ?_⟩
        · dsimp only
          rw [hcount, hsegment, hwrite]
          dsimp only
          rw [hcr]
          dsimp only
          rw [hlf]
          exact hloop
        · rw [hfile, hback, hfile₂, hfile₁, hfile₀, List.drop_take, hsplit]
          rcases hrest with rfl | ⟨rest', rfl⟩
          · have hlast : ¬ pos + l.length < len := by
              rw [List.length_nil] at htotal
              omega
            have hnil : saveStream [] crlf = [] := saveStream_segment (by simp)
            simp [hlast, saveStream_segment hl, hnil]
          · have hmore : pos + l.length < len := by
              rw [List.length_cons] at htotal
              omega
            rw [saveStream_append hl, List.tail_cons]
            cases crlf <;> simp [hmore]
      · rw [if_neg hpos, List.drop_eq_nil_of_le (by rw [List.length_take]; omega)]
        exact ⟨o, rfl, by rw [saveStream_segment (by simp), List.append_nil]⟩

end Save

section RoundTrip

variable {memory : Nat → MemoryReply} {into : Option OwnedStream}

variable (preserveCR) in
theorem loadStream_plain (hlf : 10 ∉ l) (hcr : 13 ∉ l) (rest : List Byte) :
    loadStream preserveCR (l ++ rest) = l ++ loadStream preserveCR rest := by
  induction l with
  | nil => rfl
  | cons c l ih =>
      have hc : c ≠ 10 ∧ c ≠ 13 :=
        ⟨fun heq => hlf (by simp [heq]), fun heq => hcr (by simp [heq])⟩
      have hrest := ih (fun h => hlf (List.mem_cons_of_mem c h))
        fun h => hcr (List.mem_cons_of_mem c h)
      rw [List.cons_append, loadStream_eq, if_neg (by simp [hc.2]), hrest]
      simp [loadChar, hc.1, hc.2]

theorem loadStream_terminator (hmode : ¬ (crlf = true ∧ preserveCR = true)) (rest : List Byte) :
    loadStream preserveCR ((if crlf then [13, 10] else [10]) ++ rest) =
      0 :: loadStream preserveCR rest := by
  cases crlf with
  | true =>
      have hcr : preserveCR = false := by simpa using hmode
      rw [if_pos rfl, List.cons_append, loadStream_eq, if_pos (by simp [hcr])]
      simp [loadChar]
  | false =>
      rw [if_neg (by simp), List.singleton_append, loadStream_eq, if_neg (by simp)]
      simp [loadChar]

theorem loadStream_saveStream_bytes (hlf : 10 ∉ bytes) (hcr : 13 ∉ bytes)
    (hmode : ¬ (crlf = true ∧ preserveCR = true)) :
    loadStream preserveCR (saveStream bytes crlf) = bytes := by
  induction hn : bytes.length using Nat.strong_induction_on generalizing bytes with
  | _ n ih =>
      obtain ⟨l, rest, hl, -, rfl, hrest⟩ := exists_segment bytes
      simp only [List.mem_append, not_or] at hlf hcr
      rcases hrest with rfl | ⟨rest, rfl⟩
      · have hplain := loadStream_plain preserveCR hlf.1 hcr.1 []
        rw [List.append_nil, saveStream_segment hl]
        simpa [loadStream] using hplain
      · simp only [List.length_append, List.length_cons] at hn
        rw [saveStream_append hl, loadStream_plain preserveCR hlf.1 hcr.1,
          loadStream_terminator hmode,
          ih rest.length (by omega) (fun h => hlf.2 (List.mem_cons_of_mem _ h))
            (fun h => hcr.2 (List.mem_cons_of_mem _ h)) rfl]

theorem reallocOrAlloc_granted (hmemory : ∀ n, (memory n).isRefused = false)
    (hinto : ∀ cs ∈ into, WellFormed cs) (size : Nat) :
    ∃ cs, reallocOrAlloc memory into size = some cs ∧ WellFormed cs ∧ cs.size = size := by
  cases into with
  | none =>
      rw [reallocOrAlloc, allocCharStream]
      cases hzero : memory 0 with
      | refused => simpa [hzero, MemoryReply.isRefused] using hmemory 0
      | granted fresh =>
          by_cases hsize : size = 0
          · rw [if_pos hsize]
            exact ⟨_, rfl, ⟨le_rfl, by simp, rfl⟩, hsize.symm⟩
          · cases hone : memory 1 with
            | refused => simpa [hone, MemoryReply.isRefused] using hmemory 1
            | granted fresh' =>
                rw [if_neg hsize]
                refine ⟨_, rfl, ⟨Nat.zero_le _, by simp [hsize], ?_⟩, rfl⟩
                simp [OwnedStream.owned]
  | some cs =>
      rw [reallocOrAlloc]
      by_cases hsize : size = 0
      · rw [reallocCharStream, if_pos hsize]
        exact ⟨_, rfl, ⟨le_rfl, by simp, rfl⟩, hsize.symm⟩
      · obtain ⟨cs', heq, hwf, hsize', -, -⟩ :=
          reallocCharStream_granted (hinto cs rfl) hsize (hmemory 0)
        exact ⟨cs', by rw [heq], hwf, hsize'⟩

theorem block_put (h : WellFormed cs) (hsize : cs.size = file.length) :
    ((cs.put 0 file).block.getD []) = file := by
  by_cases hnil : cs.size = 0
  · have hfile : file = [] := List.eq_nil_of_length_eq_zero (by omega)
    simp [OwnedStream.put, h.null.mp hnil, hfile]
  · obtain ⟨m, hm, hlen⟩ := h.block_eq hnil
    simp [OwnedStream.put, hm, overwrite, ← hsize, ← hlen]

theorem loadStreamFromFd_spec (hmemory : ∀ n, (memory n).isRefused = false)
    (hinto : ∀ cs ∈ into, WellFormed cs) (preserveCR binary : Bool) (file : List Byte) :
    ∃ cs, loadStreamFromFd memory into (some ⟨file, true, file.length⟩) preserveCR binary =
        some cs ∧
      cs.bytes = (if binary then file else loadStream preserveCR file) ∧
      cs.len = (if binary then file else loadStream preserveCR file).length := by
  obtain ⟨cs, heq, hwf, hsize⟩ := reallocOrAlloc_granted hmemory hinto file.length
  have hblock := block_put hwf hsize
  rw [loadStreamFromFd, if_neg (by simp), heq]
  dsimp only
  rw [if_neg (by omega)]
  cases binary with
  | true => exact ⟨_, rfl, by simp [OwnedStream.bytes, hblock], rfl⟩
  | false =>
      obtain ⟨hj, hlen, htake⟩ := loadLoop_spec preserveCR (rfl : file.length = file.length)
        le_rfl (Nat.zero_le file.length)
      rw [List.take_zero, List.nil_append, List.drop_zero] at htake
      simp only [if_false, Bool.false_eq_true, hblock]
      refine ⟨_, rfl, ?_, ?_⟩
      · rw [← htake]
        cases hput : (cs.put 0 file).block with
        | none =>
            rw [hput, Option.getD_none] at hblock
            have hfile : file = [] := hblock.symm
            simp [OwnedStream.bytes, hfile, loadLoop]
        | some m =>
            simp only [OwnedStream.bytes, Option.map_some, Option.getD_some]
            exact overwrite_take_of_le (by omega) le_rfl
      · rw [← htake, List.length_take, hlen, Nat.min_eq_left hj]

/-- What is saved in a mode is loaded back in it, into any stream, when the system
grants the writes and the memory. -/
def RoundTrips (cs : OwnedStream) (crlf preserveCR binary : Bool) : Prop :=
  ∀ (replies : Nat → WriteReply) (memory : Nat → MemoryReply) (into : Option OwnedStream),
    (∀ n, replies n = .complete) → (∀ n, (memory n).isRefused = false) →
      (∀ cs₀ ∈ into, WellFormed cs₀) →
    ∃ o cs', saveStreamToFd (some cs) ⟨[], replies⟩ crlf binary = (.ok, o) ∧
      loadStreamFromFd memory into (some ⟨o.file, true, o.file.length⟩) preserveCR binary =
        some cs' ∧
      cs'.bytes = cs.bytes ∧ cs'.len = cs.len

/-- A stream is the same after it has been saved and loaded: always in binary mode, and
as text when no byte of it is a terminator and pairs that are written are read as pairs. -/
theorem roundTrips (h : WellFormed cs) :
    (∀ crlf preserveCR, RoundTrips cs crlf preserveCR true) ∧
      (10 ∉ cs.bytes → 13 ∉ cs.bytes → ∀ crlf preserveCR,
        ¬ (crlf = true ∧ preserveCR = true) → RoundTrips cs crlf preserveCR false) := by
  constructor
  · intro crlf preserveCR replies memory into hreplies hmemory hinto
    have hwilling : Output.Willing (⟨[], replies⟩ : Output Byte) := hreplies
    obtain ⟨o, hwrite, -, hfile⟩ := write_willing hwilling cs.bytes
    obtain ⟨cs', hload, hbytes, hlen⟩ := loadStreamFromFd_spec hmemory hinto preserveCR true
      o.file
    have hcontent : o.file = cs.bytes := hfile
    refine ⟨o, cs', ?_, hload, ?_, ?_⟩
    · rw [saveStreamToFd, if_pos rfl, hwrite]
    · rw [hbytes, if_pos rfl, hcontent]
    · rw [hlen, if_pos rfl, hcontent, h.length_bytes]
  · intro hlf hcr crlf preserveCR hmode replies memory into hreplies hmemory hinto
    have howned : cs.len ≤ (cs.block.getD []).length := by
      have hle := h.len_le
      have heq := h.owned
      rw [OwnedStream.owned] at heq
      omega
    have hwilling : Output.Willing (⟨[], replies⟩ : Output Byte) := hreplies
    obtain ⟨o, hsave, hfile⟩ := saveLoop_spec crlf 0 howned hwilling
    have hcontent : o.file = saveStream cs.bytes crlf := hfile
    obtain ⟨cs', hload, hbytes, hlen⟩ := loadStreamFromFd_spec hmemory hinto preserveCR false
      o.file
    have htrip := loadStream_saveStream_bytes hlf hcr hmode
    refine ⟨o, cs', ?_, hload, ?_, ?_⟩
    · rw [saveStreamToFd, if_neg (by simp), hsave]
    · rw [hbytes, if_neg (by simp), hcontent, htrip]
    · rw [hlen, if_neg (by simp), hcontent, htrip, h.length_bytes]

/-- The two bytes with a NUL between them. -/
theorem roundTrips_twoBytes :
    RoundTrips ⟨4, 3, some [97, 0, 98, 0], .ascii⟩ true true true ∧
      RoundTrips ⟨4, 3, some [97, 0, 98, 0], .ascii⟩ true false false := by
  have h : WellFormed ⟨4, 3, some [97, 0, 98, 0], .ascii⟩ := ⟨by decide, by simp, rfl⟩
  exact ⟨(roundTrips h).1 true true,
    (roundTrips h).2 (by decide) (by decide) true false (by decide)⟩

end RoundTrip

end NiceEditor.StreamFiles
