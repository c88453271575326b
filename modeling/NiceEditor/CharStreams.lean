import NiceEditor.Blocks
import NiceEditor.WriteCalls
import NiceEditor.Streams
import NiceEditor.UndoSteps

namespace NiceEditor.CharStreams

open NiceEditor.Blocks
open NiceEditor.Cells
open NiceEditor.Pools
open NiceEditor.BufferData
open NiceEditor.UndoSteps (charStreamSizeInc streamBytes)

/-- What the system does with a request for memory; the bytes of a new block are
whatever was there. -/
inductive MemoryReply
  | refused
  | granted (fresh : Nat → Byte)

/-- `char_stream`, with the block of memory that its pointer owns; `block = none`
is the NULL pointer. -/
structure OwnedStream where
  size : Nat
  len : Nat
  block : Option (List Byte)
  encoding : EncodingType

/-- `calloc` -/
def calloc (reply : MemoryReply) (n : Nat) : Option (List Byte) :=
  match reply with
  | .refused => none
  | .granted _ => some (List.replicate n 0)

/-- `realloc`, of a block that may be NULL -/
def realloc (reply : MemoryReply) (block : Option (List Byte)) (n : Nat) : Option (List Byte) :=
  match reply with
  | .refused => none
  | .granted fresh => some (resize (block.getD []) n fresh)

/-- `alloc_char_stream`: the structure is asked for first, then the block. -/
def allocCharStream (replies : Nat → MemoryReply) (size : Nat) : Option OwnedStream :=
  match replies 0 with
  | .refused => none
  | .granted _ =>
      if size = 0 then some ⟨0, 0, none, .ascii⟩
      else (calloc (replies 1) size).map fun m => ⟨size, 0, some m, .ascii⟩

/-- `realloc_char_stream`, of a stream that is not NULL: whether it is returned,
and what has become of it. -/
def reallocCharStream (reply : MemoryReply) (cs : OwnedStream) (size : Nat) :
    Bool × OwnedStream :=
  if size = 0 then (true, { cs with size := 0, len := 0, block := none })
  else
    match realloc reply cs.block size with
    | some m => (true, { cs with size := size, len := min cs.len size, block := some m })
    | none =>
        -- The result of `realloc` overwrites the pointer.
        (false, { cs with block := none })

/-- There is room for `n` more bytes, or `realloc_char_stream` makes it. -/
def makeRoom (reply : MemoryReply) (cs : OwnedStream) (n : Nat) : Bool × OwnedStream :=
  if cs.size - cs.len < n then reallocCharStream reply cs (cs.len + n + charStreamSizeInc)
  else (true, cs)

/-- The bytes are stored in the block from `pos` on. -/
def OwnedStream.put (cs : OwnedStream) (pos : Nat) (s : List Byte) : OwnedStream :=
  { cs with block := cs.block.map fun m => overwrite m pos s }

/-- `add_to_stream` -/
def addToStream (reply : MemoryReply) (cs : Option OwnedStream) (s : Option (List Byte)) :
    Status × Option OwnedStream :=
  match s, cs with
  | none, cs => (.ok, cs)
  | some _, none => (.error, none)
  | some s, some cs =>
      match makeRoom reply cs s.length with
      | (false, cs) => (.outOfMemory, some cs)
      | (true, cs) => (.ok, some { cs.put cs.len s with len := cs.len + s.length })

/-- The bytes from `pos` on are moved up, to make a gap of `n` bytes. -/
def OwnedStream.moveUp (cs : OwnedStream) (pos n : Nat) : OwnedStream :=
  cs.put (pos + n) (((cs.block.getD []).drop pos).take (cs.len - pos))

/-- `insert_in_stream` -/
def insertInStream (reply : MemoryReply) (cs : Option OwnedStream) (s : Option (List Byte))
    (pos : Nat) : Status × Option OwnedStream :=
  match s, cs with
  | none, cs => (.ok, cs)
  | some [], cs => (.ok, cs)
  | some (_ :: _), none => (.error, none)
  | some (c :: s), some cs =>
      if cs.len < pos then (.error, some cs)
      else
        match makeRoom reply cs (c :: s).length with
        | (false, cs) => (.outOfMemory, some cs)
        | (true, cs) =>
            (.ok, some { (cs.moveUp pos (c :: s).length).put pos (c :: s) with
              len := cs.len + (c :: s).length })

/-- The content of a stream. -/
def OwnedStream.bytes (cs : OwnedStream) : List Byte := (cs.block.getD []).take cs.len

/-- The memory that a stream owns. -/
def OwnedStream.owned (cs : OwnedStream) : Nat := (cs.block.getD []).length

/-- `assert_char_stream`, and the size is the memory that is owned. -/
structure WellFormed (cs : OwnedStream) : Prop where
  len_le : cs.len ≤ cs.size
  null : cs.size = 0 ↔ cs.block = none
  owned : cs.owned = cs.size

def MemoryReply.isRefused : MemoryReply → Bool
  | .refused => true
  | .granted _ => false

/-- More memory is needed for `n` bytes, and it is refused. -/
def Refuses (reply : MemoryReply) (cs : OwnedStream) (n : Nat) : Prop :=
  cs.size - cs.len < n ∧ reply.isRefused

attribute [grind =] reallocCharStream

variable {reply : MemoryReply} {cs cs' : OwnedStream} {s : List Byte} {n pos : Nat}

theorem WellFormed.block_eq (h : WellFormed cs) (hsize : cs.size ≠ 0) :
    ∃ m, cs.block = some m ∧ m.length = cs.size := by
  obtain ⟨m, hm⟩ := Option.ne_none_iff_exists'.mp fun hnone => hsize (h.null.mpr hnone)
  have howned := h.owned
  rw [OwnedStream.owned, hm, Option.getD_some] at howned
  exact ⟨m, hm, howned⟩

theorem WellFormed.length_bytes (h : WellFormed cs) : cs.bytes.length = cs.len := by
  have howned := h.owned
  rw [OwnedStream.owned] at howned
  rw [OwnedStream.bytes, List.length_take, howned, Nat.min_eq_left h.len_le]

theorem reallocCharStream_granted (h : WellFormed cs) (hsize : n ≠ 0)
    (hgranted : reply.isRefused = false) :
    ∃ cs', reallocCharStream reply cs n = (true, cs') ∧ WellFormed cs' ∧ cs'.size = n ∧
      cs'.len = min cs.len n ∧ cs'.bytes = cs.bytes.take n := by
  cases reply with
  | refused => simp [MemoryReply.isRefused] at hgranted
  | granted fresh =>
      rw [reallocCharStream, if_neg hsize]
      refine ⟨_, rfl, ⟨Nat.min_le_right _ _, ?_, resize_length⟩, rfl, rfl, ?_⟩
      · simpa using hsize
      · have howned := h.owned
        rw [OwnedStream.owned] at howned
        have hlen := h.len_le
        simp only [OwnedStream.bytes, Option.getD_some, List.take_take, Nat.min_comm n]
        exact resize_take (by omega) (Nat.min_le_right _ _)

theorem reallocCharStream_refused (hsize : n ≠ 0) (hrefused : reply.isRefused = true) :
    reallocCharStream reply cs n = (false, { cs with block := none }) := by
  cases reply with
  | refused => rw [reallocCharStream, if_neg hsize, realloc]
  | granted fresh => simp [MemoryReply.isRefused] at hrefused

theorem makeRoom_granted (h : WellFormed cs) (hgranted : ¬ Refuses reply cs n) :
    ∃ cs', makeRoom reply cs n = (true, cs') ∧ WellFormed cs' ∧ cs'.len = cs.len ∧
      cs'.len + n ≤ cs'.size ∧ cs'.bytes = cs.bytes := by
  unfold makeRoom
  split
  case isTrue hfull =>
    have hpos : cs.len + n + charStreamSizeInc ≠ 0 := by
      simp [charStreamSizeInc]
    obtain ⟨cs', heq, hwf, hsize, hlen, hbytes⟩ := reallocCharStream_granted h hpos
      (by simpa using fun hrefused => hgranted ⟨hfull, hrefused⟩)
    refine ⟨cs', heq, hwf, by omega, by omega, ?_⟩
    rw [hbytes, List.take_of_length_le (by rw [h.length_bytes]; omega)]
  case isFalse hroom =>
    have hlen := h.len_le
    exact ⟨cs, rfl, h, rfl, by omega, rfl⟩

theorem makeRoom_refused (hrefused : Refuses reply cs n) :
    makeRoom reply cs n = (false, { cs with block := none }) := by
  rw [makeRoom, if_pos hrefused.1]
  exact reallocCharStream_refused (by simp [charStreamSizeInc]) hrefused.2

theorem WellFormed.put (h : WellFormed cs) (hroom : pos + s.length ≤ cs.size) :
    WellFormed (cs.put pos s) := by
  refine ⟨h.len_le, ?_, ?_⟩
  · simpa [OwnedStream.put] using h.null
  · by_cases hsize : cs.size = 0
    · simp [OwnedStream.put, OwnedStream.owned, h.null.mp hsize, hsize]
    · obtain ⟨m, hm, hlen⟩ := h.block_eq hsize
      simp only [OwnedStream.put, OwnedStream.owned, hm, Option.map_some, Option.getD_some]
      rw [overwrite_length (by omega), hlen]

/-- The stream is what it was. -/
structure Unchanged (cs cs' : OwnedStream) : Prop where
  size_eq : cs'.size = cs.size
  len_eq : cs'.len = cs.len
  bytes_eq : cs'.bytes = cs.bytes
  wellFormed : WellFormed cs'

theorem unchanged_lost_iff (h : WellFormed cs) :
    Unchanged cs { cs with block := none } ↔ cs.size = 0 := by
  constructor
  · exact fun hsame => hsame.wellFormed.null.mpr rfl
  · intro hsize
    have hsame : ({ cs with block := none } : OwnedStream) = cs := by
      rw [← h.null.mp hsize]
    rw [hsame]
    exact ⟨rfl, rfl, rfl, h⟩

/-- A failed operation reports it and changes nothing; otherwise the stream holds
`bytes`, which are `n` more. -/
def Grows (cs : OwnedStream) (refused : Prop) (n : Nat) (bytes : List Byte)
    (result : Status × Option OwnedStream) : Prop :=
  ∃ cs', result.2 = some cs' ∧
    (refused → result.1 = .outOfMemory ∧ Unchanged cs cs') ∧
    (¬ refused → result.1 = .ok ∧ cs'.len = cs.len + n ∧ cs'.bytes = bytes ∧ WellFormed cs')

/-- What `add_to_stream` is to do. -/
def AddSurvives (reply : MemoryReply) (cs : OwnedStream) (s : List Byte) : Prop :=
  Grows cs (Refuses reply cs s.length) s.length (cs.bytes ++ s)
    (addToStream reply (some cs) (some s))

/-- What `insert_in_stream` is to do. -/
def InsertSurvives (reply : MemoryReply) (cs : OwnedStream) (s : List Byte) (pos : Nat) : Prop :=
  Grows cs (Refuses reply cs s.length) s.length (cs.bytes.take pos ++ (s ++ cs.bytes.drop pos))
    (insertInStream reply (some cs) (some s) pos)

/-- What `realloc_char_stream` is to do. -/
def ReallocSurvives (reply : MemoryReply) (cs : OwnedStream) (n : Nat) : Prop :=
  let result := reallocCharStream reply cs n
  (n ≠ 0 ∧ reply.isRefused → result.1 = false ∧ Unchanged cs result.2) ∧
    (¬ (n ≠ 0 ∧ reply.isRefused) → result.1 = true ∧ result.2.size = n ∧
      result.2.len = min cs.len n ∧ result.2.bytes = cs.bytes.take n ∧ WellFormed result.2)

theorem grows_refused {refused : Prop} {bytes : List Byte} (h : WellFormed cs)
    (hrefused : refused) :
    Grows cs refused n bytes (.outOfMemory, some { cs with block := none }) ↔ cs.size = 0 := by
  rw [← unchanged_lost_iff h]
  constructor
  · rintro ⟨cs', heq, hsame, -⟩
    obtain rfl := Option.some.inj heq
    exact (hsame hrefused).2
  · exact fun hsame => ⟨_, rfl, fun _ => ⟨rfl, hsame⟩, fun hgranted => absurd hrefused hgranted⟩

theorem bytes_put_end (hroom : cs.len + s.length ≤ cs.owned) :
    ({ cs.put cs.len s with len := cs.len + s.length } : OwnedStream).bytes = cs.bytes ++ s := by
  rw [OwnedStream.owned] at hroom
  cases hblock : cs.block with
  | none =>
      rw [hblock, Option.getD_none, List.length_nil] at hroom
      have hnil : s = [] := List.eq_nil_of_length_eq_zero (by omega)
      simp [OwnedStream.bytes, OwnedStream.put, hblock, hnil]
  | some m =>
      rw [hblock, Option.getD_some] at hroom
      simp only [OwnedStream.bytes, OwnedStream.put, hblock, Option.map_some, Option.getD_some]
      exact overwrite_take (by omega)

theorem bytes_put_middle (hpos : pos ≤ cs.len) (hroom : cs.len + s.length ≤ cs.owned) :
    ({ (cs.moveUp pos s.length).put pos s with len := cs.len + s.length } : OwnedStream).bytes =
      cs.bytes.take pos ++ (s ++ cs.bytes.drop pos) := by
  rw [OwnedStream.owned] at hroom
  cases hblock : cs.block with
  | none =>
      rw [hblock, Option.getD_none, List.length_nil] at hroom
      have hnil : s = [] := List.eq_nil_of_length_eq_zero (by omega)
      simp [OwnedStream.bytes, OwnedStream.put, OwnedStream.moveUp, hblock, hnil]
  | some m =>
      rw [hblock, Option.getD_some] at hroom
      simp only [OwnedStream.bytes, OwnedStream.put, OwnedStream.moveUp, hblock, Option.map_some,
        Option.getD_some, List.take_take, List.drop_take, Nat.min_eq_left hpos]
      exact overwrite_insert hpos hroom

theorem addSurvives_iff (h : WellFormed cs) :
    AddSurvives reply cs s ↔ ¬ Refuses reply cs s.length ∨ cs.size = 0 := by
  by_cases hrefused : Refuses reply cs s.length
  · rw [or_iff_right (not_not.mpr hrefused), AddSurvives, addToStream, makeRoom_refused hrefused]
    exact grows_refused h hrefused
  · obtain ⟨cs', heq, hwf, hlen, hroom, hbytes⟩ := makeRoom_granted h hrefused
    refine iff_of_true ?_ (.inl hrefused)
    rw [AddSurvives, addToStream, heq]
    have hput := hwf.put hroom
    have hend := bytes_put_end (by rwa [hwf.owned] : cs'.len + s.length ≤ cs'.owned)
    refine ⟨_, rfl, fun hno => absurd hno hrefused, fun _ => ⟨rfl, by rw [hlen], ?_, ?_⟩⟩
    · rw [hend, hbytes]
    · exact ⟨hroom, hput.null, hput.owned⟩

theorem insertSurvives_iff (h : WellFormed cs) (hpos : pos ≤ cs.len) :
    InsertSurvives reply cs s pos ↔ ¬ Refuses reply cs s.length ∨ cs.size = 0 := by
  cases s with
  | nil =>
      have hgranted : ¬ Refuses reply cs ([] : List Byte).length :=
        fun hno => Nat.not_lt_zero _ hno.1
      refine iff_of_true ?_ (.inl hgranted)
      exact ⟨cs, rfl, fun hno => absurd hno hgranted, fun _ => ⟨rfl, rfl, by simp, h⟩⟩
  | cons c s =>
      by_cases hrefused : Refuses reply cs (c :: s).length
      · rw [or_iff_right (not_not.mpr hrefused), InsertSurvives, insertInStream,
          if_neg (by omega), makeRoom_refused hrefused]
        exact grows_refused h hrefused
      · obtain ⟨cs', heq, hwf, hlen, hroom, hbytes⟩ := makeRoom_granted h hrefused
        refine iff_of_true ?_ (.inl hrefused)
        rw [InsertSurvives, insertInStream, if_neg (by omega), heq]
        have htail : (((cs'.block.getD []).drop pos).take (cs'.len - pos)).length ≤
            cs'.len - pos := List.length_take_le _ _
        have hmoved : WellFormed (cs'.moveUp pos (c :: s).length) := hwf.put (by omega)
        have hput : WellFormed ((cs'.moveUp pos (c :: s).length).put pos (c :: s)) :=
          hmoved.put (by simp only [OwnedStream.moveUp, OwnedStream.put]; omega)
        have hmiddle := bytes_put_middle (hlen ▸ hpos) (by rwa [hwf.owned])
        refine ⟨_, rfl, fun hno => absurd hno hrefused, fun _ => ⟨rfl, by rw [hlen], ?_, ?_⟩⟩
        · rw [hmiddle, hbytes]
        · exact ⟨hroom, hput.null, hput.owned⟩

theorem reallocSurvives_iff (h : WellFormed cs) :
    ReallocSurvives reply cs n ↔ n = 0 ∨ reply.isRefused = false ∨ cs.size = 0 := by
  by_cases hn : n = 0
  · refine iff_of_true ?_ (.inl hn)
    have hwf : WellFormed { cs with size := 0, len := 0, block := none } :=
      ⟨le_rfl, by simp, rfl⟩
    subst hn
    refine ⟨fun hno => absurd rfl hno.1, fun _ => ⟨rfl, rfl, by simp [reallocCharStream], ?_, hwf⟩⟩
    simp [reallocCharStream, OwnedStream.bytes]
  · cases hreply : reply.isRefused with
    | false =>
        obtain ⟨cs', heq, hwf, hsize, hlen, hbytes⟩ := reallocCharStream_granted h hn hreply
        refine iff_of_true ?_ (.inr (.inl rfl))
        rw [ReallocSurvives, heq]
        exact ⟨by simp [hreply], fun _ => ⟨rfl, hsize, hlen, hbytes, hwf⟩⟩
    | true =>
        rw [ReallocSurvives, reallocCharStream_refused hn hreply]
        simp [hn, hreply, unchanged_lost_iff h]

/-- The streams survive a refusal of memory exactly when they have no block yet:
the result of `realloc` overwrites the pointer to it. -/
theorem survives_iff (h : WellFormed cs) (hpos : pos ≤ cs.len) :
    (AddSurvives reply cs s ↔ ¬ Refuses reply cs s.length ∨ cs.size = 0) ∧
      (InsertSurvives reply cs s pos ↔ ¬ Refuses reply cs s.length ∨ cs.size = 0) ∧
      (ReallocSurvives reply cs n ↔ n = 0 ∨ reply.isRefused = false ∨ cs.size = 0) :=
  ⟨addSurvives_iff h, insertSurvives_iff h hpos, reallocSurvives_iff h⟩

/-- A stream of two bytes to which a byte is added. -/
def twoBytes : OwnedStream := ⟨2, 2, some [97, 98], .ascii⟩

theorem twoBytes_wellFormed : WellFormed twoBytes :=
  ⟨le_rfl, by simp [twoBytes], rfl⟩

theorem survives_iff_twoBytes :
    (AddSurvives .refused twoBytes [99] ↔ ¬ Refuses .refused twoBytes 1 ∨ twoBytes.size = 0) ∧
      (InsertSurvives .refused twoBytes [99] 1 ↔
        ¬ Refuses .refused twoBytes 1 ∨ twoBytes.size = 0) ∧
      (ReallocSurvives .refused twoBytes 3 ↔
        3 = 0 ∨ MemoryReply.refused.isRefused = false ∨ twoBytes.size = 0) :=
  survives_iff twoBytes_wellFormed (by decide)

/-- The two bytes are lost with the memory. -/
theorem not_addSurvives : WellFormed twoBytes ∧ ¬ AddSurvives .refused twoBytes [99] := by
  refine ⟨twoBytes_wellFormed, ?_⟩
  rw [addSurvives_iff twoBytes_wellFormed]
  simp [Refuses, twoBytes, MemoryReply.isRefused]

variable {chars : CharStream}

end NiceEditor.CharStreams
