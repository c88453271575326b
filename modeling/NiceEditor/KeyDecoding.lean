import NiceEditor.FirstDifferences
import NiceEditor.KeyTables
import NiceEditor.Navigation

namespace NiceEditor.KeyDecoding

open NiceEditor.FirstDifferences
open NiceEditor.Pools
open NiceEditor.Encoding (utf8len)
open NiceEditor.Navigation (utf8char)
open NiceEditor.KeyBindings
open NiceEditor.KeyTables

/-- `KBD_BUF_SIZE` -/
def kbdBufSize : Nat := 512

/-- `INVALID_CHAR` -/
def invalidChar : Int := -2147483648

/-- The static buffer up to `cur_len`, and the variables of `get_key_code`. -/
structure Decoder where
  buf : List Byte
  curKey : Nat
  lastMatch : Nat
  partialIsUtf8 : Bool

/-- What the buffered bytes come to: a result and the bytes that are left, or nothing yet. -/
inductive Scanned
  | result (c : Int) (buf : List Byte)
  | more (d : Decoder)

/-- The first byte of the buffer is returned. -/
def firstByte (buf : List Byte) : Scanned := .result (buf.getD 0 0).toNat buf.tail

/-- The inner loop of `get_key_code`; `key[cur_key].string` is NULL behind the last entry,
and there is a NUL behind every string. -/
def scan (key : List TermKey) (ioUtf8 : Bool) (d : Decoder) : Scanned :=
  if d.lastMatch < d.buf.length then
    if d.lastMatch = 0 ∧ ioUtf8 ∧ 0x80 ≤ d.buf.getD 0 0 then
      scan key ioUtf8 { d with partialIsUtf8 := true, lastMatch := d.lastMatch + 1 }
    else if d.partialIsUtf8 then
      if d.buf.getD d.lastMatch 0 &&& 0xC0 = 0x80 then
        if utf8len (d.buf.getD 0 0) = d.lastMatch + 1 then
          .result (if utf8char d.buf = -1 then invalidChar else utf8char d.buf)
            (d.buf.drop (d.lastMatch + 1))
        else scan key ioUtf8 { d with lastMatch := d.lastMatch + 1 }
      else
        -- The first byte is discarded.
        scan key ioUtf8 { d with buf := d.buf.tail, partialIsUtf8 := false, lastMatch := 0 }
    else
      match hkey : key[d.curKey]? with
      | none => firstByte d.buf
      | some k =>
          if k.string.getD d.lastMatch 0 = d.buf.getD d.lastMatch 0 then
            if k.string.getD (d.lastMatch + 1) 0 = 0 then
              .result (-k.code - 1) (d.buf.drop (d.lastMatch + 1))
            else scan key ioUtf8 { d with lastMatch := d.lastMatch + 1 }
          else if k.string.getD d.lastMatch 0 < d.buf.getD d.lastMatch 0 then firstByte d.buf
          else scan key ioUtf8 { d with lastMatch := 0, curKey := d.curKey + 1 }
  else .more d
termination_by (d.buf.length, key.length - d.curKey, d.buf.length - d.lastMatch)
decreasing_by
  all_goals simp only [Prod.lex_def, List.length_tail, true_and]
  · omega
  · omega
  · omega
  · omega
  · have hlt : d.curKey < key.length := (List.getElem?_eq_some_iff.mp hkey).1
    omega

/-- What comes from `getchar`: a byte, or an EOF with what `errno` says. -/
inductive Arrival
  | byte (c : Byte)
  | timeout
  | interrupted
  | failure

/-- How a call of `get_key_code` ends: it returns a code, it kills the program, or it
still waits. -/
inductive Outcome
  | code (c : Int)
  | terminated
  | waiting
deriving DecidableEq

/-- The loop of `get_key_code`: the outcome, the static buffer and what has not been read. -/
def readKey (key : List TermKey) (ioUtf8 : Bool) :
    List Arrival → Decoder → Outcome × List Byte × List Arrival
  | input, d =>
      match if d.buf = [] then .more d else scan key ioUtf8 d with
      | .result c buf => (.code c, buf, input)
      | .more d' =>
          match input with
          | [] => (.waiting, d'.buf, [])
          | .byte c :: input =>
              readKey key ioUtf8 input
                { d' with buf := if d'.buf.length < kbdBufSize then d'.buf ++ [c] else d'.buf }
          | e :: input =>
              -- An EOF without a partial match, or with an error, means that all is over.
              if (match e with
                  | .failure => true
                  | .interrupted => false
                  | _ => d.buf = []) then
                (.terminated, d'.buf, input)
              else if d'.buf = [] then (.code invalidChar, [], input)
              else if d'.partialIsUtf8 then
                readKey key ioUtf8 input
                  { d' with buf := [], lastMatch := 0, partialIsUtf8 := false }
              else (.code (d'.buf.getD 0 0).toNat, d'.buf.tail, input)

/-- `get_key_code` -/
def getKeyCode (key : List TermKey) (ioUtf8 : Bool) (buf : List Byte) (input : List Arrival) :
    Outcome × List Byte × List Arrival :=
  readKey key ioUtf8 input ⟨buf, 0, 0, false⟩

/-- Some calls of `get_key_code`, until one of them does not return: the results, the static
buffer and what has not been read. -/
def readKeys (key : List TermKey) (ioUtf8 : Bool) :
    Nat → List Byte → List Arrival → List Int × List Byte × List Arrival
  | 0, buf, input => ([], buf, input)
  | n + 1, buf, input =>
      match getKeyCode key ioUtf8 buf input with
      | (.code c, buf, input) =>
          (c :: (readKeys key ioUtf8 n buf input).1, (readKeys key ioUtf8 n buf input).2)
      | (_, buf, input) => ([], buf, input)

/-- The result that the remaining bytes begin with, and its length: a sequence of the table,
or a byte, once it is clear that no sequence is on its way. -/
def nextResult (key : List TermKey) : List Byte → Option (Int × Nat)
  | [] => none
  | c :: rest =>
      match key.find? fun k => k.string.isPrefixOf (c :: rest) with
      | some k => some (-k.code - 1, k.string.length)
      | none =>
          if key.any fun k => (c :: rest).isPrefixOf k.string then none else some (c.toNat, 1)

/-- The first results of the greedy reading, and the bytes that they leave. -/
def greedy (key : List TermKey) : Nat → List Byte → List Int × List Byte
  | 0, input => ([], input)
  | n + 1, input =>
      match nextResult key input with
      | none => ([], input)
      | some (c, m) => (c :: (greedy key n (input.drop m)).1, (greedy key n (input.drop m)).2)

/-- A table that the decoder is made for: no sequence is the beginning of another one, and
all of them fit into the keyboard buffer. -/
structure PrefixFree (key : List TermKey) : Prop where
  sorted : Sorted key
  eq_of_prefix : ∀ k ∈ key, ∀ k' ∈ key, k.string <+: k'.string → k.string = k'.string
  ne_nil : ∀ k ∈ key, k.string ≠ []
  zero_not_mem : ∀ k ∈ key, (0 : Byte) ∉ k.string
  short : ∀ k ∈ key, k.string.length < kbdBufSize

variable {key a b : List TermKey} {k x : TermKey} {s t buf rest : List Byte} {d : Decoder}
variable {c : Byte}

section Order

instance : IsTrans Byte (· < ·) := ⟨fun _ _ _ => UInt8.lt_trans⟩

instance : Std.Irrefl (α := Byte) (· < ·) := ⟨fun c => UInt8.lt_irrefl c⟩

theorem below_of_strcmp (h : strcmp s t = .gt) (hno : ¬ t <+: s) : Below (· < ·) t s := by
  induction s, t using strcmp.induct with
  | case1 => simp [strcmp] at h
  | case2 => simp [strcmp] at h
  | case3 => exact absurd List.nil_prefix hno
  | case4 c s d t ih =>
      rw [strcmp, Ordering.then_eq_gt] at h
      rw [below_cons_iff]
      rcases h with hcd | ⟨heq, hst⟩
      · rw [Std.OrientedCmp.gt_iff_lt] at hcd
        exact .inl (Std.compare_eq_lt.mp hcd)
      · obtain rfl := Std.LawfulEqCmp.compare_eq_iff_eq.mp heq
        exact .inr ⟨rfl, ih hst fun hpre => hno ((List.prefix_cons_inj c).mpr hpre)⟩

theorem PrefixFree.below (h : PrefixFree (a ++ k :: b)) (hx : x ∈ b) :
    Below (· < ·) x.string k.string := by
  have hgt := h.sorted.middle.2 x hx
  refine below_of_strcmp hgt fun hpre => ?_
  have heq := h.eq_of_prefix x (by simp [hx]) k (by simp) hpre
  rw [heq, strcmp_self] at hgt
  simp at hgt

end Order

section Greedy

theorem not_prefix_of_apart (h : Below (· < ·) buf x.string ∨ Below (· < ·) x.string buf)
    (rest : List Byte) : ¬ x.string <+: buf ++ rest ∧ ¬ buf ++ rest <+: x.string := by
  rcases h with h | h
  · exact (h.append_left rest).not_prefixed.symm
  · exact (h.append_right rest).not_prefixed

theorem find?_none {s : List Byte} (h : ∀ x ∈ a, ¬ x.string <+: s) :
    (a.find? fun x => x.string.isPrefixOf s) = none := by
  rw [List.find?_eq_none]
  exact fun x hx hfound => h x hx (List.isPrefixOf_iff_prefix.mp hfound)

theorem nextResult_key (hbuf : buf ≠ []) (ha : ∀ x ∈ a, Below (· < ·) buf x.string)
    (hk : k.string <+: buf) (rest : List Byte) :
    nextResult (a ++ k :: b) (buf ++ rest) = some (-k.code - 1, k.string.length) := by
  obtain ⟨c, buf, rfl⟩ := List.exists_cons_of_ne_nil hbuf
  have hnone := find?_none fun x hx => (not_prefix_of_apart (.inl (ha x hx)) rest).1
  have hfound : k.string.isPrefixOf (c :: (buf ++ rest)) = true :=
    List.isPrefixOf_iff_prefix.mpr (hk.trans (List.prefix_append _ rest))
  rw [List.cons_append] at hnone ⊢
  rw [nextResult, List.find?_append, hnone, List.find?_cons, hfound]
  rfl

theorem nextResult_byte (hall : ∀ x ∈ key,
      Below (· < ·) (c :: buf) x.string ∨ Below (· < ·) x.string (c :: buf)) (rest : List Byte) :
    nextResult key (c :: buf ++ rest) = some ((c.toNat : Int), 1) := by
  have hnone := find?_none fun x hx => (not_prefix_of_apart (hall x hx) rest).1
  have hany : (key.any fun x => (c :: buf ++ rest).isPrefixOf x.string) = false := by
    rw [List.any_eq_false]
    exact fun x hx hfound =>
      (not_prefix_of_apart (hall x hx) rest).2 (List.isPrefixOf_iff_prefix.mp hfound)
  rw [List.cons_append] at hnone hany ⊢
  rw [nextResult, hnone]
  simp only [hany, Bool.false_eq_true, if_false]

theorem nextResult_wait (h : PrefixFree key) (hk : k ∈ key) (hpre : buf <+: k.string)
    (hlen : buf.length < k.string.length) : nextResult key buf = none := by
  cases buf with
  | nil => rfl
  | cons c buf =>
      have hnone : (key.find? fun x => x.string.isPrefixOf (c :: buf)) = none := by
        refine find?_none fun x hx hx' => ?_
        have heq := h.eq_of_prefix x hx k hk (hx'.trans hpre)
        have hle := hx'.length_le
        rw [heq] at hle
        omega
      have hany : (key.any fun x => (c :: buf).isPrefixOf x.string) = true := by
        rw [List.any_eq_true]
        exact ⟨k, hk, List.isPrefixOf_iff_prefix.mpr hpre⟩
      rw [nextResult, hnone]
      simp [hany]

end Greedy

section Scan

/-- The entries before `cur_key` are above the bytes, and the current one begins with the
bytes that have been matched. -/
structure Scanning (key : List TermKey) (d : Decoder) : Prop where
  single : d.partialIsUtf8 = false
  le : d.lastMatch ≤ d.buf.length
  passed : ∀ x ∈ key.take d.curKey, Below (· < ·) d.buf x.string
  matched : ∀ k, key[d.curKey]? = some k →
    d.lastMatch < k.string.length ∧ k.string.take d.lastMatch = d.buf.take d.lastMatch
  ended : key[d.curKey]? = none → d.lastMatch = 0

/-- What the buffered bytes come to, whatever follows them. -/
def Scanned.Right (key : List TermKey) (buf : List Byte) : Scanned → Prop
  | .result c buf' =>
      ∃ n, 0 < n ∧ buf' = buf.drop n ∧ n ≤ buf.length ∧
        ∀ rest, nextResult key (buf ++ rest) = some (c, n)
  | .more d => d.buf = buf ∧ d.lastMatch = buf.length ∧ Scanning key d ∧
      ∃ k ∈ key, buf <+: k.string ∧ buf.length < k.string.length

theorem firstByte_right (hbuf : buf ≠ [])
    (hall : ∀ x ∈ key, Below (· < ·) buf x.string ∨ Below (· < ·) x.string buf) :
    (firstByte buf).Right key buf := by
  obtain ⟨c, buf, rfl⟩ := List.exists_cons_of_ne_nil hbuf
  exact ⟨1, Nat.one_pos, rfl, by simp, nextResult_byte hall⟩

theorem split_at {n : Nat} (hn : n < s.length) (hn' : n < t.length) (h : s.take n = t.take n) :
    s = t.take n ++ s[n] :: s.drop (n + 1) ∧ t = t.take n ++ t[n] :: t.drop (n + 1) := by
  constructor
  · rw [← h, ← List.drop_eq_getElem_cons, List.take_append_drop]
  · rw [← List.drop_eq_getElem_cons, List.take_append_drop]

theorem getD_eq {n : Nat} (hn : n < s.length) : s.getD n 0 = s[n] := by
  simp [List.getD, hn]

theorem scan_none (h : Scanning key d) (hmore : d.lastMatch < d.buf.length)
    (hkey : key[d.curKey]? = none) : scan key false d = firstByte d.buf := by
  rw [scan, if_pos hmore, if_neg (by simp), if_neg (by simp [h.single])]
  split
  · rfl
  · rename_i hsome
    simp [hkey] at hsome

theorem scan_some (h : Scanning key d) (hmore : d.lastMatch < d.buf.length)
    (hkey : key[d.curKey]? = some k) :
    scan key false d =
      if k.string.getD d.lastMatch 0 = d.buf.getD d.lastMatch 0 then
        if k.string.getD (d.lastMatch + 1) 0 = 0 then
          .result (-k.code - 1) (d.buf.drop (d.lastMatch + 1))
        else scan key false { d with lastMatch := d.lastMatch + 1 }
      else if k.string.getD d.lastMatch 0 < d.buf.getD d.lastMatch 0 then firstByte d.buf
      else scan key false { d with lastMatch := 0, curKey := d.curKey + 1 } := by
  rw [scan, if_pos hmore, if_neg (by simp), if_neg (by simp [h.single])]
  split
  · rename_i hnone
    simp [hkey] at hnone
  · rename_i k' hsome
    rw [hkey, Option.some.injEq] at hsome
    subst hsome
    rfl

/-- The inner loop, when no entry is passed over that could still match. -/
theorem scan_right (hfree : PrefixFree key) (h : Scanning key d) (hbuf : d.buf ≠ []) :
    (scan key false d).Right key d.buf := by
  induction d using scan.induct key false with
  | case1 d hmore hutf8 ih => simp at hutf8
  | case2 d hmore hno hutf8 hcont hlen => simp [h.single] at hutf8
  | case3 d hmore hno hutf8 hcont hlen ih => simp [h.single] at hutf8
  | case4 d hmore hno hutf8 hcont ih => simp [h.single] at hutf8
  | case5 d hmore hno hutf8 hkey =>
      rw [scan_none h hmore hkey]
      refine firstByte_right hbuf fun x hx => .inl (h.passed x ?_)
      rwa [List.take_of_length_le (List.getElem?_eq_none_iff.mp hkey)]
  | case6 d hmore hno hutf8 k hkey hchar hend =>
      -- the sequence is complete
      obtain ⟨hlen, hmatch⟩ := h.matched k hkey
      obtain ⟨hcur, hk⟩ := List.getElem?_eq_some_iff.mp hkey
      have hmem : k ∈ key := hk ▸ List.getElem_mem hcur
      have hlast : k.string.length = d.lastMatch + 1 := by
        by_contra hne
        have hnext : d.lastMatch + 1 < k.string.length := by omega
        rw [getD_eq hnext] at hend
        exact hfree.zero_not_mem k hmem (hend ▸ List.getElem_mem hnext)
      have hpre : k.string <+: d.buf := by
        obtain ⟨hs, ht⟩ := split_at hlen hmore hmatch
        rw [getD_eq hlen, getD_eq hmore] at hchar
        rw [hs, List.drop_eq_nil_of_le (by omega), hchar]
        exact ⟨d.buf.drop (d.lastMatch + 1), by rw [List.append_assoc]; exact ht.symm⟩
      have hkeys : key = key.take d.curKey ++ k :: key.drop (d.curKey + 1) := by
        rw [← hk, ← List.drop_eq_getElem_cons, List.take_append_drop]
      rw [scan_some h hmore hkey, if_pos hchar, if_pos hend]
      refine ⟨d.lastMatch + 1, Nat.succ_pos _, rfl, hmore, fun rest => ?_⟩
      rw [hkeys, ← hlast]
      exact nextResult_key hbuf h.passed hpre rest
  | case7 d hmore hno hutf8 k hkey hchar hend ih =>
      -- one more byte matches
      obtain ⟨hlen, hmatch⟩ := h.matched k hkey
      have hnext : d.lastMatch + 1 < k.string.length := by
        by_contra hno
        exact hend (by simp [List.getD, List.getElem?_eq_none (Nat.le_of_not_lt hno)])
      rw [getD_eq hlen, getD_eq hmore] at hchar
      rw [scan_some h hmore hkey, getD_eq hlen, getD_eq hmore, if_pos hchar, if_neg hend]
      refine ih ⟨h.single, hmore, h.passed, fun k' hk' => ?_, fun hnone => ?_⟩ hbuf
      · obtain rfl := Option.some.inj (hkey.symm.trans hk')
        refine ⟨hnext, ?_⟩
        rw [List.take_succ_eq_append_getElem hlen, List.take_succ_eq_append_getElem hmore, hmatch,
          hchar]
      · simp [hkey] at hnone
  | case8 d hmore hno hutf8 k hkey hchar hgreater =>
      -- the byte is greater: all entries from here on are below
      obtain ⟨hlen, hmatch⟩ := h.matched k hkey
      obtain ⟨hcur, hk⟩ := List.getElem?_eq_some_iff.mp hkey
      have hkeys : key = key.take d.curKey ++ k :: key.drop (d.curKey + 1) := by
        rw [← hk, ← List.drop_eq_getElem_cons, List.take_append_drop]
      have hbelow : Below (· < ·) k.string d.buf := by
        obtain ⟨hs, ht⟩ := split_at hlen hmore hmatch
        rw [getD_eq hlen, getD_eq hmore] at hgreater
        exact ⟨_, _, _, _, _, hs, ht, hgreater⟩
      rw [scan_some h hmore hkey, if_neg hchar, if_pos hgreater]
      refine firstByte_right hbuf fun x hx => ?_
      rw [hkeys, List.mem_append, List.mem_cons] at hx
      rcases hx with hx | rfl | hx
      · exact .inl (h.passed x hx)
      · exact .inr hbelow
      · exact .inr ((PrefixFree.below (hkeys ▸ hfree) hx).trans hbelow)
  | case9 d hmore hno hutf8 k hkey hchar hless ih =>
      -- the byte is smaller: this entry is above
      obtain ⟨hlen, hmatch⟩ := h.matched k hkey
      obtain ⟨hcur, hk⟩ := List.getElem?_eq_some_iff.mp hkey
      have hbelow : Below (· < ·) d.buf k.string := by
        obtain ⟨hs, ht⟩ := split_at hlen hmore hmatch
        rw [getD_eq hlen, getD_eq hmore] at hchar hless
        exact ⟨_, _, _, _, _, ht, hs,
          (UInt8.le_iff_lt_or_eq.mp (UInt8.not_lt.mp hless)).resolve_right
            fun heq => hchar heq.symm⟩
      rw [scan_some h hmore hkey, if_neg hchar, if_neg hless]
      refine ih ⟨h.single, Nat.zero_le _, fun x hx => ?_, fun k' hk' => ?_, fun _ => rfl⟩ hbuf
      · rw [List.take_succ_eq_append_getElem hcur, List.mem_append, List.mem_singleton] at hx
        rcases hx with hx | rfl
        · exact h.passed x hx
        · rwa [hk]
      · have hmem : k' ∈ key := List.mem_of_getElem? hk'
        exact ⟨List.length_pos_of_ne_nil (hfree.ne_nil k' hmem), by simp⟩
  | case10 d hdone =>
      have heq : d.lastMatch = d.buf.length := by
        have hle := h.le
        omega
      have hpos := List.length_pos_of_ne_nil hbuf
      rw [scan, if_neg hdone]
      refine ⟨rfl, heq, h, ?_⟩
      cases hkey : key[d.curKey]? with
      | none =>
          have hzero := h.ended hkey
          omega
      | some k =>
          obtain ⟨hlen, hmatch⟩ := h.matched k hkey
          rw [heq, List.take_length] at hmatch
          exact ⟨k, List.mem_of_getElem? hkey, hmatch ▸ List.take_prefix _ _, by omega⟩

end Scan

section Calls

/-- The bytes arrive one after the other, without timeouts. -/
def arrivals (bytes : List Byte) : List Arrival := bytes.map .byte

/-- The bytes are the beginning of a sequence, or there are none. -/
def Awaited (key : List TermKey) (buf : List Byte) : Prop :=
  buf = [] ∨ ∃ k ∈ key, buf <+: k.string ∧ buf.length < k.string.length

theorem Awaited.nextResult (hfree : PrefixFree key) (h : Awaited key buf) :
    nextResult key buf = none := by
  rcases h with rfl | ⟨k, hk, hpre, hlen⟩
  · rfl
  · exact nextResult_wait hfree hk hpre hlen

theorem look_right (hfree : PrefixFree key) (h : Scanning key d) :
    (∃ c n, (if d.buf = [] then .more d else scan key false d) = .result c (d.buf.drop n) ∧
        n ≤ d.buf.length ∧ ∀ rest, nextResult key (d.buf ++ rest) = some (c, n)) ∨
      (∃ d', (if d.buf = [] then .more d else scan key false d) = .more d' ∧ d'.buf = d.buf ∧
        d'.lastMatch = d.buf.length ∧ Scanning key d' ∧ Awaited key d.buf) := by
  by_cases hbuf : d.buf = []
  · have hle := h.le
    rw [hbuf, List.length_nil] at hle
    rw [if_pos hbuf]
    exact .inr ⟨d, rfl, rfl, by rw [hbuf, List.length_nil]; omega, h, .inl hbuf⟩
  · have hright := scan_right hfree h hbuf
    rw [if_neg hbuf]
    cases hscan : scan key false d with
    | result c buf' =>
        rw [hscan] at hright
        obtain ⟨n, -, rfl, hle, hnext⟩ := hright
        exact .inl ⟨c, n, rfl, hle, hnext⟩
    | more d' =>
        rw [hscan] at hright
        obtain ⟨heq, hmatch, hscanning, hawaited⟩ := hright
        exact .inr ⟨d', rfl, heq, hmatch, hscanning, .inr hawaited⟩

theorem Scanning.arrive (hfree : PrefixFree key) (h : Scanning key d)
    (hawaited : Awaited key d.buf) (c : Byte) :
    d.buf.length < kbdBufSize ∧ Scanning key { d with buf := d.buf ++ [c] } := by
  constructor
  · rcases hawaited with hnil | ⟨k, hk, -, hlen⟩
    · rw [hnil]
      decide
    · exact hlen.trans (hfree.short k hk)
  · refine ⟨h.single, ?_, fun x hx => (h.passed x hx).append_left [c], fun k hk => ?_, h.ended⟩
    · rw [List.length_append]
      exact h.le.trans (Nat.le_add_right _ _)
    · obtain ⟨hlen, htake⟩ := h.matched k hk
      exact ⟨hlen, by rw [htake, List.take_append_of_le_length h.le]⟩

theorem readKey_spec (hfree : PrefixFree key) (bytes : List Byte) (h : Scanning key d) :
    (∃ c n buf' rest, readKey key false (arrivals bytes) d = (.code c, buf', arrivals rest) ∧
        nextResult key (d.buf ++ bytes) = some (c, n) ∧
        buf' ++ rest = (d.buf ++ bytes).drop n) ∨
      (readKey key false (arrivals bytes) d = (.waiting, d.buf ++ bytes, []) ∧
        Awaited key (d.buf ++ bytes)) := by
  induction bytes generalizing d with
  | nil =>
      rcases look_right hfree h with ⟨c, n, hlook, hle, hnext⟩ | ⟨d', hlook, heq, -, -, hawaited⟩
      · refine .inl ⟨c, n, d.buf.drop n, [], ?_, hnext [], by simp⟩
        rw [readKey, hlook]
      · refine .inr ⟨?_, by rwa [List.append_nil]⟩
        rw [readKey, hlook, List.append_nil, ← heq]
        rfl
  | cons c bytes ih =>
      rcases look_right hfree h with ⟨c', n, hlook, hle, hnext⟩ |
        ⟨d', hlook, heq, hmatch, hscanning, hawaited⟩
      · refine .inl ⟨c', n, d.buf.drop n, c :: bytes, ?_, hnext (c :: bytes), ?_⟩
        · rw [readKey, hlook]
        · rw [List.drop_append_of_le_length hle]
      · obtain ⟨hroom, harrived⟩ := hscanning.arrive hfree
          (heq ▸ hawaited) c
        have hread : readKey key false (arrivals (c :: bytes)) d =
            readKey key false (arrivals bytes) { d' with buf := d'.buf ++ [c] } := by
          rw [readKey, hlook]
          change readKey key false (arrivals bytes)
            { d' with buf := if d'.buf.length < kbdBufSize then d'.buf ++ [c] else d'.buf } = _
          rw [if_pos hroom]
        have hrest := ih harrived
        rw [hread, show d.buf ++ c :: bytes = d'.buf ++ [c] ++ bytes by simp [heq]]
        exact hrest

theorem getKeyCode_spec (hfree : PrefixFree key) (buf bytes : List Byte) :
    (∃ c n buf' rest,
        getKeyCode key false buf (arrivals bytes) = (.code c, buf', arrivals rest) ∧
        nextResult key (buf ++ bytes) = some (c, n) ∧ buf' ++ rest = (buf ++ bytes).drop n) ∨
      (getKeyCode key false buf (arrivals bytes) = (.waiting, buf ++ bytes, []) ∧
        Awaited key (buf ++ bytes)) := by
  refine readKey_spec (d := ⟨buf, 0, 0, false⟩) hfree bytes
    ⟨rfl, Nat.zero_le _, by simp, fun k hk => ⟨?_, by simp⟩, fun _ => rfl⟩
  exact List.length_pos_of_ne_nil (hfree.ne_nil k (List.mem_of_getElem? hk))

/-- The calls return what the greedy reading does, whatever has been left in the buffer; what
they leave is what it leaves, and a call that does not return waits for a sequence to go on. -/
theorem readKeys_greedy (hfree : PrefixFree key) (n : Nat) (buf bytes : List Byte) :
    ∃ results buf' rest,
      readKeys key false n buf (arrivals bytes) = (results, buf', arrivals rest) ∧
      greedy key n (buf ++ bytes) = (results, buf' ++ rest) ∧
      (results.length < n → rest = [] ∧ Awaited key buf') := by
  induction n generalizing buf bytes with
  | zero => exact ⟨[], buf, bytes, rfl, rfl, fun hlt => absurd hlt (Nat.not_lt_zero _)⟩
  | succ n ih =>
      rw [readKeys, greedy]
      rcases getKeyCode_spec hfree buf bytes with ⟨c, m, buf', rest, hcall, hnext, hleft⟩ |
        ⟨hcall, hawaited⟩
      · obtain ⟨results, buf'', rest', hcalls, hgreedy, hwait⟩ := ih buf' rest
        rw [hleft] at hgreedy
        rw [hcall, hnext]
        dsimp only
        rw [hcalls, hgreedy]
        exact ⟨c :: results, buf'', rest', rfl, rfl, fun hlt => hwait (Nat.lt_of_succ_lt_succ hlt)⟩
      · rw [hcall, hawaited.nextResult hfree]
        exact ⟨[], buf ++ bytes, [], rfl, by simp, fun _ => ⟨rfl, hawaited⟩⟩

/-- An escape sequence that fails late: its bytes are read again. -/
theorem readKeys_greedy_cursorKeys :
    ∃ results buf' rest,
      readKeys cursorKeys false 4 [] (arrivals [27, 91, 67, 27, 91, 65]) =
        (results, buf', arrivals rest) ∧
      greedy cursorKeys 4 ([] ++ [27, 91, 67, 27, 91, 65]) = (results, buf' ++ rest) ∧
      (results.length < 4 → rest = [] ∧ Awaited cursorKeys buf') :=
  readKeys_greedy ⟨by decide, by decide, by decide, by decide, by decide⟩ 4 [] _

example : greedy cursorKeys 4 [27, 91, 67, 27, 91, 65] = ([27, 91, 67, -259], []) := by decide

end Calls

end NiceEditor.KeyDecoding
