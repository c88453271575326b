import NiceEditor.Arenas
import NiceEditor.SortedLists
import NiceEditor.KeyTables

/-!
Lists of strings for the requesters: `req_list_init`, `req_list_add`, `req_list_del` and
`req_list_finalize` (`request.c`), with the comparisons of `support.c`.
-/

namespace NiceEditor.ReqLists

open NiceEditor.Pools
open NiceEditor.Blocks
open NiceEditor.Arenas
open NiceEditor.SortedLists
open NiceEditor.KeyBindings
open NiceEditor.KeyTables

/-- A comparison of strings. Only the sign of the result is used. -/
abbrev Comparison := List Byte → List Byte → Ordering

/-- `strcasecmp`, which compares what `lower` gives -/
def strcasecmp (lower : Byte → Byte) : Comparison := fun a b =>
  strcmp (a.map lower) (b.map lower)

/-- `strdictcmp` -/
def strdictcmp (lower : Byte → Byte) : Comparison := fun a b =>
  if strcasecmp lower a b ≠ .eq then strcasecmp lower a b else strcmp a b

/-- `filenamecmp`: first `..`, then `.`, each with or without a slash. -/
def filenamecmp (lower : Byte → Byte) : Comparison := fun s t =>
  if s = [46, 46, 47] then if t = [46, 46, 47] then .eq else .lt
  else if s = [46, 46] then if t = [46, 46] then .eq else .lt
  else if t = [46, 46, 47] then .gt
  else if t = [46, 46] then .gt
  else if s = [46, 47] then if t = [46, 47] then .eq else .lt
  else if s = [46] then if t = [46] then .eq else .lt
  else if t = [46, 47] then .gt
  else if t = [46] then .gt
  else strdictcmp lower s t

/-- A `req_list`, as far as these functions use it. `entries` and `lengths` are the parts of
the tables that are in use, the length of `chars` is `alloc_chars`, and `address` is where
`chars` is in memory. -/
structure ReqList where
  cmpfnc : Option Comparison
  allowDupes : Bool
  allowReorder : Bool
  suffix : Byte
  entries : List Int
  lengths : List Nat
  allocEntries : Nat
  reorder : Option (List Nat)
  address : Int
  chars : List Byte
  curChars : Nat

/-- The answers to a call's requests for memory: where a new `chars` is, and what it holds,
and whether the tables of entries and of lengths are granted. -/
structure Answers where
  chars : Option (Int × (Nat → Byte))
  entries : Bool
  lengths : Bool

/-- `DEF_ENTRIES_ALLOC_SIZE` -/
def defEntriesAllocSize : Nat := 256

/-- `DEF_CHARS_ALLOC_SIZE` -/
def defCharsAllocSize : Nat := 4 * 1024

/-- `req_list_init`. When memory is refused the tables have no room; `reorder` keeps what it
holds before the call. -/
def reqListInit (g : Answers) (reorder : Option (List Nat)) (cmpfnc : Option Comparison)
    (allowDupes allowReorder : Bool) (suffix : Byte) : ReqList :=
  let rli : ReqList :=
    { cmpfnc, allowDupes, allowReorder, suffix, entries := [], lengths := [], allocEntries := 0
      reorder, address := 0, chars := [], curChars := 0 }
  match g.entries, g.chars, g.lengths with
  | true, some (address, fresh), true =>
      { rli with
        allocEntries := defEntriesAllocSize
        address := address
        chars := (List.range defCharsAllocSize).map fresh }
  | _, _, _ => rli

namespace ReqList

/-- The index in `chars` of what a pointer points to. -/
def offset (rl : ReqList) (p : Int) : Nat := (p - rl.address).toNat

/-- The string at a pointer, without its terminator. -/
def stringAt (rl : ReqList) (p : Int) : List Byte :=
  (rl.chars.drop (rl.offset p)).takeWhile (· != 0)

/-- The byte at a pointer. -/
def byteAt (rl : ReqList) (p : Int) : Byte := rl.chars.getD (rl.offset p) 0

/-- The strings of the entries. -/
def strings (rl : ReqList) : List (List Byte) := rl.entries.map rl.stringAt

/-- The suffix that is stored for an entry. -/
def mark (rl : ReqList) (suffix : Bool) : List Byte :=
  if rl.suffix ≠ 0 ∧ suffix then [rl.suffix] else []

/-- `lentot` of `req_list_add` -/
def lentot (rl : ReqList) (str : List Byte) (suffix : Bool) : Nat :=
  str.length + if rl.suffix ≠ 0 ∧ suffix then 3 else 2

end ReqList

/-- The search of `req_list_add`: `l`, `m` and `r` when its loop ends. `m` is negative if the
comparison has found the string. There are never more turns than entries. -/
def searchLoop (cmp : Nat → Ordering) : Nat → Int → Int → Int → Int × Int × Int
  | 0, l, m, r => (l, m, r)
  | turns + 1, l, m, r =>
      if l ≤ r then
        let m := (r + l) / 2
        match cmp m.toNat with
        | .lt => searchLoop cmp turns l m (m - 1)
        | .gt => searchLoop cmp turns (m + 1) m r
        | .eq => (l, -m - 1, r)
      else (l, m, r)

/-- What the first part of `req_list_add` finds: the entry that the string is in conflict
with, or `ins`. -/
inductive Place where
  | conflict (n : Nat)
  | slot (ins : Nat)
deriving DecidableEq

/-- The decision after the search, which ends with `l`, `m` and `r` -/
def placeOf (rla : ReqList) : Int × Int × Int → Place
  | (l, m, r) =>
      if m < 0 then
        if !rla.allowDupes then .conflict (-m - 1).toNat else .slot (-m).toNat
      else if r < m then .slot m.toNat
      else if m < l then .slot (m + 1).toNat
      else .slot rla.entries.length

/-- The first part of `req_list_add` -/
def place (rla : ReqList) (str : List Byte) : Place :=
  let n := rla.entries.length
  match rla.cmpfnc with
  | some cmpfnc =>
      placeOf rla (searchLoop (fun m => cmpfnc str (rla.stringAt (rla.entries.getD m 0))) n 0 0
        (n - 1))
  | none =>
      if rla.allowDupes then .slot n
      else
        match rla.entries.findIdx? fun p => strcmp (rla.stringAt p) str = .eq with
        | some i => .conflict i
        | none => .slot n

/-- Space for the new string. There is none if the memory is refused. -/
def growChars (g : Answers) (rla : ReqList) (lentot : Nat) : Option ReqList :=
  if rla.chars.length < rla.curChars + lentot then
    g.chars.map fun (p1, fresh) =>
      { rla with
        chars := resize rla.chars (rla.chars.length * 2 + lentot) fresh
        address := p1
        entries := rla.entries.map (· + (p1 - rla.address)) }
  else some rla

/-- Slots for the pointer and the length. If only the table of lengths is refused, that of the
entries is made smaller again, or is taken for smaller than it is. -/
def growEntries (g : Answers) (rla : ReqList) : Option ReqList :=
  if rla.allocEntries ≤ rla.entries.length then
    if g.entries && g.lengths then some { rla with allocEntries := rla.allocEntries * 2 + 1 }
    else none
  else some rla

/-- The last part of `req_list_add`: the new entry. -/
def putEntry (rla : ReqList) (str : List Byte) (suffix : Bool) (ins : Nat) : ReqList :=
  { rla with
    chars := overwrite rla.chars rla.curChars (str ++ [0] ++ rla.mark suffix ++ [0])
    curChars := rla.curChars + rla.lentot str suffix
    entries := rla.entries.insertIdx ins (rla.address + rla.curChars)
    lengths := rla.lengths.insertIdx ins (rla.lentot str suffix) }

/-- `req_list_add`: what it returns, which may be `NULL`, and the new list. -/
def reqListAdd (g : Answers) (rla : ReqList) (str : List Byte) (suffix : Bool) :
    Option Int × ReqList :=
  match place rla str with
  | .conflict n => (rla.entries[n]?, rla)
  | .slot ins =>
      match growChars g rla (rla.lentot str suffix) with
      | none => (none, rla)
      | some rla =>
          match growEntries g rla with
          | none => (none, rla)
          | some rla => (some (rla.address + rla.curChars), putEntry rla str suffix ins)

/-- `ERROR` -/
def ERROR : Int := -1

/-- The length that `req_list_del` finds for the entry at a pointer. -/
def delLength (rld : ReqList) (str : Int) : Nat :=
  let len := (rld.stringAt str).length
  len + if rld.byteAt (str + len + 1) ≠ 0 then 3 else 2

/-- The loop over `reorder` of `req_list_del` -/
def dropReorder (reorder : List Nat) (nth : Nat) : List Nat :=
  let val := reorder.getD nth 0
  (reorder.eraseIdx nth).map fun v => if v < val then v else v - 1

/-- `req_list_del`: what it returns, and the new list. -/
def reqListDel (rld : ReqList) (nth : Int) : Int × ReqList :=
  if nth < 0 ∨ rld.entries.length ≤ nth then (ERROR, rld)
  else
    let str := rld.entries.getD nth.toNat 0
    let len := delLength rld str
    (len,
      { rld with
        chars := compact rld.chars (rld.offset str) len
        curChars := rld.curChars - len
        entries := (rld.entries.map fun p => if str ≤ p then p - len else p).eraseIdx nth.toNat
        lengths := rld.lengths.eraseIdx nth.toNat
        reorder := rld.reorder.map (dropReorder · nth.toNat) })

/-- A turn of the first loop of `req_list_finalize` -/
def finalizeEntry (rlf : ReqList) (p : Int) : ReqList :=
  let len := (rlf.stringAt p).length
  let chars := overwrite rlf.chars (rlf.offset (p + len)) [rlf.byteAt (p + len + 1)]
  { rlf with chars := overwrite chars (rlf.offset (p + len + 1)) [0] }

/-- `req_list_finalize`, and whether the memory for `reorder` is granted -/
def reqListFinalize (granted : Bool) (rlf : ReqList) : ReqList :=
  let rlf := rlf.entries.foldl finalizeEntry rlf
  if rlf.allowReorder then
    if granted then { rlf with reorder := some (List.range rlf.entries.length) }
    else { rlf with reorder := none, allowReorder := false }
  else { rlf with reorder := none }

/-- The completer's sort, which makes a table of the same pointers in the order of
`strdictcmp`. -/
def Sorts (lower : Byte → Byte) (rl : ReqList) (entries : List Int) : Prop :=
  entries.Perm rl.entries ∧ Ascending (strdictcmp lower) (entries.map rl.stringAt)

/-- The list after that sort: the table of lengths is not sorted with the pointers. -/
def sortEntries (rl : ReqList) (entries : List Int) : ReqList := { rl with entries := entries }

/-- The users of these lists: `request_files`, `request_syntax`, `request_document` and
`autocomplete`, the last with `case_search`. -/
inductive Requester where
  | files
  | syntaxes
  | documents
  | completer (caseSearch : Bool)
deriving DecidableEq

namespace Requester

def cmpfnc (lower : Byte → Byte) : Requester → Option Comparison
  | .files => some (filenamecmp lower)
  | .syntaxes => some (filenamecmp lower)
  | .documents => none
  | .completer caseSearch => some (if caseSearch then strcmp else strdictcmp lower)

/-- The call of `req_list_init` -/
def init (lower : Byte → Byte) (g : Answers) (reorder : Option (List Nat)) : Requester → ReqList
  | .files => reqListInit g reorder (cmpfnc lower .files) true false 47
  | .syntaxes => reqListInit g reorder (cmpfnc lower .syntaxes) false false 42
  | .documents => reqListInit g reorder (cmpfnc lower .documents) true true 42
  | .completer caseSearch =>
      reqListInit g reorder (cmpfnc lower (.completer caseSearch)) false false 42

/-- The strings that it adds: there is no terminator in a string, and no slash in the name of
a file. -/
def Supplies : Requester → List Byte → Prop
  | .files, str => 0 ∉ str ∧ 47 ∉ str
  | .syntaxes, str => 0 ∉ str ∧ 47 ∉ str
  | .documents, str => 0 ∉ str
  | .completer _, str => 0 ∉ str

end Requester

end NiceEditor.ReqLists
