import NiceEditor.RegexScans

namespace NiceEditor.RegexBounds

open NiceEditor.Pools
open NiceEditor.Encoding
open NiceEditor.RegexScans

/-- The number of bytes of a list that are skipped before it is scanned: a `^` and
a literal `]`. -/
def listStart (rest : List Byte) : Nat :=
  let start := if rest.head? = some caret then 1 else 0
  if rest[start]? = some closeBracket then start + 1 else start

/-- The bytes of a list that are scanned, and what follows it. -/
def listBody (rest : List Byte) : List Byte := rest.drop (listStart rest)

/-- The scan comes to a list that is never closed and has US-ASCII characters only, and has
not met another character in a list before. -/
inductive Unclosed : List Byte → Prop where
  | here (rest : List Byte) (hbody : ∀ c ∈ listBody rest, c < 0x80 ∧ c ≠ closeBracket) :
      Unclosed (openBracket :: rest)
  | list (rest list after : List Byte) (hbody : listBody rest = list ++ closeBracket :: after)
      (hlist : ∀ c ∈ list, c < 0x80 ∧ c ≠ closeBracket) (h : Unclosed after) :
      Unclosed (openBracket :: rest)
  | char (c : Byte) (rest : List Byte) (hbracket : c ≠ openBracket) (hslash : c ≠ backslash)
      (h : Unclosed rest) : Unclosed (c :: rest)
  | escaped (c : Byte) (rest : List Byte) (h : Unclosed rest) : Unclosed (backslash :: c :: rest)

/-- Both scans end without reading behind the NUL, and the second one writes no more bytes
than the size that has been computed from the first one. -/
def StaysInBounds (regex : List Byte) : Prop :=
  ((∃ st, countScan regex = .done st) ∨ countScan regex = .refused) ∧
    ∀ mapGroup, ∃ w, rewriteScan mapGroup regex = .done w ∧
      ∀ st, countScan regex = .done st → w.q.high ≤ actualSize regex st

variable {c x bad : Byte} {t rest list after body : List Byte} {q q' : Output} {st : Counting}

@[simp] theorem charAt_cons (c : Byte) (s : List Byte) : charAt (c :: s) = .done c := rfl

@[simp] theorem done_bind {α β : Type} (a : α) (f : α → Scan β) : (Scan.done a >>= f) = f a := rfl

@[simp] theorem refused_bind {α β : Type} (f : α → Scan β) :
    ((Scan.refused : Scan α) >>= f) = .refused := rfl

@[simp] theorem pure_eq {α : Type} (a : α) : (pure a : Scan α) = .done a := rfl

theorem bind_bind {α β γ : Type} (a : Scan α) (f : α → Scan β) (g : β → Scan γ) :
    (a.bind f).bind g = a.bind fun x => (f x).bind g := by
  cases a with
  | done a => rfl
  | refused => rfl
  | passedEnd => rfl
  | running => rfl

theorem utf8len_ascii (hc : c < 0x80) : utf8len c = 1 := by
  rw [utf8len, if_pos hc]

theorem utf8len_ne (hc : ¬ c < 0x80) : utf8len c ≠ 1 := by
  rw [utf8len, if_neg hc]
  split_ifs <;> decide

theorem scanList_skip (hlist : ∀ c ∈ list, c < 0x80 ∧ c ≠ closeBracket) (hnul : 0 ∉ list) :
    scanList (x :: (list ++ t)) = scanList (x :: t) := by
  induction list generalizing x with
  | nil => rfl
  | cons c list ih =>
      obtain ⟨hascii, hclose⟩ := hlist c List.mem_cons_self
      have hzero : c ≠ 0 := fun h => hnul (h ▸ List.mem_cons_self)
      have hrest := ih (x := c) (fun d hd => hlist d (List.mem_cons_of_mem _ hd))
        fun h => hnul (List.mem_cons_of_mem _ h)
      have hhead : scanList (c :: t) = scanList (x :: t) := by rw [scanList, scanList]
      rw [← hhead, ← hrest, List.cons_append, scanList]
      simp [utf8len_ascii hascii, hzero, hclose]

theorem scanList_closed :
    scanList (x :: closeBracket :: after) = .done (closeBracket :: after) := by
  simp [scanList, utf8len_ascii (c := closeBracket) (by decide)]

theorem scanList_open : scanList [x, 0] = .done [0] := by
  simp [scanList, utf8len_ascii (c := 0) (by decide)]

theorem scanList_refused (hbad : ¬ bad < 0x80) : scanList (x :: bad :: after) = .refused := by
  simp [scanList, utf8len_ne hbad]

theorem cases_body (body : List Byte) :
    (∀ c ∈ body, c < 0x80 ∧ c ≠ closeBracket) ∨
    (∃ list after, body = list ++ closeBracket :: after ∧
      ∀ c ∈ list, c < 0x80 ∧ c ≠ closeBracket) ∨
    (∃ list bad after, body = list ++ bad :: after ∧ ¬ bad < 0x80 ∧
      ∀ c ∈ list, c < 0x80 ∧ c ≠ closeBracket) := by
  induction body with
  | nil => exact Or.inl (by simp)
  | cons c body ih =>
      by_cases hclose : c = closeBracket
      · exact Or.inr (Or.inl ⟨[], body, by rw [hclose]; rfl, by simp⟩)
      by_cases hascii : c < 0x80
      · rcases ih with hall | ⟨list, after, rfl, hlist⟩ | ⟨list, bad, after, rfl, hbad, hlist⟩
        · exact Or.inl (List.forall_mem_cons.mpr ⟨⟨hascii, hclose⟩, hall⟩)
        · exact Or.inr (Or.inl ⟨c :: list, after, rfl,
            List.forall_mem_cons.mpr ⟨⟨hascii, hclose⟩, hlist⟩⟩)
        · exact Or.inr (Or.inr ⟨c :: list, bad, after, rfl, hbad,
            List.forall_mem_cons.mpr ⟨⟨hascii, hclose⟩, hlist⟩⟩)
      · exact Or.inr (Or.inr ⟨[], c, body, rfl, hascii, by simp⟩)

/-- Bytes written one by one. -/
def putAll (q : Output) : List Byte → Output
  | [] => q
  | c :: bytes => putAll (q.put c) bytes

theorem copyList_skip (hlist : closeBracket ∉ list) (hnul : 0 ∉ list) :
    copyList (x :: (list ++ t)) q = copyList (x :: t) (putAll q list) := by
  induction list generalizing x q with
  | nil => rfl
  | cons c list ih =>
      have hclose : c ≠ closeBracket := fun h => hlist (h ▸ List.mem_cons_self)
      have hzero : c ≠ 0 := fun h => hnul (h ▸ List.mem_cons_self)
      have hrest := ih (x := c) (q := q.put c) (fun h => hlist (List.mem_cons_of_mem _ h))
        fun h => hnul (List.mem_cons_of_mem _ h)
      have hhead : copyList (c :: t) (putAll q (c :: list)) =
          copyList (x :: t) (putAll q (c :: list)) := by rw [copyList, copyList]
      rw [← hhead, putAll, ← hrest, List.cons_append, copyList]
      simp [hzero, hclose]

theorem copyList_closed : copyList (x :: closeBracket :: after) q =
    .done (closeBracket :: after, q.put closeBracket) := by
  simp [copyList]

theorem copyList_open : copyList [x, 0] q = .done ([0], q.put 0) := by
  simp [copyList]

/-- `k` bytes have been written, and the byte behind them at most. -/
structure Grows (q q' : Output) (k : Nat) : Prop where
  length : q'.written.length = q.written.length + k
  high : q'.high ≤ max q.high (q.written.length + k + 1)

theorem Grows.trans {k m : Nat} {q'' : Output} (first : Grows q q' k) (second : Grows q' q'' m) :
    Grows q q'' (k + m) where
  length := by rw [second.length, first.length, Nat.add_assoc]
  high := by
    have h₁ := first.high
    have h₂ := second.high
    rw [first.length] at h₂
    omega

theorem grows_put (q : Output) (c : Byte) : Grows q (q.put c) 1 where
  length := by simp [Output.put]
  high := by
    simp only [Output.put]
    omega

theorem grows_putString (q : Output) (string : List Byte) :
    Grows q (q.putString string) string.length where
  length := by simp [Output.putString]
  high := by simp [Output.putString]

theorem grows_putAll (q : Output) (bytes : List Byte) : Grows q (putAll q bytes) bytes.length := by
  induction bytes generalizing q with
  | nil => exact ⟨rfl, by simp [putAll]⟩
  | cons c bytes ih =>
      rw [List.length_cons, Nat.add_comm]
      exact (grows_put q c).trans (ih (q.put c))

theorem grows_back (q : Output) (string : List Byte) :
    Grows q ((q.put backslash).back.putString string) string.length where
  length := by simp [Output.put, Output.back, Output.putString]
  high := by
    simp only [Output.put, Output.back, Output.putString, List.dropLast_concat]
    omega

/-- The bytes that `find_regexp` adds for what has been counted. -/
def added (st : Counting) : Nat :=
  (utf8Dot.length - 1) * st.dots + (utf8NonWord.length - 2) * st.nonwords +
    (utf8Comp.length - 1) * st.comps

/-- What the two scans do with `t` when the first one has added `n` bytes before and the second
one has written `q`. -/
def Agree (t : List Byte) (n : Nat) (q : Output) (counted : Scan Counting)
    (rewritten : Scan Rewriting) : Prop :=
  ∃ w, rewritten = .done w ∧
    (counted = .refused ∨ (Unclosed t ∧ counted = .passedEnd) ∨
      ∃ st k, counted = .done st ∧ added st = n + k ∧
        w.q.high ≤ max q.high (q.written.length + t.length + k + 1))

theorem Agree.extend {token : List Byte} {n k : Nat} {counted : Scan Counting}
    {rewritten : Scan Rewriting} (h : Agree t (n + k) q' counted rewritten)
    (hgrows : Grows q q' (token.length + k)) (hunclosed : Unclosed t → Unclosed (token ++ t)) :
    Agree (token ++ t) n q counted rewritten := by
  obtain ⟨w, hdone, hrefused | ⟨hopen, hpassed⟩ | ⟨st, m, hcount, hadded, hhigh⟩⟩ := h
  · exact ⟨w, hdone, Or.inl hrefused⟩
  · exact ⟨w, hdone, Or.inr (Or.inl ⟨hunclosed hopen, hpassed⟩)⟩
  · refine ⟨w, hdone, Or.inr (Or.inr ⟨st, k + m, hcount, by omega, ?_⟩)⟩
    have hgrown := hgrows.high
    rw [hgrows.length] at hhigh
    rw [List.length_append]
    omega

/-- The end of a turn of the counting loop. -/
def countNext (turns : Nat) (st : Counting) : Scan Counting := do
  let c ← charAt st.s.tail
  if c = 0 then return { st with s := st.s.tail }
  else countLoop turns { st with s := st.s.tail }

theorem countLoop_succ (turns : Nat) (st : Counting) :
    countLoop (turns + 1) st = (countChar st).bind (countNext turns) := rfl

/-- The end of a turn of the rewriting loop. -/
def rewriteNext (turns : Nat) (st : Rewriting) : Scan Rewriting := do
  let c ← charAt st.s
  if c = 0 then return { st with s := st.s.tail }
  else rewriteLoop turns { st with s := st.s.tail }

theorem rewriteLoop_succ (turns : Nat) (st : Rewriting) :
    rewriteLoop (turns + 1) st = (rewriteChar st).bind (rewriteNext turns) := rfl

variable {s : List Byte} {turns turns' dots comps nonwords vg rg : Nat} {mg : Nat → Nat}
variable {escape : Bool}

theorem countNext_nul :
    countNext turns ⟨[x, 0], escape, dots, comps, nonwords⟩ =
      .done ⟨[0], escape, dots, comps, nonwords⟩ := by
  simp [countNext]

theorem countNext_cons (hc : c ≠ 0) :
    countNext turns ⟨x :: c :: s, escape, dots, comps, nonwords⟩ =
      countLoop turns ⟨c :: s, escape, dots, comps, nonwords⟩ := by
  simp [countNext, hc]

theorem rewriteNext_nul :
    rewriteNext turns ⟨[0], escape, q, vg, rg, mg⟩ = .done ⟨[], escape, q, vg, rg, mg⟩ := by
  simp [rewriteNext]

theorem rewriteNext_cons (hc : c ≠ 0) :
    rewriteNext turns ⟨c :: s, escape, q, vg, rg, mg⟩ =
      rewriteLoop turns ⟨s, escape, q, vg, rg, mg⟩ := by
  simp [rewriteNext, hc]

theorem countChar_plain (hbracket : c ≠ openBracket) (hslash : c ≠ backslash) :
    countChar ⟨c :: s, false, dots, comps, nonwords⟩ =
      .done ⟨c :: s, false, if c = dot then dots + 1 else dots, comps, nonwords⟩ := by
  by_cases hdot : c = dot
  · simp [countChar, hdot]
  · simp [countChar, hdot, hbracket, hslash]

theorem countChar_slash :
    countChar ⟨backslash :: s, false, dots, comps, nonwords⟩ =
      .done ⟨backslash :: s, true, dots, comps, nonwords⟩ := by
  have hdot : backslash ≠ dot := by decide
  have hbracket : backslash ≠ openBracket := by decide
  simp [countChar, hdot, hbracket]

theorem countChar_escaped :
    countChar ⟨c :: s, true, dots, comps, nonwords⟩ =
      .done ⟨c :: s, false, dots, comps, if c = capitalW then nonwords + 1 else nonwords⟩ := by
  simp [countChar]

theorem rewriteChar_plain (hbracket : c ≠ openBracket) (hslash : c ≠ backslash) :
    ∃ vg' rg' mg', rewriteChar ⟨c :: s, false, q, vg, rg, mg⟩ =
      .done ⟨c :: s, false, if c = dot then q.putString utf8Dot else q.put c, vg', rg', mg'⟩ := by
  by_cases hdot : c = dot
  · have hslashDot : dot ≠ backslash := by decide
    exact ⟨vg, rg + 1, mg, by simp [rewriteChar, hdot, hslashDot]⟩
  by_cases hopen : c = openParen
  · have hparenDot : openParen ≠ dot := by decide
    have hparenSlash : openParen ≠ backslash := by decide
    by_cases hgroups : vg < reNRegs - 1
    · exact ⟨vg + 1, rg + 1, Function.update mg (vg + 1) (rg + 1), by
        simp [rewriteChar, hopen, hparenDot, hparenSlash, hgroups]⟩
    · exact ⟨vg, rg, mg, by simp [rewriteChar, hopen, hparenDot, hparenSlash, hgroups]⟩
  · exact ⟨vg, rg, mg, by simp [rewriteChar, hdot, hopen, hbracket, hslash]⟩

theorem rewriteChar_slash :
    rewriteChar ⟨backslash :: s, false, q, vg, rg, mg⟩ =
      .done ⟨backslash :: s, true, q.put backslash, vg, rg, mg⟩ := by
  simp [rewriteChar]

theorem rewriteChar_escaped :
    ∃ rg', rewriteChar ⟨c :: s, true, q, vg, rg, mg⟩ =
      .done ⟨c :: s, false, if c = capitalW then q.back.putString utf8NonWord else q.put c, vg,
        rg', mg⟩ := by
  by_cases hword : c = capitalW
  · exact ⟨rg + 1, by simp [rewriteChar, hword]⟩
  · exact ⟨rg, by simp [rewriteChar, hword]⟩

theorem head_ne {d : Byte} (h : rest.head? ≠ some d) (hd : d ≠ 0) :
    ∃ y s, rest ++ [0] = y :: s ∧ y ≠ d := by
  cases rest with
  | nil => exact ⟨0, [], rfl, hd.symm⟩
  | cons y rest => exact ⟨y, rest ++ [0], rfl, fun h' => h (h' ▸ rfl)⟩

theorem cases_rest (rest : List Byte) :
    (∃ y s, rest ++ [0] = y :: s ∧ y ≠ caret ∧ y ≠ closeBracket ∧ rest.head? ≠ some caret ∧
      listBody rest = rest) ∨
    (∃ body, rest = closeBracket :: body ∧ listBody rest = body) ∨
    (∃ y s body, rest = caret :: body ∧ body ++ [0] = y :: s ∧ y ≠ closeBracket ∧
      listBody rest = body) ∨
    (∃ body, rest = caret :: closeBracket :: body ∧ listBody rest = body) := by
  have hdistinct : closeBracket ≠ caret := by decide
  rcases rest with _ | ⟨c, rest⟩
  · exact Or.inl ⟨0, [], rfl, by decide, by decide, by simp, rfl⟩
  by_cases hcomp : c = caret
  · subst hcomp
    by_cases hliteral : rest.head? = some closeBracket
    · obtain ⟨body, rfl⟩ := List.head?_eq_some_iff.mp hliteral
      exact Or.inr (Or.inr (Or.inr ⟨body, rfl, by simp [listBody, listStart]⟩))
    · obtain ⟨y, s, hs, hy⟩ := head_ne hliteral (by decide)
      refine Or.inr (Or.inr (Or.inl ⟨y, s, rest, rfl, hs, hy, ?_⟩))
      rw [List.head?_eq_getElem?] at hliteral
      simp [listBody, listStart, hliteral]
  by_cases hliteral : c = closeBracket
  · subst hliteral
    exact Or.inr (Or.inl ⟨rest, rfl, by simp [listBody, listStart, hdistinct]⟩)
  · exact Or.inl ⟨c, rest ++ [0], rfl, hcomp, hliteral, by simp [hcomp],
      by simp [listBody, listStart, hcomp, hliteral]⟩

theorem countChar_bracket (rest : List Byte) :
    ∃ x, countChar ⟨openBracket :: (rest ++ [0]), false, dots, comps, nonwords⟩ =
      (scanList (x :: (listBody rest ++ [0]))).bind fun s =>
        .done ⟨s, false, dots, if rest.head? = some caret then comps + 1 else comps, nonwords⟩ := by
  have hdot : openBracket ≠ dot := by decide
  have hdistinct : closeBracket ≠ caret := by decide
  rcases cases_rest rest with ⟨y, s, hs, hcaret, hclose, hhead, hbody⟩ | ⟨body, rfl, hbody⟩ |
      ⟨y, s, body, rfl, hs, hclose, hbody⟩ | ⟨body, rfl, hbody⟩
  · refine ⟨openBracket, ?_⟩
    rw [hbody, hs, if_neg hhead]
    simp [countChar, hdot, hcaret, hclose]
    rfl
  · refine ⟨closeBracket, ?_⟩
    rw [hbody]
    simp [countChar, hdot, hdistinct]
    rfl
  · refine ⟨caret, ?_⟩
    rw [hbody, List.cons_append, hs]
    simp [countChar, hdot, hclose]
    rfl
  · refine ⟨closeBracket, ?_⟩
    rw [hbody]
    simp [countChar, hdot]
    rfl

/-- What has been written when the copy of a list begins. -/
def opened (q : Output) (rest : List Byte) : Output :=
  let q := if rest.head? = some caret then q.putString utf8Comp else q.put openBracket
  if rest[if rest.head? = some caret then 1 else 0]? = some closeBracket then q.put closeBracket
  else q

/-- What has been written when a list has been copied up to `s`. -/
def closed (q : Output) (rest s : List Byte) : Scan Output :=
  if rest.head? = some caret then
    (charAt s).bind fun c => .done (if c ≠ 0 then q.put closeParen else q)
  else .done q

theorem rewriteChar_bracket (rest : List Byte) :
    ∃ x rg', rewriteChar ⟨openBracket :: (rest ++ [0]), false, q, vg, rg, mg⟩ =
      (copyList (x :: (listBody rest ++ [0])) (opened q rest)).bind fun sq =>
        (closed sq.2 rest sq.1).bind fun q => .done ⟨sq.1, false, q, vg, rg', mg⟩ := by
  have hdot : openBracket ≠ dot := by decide
  have hparen : openBracket ≠ openParen := by decide
  have hslash : openBracket ≠ backslash := by decide
  have hdistinct : closeBracket ≠ caret := by decide
  rcases cases_rest rest with ⟨y, s, hs, hcaret, hclose, hhead, hbody⟩ | ⟨body, rfl, hbody⟩ |
      ⟨y, s, body, rfl, hs, hclose, hbody⟩ | ⟨body, rfl, hbody⟩
  · refine ⟨openBracket, rg, ?_⟩
    have hnone : rest.head? ≠ some closeBracket := by
      intro h
      obtain ⟨r, rfl⟩ := List.head?_eq_some_iff.mp h
      exact hclose (List.cons.inj hs).1.symm
    rw [List.head?_eq_getElem?] at hnone
    rw [hbody, hs]
    simp [rewriteChar, rewriteList, opened, closed, hdot, hparen, hslash, hhead, hnone, hcaret,
      hclose]
    rfl
  · refine ⟨closeBracket, rg, ?_⟩
    rw [hbody]
    simp [rewriteChar, rewriteList, opened, closed, hdot, hparen, hslash, hdistinct]
    rfl
  · refine ⟨caret, rg + 1, ?_⟩
    have hnone : body[0]? ≠ some closeBracket := by
      intro h
      rw [← List.head?_eq_getElem?] at h
      obtain ⟨r, rfl⟩ := List.head?_eq_some_iff.mp h
      exact hclose (List.cons.inj hs).1.symm
    rw [hbody, List.cons_append, hs]
    simp [rewriteChar, rewriteComp, opened, closed, bind_bind, hdot, hparen, hslash, hclose, hnone]
    rfl
  · refine ⟨closeBracket, rg + 1, ?_⟩
    rw [hbody]
    simp [rewriteChar, rewriteComp, opened, closed, bind_bind, hdot, hparen, hslash]
    rfl

theorem grows_opened (q : Output) (rest : List Byte) :
    Grows q (opened q rest) (1 + listStart rest +
      if rest.head? = some caret then utf8Comp.length - 2 else 0) := by
  unfold opened listStart
  by_cases hcomp : rest.head? = some caret
  · simp only [if_pos hcomp]
    split
    · exact (grows_putString q utf8Comp).trans (grows_put _ closeBracket)
    · exact grows_putString q utf8Comp
  · simp only [if_neg hcomp]
    split
    · exact (grows_put q openBracket).trans (grows_put _ closeBracket)
    · exact grows_put q openBracket

theorem rewriteChar_closed (hbody : listBody rest = list ++ closeBracket :: after)
    (hlist : closeBracket ∉ list) (hnul : 0 ∉ list) :
    ∃ q' rg', rewriteChar ⟨openBracket :: (rest ++ [0]), false, q, vg, rg, mg⟩ =
        .done ⟨closeBracket :: (after ++ [0]), false, q', vg, rg', mg⟩ ∧
      Grows q q' (1 + listStart rest + list.length + 1 +
        if rest.head? = some caret then utf8Comp.length - 1 else 0) := by
  obtain ⟨x, rg', h⟩ := (@rewriteChar_bracket q vg rg mg) rest
  rw [hbody, List.append_assoc, List.cons_append, copyList_skip hlist hnul, copyList_closed] at h
  have hcopied := ((grows_opened q rest).trans (grows_putAll _ list)).trans
    (grows_put _ closeBracket)
  have hclose : closeBracket ≠ 0 := by decide
  set copied := (putAll (opened q rest) list).put closeBracket
  by_cases hcomp : rest.head? = some caret
  · have hgrows := hcopied.trans (grows_put copied closeParen)
    refine ⟨copied.put closeParen, rg', ?_, ?_⟩
    · rw [h]
      simp [Scan.bind, closed, hcomp, hclose]
    · rw [if_pos hcomp] at hgrows ⊢
      convert hgrows using 1
      have hlength : utf8Comp.length = 15 := rfl
      omega
  · refine ⟨copied, rg', ?_, ?_⟩
    · rw [h]
      simp [Scan.bind, closed, hcomp]
    · rw [if_neg hcomp] at hcopied ⊢
      convert hcopied using 1
      omega

theorem rewriteChar_open (hbody : closeBracket ∉ listBody rest) (hnul : 0 ∉ listBody rest) :
    ∃ q' rg', rewriteChar ⟨openBracket :: (rest ++ [0]), false, q, vg, rg, mg⟩ =
      .done ⟨[0], false, q', vg, rg', mg⟩ := by
  obtain ⟨x, rg', h⟩ := (@rewriteChar_bracket q vg rg mg) rest
  rw [copyList_skip hbody hnul, copyList_open] at h
  refine ⟨(putAll (opened q rest) (listBody rest)).put 0, rg', h.trans ?_⟩
  by_cases hcomp : rest.head? = some caret
  · simp [Scan.bind, closed, hcomp]
  · simp [Scan.bind, closed, hcomp]

theorem listStart_le (rest : List Byte) : listStart rest ≤ rest.length := by
  rcases cases_rest rest with ⟨y, s, hs, hcaret, hclose, hhead, hbody⟩ | ⟨body, rfl, hbody⟩ |
      ⟨y, s, body, rfl, hs, hclose, hbody⟩ | ⟨body, rfl, hbody⟩
  all_goals
    by_contra hlt
    rw [listBody, List.drop_eq_nil_of_le (by omega)] at hbody
    subst hbody
    revert hlt
    decide

/-- The two scans agree on what is left of the regular expression, wherever they are. -/
def ScansAgree (t : List Byte) : Prop :=
  ∀ (x : Byte) (dots comps nonwords : Nat) (q : Output) (vg rg : Nat) (mg : Nat → Nat)
    (turns turns' : Nat), t.length ≤ turns → t.length < turns' →
      Agree t (added ⟨[], false, dots, comps, nonwords⟩) q
        (countNext turns ⟨x :: (t ++ [0]), false, dots, comps, nonwords⟩)
        (rewriteLoop turns' ⟨t ++ [0], false, q, vg, rg, mg⟩)

theorem scansAgree_nil : ScansAgree [] := by
  intro x dots comps nonwords q vg rg mg turns turns' hturns hturns'
  obtain ⟨turns', rfl⟩ := Nat.exists_eq_add_of_lt hturns'
  obtain ⟨vg', rg', mg', hrewrite⟩ := (@rewriteChar_plain 0 q [] vg rg mg) (by decide) (by decide)
  have hdot : (0 : Byte) ≠ dot := by decide
  rw [if_neg hdot] at hrewrite
  rw [List.nil_append, countNext_nul, rewriteLoop_succ, hrewrite]
  refine ⟨_, rewriteNext_nul, Or.inr (Or.inr ⟨_, 0, rfl, rfl, ?_⟩)⟩
  simp [Output.put]

theorem scansAgree_plain (hc : c ≠ 0) (hbracket : c ≠ openBracket) (hslash : c ≠ backslash)
    (h : ScansAgree rest) : ScansAgree (c :: rest) := by
  intro x dots comps nonwords q vg rg mg turns turns' hturns hturns'
  rw [List.length_cons] at hturns hturns'
  obtain ⟨turns, rfl⟩ : ∃ k, turns = k + 1 := ⟨turns - 1, by omega⟩
  obtain ⟨turns', rfl⟩ : ∃ k, turns' = k + 1 := ⟨turns' - 1, by omega⟩
  obtain ⟨vg', rg', mg', hrewrite⟩ :=
    (@rewriteChar_plain _ q (rest ++ [0]) vg rg mg) hbracket hslash
  rw [List.cons_append, countNext_cons hc, countLoop_succ, countChar_plain hbracket hslash,
    rewriteLoop_succ, hrewrite]
  simp only [Scan.bind]
  rw [rewriteNext_cons hc]
  have hrest := h c (if c = dot then dots + 1 else dots) comps nonwords
    (if c = dot then q.putString utf8Dot else q.put c) vg' rg' mg' turns turns' (by omega)
    (by omega)
  have hunclosed : Unclosed rest → Unclosed ([c] ++ rest) := Unclosed.char c rest hbracket hslash
  refine (@Agree.extend _ _ (if c = dot then q.putString utf8Dot else q.put c) [c])
    (k := if c = dot then utf8Dot.length - 1 else 0) ?_ ?_ hunclosed
  · convert hrest using 1
    simp only [added]
    split
    · ring
    · rfl
  · split
    · exact grows_putString q utf8Dot
    · exact grows_put q c

theorem scansAgree_slash : ScansAgree [backslash] := by
  intro x dots comps nonwords q vg rg mg turns turns' hturns hturns'
  rw [List.length_singleton] at hturns hturns'
  obtain ⟨turns, rfl⟩ : ∃ k, turns = k + 1 := ⟨turns - 1, by omega⟩
  obtain ⟨turns', rfl⟩ : ∃ k, turns' = k + 2 := ⟨turns' - 2, by omega⟩
  have hslash : backslash ≠ 0 := by decide
  have hword : (0 : Byte) ≠ capitalW := by decide
  rw [List.singleton_append, countNext_cons hslash, countLoop_succ, countChar_slash,
    rewriteLoop_succ, rewriteChar_slash]
  simp only [Scan.bind]
  obtain ⟨rg', hrewrite⟩ := (@rewriteChar_escaped 0 (q.put backslash) [] vg rg mg)
  rw [if_neg hword] at hrewrite
  rw [countNext_nul, rewriteNext_cons hslash, rewriteLoop_succ, hrewrite]
  refine ⟨_, rewriteNext_nul, Or.inr (Or.inr ⟨_, 0, rfl, rfl, ?_⟩)⟩
  simp only [Output.put, List.length_append, List.length_singleton]
  omega

theorem scansAgree_escaped (hc : c ≠ 0) (h : ScansAgree rest) :
    ScansAgree (backslash :: c :: rest) := by
  intro x dots comps nonwords q vg rg mg turns turns' hturns hturns'
  rw [List.length_cons, List.length_cons] at hturns hturns'
  obtain ⟨turns, rfl⟩ : ∃ k, turns = k + 2 := ⟨turns - 2, by omega⟩
  obtain ⟨turns', rfl⟩ : ∃ k, turns' = k + 2 := ⟨turns' - 2, by omega⟩
  have hslash : backslash ≠ 0 := by decide
  rw [List.cons_append, List.cons_append, countNext_cons hslash, countLoop_succ, countChar_slash,
    rewriteLoop_succ, rewriteChar_slash]
  simp only [Scan.bind]
  obtain ⟨rg', hrewrite⟩ := (@rewriteChar_escaped c (q.put backslash) (rest ++ [0]) vg rg mg)
  rw [countNext_cons hc, countLoop_succ, countChar_escaped, rewriteNext_cons hslash,
    rewriteLoop_succ, hrewrite]
  simp only [Scan.bind]
  rw [rewriteNext_cons hc]
  have hrest := h c dots comps (if c = capitalW then nonwords + 1 else nonwords)
    (if c = capitalW then (q.put backslash).back.putString utf8NonWord
      else (q.put backslash).put c) vg rg' mg turns turns' (by omega) (by omega)
  refine (@Agree.extend _ _ (if c = capitalW then (q.put backslash).back.putString utf8NonWord
      else (q.put backslash).put c) [backslash, c])
    (k := if c = capitalW then utf8NonWord.length - 2 else 0) ?_ ?_ (Unclosed.escaped c rest)
  · convert hrest using 1
    simp only [added]
    split
    · ring
    · rfl
  · split
    · exact grows_back q utf8NonWord
    · exact (grows_put q backslash).trans (grows_put _ c)

theorem scansAgree_closed (hbody : listBody rest = list ++ closeBracket :: after)
    (hlist : ∀ c ∈ list, c < 0x80 ∧ c ≠ closeBracket) (hnul : 0 ∉ list) (h : ScansAgree after) :
    ScansAgree (openBracket :: rest) := by
  intro x dots comps nonwords q vg rg mg turns turns' hturns hturns'
  have hsplit : rest = rest.take (listStart rest) ++ (list ++ closeBracket :: after) := by
    rw [← hbody, listBody, List.take_append_drop]
  have hstart : (rest.take (listStart rest)).length = listStart rest :=
    List.length_take_of_le (listStart_le rest)
  have hlength : rest.length = listStart rest + list.length + 1 + after.length := by
    have hcount := congrArg List.length hsplit
    simp only [List.length_append, List.length_cons, hstart] at hcount
    omega
  rw [List.length_cons] at hturns hturns'
  obtain ⟨turns, rfl⟩ : ∃ k, turns = k + 1 := ⟨turns - 1, by omega⟩
  obtain ⟨turns', rfl⟩ : ∃ k, turns' = k + 1 := ⟨turns' - 1, by omega⟩
  have hbracket : openBracket ≠ 0 := by decide
  have hclose : closeBracket ≠ 0 := by decide
  obtain ⟨y, hcount⟩ := (@countChar_bracket dots comps nonwords) rest
  rw [hbody, List.append_assoc, List.cons_append, scanList_skip hlist hnul,
    scanList_closed] at hcount
  obtain ⟨q', rg', hrewrite, hgrows⟩ := (@rewriteChar_closed _ _ _ q vg rg mg)
    hbody (fun hmem => (hlist _ hmem).2 rfl) hnul
  rw [List.cons_append, countNext_cons hbracket, countLoop_succ, hcount, rewriteLoop_succ, hrewrite]
  simp only [Scan.bind]
  rw [rewriteNext_cons hclose]
  have hrest := h closeBracket dots (if rest.head? = some caret then comps + 1 else comps) nonwords
    q' vg rg' mg turns turns' (by omega) (by omega)
  have htoken : openBracket :: rest =
      (openBracket :: (rest.take (listStart rest) ++ (list ++ [closeBracket]))) ++ after := by
    conv_lhs => rw [hsplit]
    simp
  rw [htoken]
  refine (@Agree.extend _ _ q') (k := if rest.head? = some caret then utf8Comp.length - 1 else 0)
    ?_ ?_ fun hopen => htoken ▸ Unclosed.list rest list after hbody hlist hopen
  · convert hrest using 1
    simp only [added]
    split
    · ring
    · rfl
  · convert hgrows using 1
    simp only [List.length_cons, List.length_append, hstart, List.length_nil]
    omega

theorem scansAgree_open (hbody : ∀ c ∈ listBody rest, c < 0x80 ∧ c ≠ closeBracket)
    (hnul : 0 ∉ listBody rest) : ScansAgree (openBracket :: rest) := by
  intro x dots comps nonwords q vg rg mg turns turns' hturns hturns'
  rw [List.length_cons] at hturns hturns'
  obtain ⟨turns, rfl⟩ : ∃ k, turns = k + 1 := ⟨turns - 1, by omega⟩
  obtain ⟨turns', rfl⟩ : ∃ k, turns' = k + 1 := ⟨turns' - 1, by omega⟩
  have hbracket : openBracket ≠ 0 := by decide
  obtain ⟨y, hcount⟩ := (@countChar_bracket dots comps nonwords) rest
  rw [scanList_skip hbody hnul, scanList_open] at hcount
  obtain ⟨q', rg', hrewrite⟩ := (@rewriteChar_open _ q vg rg mg)
    (fun hmem => (hbody _ hmem).2 rfl) hnul
  rw [List.cons_append, countNext_cons hbracket, countLoop_succ, hcount, rewriteLoop_succ, hrewrite]
  refine ⟨_, rewriteNext_nul, Or.inr (Or.inl ⟨Unclosed.here rest hbody, ?_⟩)⟩
  rfl

theorem scansAgree_refused (hbody : listBody rest = list ++ bad :: after)
    (hlist : ∀ c ∈ list, c < 0x80 ∧ c ≠ closeBracket) (hnul : 0 ∉ rest) (hbad : ¬ bad < 0x80)
    (h : ∀ t : List Byte, t.length < rest.length → 0 ∉ t → ScansAgree t) :
    ScansAgree (openBracket :: rest) := by
  intro x dots comps nonwords q vg rg mg turns turns' hturns hturns'
  rw [List.length_cons] at hturns hturns'
  obtain ⟨turns, rfl⟩ : ∃ k, turns = k + 1 := ⟨turns - 1, by omega⟩
  obtain ⟨turns', rfl⟩ : ∃ k, turns' = k + 1 := ⟨turns' - 1, by omega⟩
  have hbracket : openBracket ≠ 0 := by decide
  have hclose : closeBracket ≠ 0 := by decide
  have hnulBody : 0 ∉ listBody rest := fun hmem => hnul (List.mem_of_mem_drop hmem)
  have hnulList : 0 ∉ list := fun hmem => hnulBody (hbody ▸ List.mem_append_left _ hmem)
  obtain ⟨y, hcount⟩ := (@countChar_bracket dots comps nonwords) rest
  rw [hbody, List.append_assoc, List.cons_append, scanList_skip hlist hnulList,
    scanList_refused hbad] at hcount
  rw [List.cons_append, countNext_cons hbracket, countLoop_succ, hcount, rewriteLoop_succ]
  by_cases hmem : closeBracket ∈ listBody rest
  · obtain ⟨front, back, hsplit, hfront⟩ := List.eq_append_cons_of_mem hmem
    have hnulFront : 0 ∉ front := fun hmem => hnulBody (hsplit ▸ List.mem_append_left _ hmem)
    have hnulBack : 0 ∉ back := fun hmem => hnulBody
      (hsplit ▸ List.mem_append_right _ (List.mem_cons_of_mem _ hmem))
    have hlength : back.length < rest.length := by
      have hcount := congrArg List.length hsplit
      simp only [listBody, List.length_drop, List.length_append, List.length_cons] at hcount
      omega
    obtain ⟨q', rg', hrewrite, -⟩ := (@rewriteChar_closed _ _ _ q vg rg mg)
      hsplit hfront hnulFront
    obtain ⟨w, hdone, -⟩ := h back hlength hnulBack 0 0 0 0 q' vg rg' mg back.length turns' le_rfl
      (by omega)
    refine ⟨w, ?_, Or.inl rfl⟩
    rw [hrewrite]
    simp only [Scan.bind]
    rw [rewriteNext_cons hclose, hdone]
  · obtain ⟨q', rg', hrewrite⟩ := (@rewriteChar_open _ q vg rg mg)
      hmem hnulBody
    rw [hrewrite]
    exact ⟨_, rewriteNext_nul, Or.inl rfl⟩

theorem scansAgree (t : List Byte) (hnul : 0 ∉ t) : ScansAgree t := by
  induction hn : t.length using Nat.strong_induction_on generalizing t with
  | _ n ih =>
      subst hn
      have hshorter : ∀ s : List Byte, s.length < t.length → 0 ∉ s → ScansAgree s :=
        fun s hs hnuls => ih s.length hs s hnuls rfl
      rcases t with _ | ⟨c, rest⟩
      · exact scansAgree_nil
      obtain ⟨hc, hrest⟩ : c ≠ 0 ∧ 0 ∉ rest :=
        ⟨fun h => hnul (h ▸ List.mem_cons_self), fun h => hnul (List.mem_cons_of_mem _ h)⟩
      by_cases hslash : c = backslash
      · subst hslash
        rcases rest with _ | ⟨d, rest⟩
        · exact scansAgree_slash
        · exact scansAgree_escaped (fun h => hrest (h ▸ List.mem_cons_self))
            (hshorter rest (by simp only [List.length_cons]; omega)
              fun h => hrest (List.mem_cons_of_mem _ h))
      by_cases hbracket : c = openBracket
      · subst hbracket
        have hnulBody : 0 ∉ listBody rest := fun hmem => hrest (List.mem_of_mem_drop hmem)
        rcases cases_body (listBody rest) with hall | ⟨list, after, hbody, hlist⟩ |
            ⟨list, bad, after, hbody, hbad, hlist⟩
        · exact scansAgree_open hall hnulBody
        · have hafter : after.length < rest.length := by
            have hcount := congrArg List.length hbody
            simp only [listBody, List.length_drop, List.length_append, List.length_cons] at hcount
            omega
          refine scansAgree_closed hbody hlist
            (fun hmem => hnulBody (hbody ▸ List.mem_append_left _ hmem))
            (hshorter after (hafter.trans (Nat.lt_succ_self _)) fun hmem => hnulBody
              (hbody ▸ List.mem_append_right _ (List.mem_cons_of_mem _ hmem)))
        · exact scansAgree_refused hbody hlist hrest hbad fun s hs hnuls =>
            hshorter s (hs.trans (Nat.lt_succ_self _)) hnuls
      · exact scansAgree_plain hc hbracket hslash (hshorter rest (Nat.lt_succ_self _) hrest)

/-- The counting scan reads behind the NUL when a list is left open. -/
theorem countNext_unclosed (h : Unclosed t) (hnul : 0 ∉ t) (x : Byte) (dots comps nonwords : Nat)
    (turns : Nat) (hturns : t.length ≤ turns) :
    countNext turns ⟨x :: (t ++ [0]), false, dots, comps, nonwords⟩ = .passedEnd := by
  have hslash : backslash ≠ 0 := by decide
  have hbracket : openBracket ≠ 0 := by decide
  induction h generalizing x dots comps nonwords turns with
  | here rest hbody =>
      rw [List.length_cons] at hturns
      obtain ⟨turns, rfl⟩ : ∃ k, turns = k + 1 := ⟨turns - 1, by omega⟩
      have hnulBody : 0 ∉ listBody rest := fun hmem =>
        hnul (List.mem_cons_of_mem _ (List.mem_of_mem_drop hmem))
      obtain ⟨y, hcount⟩ := (@countChar_bracket dots comps nonwords) rest
      rw [scanList_skip hbody hnulBody, scanList_open] at hcount
      rw [List.cons_append, countNext_cons hbracket, countLoop_succ, hcount]
      rfl
  | list rest list after hbody hlist _ ih =>
      rw [List.length_cons] at hturns
      obtain ⟨turns, rfl⟩ : ∃ k, turns = k + 1 := ⟨turns - 1, by omega⟩
      have hnulBody : 0 ∉ listBody rest := fun hmem =>
        hnul (List.mem_cons_of_mem _ (List.mem_of_mem_drop hmem))
      have hnulList : 0 ∉ list := fun hmem => hnulBody (hbody ▸ List.mem_append_left _ hmem)
      have hnulAfter : 0 ∉ after := fun hmem => hnulBody
        (hbody ▸ List.mem_append_right _ (List.mem_cons_of_mem _ hmem))
      have hafter : after.length ≤ turns := by
        have hlength := congrArg List.length hbody
        simp only [listBody, List.length_drop, List.length_append, List.length_cons] at hlength
        omega
      obtain ⟨y, hcount⟩ := (@countChar_bracket dots comps nonwords) rest
      rw [hbody, List.append_assoc, List.cons_append, scanList_skip hlist hnulList,
        scanList_closed] at hcount
      rw [List.cons_append, countNext_cons hbracket, countLoop_succ, hcount]
      exact ih hnulAfter closeBracket dots _ nonwords turns hafter
  | char c rest hbracket hslash _ ih =>
      rw [List.length_cons] at hturns
      obtain ⟨turns, rfl⟩ : ∃ k, turns = k + 1 := ⟨turns - 1, by omega⟩
      have hc : c ≠ 0 := fun h => hnul (h ▸ List.mem_cons_self)
      rw [List.cons_append, countNext_cons hc, countLoop_succ, countChar_plain hbracket hslash]
      exact ih (fun h => hnul (List.mem_cons_of_mem _ h)) c _ comps nonwords turns (by omega)
  | escaped c rest _ ih =>
      rw [List.length_cons, List.length_cons] at hturns
      obtain ⟨turns, rfl⟩ : ∃ k, turns = k + 2 := ⟨turns - 2, by omega⟩
      have hc : c ≠ 0 := fun h =>
        hnul (h ▸ List.mem_cons_of_mem _ List.mem_cons_self)
      rw [List.cons_append, List.cons_append, countNext_cons hslash, countLoop_succ,
        countChar_slash]
      simp only [Scan.bind]
      rw [countNext_cons hc, countLoop_succ, countChar_escaped]
      exact ih (fun h => hnul (List.mem_cons_of_mem _ (List.mem_cons_of_mem _ h))) c dots comps _
        turns (by omega)

theorem countScan_eq (hnul : 0 ∉ t) (hne : t ≠ []) :
    countScan t = countNext (t.length + 1) ⟨0 :: (t ++ [0]), false, 0, 0, 0⟩ := by
  obtain ⟨c, rest, rfl⟩ := List.exists_cons_of_ne_nil hne
  have hc : c ≠ 0 := fun h => hnul (h ▸ List.mem_cons_self)
  rw [List.cons_append, countNext_cons hc]
  rfl

/-- The scans stay in bounds, unless a list is left open. -/
theorem staysInBounds_iff {regex : List Byte} (hnul : 0 ∉ regex) (hne : regex ≠ []) :
    StaysInBounds regex ↔ ¬ Unclosed regex := by
  have hagree := fun mapGroup => scansAgree regex hnul 0 0 0 0 ⟨[], 0⟩ 0 0 mapGroup
    (regex.length + 1) (regex.length + 1) (Nat.le_succ _) (Nat.lt_succ_self _)
  simp only [← countScan_eq hnul hne] at hagree
  refine ⟨fun ⟨hcount, _⟩ hopen => ?_, fun hclosed => ⟨?_, fun mapGroup => ?_⟩⟩
  · have hpassed : countScan regex = .passedEnd := by
      rw [countScan_eq hnul hne]
      exact countNext_unclosed hopen hnul 0 0 0 0 _ (Nat.le_succ _)
    rcases hcount with ⟨st, hdone⟩ | hrefused
    · rw [hdone] at hpassed
      cases hpassed
    · rw [hrefused] at hpassed
      cases hpassed
  · obtain ⟨w, -, hrefused | ⟨hopen, -⟩ | ⟨st, k, hdone, -⟩⟩ := hagree fun _ => 0
    · exact Or.inr hrefused
    · exact absurd hopen hclosed
    · exact Or.inl ⟨st, hdone⟩
  · obtain ⟨w, hdone, hcount⟩ := hagree mapGroup
    refine ⟨w, hdone, fun st hst => ?_⟩
    rcases hcount with hrefused | ⟨hopen, -⟩ | ⟨st', k, hdone', hadded, hhigh⟩
    · rw [hrefused] at hst
      cases hst
    · exact absurd hopen hclosed
    · obtain rfl := Scan.done.inj (hdone'.symm.trans hst)
      have hsize : actualSize regex st' = regex.length + 1 + added st' := by
        rw [actualSize, added]
        omega
      have hzero : added ⟨[], false, 0, 0, 0⟩ = 0 := rfl
      simp only [List.length_nil] at hhigh
      omega

/-- A dot, an escaped `[` and a complemented list with a literal `]`. -/
theorem staysInBounds_iff_closed :
    (0 : Byte) ∉ [dot, backslash, openBracket, openBracket, caret, closeBracket, closeBracket] ∧
      (StaysInBounds [dot, backslash, openBracket, openBracket, caret, closeBracket, closeBracket] ↔
        ¬ Unclosed [dot, backslash, openBracket, openBracket, caret, closeBracket, closeBracket]) :=
  ⟨by decide, staysInBounds_iff (by decide) (by decide)⟩

/-- The expression `[a` -/
theorem not_staysInBounds : ¬ StaysInBounds [openBracket, 0x61] := by
  rintro ⟨⟨st, hdone⟩ | hrefused, -⟩
  · have hpassed : countScan [openBracket, 0x61] = .passedEnd := by decide
    rw [hpassed] at hdone
    cases hdone
  · have hpassed : countScan [openBracket, 0x61] = .passedEnd := by decide
    rw [hpassed] at hrefused
    cases hrefused

end NiceEditor.RegexBounds
