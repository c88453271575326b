import NiceEditor.KeyBindings

namespace NiceEditor.KeyLines

open NiceEditor.Pools
open NiceEditor.Commands
open NiceEditor.CommandLine
open NiceEditor.KeyBindings

variable {α β : Type} {f : Reading α} {g : α → Reading β} {l l' p q rest : List Byte}
variable {a : α} {source : ConfigSource} {st : KeyState}

/-- On a line, the step yields a value that does not depend on what comes after the
line, and the pointer stays on the line. -/
def StaysOn (f : Reading α) (l : List Byte) (a : α) (l' : List Byte) : Prop :=
  l' <:+ l ∧ ∀ rest, f (l ++ 0 :: rest) = some (a, l' ++ 0 :: rest)

/-- The pointer leaves the line. -/
def Crosses (f : Reading α) (l : List Byte) : Prop :=
  ∀ rest a q, f (l ++ 0 :: rest) = some (a, q) → q <:+ rest

/-- The pointer only moves ahead. -/
def Ahead (f : Reading α) : Prop := ∀ p a q, f p = some (a, q) → q <:+ p

/-- The pointer leaves no line. -/
def Contained (f : Reading α) : Prop := ∀ l, 0 ∉ l → ∃ a l', StaysOn f l a l'

theorem bind_apply (f : Reading α) (g : α → Reading β) (p : List Byte) :
    (f >>= g) p = (f p).bind fun r => g r.1 r.2 := rfl

theorem StaysOn.pure (a : α) (l : List Byte) : StaysOn (pure a) l a l :=
  ⟨List.suffix_refl l, fun _ => rfl⟩

theorem StaysOn.bind {b : β} {l'' : List Byte} (hf : StaysOn f l a l')
    (hg : StaysOn (g a) l' b l'') : StaysOn (f >>= g) l b l'' :=
  ⟨hg.1.trans hf.1, fun rest => by rw [bind_apply, hf.2, Option.bind_some, hg.2]⟩

theorem StaysOn.crosses (hf : StaysOn f l a l') (hg : Crosses (g a) l') :
    Crosses (f >>= g) l := by
  intro rest b q h
  rw [bind_apply, hf.2, Option.bind_some] at h
  exact hg rest b q h

theorem Crosses.bind (hf : Crosses f l) (hg : ∀ a, Ahead (g a)) : Crosses (f >>= g) l := by
  intro rest b q h
  rw [bind_apply] at h
  obtain ⟨⟨a, r⟩, hfirst, hsecond⟩ := Option.bind_eq_some_iff.mp h
  exact (hg a r b q hsecond).trans (hf rest a r hfirst)

theorem Contained.pure (a : α) : Contained (pure a : Reading α) :=
  fun l _ => ⟨a, l, .pure a l⟩

theorem StaysOn.bind_contained (hl : 0 ∉ l) (hf : StaysOn f l a l') (hg : Contained (g a)) :
    ∃ b l'', StaysOn (f >>= g) l b l'' := by
  obtain ⟨b, l'', hsecond⟩ := hg l' fun h => hl (hf.1.subset h)
  exact ⟨b, l'', hf.bind hsecond⟩

theorem StaysOn.exists_bind (hf : StaysOn f l a l') (hg : ∃ b l'', StaysOn (g a) l' b l'') :
    ∃ b l'', StaysOn (f >>= g) l b l'' :=
  hg.imp fun _ hb => hb.imp fun _ h => hf.bind h

theorem Contained.bind (hf : Contained f) (hg : ∀ a, Contained (g a)) : Contained (f >>= g) := by
  intro l hl
  obtain ⟨a, l', hfirst⟩ := hf l hl
  exact hfirst.bind_contained hl (hg a)

theorem Contained.ite {c : Prop} [Decidable c] {f g : Reading α} (hf : Contained f)
    (hg : Contained g) : Contained (if c then f else g) := by
  split
  · exact hf
  · exact hg

theorem Ahead.pure (a : α) : Ahead (pure a : Reading α) := by
  intro p b q h
  cases h
  exact List.suffix_refl p

theorem Ahead.bind (hf : Ahead f) (hg : ∀ a, Ahead (g a)) : Ahead (f >>= g) := by
  intro p b q h
  rw [bind_apply] at h
  obtain ⟨⟨a, r⟩, hfirst, hsecond⟩ := Option.bind_eq_some_iff.mp h
  exact (hg a r b q hsecond).trans (hf p a r hfirst)

theorem Ahead.ite {c : Prop} [Decidable c] {f g : Reading α} (hf : Ahead f) (hg : Ahead g) :
    Ahead (if c then f else g) := by
  split
  · exact hf
  · exact hg

theorem ahead_peek : Ahead peek := by
  intro p c q h
  cases p with
  | nil => cases h
  | cons x p =>
      cases h
      exact List.suffix_refl _

theorem stays_peek_nil : StaysOn peek [] 0 [] := ⟨List.suffix_refl _, fun _ => rfl⟩

theorem stays_peek_cons (c : Byte) (l : List Byte) : StaysOn peek (c :: l) c (c :: l) :=
  ⟨List.suffix_refl _, fun _ => rfl⟩

theorem skipList_suffix {f : Byte → Bool} (h : skipList f p = some q) : q <:+ p := by
  induction p with
  | nil => cases h
  | cons c p ih =>
      simp only [skipList] at h
      split at h
      · exact (ih h).trans (List.suffix_cons c p)
      · cases h
        exact List.suffix_refl _

theorem ahead_skipWhile (f : Byte → Bool) : Ahead (skipWhile f) := by
  intro p a q h
  obtain ⟨r, hr, heq⟩ := Option.map_eq_some_iff.mp h
  cases heq
  exact skipList_suffix hr

theorem stays_skipWhile {f : Byte → Bool} (hf : f 0 = false) (l : List Byte) :
    StaysOn (skipWhile f) l () (l.dropWhile f) := by
  refine ⟨List.dropWhile_suffix f, fun rest => ?_⟩
  have hskip : skipList f (l ++ 0 :: rest) = some (l.dropWhile f ++ 0 :: rest) := by
    induction l with
    | nil => simp [skipList, hf]
    | cons c l ih =>
        simp only [List.cons_append, skipList]
        split
        · rename_i hc
          rw [ih, List.dropWhile_cons_of_pos hc]
        · rename_i hc
          rw [List.dropWhile_cons_of_neg (by simpa using hc), List.cons_append]
  rw [skipWhile, hskip]
  rfl

theorem stays_skipSpaces (l : List Byte) :
    StaysOn skipSpaces l () (l.dropWhile isAsciiSpace) := stays_skipWhile rfl l

theorem stays_skipWord (l : List Byte) :
    StaysOn skipWord l () (l.dropWhile fun c => c != 0 && !isAsciiSpace c) :=
  stays_skipWhile rfl l

theorem ahead_readString : Ahead readString := by
  intro p a q h
  unfold readString at h
  split at h
  · cases h
    exact List.suffix_refl p
  · cases h

theorem stays_readString (hl : 0 ∉ l) : StaysOn readString l l l := by
  refine ⟨List.suffix_refl l, fun rest => ?_⟩
  have hall : ∀ x ∈ l, (x != 0) = true := fun x hx => by
    simpa using fun heq : x = 0 => hl (heq ▸ hx)
  rw [readString, if_pos (by simp), List.takeWhile_append_of_pos hall,
    List.takeWhile_cons_of_neg (by simp), List.append_nil]

theorem contained_skipSpaces : Contained skipSpaces := fun l _ => ⟨_, _, stays_skipSpaces l⟩

theorem contained_skipWord : Contained skipWord := fun l _ => ⟨_, _, stays_skipWord l⟩

theorem contained_readString : Contained readString := fun _ hl => ⟨_, _, stays_readString hl⟩

theorem upCase_ne_zero (c : Byte) : c ≠ 0 → asciiUpCase c ≠ asciiUpCase 0 := by
  intro hc
  have hzero : asciiUpCase 0 = 0 := rfl
  rw [hzero, asciiUpCase]
  split
  · grind
  · exact hc

theorem cmdcmpList_append {c : List Byte} (hc : 0 ∉ c) (hl : 0 ∉ l) (rest : List Byte) :
    cmdcmpList c (l ++ 0 :: rest) = some (cmdcmp c l) := by
  induction c generalizing l with
  | nil =>
      cases l with
      | nil => rfl
      | cons x l =>
          have hx : (x == 0) = false := by
            simpa using fun heq : x = 0 => hl (by simp [heq])
          simp [cmdcmpList, cmdcmp, hx]
  | cons y c ih =>
      cases l with
      | nil =>
          have hy : y ≠ 0 := fun heq => hc (by simp [heq])
          simp [cmdcmpList, cmdcmp, upCase_ne_zero y hy]
      | cons x l =>
          simp only [List.cons_append, cmdcmpList, cmdcmp]
          split
          · rename_i heq
            rw [ih (fun h => hc (List.mem_cons_of_mem y h)) fun h => hl (List.mem_cons_of_mem x h)]
            simp [heq]
          · rename_i hne
            simp [hne]

theorem ahead_startsWith (keyword : List Byte) : Ahead (startsWith keyword) := by
  intro p a q h
  cases p with
  | nil => cases h
  | cons c p =>
      simp only [startsWith, peek, Option.bind_eq_bind, Option.bind_some] at h
      split at h
      · cases h
        exact List.suffix_refl _
      · obtain ⟨r, -, heq⟩ := Option.map_eq_some_iff.mp h
        cases heq
        exact List.suffix_refl _

theorem stays_startsWith {keyword : List Byte} (hne : keyword ≠ []) (hk : 0 ∉ keyword)
    (hl : 0 ∉ l) : StaysOn (startsWith keyword) l (cmdcmp keyword l) l := by
  refine ⟨List.suffix_refl l, fun rest => ?_⟩
  cases l with
  | nil =>
      cases keyword with
      | nil => exact absurd rfl hne
      | cons k keyword => rfl
  | cons c l =>
      have hc : c ≠ 0 := fun heq => hl (by simp [heq])
      have hcmp := cmdcmpList_append hk hl rest
      rw [List.cons_append] at hcmp
      simp [startsWith, peek, hc, hcmp]

/-- In what follows a double quote, the line ends with a backslash before there is
another double quote. -/
def dangles : List Byte → Bool
  | [] => false
  | c :: s =>
      if c = 34 then false
      else if c = 92 then
        match s with
        | [] => true
        | _ :: s => dangles s
      else dangles s

theorem dangles_cons {c : Byte} (h34 : c ≠ 34) (h92 : c ≠ 92) (s : List Byte) :
    dangles (c :: s) = dangles s := by
  rw [dangles.eq_def]
  simp only [if_neg h34, if_neg h92]

theorem dangles_quote (s : List Byte) : dangles (34 :: s) = false := by
  rw [dangles.eq_def]
  simp

/-- A step that reads some of the digits after a backslash. -/
def Digits (f : Byte → Reading Byte) : Prop :=
  ∀ c s, 0 ∉ s → ∃ c' s', StaysOn (f c) s c' s' ∧ dangles s' = dangles s

theorem digits_octalDigit : Digits octalDigit := by
  intro c s hs
  cases s with
  | nil => exact ⟨c, [], ⟨List.suffix_refl _, fun rest => by simp [octalDigit]⟩, rfl⟩
  | cons x s =>
      by_cases hx : 48 ≤ x ∧ x ≤ 55
      · have hdangles : dangles s = dangles (x :: s) := by
          refine (dangles_cons ?_ ?_ s).symm
          · rintro rfl
            exact absurd hx (by decide)
          · rintro rfl
            exact absurd hx (by decide)
        cases s with
        | nil =>
            refine ⟨c * 8 + 0 - 48, [], ⟨List.suffix_cons x _, fun rest => ?_⟩, hdangles⟩
            simp [octalDigit, hx]
        | cons y s =>
            refine ⟨c * 8 + y - 48, y :: s, ⟨List.suffix_cons x _, fun rest => ?_⟩, hdangles⟩
            simp [octalDigit, hx]
      · refine ⟨c, x :: s, ⟨List.suffix_refl _, fun rest => ?_⟩, rfl⟩
        simp only [List.cons_append, octalDigit, if_neg hx]

theorem digits_hexDigit : Digits hexDigit := by
  intro c s hs
  cases s with
  | nil => exact ⟨c, [], ⟨List.suffix_refl _, fun rest => by simp [hexDigit]⟩, rfl⟩
  | cons x s =>
      have hskip : ∀ c', (∀ rest, hexDigit c (x :: s ++ 0 :: rest) = some (c', s ++ 0 :: rest)) →
          x ≠ 34 → x ≠ 92 → ∃ c' s', StaysOn (hexDigit c) (x :: s) c' s' ∧
            dangles s' = dangles (x :: s) :=
        fun c' h h34 h92 => ⟨c', s, ⟨List.suffix_cons x s, h⟩, (dangles_cons h34 h92 s).symm⟩
      by_cases h9 : 48 ≤ x ∧ x ≤ 57
      · refine hskip (c * 16 + x - 48) (fun rest => by simp [hexDigit, h9]) ?_ ?_ <;>
          rintro rfl <;> exact absurd h9 (by decide)
      by_cases hF : 65 ≤ x ∧ x ≤ 70
      · refine hskip (c * 16 + x - 65 + 10)
          (fun rest => by rw [List.cons_append, hexDigit, if_neg h9, if_pos hF]) ?_ ?_ <;>
          rintro rfl <;> exact absurd hF (by decide)
      by_cases hf : 97 ≤ x ∧ x ≤ 102
      · refine hskip (c * 16 + x - 97 + 10)
          (fun rest => by rw [List.cons_append, hexDigit, if_neg h9, if_neg hF, if_pos hf])
          ?_ ?_ <;>
          rintro rfl <;> exact absurd hf (by decide)
      refine ⟨c, x :: s, ⟨List.suffix_refl _, fun rest => ?_⟩, rfl⟩
      rw [List.cons_append, hexDigit, if_neg h9, if_neg hF, if_neg hf]

theorem Digits.twice {f : Byte → Reading Byte} (h : Digits f) (c : Byte) {s : List Byte}
    (hs : 0 ∉ s) : ∃ c' s', StaysOn (f c >>= f) s c' s' ∧ dangles s' = dangles s := by
  obtain ⟨c₁, s₁, hfirst, hdangles₁⟩ := h c s hs
  obtain ⟨c₂, s₂, hsecond, hdangles₂⟩ := h c₁ s₁ fun hmem => hs (hfirst.1.subset hmem)
  exact ⟨c₂, s₂, hfirst.bind hsecond, hdangles₂.trans hdangles₁⟩

theorem stays_escape_backslash {d : Byte} {s : List Byte} (hs : 0 ∉ s) :
    ∃ c s', s' <:+ s ∧ StaysOn escape (92 :: d :: s) c s' ∧ dangles s' = dangles s := by
  have hskip : ∀ c, (∀ rest, escape (92 :: d :: s ++ 0 :: rest) = some (c, s ++ 0 :: rest)) →
      ∃ c s', s' <:+ s ∧ StaysOn escape (92 :: d :: s) c s' ∧ dangles s' = dangles s :=
    fun c h => ⟨c, s, List.suffix_refl s,
      ⟨(List.suffix_cons d s).trans (List.suffix_cons 92 _), h⟩, rfl⟩
  have hdigits : ∀ (f : Byte → Reading Byte) c, Digits f →
      (∀ rest, escape (92 :: d :: s ++ 0 :: rest) = (f c >>= f) (s ++ 0 :: rest)) →
      ∃ c s', s' <:+ s ∧ StaysOn escape (92 :: d :: s) c s' ∧ dangles s' = dangles s := by
    intro f c hf h
    obtain ⟨c', s', hstays, hdangles⟩ := hf.twice c hs
    refine ⟨c', s', hstays.1, ⟨hstays.1.trans ((List.suffix_cons d s).trans
      (List.suffix_cons 92 _)), fun rest => ?_⟩, hdangles⟩
    rw [h, hstays.2]
  cases hchar : escapeChar d with
  | some c => exact hskip c fun rest => by simp [escape, hchar]
  | none =>
      by_cases hoctal : 48 ≤ d ∧ d ≤ 55
      · exact hdigits octalDigit (d - 48) digits_octalDigit fun rest => by
          simp [escape, hchar, hoctal, StateT.run]
      by_cases hhex : d = 120 ∨ d = 88
      · exact hdigits hexDigit 0 digits_hexDigit fun rest => by
          simp only [List.cons_append, escape, hchar, if_neg hoctal, if_pos hhex, StateT.run]
      exact hskip d fun rest => by
        simp only [List.cons_append, escape, hchar, if_neg hoctal, if_neg hhex]

theorem stays_escape_cons {c : Byte} (hc : c ≠ 92) (s : List Byte) :
    StaysOn escape (c :: s) c s := by
  refine ⟨List.suffix_cons c s, fun rest => ?_⟩
  rw [List.cons_append]
  unfold escape
  split
  · rename_i h
    cases h
  · rename_i h
    exact absurd (List.cons.inj h).1 hc
  · rename_i h
    exact absurd (List.cons.inj h).1 hc
  · rename_i h
    obtain ⟨rfl, rfl⟩ := List.cons.inj h
    rfl

theorem crosses_escape : Crosses escape [92] := by
  intro rest a q h
  cases h
  exact List.suffix_refl rest

theorem ahead_octalDigit (c : Byte) : Ahead (octalDigit c) := by
  intro p a q h
  unfold octalDigit at h
  split at h
  · cases h
  · split at h
    · split at h
      · cases h
      · cases h
        exact List.suffix_cons _ _
    · cases h
      exact List.suffix_refl _

theorem ahead_hexDigit (c : Byte) : Ahead (hexDigit c) := by
  intro p a q h
  unfold hexDigit at h
  split at h
  · cases h
  · repeat' split at h
    all_goals
      cases h
      first | exact List.suffix_cons _ _ | exact List.suffix_refl _

theorem ahead_escape : Ahead escape := by
  intro p a q h
  unfold escape at h
  split at h
  · cases h
  · cases h
  · rename_i d s
    have hskip : s <:+ 92 :: d :: s := (List.suffix_cons d s).trans (List.suffix_cons 92 _)
    repeat' split at h
    · cases h
      exact hskip
    · exact ((ahead_octalDigit _).bind ahead_octalDigit s a q h).trans hskip
    · exact ((ahead_hexDigit _).bind ahead_hexDigit s a q h).trans hskip
    · cases h
      exact hskip
  · cases h
    exact List.suffix_cons _ _

theorem ahead_parseChars (len : Nat) : Ahead (parseChars len) := by
  induction len using parseChars.induct with
  | case1 => exact .pure _
  | case2 => exact .pure _
  | case3 len ih =>
      exact ahead_peek.bind fun c => Ahead.ite (.pure _)
        (ahead_escape.bind fun x => ih.bind fun buf => .pure _)

theorem stays_parseChars {len : Nat} (hlen : l.length < len) (hl : 0 ∉ l)
    (hd : dangles l = false) :
    ∃ buf l', StaysOn (parseChars len) l buf l' ∧ ∀ c ∈ l'.head?, c = 34 := by
  induction len using parseChars.induct generalizing l with
  | case1 => exact absurd hlen (by omega)
  | case2 =>
      obtain rfl : l = [] := List.eq_nil_of_length_eq_zero (by omega)
      exact ⟨[], [], .pure _ _, by simp⟩
  | case3 len ih =>
      cases l with
      | nil => exact ⟨[], [], stays_peek_nil.bind (by simpa using StaysOn.pure _ _), by simp⟩
      | cons c s =>
          have hs : 0 ∉ s := fun h => hl (List.mem_cons_of_mem c h)
          have hc : c ≠ 0 := fun heq => hl (by simp [heq])
          by_cases h34 : c = 34
          · subst h34
            exact ⟨[], 34 :: s, (stays_peek_cons 34 s).bind (by simpa using StaysOn.pure _ _),
              by simp⟩
          have hescape : ∃ x s', s'.length ≤ s.length ∧ StaysOn escape (c :: s) x s' ∧
              dangles s' = false := by
            by_cases h92 : c = 92
            · subst h92
              cases s with
              | nil => exact absurd hd (by decide)
              | cons d s =>
                  obtain ⟨x, s', hsuffix, hstays, hsame⟩ :=
                    stays_escape_backslash (d := d) fun h => hs (List.mem_cons_of_mem d h)
                  have hd' : dangles s = false := by simpa [dangles] using hd
                  exact ⟨x, s', hsuffix.length_le.trans (Nat.le_succ _), hstays, hsame.trans hd'⟩
            · exact ⟨c, s, le_rfl, stays_escape_cons h92 s, (dangles_cons h34 h92 s).symm.trans hd⟩
          obtain ⟨x, s', hlength, hstays, hd'⟩ := hescape
          simp only [List.length_cons] at hlen
          obtain ⟨buf, l', hchars, hhead⟩ :=
            ih (by omega) (fun h => hl (hstays.1.subset h)) hd'
          refine ⟨x :: buf, l', (stays_peek_cons c s).bind ?_, hhead⟩
          rw [if_neg (by simp [hc, h34])]
          exact hstays.bind (hchars.bind (.pure _ _))

theorem crosses_parseChars {len : Nat} (hlen : l.length < len) (hl : 0 ∉ l)
    (hd : dangles l = true) : Crosses (parseChars len) l := by
  induction len using parseChars.induct generalizing l with
  | case1 => exact absurd hlen (by omega)
  | case2 =>
      obtain rfl : l = [] := List.eq_nil_of_length_eq_zero (by omega)
      exact absurd hd (by decide)
  | case3 len ih =>
      cases l with
      | nil => exact absurd hd (by decide)
      | cons c s =>
          have hs : 0 ∉ s := fun h => hl (List.mem_cons_of_mem c h)
          have hc : c ≠ 0 := fun heq => hl (by simp [heq])
          have h34 : c ≠ 34 := by
            rintro rfl
            rw [dangles_quote] at hd
            cases hd
          simp only [List.length_cons] at hlen
          refine (stays_peek_cons c s).crosses ?_
          rw [if_neg (by simp [hc, h34])]
          by_cases h92 : c = 92
          · subst h92
            cases s with
            | nil =>
                exact crosses_escape.bind fun x => (ahead_parseChars _).bind fun buf => .pure _
            | cons d s =>
                obtain ⟨x, s', hsuffix, hstays, hsame⟩ :=
                  stays_escape_backslash (d := d) fun h => hs (List.mem_cons_of_mem d h)
                have hd' : dangles s = true := by simpa [dangles] using hd
                have hlength := hsuffix.length_le
                simp only [List.length_cons] at hlen
                exact hstays.crosses ((ih (by omega) (fun h => hl (hstays.1.subset h))
                  (hsame.trans hd')).bind fun buf => .pure _)
          · have hd' := (dangles_cons h34 h92 s).symm.trans hd
            exact (stays_escape_cons h92 s).crosses ((ih (by omega) hs hd').bind fun buf => .pure _)

theorem skipToQuoteList_suffix (p : List Byte) :
    ∀ q, skipToQuoteList p = some q → q <:+ p := by
  induction p using skipToQuoteList.induct with
  | case1 =>
      rintro q ⟨⟩
  | case2 c p hc =>
      intro q h
      rw [skipToQuoteList.eq_def] at h
      simp only [if_pos hc] at h
      cases h
      exact List.suffix_refl _
  | case3 =>
      intro q h
      rw [skipToQuoteList.eq_def] at h
      cases h
  | case4 d s hd hc ih =>
      intro q h
      rw [skipToQuoteList.eq_def] at h
      simp only [if_neg hc, if_true, if_pos hd] at h
      exact (ih q h).trans ((List.suffix_cons d s).trans (List.suffix_cons _ _))
  | case5 d s hd hc ih =>
      intro q h
      rw [skipToQuoteList.eq_def] at h
      simp only [if_neg hc, if_true, if_neg hd] at h
      exact (ih q h).trans (List.suffix_cons _ _)
  | case6 c s hc h92 ih =>
      intro q h
      rw [skipToQuoteList.eq_def] at h
      simp only [if_neg hc, if_neg h92] at h
      exact (ih q h).trans (List.suffix_cons _ _)

theorem ahead_skipToQuote : Ahead skipToQuote := by
  intro p a q h
  obtain ⟨r, hr, heq⟩ := Option.map_eq_some_iff.mp h
  cases heq
  exact skipToQuoteList_suffix p _ hr

theorem skipToQuote_stop {c : Byte} (hc : c = 0 ∨ c = 34) (p : List Byte) :
    skipToQuote (c :: p) = some ((), c :: p) := by
  have hstop : skipToQuoteList (c :: p) = some (c :: p) := by
    rw [skipToQuoteList.eq_def]
    simp only [if_pos hc]
  rw [skipToQuote, hstop]
  rfl

theorem stays_skipToQuote (h : ∀ c ∈ l.head?, c = 34) : StaysOn skipToQuote l () l := by
  refine ⟨List.suffix_refl l, fun rest => ?_⟩
  cases l with
  | nil => exact skipToQuote_stop (.inl rfl) rest
  | cons c l => exact skipToQuote_stop (.inr (h c rfl)) (l ++ 0 :: rest)

theorem ahead_tail : Ahead (modify List.tail) := by
  intro p a q h
  cases h
  exact List.tail_suffix p

theorem stays_tail (c : Byte) (l : List Byte) : StaysOn (modify List.tail) (c :: l) () l :=
  ⟨List.suffix_cons c l, fun _ => rfl⟩

theorem ahead_parseString (len : Nat) : Ahead (parseString len) :=
  ahead_peek.bind fun _ => Ahead.ite (.pure _) <| ahead_tail.bind fun _ =>
    (ahead_parseChars len).bind fun _ => ahead_skipToQuote.bind fun _ => ahead_peek.bind fun _ =>
      Ahead.ite (ahead_tail.bind fun _ => .pure _) (.pure _)

theorem stays_parseString (hl : 0 ∉ l) (hd : ∀ s, l = 34 :: s → dangles s = false) :
    ∃ buf l', StaysOn (parseString l.length) l buf l' := by
  cases l with
  | nil => exact ⟨none, [], stays_peek_nil.bind (by simpa using StaysOn.pure _ _)⟩
  | cons c s =>
      by_cases hc : c = 34
      · subst hc
        obtain ⟨buf, l', hchars, hhead⟩ := stays_parseChars (Nat.lt_succ_self s.length)
          (fun h => hl (List.mem_cons_of_mem 34 h)) (hd s rfl)
        cases l' with
        | nil =>
            refine ⟨none, [], (stays_peek_cons 34 s).bind ?_⟩
            rw [if_neg (by simp)]
            exact (stays_tail 34 s).bind (hchars.bind ((stays_skipToQuote hhead).bind
              (stays_peek_nil.bind (by simpa using StaysOn.pure _ _))))
        | cons d l' =>
            obtain rfl : d = 34 := hhead d rfl
            refine ⟨some buf, l', (stays_peek_cons 34 s).bind ?_⟩
            rw [if_neg (by simp)]
            refine (stays_tail 34 s).bind (hchars.bind ((stays_skipToQuote hhead).bind
              ((stays_peek_cons 34 l').bind ?_)))
            rw [if_pos rfl]
            exact (stays_tail 34 l').bind (.pure _ _)
      · refine ⟨none, c :: s, (stays_peek_cons c s).bind ?_⟩
        rw [if_pos hc]
        exact .pure _ _

theorem crosses_parseString {s : List Byte} (hs : 0 ∉ s) (hd : dangles s = true) :
    Crosses (parseString (34 :: s).length) (34 :: s) := by
  refine (stays_peek_cons 34 s).crosses ?_
  rw [if_neg (by simp)]
  refine (stays_tail 34 s).crosses (Crosses.bind (crosses_parseChars (by simp) hs hd) fun _ => ?_)
  exact ahead_skipToQuote.bind fun _ => ahead_peek.bind fun _ =>
    Ahead.ite (ahead_tail.bind fun _ => .pure _) (.pure _)

theorem ahead_keyLine : Ahead (keyLine source st) := by
  refine (ahead_skipWhile _).bind fun _ => ahead_readString.bind fun s => ?_
  split
  · exact .pure _
  · exact (ahead_skipWhile _).bind fun _ => (ahead_skipWhile _).bind fun _ =>
      (ahead_skipWhile _).bind fun _ => ahead_readString.bind fun _ => Ahead.ite (.pure _) (.pure _)

theorem contained_keyLine (source : ConfigSource) (st : KeyState) :
    Contained (keyLine source st) := by
  refine contained_skipWord.bind fun _ => contained_readString.bind fun s => ?_
  split
  · exact .pure _
  · exact contained_skipSpaces.bind fun _ => contained_skipWord.bind fun _ =>
      contained_skipSpaces.bind fun _ => contained_readString.bind fun _ =>
        Contained.ite (.pure _) (.pure _)

theorem contained_seqCode (buf : List Byte) : Contained (seqCode source st buf) := by
  refine contained_skipSpaces.bind fun _ => contained_readString.bind fun s => ?_
  split
  · exact .pure _
  · exact Contained.ite (.pure _) (.pure _)

theorem ahead_seqCode (buf : List Byte) : Ahead (seqCode source st buf) := by
  refine (ahead_skipWhile _).bind fun _ => ahead_readString.bind fun s => ?_
  split
  · exact .pure _
  · exact Ahead.ite (.pure _) (.pure _)

/-- The sequence of a `SEQ` line and what follows -/
def sequenceOf (l : List Byte) : List Byte :=
  (l.dropWhile fun c => c != 0 && !isAsciiSpace c).dropWhile isAsciiSpace

/-- A `SEQ` line whose quoted string is closed by no quote, and whose last character is a
backslash that escapes nothing on the line. -/
def Dangling (l : List Byte) : Prop :=
  cmdcmp (bytes "SEQ") l = true ∧ ∃ s, sequenceOf l = 34 :: s ∧ dangles s = true

theorem sequenceOf_suffix (l : List Byte) : sequenceOf l <:+ l :=
  (List.dropWhile_suffix _).trans (List.dropWhile_suffix _)

theorem stays_seqLine (source : ConfigSource) (st : KeyState) (hl : 0 ∉ l)
    (hd : ∀ s, sequenceOf l = 34 :: s → dangles s = false) :
    ∃ r l', StaysOn (seqLine source st) l r l' := by
  have hsequence : 0 ∉ sequenceOf l := fun h => hl ((sequenceOf_suffix l).subset h)
  obtain ⟨buf, s, hparse⟩ := stays_parseString hsequence hd
  refine (stays_skipWord l).exists_bind ((stays_skipSpaces _).exists_bind
    ((stays_readString hsequence).exists_bind (hparse.bind_contained hsequence ?_)))
  cases buf with
  | none => exact .pure _
  | some buf => exact Contained.ite (.pure _) (contained_seqCode _)

theorem crosses_seqLine {s : List Byte} (hl : 0 ∉ l) (hs : sequenceOf l = 34 :: s)
    (hd : dangles s = true) : Crosses (seqLine source st) l := by
  have hsequence : 0 ∉ sequenceOf l := fun h => hl ((sequenceOf_suffix l).subset h)
  have hs0 : 0 ∉ s := fun h => hsequence (hs ▸ List.mem_cons_of_mem 34 h)
  refine (stays_skipWord l).crosses ((stays_skipSpaces _).crosses
    ((stays_readString hsequence).crosses (Crosses.bind ?_ fun buf => ?_)))
  · rw [hs]
    exact crosses_parseString hs0 hd
  · split
    · exact .pure _
    · exact Ahead.ite (.pure _) (ahead_seqCode _)

theorem ahead_seqLine : Ahead (seqLine source st) := by
  refine (ahead_skipWhile _).bind fun _ => (ahead_skipWhile _).bind fun _ =>
    ahead_readString.bind fun _ => (ahead_parseString _).bind fun buf => ?_
  split
  · exact .pure _
  · exact Ahead.ite (.pure _) (ahead_seqCode _)

theorem ahead_bindLine : Ahead (bindLine source st) :=
  (ahead_startsWith _).bind fun _ => Ahead.ite ahead_keyLine <|
    (ahead_startsWith _).bind fun _ => Ahead.ite ahead_seqLine (.pure _)

theorem stays_key (hl : 0 ∉ l) :
    StaysOn (startsWith (bytes "KEY")) l (cmdcmp (bytes "KEY") l) l :=
  stays_startsWith (by decide) (by decide) hl

theorem stays_seq (hl : 0 ∉ l) :
    StaysOn (startsWith (bytes "SEQ")) l (cmdcmp (bytes "SEQ") l) l :=
  stays_startsWith (by decide) (by decide) hl

theorem not_key_of_seq (h : cmdcmp (bytes "SEQ") l = true) : cmdcmp (bytes "KEY") l = false := by
  cases l with
  | nil => rfl
  | cons c l =>
      have hs : asciiUpCase 83 = asciiUpCase c := by
        have h' : (asciiUpCase 83 == asciiUpCase c && cmdcmp [69, 81] l) = true := h
        simpa using (Bool.and_eq_true_iff.mp h').1
      have hk : (asciiUpCase 75 == asciiUpCase c) = false := by
        rw [← hs]
        decide
      have hkey : cmdcmp (bytes "KEY") (c :: l) =
          (asciiUpCase 75 == asciiUpCase c && cmdcmp [69, 89] l) := rfl
      rw [hkey, hk, Bool.false_and]

theorem stays_bindLine (source : ConfigSource) (st : KeyState) (hl : 0 ∉ l)
    (hd : ¬ Dangling l) :
    ∃ r l', StaysOn (bindLine source st) l r l' := by
  cases hkey : cmdcmp (bytes "KEY") l with
  | true =>
      obtain ⟨r, l', h⟩ := contained_keyLine source st l hl
      exact ⟨r, l', (stays_key hl).bind (by rw [hkey]; exact h)⟩
  | false =>
      cases hseq : cmdcmp (bytes "SEQ") l with
      | true =>
          obtain ⟨r, l', h⟩ := stays_seqLine source st hl fun s hs =>
            Bool.eq_false_iff.mpr fun hdangles => hd ⟨hseq, s, hs, hdangles⟩
          exact ⟨r, l', (stays_key hl).bind (by
            rw [hkey]; exact (stays_seq hl).bind (by rw [hseq]; exact h))⟩
      | false =>
          exact ⟨.ok st, l, (stays_key hl).bind (by
            rw [hkey]; exact (stays_seq hl).bind (by rw [hseq]; exact .pure _ _))⟩

theorem crosses_bindLine (hl : 0 ∉ l) (hd : Dangling l) : Crosses (bindLine source st) l := by
  obtain ⟨hseq, s, hs, hdangles⟩ := hd
  refine (stays_key hl).crosses ?_
  rw [not_key_of_seq hseq]
  refine (stays_seq hl).crosses ?_
  rw [hseq]
  exact crosses_seqLine hl hs hdangles

end NiceEditor.KeyLines
