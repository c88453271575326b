import NiceEditor.Load
import NiceEditor.LineText

namespace NiceEditor.InsertRefinement

open NiceEditor.Pools
open NiceEditor.Ownership
open NiceEditor.PoolOwnership
open NiceEditor.LineEdits
open NiceEditor.BufferData
open NiceEditor.UndoSteps
open NiceEditor.EditStream
open NiceEditor.Load
open NiceEditor.LineText

/-- The segments of the lines are disjoint, contain no zero byte and lie inside
pools whose ends are right. -/
def WellFormed (b : Buffer) : Prop := Owns False b.chars b.lineDescList

/-- The text of a document, a line break being a NUL. -/
def bufferText (b : Buffer) : List Byte := text 0 (lines b)

variable {strict : Prop} {b b' : Buffer} {ld pos : Nat} {line : Int} {d : LineDesc}
variable {before after : List LineDesc} {s : List Byte} {status : Status}

theorem Exchanges.cons_frame {chars chars' : CharPools} {old new : List LineDesc}
    (step : Exchanges (Owns strict) lineBytes chars old chars' new) (d : LineDesc) :
    Exchanges (Owns strict) lineBytes chars (d :: old) chars' (d :: new) :=
  Exchanges.regroup (step.frame [d]) (List.perm_append_singleton d old).symm
    (List.perm_append_singleton d new)

theorem getElem?_middle (hld : before.length = ld) :
    (before ++ d :: after)[ld]? = some d := by
  subst hld
  simp

theorem set_middle (hld : before.length = ld) (d' : LineDesc) :
    (before ++ d :: after).set ld d' = before ++ d' :: after := by
  subst hld
  simp

theorem insertIdx_middle (hld : before.length = ld) (d' : LineDesc) :
    (before ++ d :: after).insertIdx (ld + 1) d' = before ++ d :: d' :: after := by
  subst hld
  exact List.modifyTailIdx_add (d' :: ·) 1 before (d :: after)

theorem eraseIdx_middle {d' : LineDesc} (hld : before.length = ld) :
    (before ++ d :: d' :: after).eraseIdx (ld + 1) = before ++ d :: after := by
  subst hld
  induction before with
  | nil => rfl
  | cons x before ih => exact congrArg (List.cons x) ih

theorem insertSegment_spec (hlist : b.lineDescList = before ++ d :: after)
    (hld : before.length = ld) (hown : Owns False b.chars [d]) (hpos : pos ≤ d.lineLen)
    (hne : ∀ x ∈ s, x ≠ 0) (h : insertSegment b ld line pos s = (status, b')) :
    ∃ d', b'.lineDescList = before ++ d' :: after ∧ b'.numLines = b.numLines ∧
      (∀ strict, Exchanges (Owns strict) lineBytes b.chars [d] b'.chars [d']) ∧
      (status = .ok → d'.lineLen = d.lineLen + s.length ∧
        lineBytes b'.chars d' =
          (lineBytes b.chars d).take pos ++ s ++ (lineBytes b.chars d).drop pos) := by
  unfold insertSegment at h
  split at h
  · rename_i hs
    obtain ⟨rfl, rfl⟩ := Prod.mk.inj h
    refine ⟨d, hlist, rfl, fun _ => Exchanges.refl _ _, fun _ => ⟨by simp [hs], ?_⟩⟩
    rw [hs, List.append_nil, List.take_append_drop]
  · rename_i hs
    simp only [hlist, getElem?_middle hld] at h
    split at h
    · rename_i chars hinsert
      obtain ⟨rfl, rfl⟩ := Prod.mk.inj h
      obtain ⟨answers, rfl⟩ := insertInLine_none hinsert
      exact ⟨d, rfl, rfl, fun _ => answers_exchanges answers, by simp⟩
    · rename_i d' chars hinsert
      obtain ⟨rfl, rfl⟩ := Prod.mk.inj h
      refine ⟨d', ?_, rfl, fun strict => (insertInLine_spec strict hown hs hne hpos hinsert).1,
        fun _ => ⟨?_, (insertInLine_spec False hown hs hne hpos hinsert).2⟩⟩
      · simp only [movePlaces, setLine, set_middle hld]
      · exact insertInLine_lineLen (hown.null d (List.mem_singleton_self _)) hinsert

theorem insertBreak_spec {len : Nat} (hlist : b.lineDescList = before ++ d :: after)
    (hld : before.length = ld) (hown : Owns False b.chars [d]) (hpos : pos + len ≤ d.lineLen)
    (h : insertBreak b ld line pos len = (status, b')) :
    (status ≠ .ok ∧ b'.lineDescList = before ++ d :: after ∧ b'.numLines = b.numLines ∧
      ∀ strict, Exchanges (Owns strict) lineBytes b.chars [d] b'.chars [d]) ∨
    (status = .ok ∧ ∃ head tail, b'.lineDescList = before ++ head :: tail :: after ∧
      b'.numLines = b.numLines + 1 ∧
      (∀ strict, Exchanges (Owns strict) lineBytes b.chars [d] b'.chars [head, tail]) ∧
      lineBytes b'.chars head = (lineBytes b.chars d).take (pos + len) ∧
      lineBytes b'.chars tail = (lineBytes b.chars d).drop (pos + len)) := by
  have hbytes := splitLine_bytes hown hpos
  simp only [insertBreak, hlist, getElem?_middle hld] at h
  split at h
  · obtain ⟨rfl, rfl⟩ := Prod.mk.inj h
    refine Or.inr ⟨rfl, (splitLine d (pos + len)).1, (splitLine d (pos + len)).2, ?_, rfl,
      fun strict => (splitLine_exchanges hown hpos).trans (answers_exchanges _),
      hbytes.1, hbytes.2⟩
    simp only [movePlaces, addLine, setLine, setAnswers, hlist, set_middle hld,
      insertIdx_middle hld]
  · obtain ⟨rfl, rfl⟩ := Prod.mk.inj h
    exact Or.inl ⟨by simp, hlist, rfl, fun strict => answers_exchanges _⟩

/-- What the loop of `insert_stream` does to the line list.  Line `d` is given up
for the lines `new`; every other line stays where it is. -/
theorem insertSegments_spec {segs : List (List Byte)}
    (hlist : b.lineDescList = before ++ d :: after) (hld : before.length = ld)
    (hown : Owns False b.chars [d]) (hpos : pos ≤ d.lineLen) (hsegs : segs ≠ [])
    (hne : ∀ s ∈ segs, ∀ x ∈ s, x ≠ 0)
    (h : insertSegments b ld line pos segs = (status, b')) :
    ∃ new, b'.lineDescList = before ++ new ++ after ∧
      (∀ strict, Exchanges (Owns strict) lineBytes b.chars [d] b'.chars new) ∧
      (status = .ok → b'.numLines = b.numLines + (segs.length - 1 : Nat) ∧
        new.map (lineBytes b'.chars) =
          spliceLines ((lineBytes b.chars d).take pos) ((lineBytes b.chars d).drop pos) segs) := by
  induction segs generalizing b ld line pos d before with
  | nil => exact absurd rfl hsegs
  | cons s rest ih =>
      have hs : ∀ x ∈ s, x ≠ 0 := hne s List.mem_cons_self
      cases rest with
      | nil =>
          obtain ⟨d', hlist', hnum, hstep, hok⟩ :=
            insertSegment_spec hlist hld hown hpos hs h
          refine ⟨[d'], by simpa using hlist', hstep, fun hstatus => ⟨by simpa using hnum, ?_⟩⟩
          simpa [spliceLines] using (hok hstatus).2
      | cons next rest =>
          simp only [insertSegments] at h
          split at h
          · rename_i b₁ hseg
            obtain ⟨d₁, hlist₁, hnum₁, hstep₁, hok₁⟩ :=
              insertSegment_spec hlist hld hown hpos hs hseg
            obtain ⟨hlen₁, hbytes₁⟩ := hok₁ rfl
            have hown₁ : Owns False b₁.chars [d₁] := (hstep₁ False).inv [] hown
            have hlen : (lineBytes b.chars d).length = d.lineLen :=
              lineBytes_length (hown.null d (List.mem_singleton_self _))
            have hcut : ((lineBytes b.chars d).take pos ++ s).length = pos + s.length := by
              rw [List.length_append, List.length_take, hlen, Nat.min_eq_left hpos]
            split at h
            · rename_i b₂ hbreak
              rcases insertBreak_spec hlist₁ hld hown₁ (by omega) hbreak with
                ⟨hnot, -⟩ | ⟨-, head, tail, hlist₂, hnum₂, hstep₂, hhead, htail⟩
              · exact absurd rfl hnot
              have hown₂ : Owns False b₂.chars [head, tail] := (hstep₂ False).inv [] hown₁
              have hownTail : Owns False b₂.chars [tail] :=
                Owns.left (hown₂.perm (List.Perm.swap _ _ _))
              obtain ⟨new, hlist', hstep, hok⟩ := ih
                (show b₂.lineDescList = (before ++ [head]) ++ tail :: after by simpa using hlist₂)
                (by simp [hld]) hownTail (Nat.zero_le _) (by simp)
                (fun seg hseg => hne seg (List.mem_cons_of_mem _ hseg)) h
              refine ⟨head :: new, by simpa using hlist', fun strict =>
                (hstep₁ strict).trans ((hstep₂ strict).trans
                  (Exchanges.cons_frame (hstep strict) head)), fun hstatus => ?_⟩
              obtain ⟨hnum, hbytes⟩ := hok hstatus
              have hkept : lineBytes b'.chars head = lineBytes b₂.chars head :=
                (hstep False).view [head] (hown₂.perm (List.Perm.swap _ _ _)) head
                  (List.mem_singleton_self _)
              refine ⟨?_, ?_⟩
              · rw [hnum, hnum₂, hnum₁]
                simp only [List.length_cons]
                omega
              · rw [List.map_cons, hbytes, hkept, hhead, htail, hbytes₁, spliceLines,
                  List.take_left' hcut, List.drop_left' hcut]
                rfl
            · rename_i hfail
              rcases insertBreak_spec hlist₁ hld hown₁ (by omega)
                (show _ = (status, b') from h) with
                ⟨hnot, hlist₂, -, hstep₂⟩ | ⟨rfl, -⟩
              · exact ⟨[d₁], by simpa using hlist₂,
                  fun strict => (hstep₁ strict).trans (hstep₂ strict),
                  fun hok => absurd hok hnot⟩
              · exact absurd h (hfail _)
          · rename_i hfail
            obtain ⟨d', hlist', -, hstep, -⟩ :=
              insertSegment_spec hlist hld hown hpos hs (show _ = (status, b') from h)
            refine ⟨[d'], by simpa using hlist', hstep, fun hok => ?_⟩
            rw [hok] at h
            exact absurd h (hfail _)

theorem addUndoStep_spec {l p n : Int} (h : addUndoStep b l p n = (status, b')) :
    ∃ answers, b'.chars = { b.chars with answers := answers } ∧
      b'.lineDescList = b.lineDescList ∧ b'.numLines = b.numLines := by
  unfold addUndoStep at h
  obtain ⟨-, rfl⟩ := Prod.mk.inj h
  exact ⟨_, rfl, rfl, rfl⟩

/-- What `insert_stream` does to the line list. -/
theorem insertStream_spec {stream : List Byte} (hlist : b.lineDescList = before ++ d :: after)
    (hld : before.length = ld) (hown : Owns False b.chars [d])
    (h : insertStream b ld line pos stream = (status, b')) :
    ∃ new, b'.lineDescList = before ++ new ++ after ∧
      (∀ strict, Exchanges (Owns strict) lineBytes b.chars [d] b'.chars new) ∧
      (status = .ok → b'.numLines = b.numLines + stream.count 0 ∧
        new.map (lineBytes b'.chars) =
          spliceLines ((lineBytes b.chars d).take pos) ((lineBytes b.chars d).drop pos)
            (stream.splitOn 0)) := by
  have hsegs : stream.splitOn 0 ≠ [] := List.splitOn_ne_nil 0 stream
  have hne : ∀ s ∈ stream.splitOn 0, ∀ x ∈ s, x ≠ 0 := fun s hs x hx hzero =>
    not_mem_of_mem_splitOn 0 hs (hzero ▸ hx)
  have hlength : (stream.splitOn 0).length - 1 = stream.count 0 := by
    rw [splitOn_length, Nat.add_sub_cancel]
  simp only [insertStream, hlist, getElem?_middle hld] at h
  split at h
  · obtain ⟨rfl, rfl⟩ := Prod.mk.inj h
    exact ⟨[d], by simpa using hlist, fun _ => Exchanges.refl _ _, by simp⟩
  · rename_i hvalid
    have hpos : pos ≤ d.lineLen := by omega
    split at h
    · split at h
      · rename_i b₁ hundo
        obtain ⟨answers, hchars, hlist₁, hnum₁⟩ := addUndoStep_spec hundo
        have hrefused : ∀ strict, Exchanges (Owns strict) lineBytes b.chars [d] b₁.chars [d] :=
          fun strict => hchars ▸ answers_exchanges answers
        obtain ⟨new, hlist', hstep, hok⟩ := insertSegments_spec (hlist₁.trans hlist) hld
          ((hrefused False).inv [] hown) hpos hsegs hne h
        refine ⟨new, hlist', fun strict => (hrefused strict).trans (hstep strict), ?_⟩
        rw [hlength, hnum₁, hchars] at hok
        exact hok
      · rename_i hfail
        obtain ⟨answers, hchars, hlist₁, -⟩ := addUndoStep_spec h
        refine ⟨[d], by simpa using hlist₁.trans hlist,
          fun strict => hchars ▸ answers_exchanges answers, fun hok => ?_⟩
        rw [hok] at h
        exact absurd h (hfail _)
    · obtain ⟨new, hlist', hstep, hok⟩ :=
        insertSegments_spec hlist hld hown hpos hsegs hne h
      rw [hlength] at hok
      exact ⟨new, hlist', hstep, hok⟩

theorem exists_middle {l : List Byte} (hline : (lines b)[ld]? = some l) :
    ∃ before d after, b.lineDescList = before ++ d :: after ∧ before.length = ld ∧
      lineBytes b.chars d = l := by
  rw [lines, List.getElem?_map, Option.map_eq_some_iff] at hline
  obtain ⟨d, hd, rfl⟩ := hline
  obtain ⟨hlt, rfl⟩ := List.getElem?_eq_some_iff.mp hd
  refine ⟨b.lineDescList.take ld, _, b.lineDescList.drop (ld + 1), ?_, ?_, rfl⟩
  · rw [List.getElem_cons_drop, List.take_append_drop]
  · exact List.length_take_of_le (by omega)

variable (before after) in
theorem lines_of_exchanges {old new : List LineDesc} (hwf : WellFormed b)
    (hlist : b.lineDescList = before ++ old ++ after)
    (hlist' : b'.lineDescList = before ++ new ++ after)
    (hstep : Exchanges (Owns False) lineBytes b.chars old b'.chars new) :
    WellFormed b' ∧ lines b' = before.map (lineBytes b.chars) ++
      (new.map (lineBytes b'.chars) ++ after.map (lineBytes b.chars)) := by
  rw [WellFormed, hlist] at hwf
  refine ⟨?_, ?_⟩
  · rw [WellFormed, hlist']
    exact hstep.inv_middle (fun hperm h => h.perm hperm) hwf
  · have hview := fun r hr => hstep.view_middle (fun hperm h => h.perm hperm) hwf (r := r) hr
    rw [lines, hlist', List.map_append, List.map_append, List.append_assoc,
      List.map_congr_left fun r hr => hview r (List.mem_append_left _ hr),
      List.map_congr_left fun r hr => hview r (List.mem_append_right before hr)]

theorem exists_line_at {ld : Nat} (hlt : ld < b.lineDescList.length) :
    ∃ before d after, b.lineDescList = before ++ d :: after ∧ before.length = ld :=
  ⟨b.lineDescList.take ld, b.lineDescList[ld], b.lineDescList.drop (ld + 1),
    by rw [List.getElem_cons_drop, List.take_append_drop],
    List.length_take_of_le (Nat.le_of_lt hlt)⟩

theorem owns_insertStream {strict : Prop} {ld : Nat} {line : Int} {pos : Nat}
    {stream : List Byte} {status : Status} (hown : Owns strict b.chars b.lineDescList)
    (h : insertStream b ld line pos stream = (status, b')) :
    Owns strict b'.chars b'.lineDescList := by
  rcases Nat.lt_or_ge ld b.lineDescList.length with hlt | hge
  · obtain ⟨before, d, after, hlist, hld⟩ := exists_line_at hlt
    rw [hlist] at hown
    have hperm : (before ++ d :: after).Perm ([d] ++ (before ++ after)) := List.perm_middle
    have hline : Owns False b.chars [d] := Owns.left (hown.perm hperm)
    obtain ⟨new, hlist', hstep, -⟩ := insertStream_spec hlist hld hline h
    rw [hlist']
    refine (hstep strict).inv_middle (fun hperm h => h.perm hperm) ?_
    simpa using hown
  · simp only [insertStream, List.getElem?_eq_none hge, Prod.mk.injEq] at h
    rw [← h.2]
    exact hown

theorem owns_clearBuffer (b : Buffer) :
    Owns True (clearBuffer b).chars (clearBuffer b).lineDescList where
  pools := ⟨List.nodup_nil, by simp [clearBuffer, freeBufferContents, resetPositionToSof],
    by simp [clearBuffer, freeBufferContents, resetPositionToSof]⟩
  null := by simp [clearBuffer, resetPositionToSof]
  used := by simp [clearBuffer, resetPositionToSof]
  apart := List.pairwise_singleton _ _
  all := by
    rintro - block i ⟨⟨c, hc, -⟩, -⟩
    simp [clearBuffer, freeBufferContents, resetPositionToSof] at hc
  allocated := fun _ => rfl
  free := fun _ => rfl

theorem insertStream_lines {stream l : List Byte} (hwf : WellFormed b)
    (hline : (lines b)[ld]? = some l) (h : insertStream b ld line pos stream = (.ok, b')) :
    WellFormed b' ∧ b'.numLines = b.numLines + stream.count 0 ∧
      ∃ before after, before.length = ld ∧ lines b = before ++ l :: after ∧
        lines b' = before ++
          (spliceLines (l.take pos) (l.drop pos) (stream.splitOn 0) ++ after) := by
  obtain ⟨before, d, after, hlist, hld, rfl⟩ := exists_middle hline
  have hown : Owns False b.chars [d] := by
    have hall : Owns False b.chars ([d] ++ (before ++ after)) := by
      rw [WellFormed, hlist] at hwf
      have hperm : (before ++ d :: after).Perm (d :: (before ++ after)) := List.perm_middle
      exact hwf.perm hperm
    exact Owns.left hall
  obtain ⟨new, hlist', hstep, hok⟩ := insertStream_spec hlist hld hown h
  obtain ⟨hnum, hnew⟩ := hok rfl
  obtain ⟨hwf', hlines'⟩ := lines_of_exchanges before after hwf (by simpa using hlist) hlist'
    (hstep False)
  refine ⟨hwf', hnum, before.map (lineBytes b.chars), after.map (lineBytes b.chars), ?_, ?_, ?_⟩
  · rw [List.length_map, hld]
  · rw [lines, hlist, List.map_append, List.map_cons]
  · rw [hlines', hnew]

theorem insertStream_text {stream l : List Byte} (hwf : WellFormed b)
    (hline : (lines b)[ld]? = some l) (hpos : pos ≤ l.length)
    (h : insertStream b ld line pos stream = (.ok, b')) :
    bufferText b' = (bufferText b).take (offset (lines b) ld pos) ++ stream ++
      (bufferText b).drop (offset (lines b) ld pos) := by
  obtain ⟨-, -, before, after, rfl, hlines, hlines'⟩ := insertStream_lines hwf hline h
  have hinsert := text_insert 0 before after hpos (List.splitOn_ne_nil 0 stream)
  rw [text_splitOn, ← hlines] at hinsert
  rw [bufferText, hlines', hinsert]
  rfl

/-- `insert_stream` refines the insertion of a text into a text: the stream stands
at the place given, the other lines are as they were. -/
theorem insertStream_refines {stream l : List Byte} (hwf : WellFormed b)
    (hline : (lines b)[ld]? = some l) (hpos : pos ≤ l.length)
    (h : insertStream b ld line pos stream = (.ok, b')) :
    WellFormed b' ∧
      bufferText b' = (bufferText b).take (offset (lines b) ld pos) ++ stream ++
        (bufferText b).drop (offset (lines b) ld pos) ∧
      b'.numLines = b.numLines + stream.count 0 ∧
      (lines b').length = (lines b).length + stream.count 0 ∧
      (lines b').take ld = (lines b).take ld ∧
      (lines b').drop (ld + 1 + stream.count 0) = (lines b).drop (ld + 1) := by
  obtain ⟨hwf', hnum, before, after, rfl, hlines, hlines'⟩ := insertStream_lines hwf hline h
  have hnewLength : (spliceLines (l.take pos) (l.drop pos) (stream.splitOn 0)).length =
      stream.count 0 + 1 := by
    rw [spliceLines_length _ _ (List.splitOn_ne_nil 0 stream), splitOn_length]
  refine ⟨hwf', insertStream_text hwf hline hpos h, hnum, ?_, ?_, ?_⟩
  · rw [hlines', hlines]
    simp only [List.length_append, List.length_cons, hnewLength]
    omega
  · rw [hlines', hlines, List.take_left, List.take_left]
  · rw [hlines', hlines, ← List.append_assoc, List.drop_left' (by
        rw [List.length_append, hnewLength]
        omega), ← List.singleton_append, ← List.append_assoc, List.drop_left' (by
        rw [List.length_append]
        rfl)]

/-- A document of two lines -/
def twoLines : Buffer := (insertStream (newBuffer false none fun _ => true) 0 0 0 [97, 98, 0, 99]).2

/-- A line break between two letters is put into the middle of the first line. -/
theorem insertStream_refines_twoLines :
    bufferText (insertStream twoLines 0 0 1 [120, 0, 121]).2 = [97, 120, 0, 121, 98, 0, 99] ∧
      (lines (insertStream twoLines 0 0 1 [120, 0, 121]).2).drop 2 = [[99]] := by
  have hnew : WellFormed (newBuffer false none fun _ => true) := (owns_clearBuffer _).weaken
  have hfirst : insertStream (newBuffer false none fun _ => true) 0 0 0 [97, 98, 0, 99] =
      (.ok, twoLines) := Prod.ext (by decide) rfl
  have hwf := (insertStream_refines hnew (l := []) rfl (Nat.le_refl 0) hfirst).1
  have hinsert : insertStream twoLines 0 0 1 [120, 0, 121] =
      (.ok, (insertStream twoLines 0 0 1 [120, 0, 121]).2) := Prod.ext (by decide) rfl
  obtain ⟨-, htext, -, -, -, hdrop⟩ :=
    insertStream_refines hwf (l := [97, 98]) (by decide) (by decide) hinsert
  exact ⟨htext.trans (by decide), hdrop.trans (by decide)⟩

end NiceEditor.InsertRefinement
