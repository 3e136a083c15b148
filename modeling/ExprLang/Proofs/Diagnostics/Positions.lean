import ExprLang.Diagnostics.Log
import ExprLang.Proofs.Text.Places
import Mathlib.Data.List.DropRight

/-!
# Where problems are reported

A span is a part of a source if it covers at least one of its characters and none of them in part.
The row of the place where such a part starts is one more than the number of line feeds in front of
it, and its column one more than the number of characters behind the last of these.

Main definitions:
* `Source.IsPart`: the spans that are parts of a source;
* `Diagnostic.IsPlaced`: a problem that is reported at a part of a source, with its row and column;
* `Log.IsPlaced`: a log with such reports only.

Main results:
* `LineTable.position_ofSource`: the row and the column of a place;
* `Log.IsPlaced.report`: a report at a part of the source.
-/

namespace ExprLang

namespace Source

/-- An offset at which a character starts or the text ends. -/
def IsBoundary (source : Source) (offset : Nat) : Prop :=
  ∃ rest, source.IsAt offset rest

/-- A span that covers characters of a source, at least one, and none of them in part. -/
structure IsPart (source : Source) (span : Span) : Prop where
  nonempty : span.start < span.stop
  start : source.IsBoundary span.start
  stop : source.IsBoundary span.stop

variable {source : Source}

/-- The first characters of the text from a place on are a part of the source. -/
theorem IsAt.isPart {index : Nat} {taken behind : List Char}
    (h : source.IsAt index (taken ++ behind)) (hne : taken ≠ []) :
    source.IsPart (.ofLength index (Text.byteSize taken)) where
  nonempty := by
    have hlength := List.length_pos_of_ne_nil hne
    have hsize := Text.length_le_byteSize taken
    simp only [Span.ofLength]
    omega
  start := ⟨_, h⟩
  stop := ⟨_, h.behind⟩

/-- From the start of one part to the end of another one. -/
theorem IsPart.merge {s t : Span} (hs : source.IsPart s) (ht : source.IsPart t) :
    source.IsPart (s.merge t) where
  nonempty :=
    ((Nat.min_le_left _ _).trans_lt hs.nonempty).trans_le (Nat.le_max_left _ _)
  start := by
    unfold Span.merge
    rcases Nat.le_total s.start t.start with hle | hle
    · rw [Nat.min_eq_left hle]
      exact hs.start
    · rw [Nat.min_eq_right hle]
      exact ht.start
  stop := by
    unfold Span.merge
    rcases Nat.le_total s.stop t.stop with hle | hle
    · rw [Nat.max_eq_right hle]
      exact ht.stop
    · rw [Nat.max_eq_left hle]
      exact hs.stop

/-- The text from a place on, up to a place that is not in front of it. -/
theorem IsAt.exists_append_of_le {i j : Nat} {rest : List Char} (h : source.IsAt i rest)
    (hj : source.IsBoundary j) (hle : i ≤ j) :
    ∃ head behind, rest = head ++ behind ∧ j = i + Text.byteSize head := by
  obtain ⟨before, hbefore, rfl⟩ := h
  obtain ⟨behind, whole, hwhole, rfl⟩ := hj
  rw [hbefore] at hwhole
  rcases List.append_eq_append_iff.mp hwhole with ⟨head, rfl, rfl⟩ | ⟨head, rfl, rfl⟩
  · exact ⟨head, behind, rfl, Text.byteSize_append before head⟩
  · refine ⟨[], rest, rfl, ?_⟩
    rw [Text.byteSize_append] at hle ⊢
    rw [Text.byteSize_nil]
    omega

/-- A part of a source is what stands between two of its other parts. -/
theorem IsPart.exists_split {span : Span} (h : source.IsPart span) :
    ∃ before part behind, source.chars = before ++ part ++ behind ∧ part ≠ [] ∧
      span = ⟨Text.byteSize before, Text.byteSize before + Text.byteSize part⟩ := by
  obtain ⟨rest, hstart⟩ := h.start
  obtain ⟨part, behind, rfl, hstop⟩ := hstart.exists_append_of_le h.stop h.nonempty.le
  obtain ⟨before, hchars, hbefore⟩ := hstart
  refine ⟨before, part, behind, by rw [hchars, List.append_assoc], ?_, ?_⟩
  · rintro rfl
    exact absurd hstop h.nonempty.ne'
  · rw [hbefore, ← hstop]

end Source

section Positions

theorem startsBehindLineFeeds_append (offset : Nat) (text more : List Char) :
    startsBehindLineFeeds offset (text ++ more) =
      startsBehindLineFeeds offset text ++
        startsBehindLineFeeds (offset + Text.byteSize text) more := by
  induction text generalizing offset with
  | nil => rfl
  | cons c text ih =>
      rw [List.cons_append, startsBehindLineFeeds, startsBehindLineFeeds, ih, Text.byteSize_cons,
        Nat.add_assoc]
      split
      · rfl
      · rfl

theorem length_startsBehindLineFeeds (offset : Nat) (text : List Char) :
    (startsBehindLineFeeds offset text).length = text.count '\n' := by
  induction text generalizing offset with
  | nil => rfl
  | cons c text ih =>
      rw [startsBehindLineFeeds]
      split
      · rename_i hc
        rw [List.length_cons, ih, hc, List.count_cons_self]
      · rename_i hc
        rw [ih, List.count_cons_of_ne hc]

/-- Lines start behind the place from which the text is read, and within the text. -/
theorem bounds_of_mem_startsBehindLineFeeds {offset start : Nat} {text : List Char}
    (h : start ∈ startsBehindLineFeeds offset text) :
    offset < start ∧ start ≤ offset + Text.byteSize text := by
  induction text generalizing offset with
  | nil => cases h
  | cons c text ih =>
      have hpos := c.utf8Size_pos
      have hrest : start ∈ startsBehindLineFeeds (offset + c.utf8Size) text →
          offset < start ∧ start ≤ offset + Text.byteSize (c :: text) := by
        intro hmem
        have hbounds := ih hmem
        rw [Text.byteSize_cons]
        omega
      rw [startsBehindLineFeeds] at h
      split at h
      · rcases List.mem_cons.mp h with rfl | h
        · rw [Text.byteSize_cons]
          omega
        · exact hrest h
      · exact hrest h

/-- The last line of a text starts behind its last line feed. -/
theorem getLast_starts (text : List Char) :
    (0 :: startsBehindLineFeeds 0 text).getLast (List.cons_ne_nil _ _) =
      Text.byteSize (text.rdropWhile (· ≠ '\n')) := by
  induction text using List.reverseRecOn with
  | nil => rfl
  | append_singleton text c ih =>
      have hstarts := startsBehindLineFeeds_append 0 text [c]
      simp only [Nat.zero_add, startsBehindLineFeeds] at hstarts
      by_cases hc : c = '\n'
      · rw [if_pos hc] at hstarts
        rw [List.rdropWhile_concat_neg _ _ _ (by simp [hc]), Text.byteSize_append]
        simp only [hstarts, ← List.cons_append, List.getLast_append_singleton]
        rfl
      · rw [if_neg hc, List.append_nil] at hstarts
        rw [List.rdropWhile_concat_pos _ _ _ (by simp [hc]), ← ih]
        simp only [hstarts]

namespace LineTable

variable {source : Source} {before rest : List Char} (h : source.chars = before ++ rest)

include h

theorem starts_ofSource : (ofSource source).starts = (0 :: startsBehindLineFeeds 0 before) ++
    startsBehindLineFeeds (Text.byteSize before) rest := by
  unfold ofSource
  rw [h, startsBehindLineFeeds_append, Nat.zero_add]
  rfl

/-- The lines that start in front of a place are those behind the line feeds there. -/
theorem rowOf_ofSource :
    (ofSource source).rowOf (Text.byteSize before) = before.count '\n' + 1 := by
  unfold rowOf
  rw [starts_ofSource h, List.countP_append, List.countP_eq_length.mpr, List.countP_eq_zero.mpr,
    List.length_cons, length_startsBehindLineFeeds]
  · intro start hstart
    have hlate := (bounds_of_mem_startsBehindLineFeeds hstart).1
    simpa using hlate
  · intro start hstart
    rcases List.mem_cons.mp hstart with rfl | hstart
    · simp
    · have hearly := (bounds_of_mem_startsBehindLineFeeds hstart).2
      simpa using hearly

/-- The row of a place starts behind the last line feed in front of it. -/
theorem lineStart?_ofSource :
    (ofSource source).lineStart? (before.count '\n' + 1) =
      some (Text.byteSize (before.rdropWhile (· ≠ '\n'))) := by
  unfold lineStart?
  rw [if_neg (Nat.succ_ne_zero _), Nat.add_sub_cancel, starts_ofSource h,
    List.getElem?_append_left (by simp [length_startsBehindLineFeeds]), ← getLast_starts,
    ← List.getLast?_eq_some_getLast, List.getLast?_eq_getElem?, List.length_cons,
    length_startsBehindLineFeeds, Nat.add_sub_cancel]

/-- The column of a place is that behind the characters of its line in front of it. -/
theorem columnOf_ofSource :
    (ofSource source).columnOf (Text.byteSize before) =
      (before.rtakeWhile (· ≠ '\n')).length + 1 := by
  have hat : source.IsAt (Text.byteSize (before.rdropWhile (· ≠ '\n')))
      (before.rtakeWhile (· ≠ '\n') ++ rest) := by
    refine ⟨_, ?_, rfl⟩
    rw [← List.append_assoc, List.rdropWhile_append_rtakeWhile, h]
  have hsize : Text.byteSize before = Text.byteSize (before.rdropWhile (· ≠ '\n')) +
      Text.byteSize (before.rtakeWhile (· ≠ '\n')) := by
    rw [← Text.byteSize_append, List.rdropWhile_append_rtakeWhile]
  have hle : Text.byteSize before ≤ source.size := by
    rw [source.size_eq, h, Text.byteSize_append]
    exact Nat.le_add_right _ _
  unfold columnOf
  simp only [rowOf_ofSource h, lineStart?_ofSource h, Option.getD_some, source_ofSource,
    Nat.min_eq_left hle]
  rw [hsize, hat.slice?_eq, Option.map_some, Option.getD_some]

/-- The row and the column of a place. -/
theorem position_ofSource :
    (ofSource source).position (Text.byteSize before) =
      (before.count '\n' + 1, (before.rtakeWhile (· ≠ '\n')).length + 1) := by
  unfold position
  rw [rowOf_ofSource h, columnOf_ofSource h]

end LineTable

end Positions

/-- A problem that is reported at a part of a source, with the row and column of its start. -/
def Diagnostic.IsPlaced (source : Source) (d : Diagnostic) : Prop :=
  ∃ before part behind, source.chars = before ++ part ++ behind ∧ part ≠ [] ∧
    d.span = ⟨Text.byteSize before, Text.byteSize before + Text.byteSize part⟩ ∧
    d.row = before.count '\n' + 1 ∧ d.column = (before.rtakeWhile (· ≠ '\n')).length + 1

/-- The part at which a problem is reported can be taken out of the source. -/
theorem Diagnostic.IsPlaced.exists_slice? {source : Source} {d : Diagnostic}
    (h : d.IsPlaced source) :
    ∃ part, part ≠ [] ∧ source.slice? d.span.start d.span.stop = some part := by
  obtain ⟨before, part, behind, hchars, hne, hspan, -⟩ := h
  have hat : source.IsAt (Text.byteSize before) (part ++ behind) :=
    ⟨before, by rw [hchars, List.append_assoc], rfl⟩
  exact ⟨part, hne, by rw [hspan, hat.slice?_eq]⟩

namespace Log

/-- A log about a source in which all problems are reported at parts of it. -/
structure IsPlaced (source : Source) (log : Log) : Prop where
  lines : log.lines = LineTable.ofSource source
  entries : ∀ d ∈ log.entries.toList, d.IsPlaced source

variable {source : Source} {log : Log}

theorem isPlaced_ofSource (source : Source) : (Log.ofSource source).IsPlaced source :=
  ⟨rfl, fun _ h => nomatch h⟩

/-- A report at a part of the source has its row and column. -/
theorem isPlaced_entry (hlines : log.lines = LineTable.ofSource source) (category : Category)
    {span : Span} (hspan : source.IsPart span) (message : String) :
    (log.entry category span message).IsPlaced source := by
  obtain ⟨before, part, behind, hchars, hne, rfl⟩ := hspan.exists_split
  refine ⟨before, part, behind, hchars, hne, ?_⟩
  rw [List.append_assoc] at hchars
  unfold entry
  rw [hlines, LineTable.position_ofSource hchars]
  exact ⟨rfl, rfl, rfl⟩

/-- A log stays placed with a report at a part of the source. -/
theorem IsPlaced.report (h : log.IsPlaced source) (category : Category) {span : Span}
    (hspan : source.IsPart span) (message : String) :
    (log.report category span message).IsPlaced source := by
  refine ⟨h.lines, fun d hd => ?_⟩
  rw [toList_report] at hd
  rcases List.mem_append.mp hd with hd | hd
  · exact h.entries d hd
  · rw [List.mem_singleton.mp hd]
    exact isPlaced_entry h.lines category hspan message

theorem IsPlaced.rollback (h : log.IsPlaced source) (mark : Nat) :
    (log.rollback mark).IsPlaced source := by
  refine ⟨h.lines, fun d hd => ?_⟩
  rw [toList_rollback] at hd
  exact h.entries d (List.mem_of_mem_take hd)

end Log

end ExprLang
