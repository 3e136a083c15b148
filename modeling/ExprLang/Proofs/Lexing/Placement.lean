import ExprLang.Proofs.Diagnostics.Positions
import ExprLang.Proofs.Grammar.Brackets
import ExprLang.Proofs.Lexing.Reports
import ExprLang.Proofs.Lexing.Scans
import ExprLang.Proofs.Lexing.Steps

/-!
# Where the lexer reports

With the built-in grammars every token of a lexed forest is a part of the source, and so is what
each report is about: what a scan rule has read, or the end of it, a closing delimiter, or the
delimiter that opened a context. Only a source that is too large is reported at no part of it.

Main definitions:
* `LexState.InParts`: a state whose tokens and reports are at parts of the source.

Main results:
* `Delimiter.Known.isPart_error`: what a scan rule finds fault with;
* `LexInput.inParts_final`: the state in which a lexer ends.
-/

namespace ExprLang

section Faults

/-- A fault of the built-in rules, which has a wording of its own. -/
def ScanFault.IsBuiltIn : ScanFault → Prop
  | .other _ => False
  | _ => True

/-- What a scan finds fault with is all that it has read. -/
def Scan.BlamesAll (scan : Scan) : Prop :=
  ∀ error, scan.error = some error →
    error.offset = 0 ∧ error.length = scan.consumed ∧ error.fault.IsBuiltIn

theorem Scan.blamesAll_of_none {scan : Scan} (h : scan.error = none) : scan.BlamesAll := by
  intro error herror
  rw [h] at herror
  cases herror

theorem Scan.blamesAll_withError (scan : Scan) {fault : ScanFault} (hfault : fault.IsBuiltIn) :
    (scan.withError 0 scan.consumed fault).BlamesAll := by
  rintro _ ⟨⟩
  exact ⟨rfl, rfl, hfault⟩

namespace ScanRules

open Scan (blamesAll_of_none blamesAll_withError)

theorem blamesAll_codePoint (value size : Nat) : (codePoint value size).BlamesAll := by
  by_cases hvalid : value.isValidChar
  · rw [codePoint, dif_pos hvalid]
    exact blamesAll_of_none rfl
  · rw [codePoint, dif_neg hvalid]
    exact blamesAll_withError (.plain size) trivial

theorem blamesAll_hexEscape (rest : List Char) (least most : Nat) :
    (hexEscape rest least most).BlamesAll := by
  unfold hexEscape
  simp only
  split
  · exact blamesAll_withError (.plain _) trivial
  · exact blamesAll_codePoint _ _

theorem blamesAll_escapeBody (text : List Char) : (escapeBody text).BlamesAll := by
  unfold escapeBody
  split
  · exact blamesAll_withError (.plain 1) trivial
  · split
    · exact blamesAll_of_none rfl
    · split_ifs
      · exact blamesAll_of_none rfl
      · exact blamesAll_of_none rfl
      · exact blamesAll_hexEscape _ _ _
      · exact blamesAll_hexEscape _ _ _
      · exact blamesAll_hexEscape _ _ _
      · exact blamesAll_codePoint _ _
      · exact blamesAll_withError (.ofValue _ _) trivial

theorem blamesAll_hexadecimal (source : Source) (index : Nat) :
    (hexadecimal source index).BlamesAll := by
  unfold hexadecimal
  simp only
  split
  · exact blamesAll_withError (.plain _) trivial
  · split
    · exact blamesAll_of_none rfl
    · exact blamesAll_withError (.plain _) trivial

theorem blamesAll_boolean (source : Source) (index : Nat) : (boolean source index).BlamesAll := by
  unfold boolean
  split
  · exact blamesAll_of_none rfl
  · exact blamesAll_of_none rfl

/-- A number without a fault, one that is blamed as a whole, or one that ends in a point. -/
theorem blamesAll_number (source : Source) (index : Nat) :
    (number source index).BlamesAll ∨
      (takeNumber (textFrom source index)).getLast? = some '.' ∧
        (number source index).error =
          some ⟨(takeNumber (textFrom source index)).length - 1, 1, .missingFraction⟩ := by
  unfold number
  simp only
  split
  · exact Or.inr ⟨‹_›, rfl⟩
  · left
    split
    · split
      · exact blamesAll_of_none rfl
      · exact blamesAll_withError (.plain _) trivial
    · split
      · exact blamesAll_of_none rfl
      · split
        · exact blamesAll_of_none rfl
        · exact blamesAll_withError (.plain _) trivial

end ScanRules

variable {d : Delimiter} {source : Source} {index : Nat} {rest : List Char} {error : ScanError}

/-- What is found fault with as a whole is what was taken from the text. -/
theorem Scan.Takes.isPart {scan : Scan} (h : scan.Takes rest) (hat : source.IsAt index rest)
    (hall : scan.BlamesAll) (herror : scan.error = some error) :
    source.IsPart (.ofLength (index + error.offset) error.length) := by
  obtain ⟨taken, ⟨behind, rfl⟩, hne, hsize⟩ := h
  obtain ⟨hoffset, hlength, -⟩ := hall error herror
  rw [hoffset, hlength, hsize, Nat.add_zero]
  exact hat.isPart hne

/-- The point at which a number ends. -/
theorem isPart_missingFraction (hat : source.IsAt index rest)
    (hlast : (ScanRules.takeNumber rest).getLast? = some '.') :
    source.IsPart (.ofLength (index + ((ScanRules.takeNumber rest).length - 1)) 1) := by
  obtain ⟨front, hfront⟩ := List.getLast?_eq_some_iff.mp hlast
  obtain ⟨behind, hbehind⟩ := ScanRules.takeNumber_isPrefix rest
  have hsize := ScanRules.byteSize_takeNumber rest
  have hpoint : Text.byteSize ['.'] = 1 := rfl
  rw [hfront, Text.byteSize_append, List.length_append, hpoint, List.length_singleton] at hsize
  have hlength : front.length = Text.byteSize front := by omega
  rw [← hbehind, hfront, List.append_assoc] at hat
  rw [hfront, List.length_append, List.length_singleton, Nat.add_sub_cancel, hlength]
  exact hat.behind.isPart (List.cons_ne_nil _ _)

/-- The rules of the built-in grammars blame all that they have read, or the point at which a
number ends. -/
theorem Delimiter.Known.blamesAll_scanAt (hd : d.Known) (source : Source) (index : Nat) :
    (d.scanAt source index).BlamesAll ∨
      (ScanRules.takeNumber (ScanRules.textFrom source index)).getLast? = some '.' ∧
        (d.scanAt source index).error =
          some ⟨(ScanRules.takeNumber (ScanRules.textFrom source index)).length - 1, 1,
            .missingFraction⟩ := by
  have hscanned : ∀ rule : ScanRule, d.scan = some rule →
      d.scanAt source index = rule source index := by
    intro rule hscan
    unfold scanAt
    rw [hscan]
  have hnumber := ScanRules.blamesAll_number source index
  cases hd with
  | bare _ hscan _ =>
      unfold scanAt
      rw [hscan]
      exact Or.inl (Scan.blamesAll_of_none rfl)
  | digit _ _ _ hscan => rwa [hscanned _ hscan]
  | minus _ _ hscan => rwa [hscanned _ hscan]
  | point _ _ hscan => rwa [hscanned _ hscan]
  | hexadecimal _ _ hscan =>
      rw [hscanned _ hscan]
      exact Or.inl (ScanRules.blamesAll_hexadecimal source index)
  | boolean _ _ hscan =>
      rw [hscanned _ hscan]
      exact Or.inl (ScanRules.blamesAll_boolean source index)
  | escape _ _ hscan =>
      rw [hscanned _ hscan]
      exact Or.inl (ScanRules.blamesAll_escapeBody _)
  | lineBreak _ _ hscan =>
      rw [hscanned _ hscan]
      exact Or.inl (Scan.blamesAll_withError (.plain _) trivial)
  | continuation _ _ hscan =>
      rw [hscanned _ hscan]
      exact Or.inl (Scan.blamesAll_of_none rfl)

/-- What a scan rule of the built-in grammars finds fault with is a part of the source. -/
theorem Delimiter.Known.isPart_error (hd : d.Known) (hne : d.text ≠ [])
    (hat : source.IsAt index rest) (hstands : d.standsAt source index rest = true)
    (herror : (d.scanAt source index).error = some error) :
    source.IsPart (.ofLength (index + error.offset) error.length) := by
  rcases hd.blamesAll_scanAt source index with hall | ⟨hlast, hfault⟩
  · exact (hd.takes_scanAt (fun _ => hne) hat hstands).isPart hat hall herror
  · rw [hat.textFrom_eq] at hlast hfault
    obtain rfl := Option.some.inj (hfault.symm.trans herror)
    exact isPart_missingFraction hat hlast

/-- What a scan rule of the built-in grammars finds wrong has a wording of its own. -/
theorem Delimiter.Known.isBuiltIn_fault (hd : d.Known)
    (herror : (d.scanAt source index).error = some error) : error.fault.IsBuiltIn := by
  rcases hd.blamesAll_scanAt source index with hall | ⟨-, hfault⟩
  · exact (hall error herror).2.2
  · obtain rfl := Option.some.inj (hfault.symm.trans herror)
    trivial

end Faults

/-- A state in which tokens, open contexts and reports are at parts of the source. -/
structure LexState.InParts (table : RuleSetTable) (source : Source) (state : LexState) :
    Prop where
  text : ∀ start, state.textStart = some start → source.IsBoundary start
  pending : ∀ token ∈ state.pending.toList, source.IsPart token.span
  arena : ∀ token ∈ state.forest.arena.toList, source.IsPart token.span
  opened : ∀ context ∈ state.stack, context.start < state.cursor ∧
    source.IsPart (.ofLength context.start (Text.byteSize (table.delimiter context.opener).text))
  log : state.log.IsPlaced source

namespace LexState.InParts

variable {table : RuleSetTable} {source : Source} {state : LexState}

theorem pushToken (h : state.InParts table source) {token : Token}
    (htoken : source.IsPart token.span) : (state.pushToken token).InParts table source where
  text := h.text
  pending := by
    intro other hmem
    rw [LexState.pushToken, Array.toList_push] at hmem
    rcases List.mem_append.mp hmem with hmem | hmem
    · exact h.pending other hmem
    · rw [List.mem_singleton.mp hmem]
      exact htoken
  arena := h.arena
  opened := h.opened
  log := h.log

theorem report (h : state.InParts table source) (category : Category) {span : Span}
    (hspan : source.IsPart span) (message : String) :
    (state.report category span message).InParts table source :=
  ⟨h.text, h.pending, h.arena, h.opened, h.log.report category hspan message⟩

theorem advance (h : state.InParts table source) (size : Nat) (rest : List Char) :
    (state.advance size rest).InParts table source where
  text := h.text
  pending := h.pending
  arena := h.arena
  opened := fun context hcontext =>
    ⟨(h.opened context hcontext).1.trans_le (Nat.le_add_right _ _), (h.opened context hcontext).2⟩
  log := h.log

/-- The plain text up to a place is a part of the source. -/
theorem flushText (h : state.InParts table source)
    (hlater : ∀ start, state.textStart = some start → start < state.cursor)
    (hcursor : source.IsBoundary state.cursor) : state.flushText.InParts table source := by
  unfold LexState.flushText
  split
  · exact h
  · rename_i start hstart
    have hended : { state with textStart := none }.InParts table source :=
      ⟨(fun _ hnone => nomatch hnone), h.pending, h.arena, h.opened, h.log⟩
    exact hended.pushToken ⟨hlater start hstart, h.text start hstart, hcursor⟩

/-- The token of a context that is closed at a place behind its start. -/
theorem closeContext (h : state.InParts table source) (closer : Option DelimiterId) {stop : Nat}
    (hstop : source.IsBoundary stop) (hle : state.cursor ≤ stop) :
    (state.closeContext closer stop).InParts table source := by
  unfold LexState.closeContext
  cases hstack : state.stack with
  | nil => exact h
  | cons context outer =>
      obtain ⟨hstart, hopener⟩ := h.opened context (hstack ▸ List.mem_cons_self)
      refine pushToken ?_ ⟨hstart.trans_le hle, hopener.start, hstop⟩
      refine ⟨h.text, ?_, ?_, ?_, h.log⟩
      · intro token hmem
        rw [Array.shrink_eq_take] at hmem
        exact h.pending token (Forest.mem_of_mem_extract hmem)
      · intro token hmem
        rcases Forest.mem_arena_closeNode.mp hmem with hmem | hmem
        · exact h.arena token hmem
        · exact h.pending token (Forest.mem_of_mem_extract hmem)
      · exact fun other hother => h.opened other (hstack ▸ List.mem_cons_of_mem _ hother)

theorem closeAll (h : state.InParts table source) (count : Nat) {stop : Nat}
    (hstop : source.IsBoundary stop) (hle : state.cursor ≤ stop) :
    (LexInput.closeAll stop count state).InParts table source := by
  induction count generalizing state with
  | zero => exact h
  | succ count ih =>
      refine ih (h.closeContext none hstop hle) ?_
      rw [(LexInput.samePlace_closeContext state none stop).cursor]
      exact hle

theorem pushDelimiter (h : state.InParts table source) (id : DelimiterId) {span : Span}
    (hspan : source.IsPart span) (value : Option Literal) :
    (LexInput.pushDelimiter state id span value).InParts table source := by
  unfold LexInput.pushDelimiter
  cases value with
  | none => exact h.pushToken hspan
  | some literal =>
      have hkept : { state with forest := (state.forest.pushLiteral literal).2 }.InParts table
          source := ⟨h.text, h.pending, h.arena, h.opened, h.log⟩
      exact hkept.pushToken hspan

end LexState.InParts

namespace LexInput

variable {input : LexInput} {state : LexState}

section Delimiters

variable {id : DelimiterId} {span : Span} (hspan : input.source.IsPart span)
  (hstop : span.stop = state.cursor)
  (hopener : input.source.IsPart
    (.ofLength span.start (Text.byteSize (input.table.delimiter id).text)))

include hspan hstop hopener

/-- A context that is opened starts with its delimiter. -/
theorem inParts_openContext (h : state.InParts input.table input.source) :
    (input.openContext state id span).InParts input.table input.source := by
  unfold openContext
  simp only
  split
  · exact (h.report _ hspan _).pushToken hspan
  · refine LexState.InParts.pushToken ?_ hspan
    refine ⟨h.text, h.pending, h.arena, ?_, h.log⟩
    intro context hcontext
    rcases List.mem_cons.mp hcontext with rfl | hcontext
    · exact ⟨hstop ▸ hspan.nonempty, hopener⟩
    · exact h.opened context hcontext

theorem inParts_placeDelimiter (h : state.InParts input.table input.source)
    (value : Option Literal) :
    (input.placeDelimiter state id span value).InParts input.table input.source := by
  rcases placeDelimiter_cases input state id span value with
    ⟨-, -, hclose⟩ | ⟨-, hopen⟩ | ⟨-, hreport⟩ | ⟨-, hplain⟩
  · rw [hclose]
    exact (h.pushToken hspan).closeContext (some id) hspan.stop hstop.ge
  · rw [hopen]
    exact inParts_openContext hspan hstop hopener h
  · rw [hreport]
    exact (h.report _ hspan _).pushDelimiter id hspan value
  · rw [hplain]
    exact h.pushDelimiter id hspan value

end Delimiters

variable (htable : input.table = Grammar.builtin)

include htable

/-- What is read from the place of a delimiter is a part of the source. -/
theorem inParts_readDelimiter (h : state.InParts input.table input.source) {id : DelimiterId}
    {c : Char} {text behind : List Char}
    (hat : input.source.IsAt state.cursor (c :: text ++ behind))
    (hrest : state.rest = c :: text ++ behind) (htext : (input.table.delimiter id).text = c :: text)
    (hstands : (input.table.delimiter id).standsAt input.source state.cursor state.rest = true) :
    (input.readDelimiter state id).InParts input.table input.source := by
  have hknown : (input.table.delimiter id).Known := htable ▸ Grammar.known_delimiter id
  have hopener : input.source.IsPart
      (.ofLength state.cursor (Text.byteSize (input.table.delimiter id).text)) := by
    rw [htext]
    exact hat.isPart (List.cons_ne_nil _ _)
  obtain ⟨taken, rest, reported, hne, htaken, -, hreported, hread⟩ :=
    exists_readDelimiter htext hrest
  have hspan : input.source.IsPart (.ofLength state.cursor (Text.byteSize taken)) := by
    rw [← hrest, htaken] at hat
    exact hat.isPart hne
  rw [hread]
  rcases hreported with rfl | ⟨error, herror, rfl⟩
  · exact inParts_placeDelimiter hspan rfl hopener (h.advance _ _) _
  · refine inParts_placeDelimiter hspan rfl hopener ((h.report _ ?_ _).advance _ _) _
    refine hknown.isPart_error ?_ (hrest ▸ hat) hstands herror
    rw [htext]
    exact List.cons_ne_nil _ _

/-- Steps keep tokens and reports at parts of the source. -/
theorem inParts_step (hreads : input.Reads state) (h : state.InParts input.table input.source)
    {c : Char} {rest : List Char} (hrest : state.rest = c :: rest) :
    (input.step state).InParts input.table input.source := by
  have hcursor : input.source.IsBoundary state.cursor := ⟨_, hreads.place⟩
  have hflushed := h.flushText hreads.text hcursor
  obtain ⟨hsame, -, -⟩ := samePlace_flushText state
  rcases step_cases input hreads.unfinished with
    ⟨hnil, -⟩ | ⟨_, _, -, ⟨-, hblank⟩ | ⟨id, hfind, hread⟩ | htext⟩
  · rw [hrest] at hnil
    cases hnil
  · rw [hblank]
    exact hflushed.advance _ _
  · rw [hread]
    rw [htable, hrest] at hfind
    obtain ⟨text, behind, htext, rfl⟩ := Grammar.exists_text_of_findIn hfind
    have hstands := (RuleSetTable.of_search_eq_some _ hfind).1
    have hplace : input.source.IsAt state.cursor state.rest := hreads.place
    refine inParts_readDelimiter htable hflushed ?_ ((rest_flushText state).trans hrest)
      (htable ▸ htext) ?_
    · rw [hsame, List.cons_append, ← hrest]
      exact hplace
    · rw [hsame, rest_flushText, hrest, htable]
      exact hstands
  · rw [htext]
    refine LexState.InParts.advance ?_ _ _
    refine ⟨?_, h.pending, h.arena, h.opened, h.log⟩
    intro start hstart
    cases hold : state.textStart with
    | none =>
        rw [hold] at hstart
        exact Option.some.inj hstart ▸ hcursor
    | some old =>
        rw [hold] at hstart
        exact h.text start (hold.trans hstart)

omit htable in
/-- What is reported at the end is the delimiters of contexts that are open. -/
theorem isPlaced_reportOpen {contexts : List OpenContext} {log : Log}
    (h : log.IsPlaced input.source)
    (hcontexts : ∀ context ∈ contexts, input.source.IsPart
      (.ofLength context.start (Text.byteSize (input.table.delimiter context.opener).text))) :
    (contexts.foldl input.reportOpen log).IsPlaced input.source := by
  induction contexts generalizing log with
  | nil => exact h
  | cons context contexts ih =>
      obtain ⟨hcontext, hrest⟩ := List.forall_mem_cons.mp hcontexts
      refine ih ?_ hrest
      unfold reportOpen
      split
      · exact h
      · exact h.report _ hcontext _

omit htable in
/-- The end of a run keeps tokens and reports at parts of the source. -/
theorem inParts_stop (hreads : input.Reads state) (h : state.InParts input.table input.source) :
    (input.stop state).InParts input.table input.source := by
  have hcursor : input.source.IsBoundary state.cursor := ⟨_, hreads.place⟩
  have hflushed := h.flushText hreads.text hcursor
  have hreported : (input.reported state).InParts input.table input.source := by
    refine ⟨hflushed.text, hflushed.pending, hflushed.arena, hflushed.opened, ?_⟩
    refine isPlaced_reportOpen hflushed.log fun context hcontext => ?_
    exact (hflushed.opened context (List.mem_reverse.mp hcontext)).2
  have hclosed := hreported.closeAll (input.reported state).stack.length hcursor
    (samePlace_flushText state).1.le
  rw [stop_eq hreads.unfinished]
  refine ⟨hclosed.text, (fun _ hmem => nomatch hmem), ?_, hclosed.opened, hclosed.log⟩
  intro token hmem
  rcases Forest.mem_arena_closeNode.mp hmem with hmem | hmem
  · exact hclosed.arena token hmem
  · exact hclosed.pending token hmem

theorem inParts_final (hsize : input.source.size < Span.offsetCount) (calls : List LexCall) :
    (input.final calls).InParts input.table input.source := by
  have hfresh : input.fresh.InParts input.table input.source := by
    refine ⟨?_, ?_, ?_, ?_, Log.isPlaced_ofSource _⟩
    · exact fun _ hnone => nomatch hnone
    · exact fun _ hmem => nomatch hmem
    · exact fun _ hmem => nomatch hmem
    · exact fun _ hmem => nomatch hmem
  obtain ⟨last, hreads, hlast, hfinal⟩ := exists_final_eq_stop hsize hfresh
    (fun _ _ _ hreads hs hrest => inParts_step htable hreads hs hrest) calls
  rw [hfinal]
  exact inParts_stop hreads hlast

end LexInput

end ExprLang
