import ExprLang.Proofs.Grammar.Words
import ExprLang.Proofs.Lexing.Strays

/-!
# Words that are delimiters

A delimiter that is a word is found only where no plain text is being read, and only in front of
the end of the text, a blank or another delimiter. The search behind the word is made before the
word is read, and is not the one of the next step; but whatever breaks words is found by that one as
well, so that no plain text starts there. So there is always something between such a word and plain
text.

Main definitions:
* `Forest.IsKeyword`: a token that such a word was read as;
* `Apart`: plain text and words that do not touch, up to a place;
* `LexInput.KeepsApart`: a state in which they do not.

Main results:
* `LexInput.keepsApart_step`: steps preserve this;
* `LexInput.text_apart_keyword`: no plain text touches such a word in a lexed forest.
-/

namespace ExprLang

/-- A token that is a word of the grammar: a leaf that is no plain text, and covers the word. -/
def Forest.IsKeyword (forest : Forest) (token : Token) : Prop :=
  token.kind ≠ .text ∧ (∀ id, token.kind ≠ .node id) ∧ forest.tokenText token ∈ Grammar.keywords

theorem Forest.isKeyword_congr {forest forest' : Forest} (h : forest'.source = forest.source)
    {token : Token} : forest'.IsKeyword token ↔ forest.IsKeyword token := by
  unfold IsKeyword tokenText spanText
  rw [h]

/-- A token that stands for a node is neither plain text nor a word. -/
theorem Forest.not_isKeyword_of_node {forest : Forest} {token : Token} {id : NodeId}
    (h : token.kind = .node id) : ¬(token.kind = .text ∨ forest.IsKeyword token) := by
  rintro (htext | hword)
  · exact nomatch h.symm.trans htext
  · exact hword.2.1 id h

/-- Two tokens that touch: one of them ends where the other one starts. -/
def Token.Touches (token other : Token) : Prop :=
  token.span.stop = other.span.start ∨ token.span.start = other.span.stop

/-- Tokens that end at or in front of `cursor`, where no plain text touches a word. -/
structure Apart (forest : Forest) (tokens : List Token) (cursor : Nat) : Prop where
  ends : ∀ t ∈ tokens, t.kind = .text ∨ forest.IsKeyword t →
    t.span.start < t.span.stop ∧ t.span.stop ≤ cursor
  apart : ∀ t ∈ tokens, ∀ w ∈ tokens, t.kind = .text → forest.IsKeyword w → ¬t.Touches w

namespace Apart

variable {forest forest' : Forest} {tokens tokens' : List Token} {cursor cursor' : Nat}

/-- Tokens that are neither may be added. -/
theorem extend (h : Apart forest tokens cursor) (hsource : forest'.source = forest.source)
    (htokens : ∀ t ∈ tokens', t.kind = .text ∨ forest'.IsKeyword t → t ∈ tokens)
    (hle : cursor ≤ cursor') : Apart forest' tokens' cursor' := by
  constructor
  · intro t ht hkind
    have hold := htokens t ht hkind
    rw [Forest.isKeyword_congr hsource] at hkind
    obtain ⟨hpos, hend⟩ := h.ends t hold hkind
    exact ⟨hpos, hend.trans hle⟩
  · intro t ht w hw htext hword
    have hold := htokens w hw (Or.inr hword)
    rw [Forest.isKeyword_congr hsource] at hword
    exact h.apart t (htokens t ht (Or.inl htext)) w hold htext hword

/-- Plain text up to `cursor` may be added if no word ends where it starts. -/
theorem push_text (h : Apart forest tokens cursor) {start : Nat} (hstart : start < cursor)
    (hwords : ∀ w ∈ tokens, forest.IsKeyword w → w.span.stop ≠ start)
    (htokens : ∀ t ∈ tokens', t ∈ tokens ∨ t = ⟨⟨start, cursor⟩, .text⟩) :
    Apart forest tokens' cursor := by
  have hold : ∀ w ∈ tokens', forest.IsKeyword w → w ∈ tokens := by
    intro w hw hword
    rcases htokens w hw with hmem | rfl
    · exact hmem
    · exact absurd rfl hword.1
  constructor
  · intro t ht hkind
    rcases htokens t ht with hmem | rfl
    · exact h.ends t hmem hkind
    · exact ⟨hstart, le_rfl⟩
  · intro t ht w hw htext hword
    have hmem := hold w hw hword
    rcases htokens t ht with hmem' | rfl
    · exact h.apart t hmem' w hmem htext hword
    · obtain ⟨hpos, hend⟩ := h.ends w hmem (Or.inr hword)
      rintro (htouch | htouch)
      · exact absurd (htouch.trans_lt hpos) (Nat.not_lt.mpr hend)
      · exact hwords w hmem hword htouch.symm

/-- A token other than plain text may be added at `cursor` if no plain text ends there. -/
theorem push_leaf (h : Apart forest tokens cursor) (hsource : forest'.source = forest.source)
    {stop : Nat} (hpos : cursor < stop)
    (htexts : ∀ t ∈ tokens, t.kind = .text → t.span.stop < cursor)
    (htokens : ∀ t ∈ tokens', t.kind = .text ∨ forest'.IsKeyword t →
      t ∈ tokens ∨ t.span = ⟨cursor, stop⟩ ∧ t.kind ≠ .text) : Apart forest' tokens' stop := by
  have hold : ∀ t ∈ tokens', t.kind = .text → t ∈ tokens := fun t ht htext =>
    (htokens t ht (Or.inl htext)).resolve_right fun hleaf => hleaf.2 htext
  constructor
  · intro t ht hkind
    rcases htokens t ht hkind with hmem | ⟨hspan, -⟩
    · rw [Forest.isKeyword_congr hsource] at hkind
      obtain ⟨hpos', hend⟩ := h.ends t hmem hkind
      exact ⟨hpos', hend.trans hpos.le⟩
    · rw [hspan]
      exact ⟨hpos, le_rfl⟩
  · intro t ht w hw htext hword
    have hmem := hold t ht htext
    rcases htokens w hw (Or.inr hword) with hmem' | ⟨hspan, -⟩
    · rw [Forest.isKeyword_congr hsource] at hword
      exact h.apart t hmem w hmem' htext hword
    · have hend := htexts t hmem htext
      obtain ⟨hpos', -⟩ := h.ends t hmem (Or.inl htext)
      unfold Token.Touches
      rw [hspan]
      rintro (htouch | htouch)
      · exact absurd htouch hend.ne
      · exact absurd htouch ((hpos'.trans hend).trans hpos).ne

end Apart

namespace LexState

/-- What the end of plain text adds to the tokens. -/
theorem mem_tokens_flushText {state : LexState} {token : Token}
    (h : token ∈ state.flushText.tokens) :
    token ∈ state.tokens ∨
      ∃ start, state.textStart = some start ∧ token = ⟨⟨start, state.cursor⟩, .text⟩ := by
  unfold flushText at h
  split at h
  · exact Or.inl h
  · rename_i start hstart
    rcases (ReportsStrays.mem_tokens_pushToken _ _ _).mp h with hold | hnew
    · exact Or.inl hold
    · exact Or.inr ⟨start, hstart, List.mem_singleton.mp hnew⟩

/-- A context that is closed adds a token that stands for it. -/
theorem mem_tokens_closeContext {state : LexState} {closer : Option DelimiterId} {stop : Nat}
    {token : Token} (h : token ∈ (state.closeContext closer stop).tokens) :
    token ∈ state.tokens ∨ ∃ id, token.kind = .node id := by
  unfold closeContext at h
  split at h
  · exact Or.inl h
  · rcases (ReportsStrays.mem_tokens_pushToken _ _ _).mp h with hold | hnew
    · exact Or.inl ((ReportsStrays.mem_tokens_closeNode state _ _ closer stop token).mp hold)
    · rw [List.mem_singleton.mp hnew]
      exact Or.inr ⟨_, rfl⟩

/-- The end of the root adds nothing. -/
theorem mem_tokens_closeRoot {state : LexState} {stop : Nat} {token : Token}
    (h : token ∈ (state.closeRoot stop).tokens) : token ∈ state.tokens := by
  unfold tokens closeRoot at h
  rw [Array.toList_empty, List.nil_append, Forest.mem_arena_closeNode] at h
  exact List.mem_append.mpr h.symm

end LexState

namespace LexInput

variable {input : LexInput} {state : LexState}

/-- The end of all contexts adds tokens that stand for them. -/
theorem mem_tokens_closeAll {cursor count : Nat} {token : Token}
    (h : token ∈ (closeAll cursor count state).tokens) :
    token ∈ state.tokens ∨ ∃ id, token.kind = .node id := by
  induction count generalizing state with
  | zero => exact Or.inl h
  | succ count ih =>
      rcases ih h with hold | hnode
      · exact LexState.mem_tokens_closeContext hold
      · exact Or.inr hnode

/-- A delimiter adds one token, which is neither plain text nor stands for a node. -/
theorem exists_pushDelimiter (state : LexState) (id : DelimiterId) (span : Span)
    (value : Option Literal) :
    ∃ kind, kind ≠ .text ∧ (∀ node, kind ≠ .node node) ∧
      (pushDelimiter state id span value).pending = state.pending.push ⟨span, kind⟩ ∧
      (pushDelimiter state id span value).forest.arena = state.forest.arena := by
  unfold pushDelimiter
  cases value with
  | none => exact ⟨.delimiter id, nofun, nofun, rfl, rfl⟩
  | some literal => exact ⟨.literal (state.forest.pushLiteral literal).1, nofun, nofun, rfl, rfl⟩

/-- The tokens are then the old ones and that one. -/
theorem exists_mem_tokens_pushDelimiter_iff (state : LexState) (id : DelimiterId) (span : Span)
    (value : Option Literal) :
    ∃ kind, kind ≠ .text ∧ (∀ node, kind ≠ .node node) ∧
      (pushDelimiter state id span value).pending = state.pending.push ⟨span, kind⟩ ∧
      ∀ token, token ∈ (pushDelimiter state id span value).tokens ↔
        token ∈ state.tokens ∨ token = ⟨span, kind⟩ := by
  obtain ⟨kind, htext, hnode, hpending, harena⟩ := exists_pushDelimiter state id span value
  refine ⟨kind, htext, hnode, hpending, fun token => ?_⟩
  unfold LexState.tokens
  rw [hpending, harena, Array.toList_push, List.mem_append, List.mem_append, List.mem_append,
    List.mem_singleton]
  exact or_right_comm

/-- A placed delimiter adds tokens that stand for nodes, or one that covers it. -/
theorem mem_tokens_placeDelimiter {id : DelimiterId} {span : Span} {value : Option Literal}
    {token : Token} (h : token ∈ (input.placeDelimiter state id span value).tokens) :
    (token ∈ state.tokens ∨ ∃ id, token.kind = .node id) ∨
      token.span = span ∧ token.kind ≠ .text := by
  have hleaf : ∀ s : LexState, s.tokens = state.tokens →
      token ∈ (pushDelimiter s id span value).tokens →
        (token ∈ state.tokens ∨ ∃ id, token.kind = .node id) ∨
          token.span = span ∧ token.kind ≠ .text := by
    intro s hs hmem
    obtain ⟨kind, htext, -, -, htokens⟩ := exists_mem_tokens_pushDelimiter_iff s id span value
    rcases (htokens token).mp hmem with hold | rfl
    · exact Or.inl (Or.inl (hs ▸ hold))
    · exact Or.inr ⟨rfl, htext⟩
  rcases placeDelimiter_cases input state id span value with
    ⟨-, -, hclose⟩ | ⟨-, hopen⟩ | ⟨-, hreport⟩ | ⟨-, hplain⟩
  · rw [hclose] at h
    refine Or.inl ?_
    rcases LexState.mem_tokens_closeContext h with hold | hnode
    · rcases (LexState.ReportsStrays.mem_tokens_pushToken _ _ _).mp hold with hold | hnew
      · exact Or.inl hold
      · rw [List.mem_singleton.mp hnew]
        exact Or.inr ⟨_, rfl⟩
    · exact Or.inr hnode
  · rw [hopen] at h
    unfold openContext at h
    simp only at h
    split at h
    · rcases (LexState.ReportsStrays.mem_tokens_pushToken _ _ _).mp h with hold | hnew
      · exact Or.inl (Or.inl hold)
      · rw [List.mem_singleton.mp hnew]
        exact Or.inr ⟨rfl, fun hkind => nomatch hkind⟩
    · refine Or.inl ?_
      rcases (LexState.ReportsStrays.mem_tokens_pushToken _ _ _).mp h with hold | hnew
      · exact Or.inl hold
      · rw [List.mem_singleton.mp hnew]
        exact Or.inr ⟨_, rfl⟩
  · rw [hreport] at h
    exact hleaf (state.report _ _ _) rfl h
  · rw [hplain] at h
    exact hleaf state rfl h

/-- Plain text and words do not touch, and will not when the text goes on. -/
structure KeepsApart (input : LexInput) (state : LexState) : Prop where
  separate : Apart state.forest state.tokens state.cursor
  behind : ∀ t ∈ state.tokens, t.kind = .text → t.span.stop < state.cursor
  started : ∀ start, state.textStart = some start →
    ∀ w ∈ state.tokens, state.forest.IsKeyword w → w.span.stop ≠ start
  ended : ∀ w ∈ state.tokens, state.forest.IsKeyword w → w.span.stop = state.cursor →
    input.table.endsWord (input.currentRules state) input.rules input.source state.cursor
      state.rest = true

namespace KeepsApart

/-- When all tokens end in front of the cursor, nothing is left to be kept in mind. -/
theorem of_lt {cursor : Nat} (h : Apart state.forest state.tokens cursor)
    (hlt : cursor < state.cursor) (hnone : state.textStart = none) : input.KeepsApart state where
  separate := h.extend rfl (fun _ ht _ => ht) hlt.le
  behind := fun t ht htext => (h.ends t ht (Or.inl htext)).2.trans_lt hlt
  started := fun _ hstart => nomatch hnone.symm.trans hstart
  ended := fun w hw hword hend =>
    absurd ((h.ends w hw (Or.inr hword)).2.trans_lt hlt) (hend ▸ lt_irrefl _)

/-- The end of the plain text keeps it apart from the words. -/
theorem flushText (hreads : input.Reads state) (h : input.KeepsApart state) :
    Apart state.flushText.forest state.flushText.tokens state.cursor := by
  cases hstart : state.textStart with
  | none =>
      rw [flushText_of_eq_none hstart]
      exact h.separate
  | some start =>
      rw [forest_flushText]
      refine h.separate.push_text (hreads.text start hstart) (h.started start hstart) fun t ht => ?_
      rcases LexState.mem_tokens_flushText ht with hold | ⟨other, hother, rfl⟩
      · exact Or.inl hold
      · obtain rfl := Option.some.inj (hstart.symm.trans hother)
        exact Or.inr rfl

end KeepsApart

theorem keepsApart_fresh (input : LexInput) : input.KeepsApart input.fresh := by
  constructor
  · constructor
    · exact fun _ ht => nomatch ht
    · exact fun _ ht => nomatch ht
  · exact fun _ ht => nomatch ht
  · exact fun _ hstart => nomatch hstart
  · exact fun _ ht => nomatch ht

/-- A character of plain text is read. Where none was being read it does not start behind a word,
since the character is no blank and no delimiter is found there. -/
theorem keepsApart_text (h : input.KeepsApart state) {c : Char}
    {rest : List Char} (hrest : state.rest = c :: rest)
    (hblank : input.table.isWhitespace (input.currentRules state) input.rules c = false)
    (hfind : input.table.findIn (input.currentRules state) input.rules input.source state.cursor
      (c :: rest) state.textStart.isSome = none) :
    input.KeepsApart ({ state with textStart := state.textStart <|> some state.cursor }.advance
      c.utf8Size rest) := by
  have hlt : state.cursor < state.cursor + c.utf8Size := Nat.lt_add_of_pos_right c.utf8Size_pos
  constructor
  · exact h.separate.extend rfl (fun _ ht _ => ht) hlt.le
  · exact fun t ht htext => (h.behind t ht htext).trans hlt
  · intro start hstart w hw hword
    cases htext : state.textStart with
    | some old =>
        simp only [LexState.advance, htext] at hstart
        obtain rfl := Option.some.inj hstart
        exact h.started old htext w hw hword
    | none =>
        simp only [LexState.advance, htext] at hstart
        obtain rfl := Option.some.inj hstart
        intro hend
        have hends := h.ended w hw hword hend
        rw [hrest] at hends
        unfold RuleSetTable.endsWord at hends
        simp only [hblank, Bool.false_or] at hends
        have hfound := RuleSetTable.findIn_isSome_of_breaksAt hends state.textStart.isSome
        rw [hfind] at hfound
        cases hfound
  · intro w hw hword hend
    exact absurd ((h.separate.ends w hw (Or.inr hword)).2.trans_lt hlt) (hend ▸ lt_irrefl _)

/-- A delimiter that is read adds tokens that stand for nodes, or one for what is read of it. -/
theorem exists_mem_tokens_readDelimiter {id : DelimiterId} {c : Char} {text behind : List Char}
    (htext : (input.table.delimiter id).text = c :: text)
    (hrest : state.rest = c :: text ++ behind) :
    ∃ taken left, state.rest = c :: taken ++ left ∧
      (input.readDelimiter state id).cursor = state.cursor + Text.byteSize (c :: taken) ∧
      (input.readDelimiter state id).textStart = state.textStart ∧
      ∀ token ∈ (input.readDelimiter state id).tokens,
        (token ∈ state.tokens ∨ ∃ id, token.kind = .node id) ∨
          token.span = .ofLength state.cursor (Text.byteSize (c :: taken)) ∧
            token.kind ≠ .text := by
  obtain ⟨taken, left, reported, hne, htaken, -, hreported, hplace⟩ :=
    exists_readDelimiter htext hrest
  obtain ⟨a, more, rfl⟩ := List.exists_cons_of_ne_nil hne
  obtain rfl : c = a := (List.cons.inj (hrest.symm.trans htaken)).1
  have hsame : reported.tokens = state.tokens ∧ reported.cursor = state.cursor ∧
      reported.textStart = state.textStart := by
    rcases hreported with rfl | ⟨error, -, rfl⟩
    · exact ⟨rfl, rfl, rfl⟩
    · exact ⟨rfl, rfl, rfl⟩
  have hmoved := samePlace_placeDelimiter input (reported.advance (Text.byteSize (c :: more)) left)
    id (.ofLength state.cursor (Text.byteSize (c :: more)))
    ((input.table.delimiter id).scanAt input.source state.cursor).value
  rw [← hplace] at hmoved
  refine ⟨more, left, htaken, ?_, hmoved.textStart.trans hsame.2.2, fun token htoken => ?_⟩
  · rw [hmoved.cursor, ← hsame.2.1]
    rfl
  · rw [hplace] at htoken
    exact (mem_tokens_placeDelimiter htoken).imp_left (Or.imp_left (hsame.1 ▸ ·))

section Builtin

variable (htable : input.table = Grammar.builtin) {id : DelimiterId} {c : Char}
  {text behind : List Char} (htext : (Grammar.builtin.delimiter id).text = c :: text)
  (hrest : state.rest = c :: text ++ behind) (hnone : state.textStart = none)
  (hreads : input.Reads state)

include htable htext hrest hnone hreads

/-- A delimiter that breaks words: its token starts as no word does. -/
theorem keepsApart_breaking (h : Apart state.forest state.tokens state.cursor)
    (hbreaks : (Grammar.builtin.delimiter id).isBreaking = true) :
    input.KeepsApart (input.readDelimiter state id) := by
  have hnext := hreads.readDelimiter hnone (by simp [hrest]) id
  obtain ⟨taken, left, htaken, hcursor, hstarted, htokens⟩ :=
    exists_mem_tokens_readDelimiter
      (show (input.table.delimiter id).text = c :: text from htable ▸ htext) hrest
  have hpos : 0 < Text.byteSize (c :: taken) :=
    (Nat.zero_lt_succ _).trans_le (Text.length_le_byteSize (c :: taken))
  refine KeepsApart.of_lt (h.extend (hnext.draft.source_eq.trans hreads.draft.source_eq.symm)
    (fun t ht hkind => ?_) le_rfl) (by omega) (hstarted.trans hnone)
  rcases htokens t ht with (hold | ⟨node, hnode⟩) | ⟨hspan, hleaf⟩
  · exact hold
  · exact absurd hkind (Forest.not_isKeyword_of_node hnode)
  · obtain ⟨-, -, hword⟩ := hkind.resolve_left hleaf
    have hat : input.source.IsAt state.cursor (c :: taken ++ left) := htaken ▸ hreads.place
    have hcovers : (input.readDelimiter state id).forest.tokenText t = c :: taken := by
      unfold Forest.tokenText Forest.spanText
      rw [hnext.draft.source_eq, hspan]
      exact congrArg (fun text => text.getD []) hat.slice?_eq
    rw [hcovers] at hword
    have hchar : Grammar.IsWordChar c :=
      Or.inl ((Grammar.forall_words.2.1 _ hword).2 c List.mem_cons_self)
    rw [Grammar.isWordChar_iff htext, hbreaks] at hchar
    cases hchar

/-- A delimiter that does not break words leaves one token, which is a word of the grammar. -/
theorem exists_isKeyword_readDelimiter
    (hbreaks : (Grammar.builtin.delimiter id).isBreaking = false) :
    ∃ word, (input.readDelimiter state id).forest.IsKeyword word ∧
      word.span = .ofLength state.cursor (Text.byteSize (c :: text)) ∧
      (input.readDelimiter state id).pending = state.pending.push word ∧
      (∀ t, t ∈ (input.readDelimiter state id).tokens ↔ t ∈ state.tokens ∨ t = word) ∧
      SamePlace (input.readDelimiter state id)
        (state.advance (Text.byteSize (c :: text)) behind) ∧
      (input.readDelimiter state id).stack = state.stack := by
  have hnext := hreads.readDelimiter hnone (by simp [hrest]) id
  have hat : input.source.IsAt state.cursor (c :: text ++ behind) := hrest ▸ hreads.place
  have hword := (Grammar.isBreaking_eq_false_iff (htext ▸ List.cons_ne_nil c text)).mp hbreaks
  obtain ⟨hletter, hopens, hcloses⟩ := Grammar.opens_closes_of_word htext hbreaks
  obtain ⟨value, hscan⟩ := Grammar.scanAt_word htext hletter hat
  rw [← htable] at hscan hopens hcloses
  have hread := readDelimiter_of_scan hscan hrest (List.cons_ne_nil c text)
  rw [placeDelimiter_of_token _ _ hcloses hopens] at hread
  have hstack := stack_pushDelimiter (state.advance (Text.byteSize (c :: text)) behind) id
    (.ofLength state.cursor (Text.byteSize (c :: text))) value
  have hplace := samePlace_pushDelimiter (state.advance (Text.byteSize (c :: text)) behind) id
    (.ofLength state.cursor (Text.byteSize (c :: text))) value
  rw [← hread] at hstack hplace
  have hcovers : ∀ kind, (input.readDelimiter state id).forest.tokenText
      ⟨.ofLength state.cursor (Text.byteSize (c :: text)), kind⟩ ∈ Grammar.keywords := by
    intro kind
    rw [htext] at hword
    unfold Forest.tokenText Forest.spanText
    rw [hnext.draft.source_eq]
    show (input.source.slice? state.cursor (state.cursor + Text.byteSize (c :: text))).getD [] ∈ _
    rw [hat.slice?_eq]
    exact hword
  obtain ⟨kind, htextKind, hnodeKind, hpending, htokens⟩ := exists_mem_tokens_pushDelimiter_iff
    (state.advance (Text.byteSize (c :: text)) behind) id
    (.ofLength state.cursor (Text.byteSize (c :: text))) value
  rw [← hread] at hpending htokens
  exact ⟨⟨_, kind⟩, ⟨htextKind, hnodeKind, hcovers kind⟩, rfl, hpending, htokens, hplace, hstack⟩

/-- No plain text ends in front of a word, and words end behind it. -/
theorem keepsApart_word (h : input.KeepsApart state)
    (hbreaks : (Grammar.builtin.delimiter id).isBreaking = false)
    (hends : Grammar.builtin.endsWord (input.currentRules state) input.rules input.source
      (state.cursor + Text.byteSize (c :: text)) behind = true) :
    input.KeepsApart (input.readDelimiter state id) := by
  have hnext := hreads.readDelimiter hnone (by simp [hrest]) id
  obtain ⟨word, hword, hspan, -, htokens, hplace, hstack⟩ :=
    exists_isKeyword_readDelimiter htable htext hrest hnone hreads hbreaks
  have hpos : 0 < Text.byteSize (c :: text) :=
    (Nat.zero_lt_succ _).trans_le (Text.length_le_byteSize (c :: text))
  have hcursor : (input.readDelimiter state id).cursor =
      state.cursor + Text.byteSize (c :: text) := hplace.cursor
  have hlt : state.cursor < (input.readDelimiter state id).cursor := by omega
  have hrules : input.currentRules (input.readDelimiter state id) = input.currentRules state := by
    unfold currentRules
    rw [hstack]
  constructor
  · refine h.separate.push_leaf (hnext.draft.source_eq.trans hreads.draft.source_eq.symm) hlt
      h.behind fun t ht _ => ?_
    rcases (htokens t).mp ht with hold | rfl
    · exact Or.inl hold
    · rw [hspan, hcursor]
      exact Or.inr ⟨rfl, hword.1⟩
  · intro t ht htextKind
    rcases (htokens t).mp ht with hold | rfl
    · exact (h.behind t hold htextKind).trans hlt
    · exact absurd htextKind hword.1
  · exact fun _ hstart => nomatch hstart.symm.trans (hplace.textStart.trans hnone)
  · intro _ _ _ _
    rw [hrules, hcursor, hplace.rest, htable]
    exact hends

end Builtin

/-- Steps keep plain text and words apart. -/
theorem keepsApart_step (htable : input.table = Grammar.builtin) (hreads : input.Reads state)
    (h : input.KeepsApart state) {c : Char} {rest : List Char} (hrest : state.rest = c :: rest) :
    input.KeepsApart (input.step state) := by
  have hflushed := h.flushText hreads
  obtain ⟨hreads', hnone, hcursor⟩ := hreads.flushText
  cases hblank : input.table.isWhitespace (input.currentRules state) input.rules c with
  | true =>
      rw [step_of_whitespace hreads.unfinished hrest hblank]
      have hlt : state.cursor < (state.flushText.advance c.utf8Size rest).cursor :=
        hcursor ▸ Nat.lt_add_of_pos_right c.utf8Size_pos
      exact KeepsApart.of_lt hflushed hlt hnone
  | false =>
      cases hfind : input.table.findIn (input.currentRules state) input.rules input.source
          state.cursor (c :: rest) state.textStart.isSome with
      | none =>
          rw [step_of_text hreads.unfinished hrest hblank hfind]
          exact keepsApart_text h hrest hblank hfind
      | some id =>
          rw [step_of_delimiter hreads.unfinished hrest hblank hfind]
          have haccepts := (RuleSetTable.of_search_eq_some _ hfind).2
          rw [htable] at hfind haccepts
          obtain ⟨text, behind, htext, rfl⟩ := Grammar.exists_text_of_findIn hfind
          have hrest' := (rest_flushText state).trans hrest
          cases hbreaks : (Grammar.builtin.delimiter id).isBreaking with
          | true =>
              exact keepsApart_breaking htable htext hrest' hnone hreads' (hcursor ▸ hflushed)
                hbreaks
          | false =>
              have hdrop : Text.dropHead? (Grammar.builtin.delimiter id).text
                  (c :: (text ++ behind)) = some behind := by
                rw [htext]
                exact Text.dropHead?_eq_some_iff.mpr rfl
              unfold RuleSetTable.accepts at haccepts
              simp only [hbreaks, hdrop, Bool.false_or, Bool.and_eq_true, Bool.not_eq_true',
                Option.isSome_eq_false_iff, Option.isNone_iff_eq_none] at haccepts
              obtain ⟨hstart, hends⟩ := haccepts
              rw [flushText_of_eq_none hstart]
              exact keepsApart_word htable htext hrest hstart hreads h hbreaks (htext ▸ hends)

/-- The end of a run adds plain text and tokens that stand for nodes. -/
theorem Reads.apart_stop (hreads : input.Reads state) (h : input.KeepsApart state) :
    Apart (input.stop state).forest (input.stop state).tokens state.cursor := by
  have hflushed := h.flushText hreads
  refine hflushed.extend (hreads.stop.source_eq.trans hreads.flushText.1.draft.source_eq.symm)
    (fun t ht hkind => ?_) le_rfl
  rw [stop_eq hreads.unfinished] at ht
  rcases mem_tokens_closeAll (LexState.mem_tokens_closeRoot ht) with hold | ⟨node, hnode⟩
  · exact hold
  · exact absurd hkind (Forest.not_isKeyword_of_node hnode)

/--
Plain text never touches a word that is a delimiter. In the list of each node of a lexed forest,
wherever a run with the built-in grammars starts and ends, no plain text ends where such a word
starts, or starts where it ends.
-/
theorem text_apart_keyword (source : Source) (rules : RuleSetId) (calls : List LexCall)
    {id : NodeId} {text word : Token}
    (htext : text ∈ (finish ⟨Grammar.builtin, source, rules⟩ calls).forest.tokenList id)
    (hword : word ∈ (finish ⟨Grammar.builtin, source, rules⟩ calls).forest.tokenList id)
    (hkind : text.kind = .text)
    (hkeyword : (finish ⟨Grammar.builtin, source, rules⟩ calls).forest.IsKeyword word) :
    ¬text.Touches word := by
  by_cases hsize : source.size < Span.offsetCount
  · obtain ⟨last, hreads, happart, hfinal⟩ := exists_final_eq_stop
      (P := KeepsApart ⟨Grammar.builtin, source, rules⟩) hsize (keepsApart_fresh _)
      (fun s c rest hreads hs hrest => keepsApart_step rfl hreads hs hrest) calls
    unfold finish LexState.output at htext hword hkeyword
    rw [hfinal] at htext hword hkeyword
    exact (hreads.apart_stop happart).apart text ((hreads.mem_tokens_stop text).mpr ⟨id, htext⟩)
      word ((hreads.mem_tokens_stop word).mpr ⟨id, hword⟩) hkind hkeyword
  · rw [finish_of_size_le _ (Nat.not_lt.mp hsize) calls] at htext
    exact nomatch Forest.mem_of_mem_extract htext

/-- A text, a boolean and a group: a blank stands before the boolean, and the group behind it. -/
theorem text_apart_keyword_boolean :
    let forest := (finish ⟨Grammar.builtin, .ofString "a True(b)", Grammar.builtin.startRules⟩
      []).forest
    let text : Token := ⟨⟨0, 1⟩, .text⟩
    let word : Token := ⟨⟨2, 6⟩, .literal ⟨0⟩⟩
    text ∈ forest.tokenList Forest.root ∧ word ∈ forest.tokenList Forest.root ∧
      forest.IsKeyword word ∧ ¬text.Touches word := by
  intro forest text word
  have htokens : text ∈ forest.tokenList Forest.root ∧ word ∈ forest.tokenList Forest.root ∧
      forest.tokenText word ∈ Grammar.keywords := by
    decide +kernel
  have hkeyword : forest.IsKeyword word := ⟨nofun, nofun, htokens.2.2⟩
  exact ⟨htokens.1, htokens.2.1, hkeyword, text_apart_keyword (.ofString "a True(b)")
    Grammar.builtin.startRules [] htokens.1 htokens.2.1 rfl hkeyword⟩

end LexInput
end ExprLang
