import ExprLang.Proofs.RuleSet.BestMatch

/-!
# Inherited lists and fallbacks

A rule set for which no list of delimiters was given takes the list of the default. With the list it
takes the fallbacks of the default, and its own fallbacks are asked only by rule sets that fall back
on it. Whitespace is inherited on its own: it is that of the rule set in force, if this has any.

Main definitions:
* `RuleSetTable.listedFor`: the rule set whose list and fallbacks are searched;
* `RuleSetTable.AdmissibleUnder`: where a delimiter may be stopped at.

Main results:
* `RuleSetTable.Finds.eq`: a rule set and its fallbacks lead to one delimiter at most;
* `RuleSetTable.Declared.findDelimiter_listedFor`: what is found under any rule set and default.
-/

namespace ExprLang
namespace RuleSetTable

section Specification

variable (table : RuleSetTable) (definitions : List RuleSetDefinition)

/-- The rule set that is searched: the one in force if a list was given for it, else the default. -/
def listedFor (rules default : RuleSetId) : RuleSetId :=
  if (definitions[rules.index]?.bind fun definition => definition.delimiters).isSome then rules
  else default

/--
May a delimiter be stopped at? It stands there, and it breaks words; or no plain text is being
read, and behind it are the end of the text, whitespace of the rule set in force, or a breaking
delimiter of the rule set that is searched.
-/
def AdmissibleUnder (rules default : RuleSetId) (source : Source) (index : Nat) (rest : List Char)
    (started : Bool) (id : DelimiterId) : Prop :=
  (table.delimiter id).FitsAt source index rest ∧
    ((table.delimiter id).isBreaking = true ∨
      started = false ∧ ∀ behind, rest = (table.delimiter id).text ++ behind →
        behind = [] ∨ (∃ c ∈ behind.head?, table.isWhitespace rules default c = true) ∨
          table.StartsBreaking definitions (listedFor definitions rules default) source
            (index + Text.byteSize (table.delimiter id).text) behind)

end Specification

variable {table : RuleSetTable} {definitions : List RuleSetDefinition}

section Uniqueness

variable {admissible : DelimiterId → Prop} {rules : RuleSetId} {id other : DelimiterId}

/-- Two elements of a list are at one place, or one of them is in front of the other. -/
theorem eq_or_mem_of_append_cons_eq {α : Type} {before before' after after' : List α} {a a' : α}
    (h : before ++ a :: after = before' ++ a' :: after') :
    a = a' ∨ (a ∈ before' ∧ a' ∈ after) ∨ (a' ∈ before ∧ a ∈ after') := by
  rcases List.append_eq_append_iff.mp h with ⟨between, hbefore, hcons⟩ | ⟨between, hbefore, hcons⟩
  · cases between with
    | nil => exact .inl (List.cons.inj hcons).1
    | cons b between =>
        obtain ⟨rfl, rfl⟩ := List.cons.inj hcons
        exact .inr (.inl ⟨by simp [hbefore], by simp⟩)
  · cases between with
    | nil => exact .inl (List.cons.inj hcons).1.symm
    | cons b between =>
        obtain ⟨rfl, rfl⟩ := List.cons.inj hcons
        exact .inr (.inr ⟨by simp [hbefore], by simp⟩)

/-- A list has one best element at most. -/
theorem IsBest.eq {given : List DelimiterId} (h : table.IsBest admissible given id)
    (h' : table.IsBest admissible given other) : id = other := by
  obtain ⟨hadm, before, after, hgiven, hbefore, hafter⟩ := h
  obtain ⟨hadm', before', after', hgiven', hbefore', hafter'⟩ := h'
  rcases eq_or_mem_of_append_cons_eq (hgiven.symm.trans hgiven') with heq | hmem | hmem
  · exact heq
  · exact absurd (hbefore' id hmem.1 hadm) (hafter other hmem.2 hadm')
  · exact absurd (hbefore other hmem.1 hadm') (hafter' id hmem.2 hadm)

theorem Finds.not_findsNothing (h : table.Finds definitions admissible rules id) :
    ¬table.FindsNothing definitions admissible rules := fun hnothing => by
  obtain ⟨reached, hreached, hid, hadm⟩ := h.exists_admissible
  exact hnothing reached hreached id hid hadm

/-- A rule set and its fallbacks lead to one delimiter at most. -/
theorem Finds.eq (h : table.Finds definitions admissible rules id)
    (h' : table.Finds definitions admissible rules other) : id = other := by
  induction h with
  | own hbest =>
      cases h' with
      | own hbest' => exact hbest.eq hbest'
      | fallback hown' => exact absurd hbest.1 (hown' _ hbest.mem)
  | fallback hown hfallbacks hbefore hnext ih =>
      cases h' with
      | own hbest' => exact absurd hbest'.1 (hown _ hbest'.mem)
      | fallback _ hfallbacks' hbefore' hnext' =>
          rcases eq_or_mem_of_append_cons_eq (hfallbacks.symm.trans hfallbacks')
            with rfl | hmem | hmem
          · exact ih hnext'
          · exact absurd (hbefore' _ hmem.1) hnext.not_findsNothing
          · exact absurd (hbefore _ hmem.1) hnext'.not_findsNothing

end Uniqueness

section Searched

variable {rules default : RuleSetId} {source : Source} {index : Nat} {rest : List Char}
  {started : Bool}

/-- The rule set that is searched is told by the definitions. -/
theorem Lists.searched_eq (h : table.Lists definitions) (hrules : rules.index < table.length)
    (default : RuleSetId) : table.searched rules default = listedFor definitions rules default := by
  have hget := List.getElem?_eq_getElem (h.length_eq ▸ hrules)
  have hset := congrArg (fun set : RuleSet => set.delimiters.isSome) (h.ruleSet_eq rules _ hget)
  unfold searched listedFor
  simp only [hset, hget, ruleSetOf, Option.isSome_map, Option.bind_some]

/-- Where a delimiter stands, it is accepted if and only if it may be stopped at. -/
theorem Declared.accepts_iff_admissibleUnder (h : Declared table definitions)
    (hsearched : table.searched rules default = listedFor definitions rules default)
    (hlisted : (listedFor definitions rules default).index < table.length) {id : DelimiterId} :
    ((table.delimiter id).FitsAt source index rest ∧
      table.accepts rules default source index rest started id = true) ↔
        table.AdmissibleUnder definitions rules default source index rest started id := by
  unfold AdmissibleUnder
  refine and_congr_right fun hfits => ?_
  simp only [accepts_iff_endsWord hfits, h.endsWord_iff (hsearched.symm ▸ hlisted), hsearched]

/--
Under any rule set and default the search finds what the rule set with a list and its fallbacks
lead to. So the fallbacks of a rule set take part in it, in order, if a list was given for it or if
it is the default; otherwise the fallbacks of the default take their place.
-/
theorem Declared.findDelimiter_listedFor (h : Declared table definitions)
    (hrules : rules.index < table.length) (hdefault : default.index < table.length)
    (hrest : source.drop? index = some rest) (started : Bool) :
    let searched := listedFor definitions rules default
    let admissible := table.AdmissibleUnder definitions rules default source index rest started
    (∀ id, table.findDelimiter rules default source index started = some id ↔
      table.Finds definitions admissible searched id) ∧
    (table.findDelimiter rules default source index started = none ↔
      table.FindsNothing definitions admissible searched) := by
  intro searched admissible
  have hsearched := h.lists.searched_eq hrules default
  have hlisted : searched.index < table.length := by
    change (if _ then rules else default).index < _
    split
    · exact hrules
    · exact hdefault
  have hadmissible : (fun id => (table.delimiter id).FitsAt source index rest ∧
      table.accepts rules default source index rest started id = true) = admissible :=
    funext fun id => propext (h.accepts_iff_admissibleUnder hsearched hlisted)
  have hbest := h.search_best (table.accepts rules default source index rest started) hlisted
    source index rest
  have hfind : table.findDelimiter rules default source index started =
      table.search (table.accepts rules default source index rest started) searched source index
        rest := by
    unfold findDelimiter findIn
    rw [hrest, hsearched]
  rw [hadmissible, ← hfind] at hbest
  cases hfound : table.findDelimiter rules default source index started with
  | none =>
      rw [hfound] at hbest
      refine ⟨fun id => ⟨fun hnot => (nomatch hnot), fun hfinds => ?_⟩, iff_of_true rfl hbest⟩
      exact absurd hbest hfinds.not_findsNothing
  | some id =>
      rw [hfound] at hbest
      refine ⟨fun other => ⟨fun heq => Option.some.inj heq ▸ hbest, fun hfinds => ?_⟩,
        fun hnot => (nomatch hnot), fun hnothing => absurd hnothing hbest.not_findsNothing⟩
      exact congrArg some (hbest.eq hfinds)

end Searched

section Unlisted

/-- The default has a comma, another rule set has a semicolon, and the third one has no list. -/
def unlistedDefinitions : List RuleSetDefinition :=
  [{ name := "default", delimiters := some [⟨0⟩] }, { name := "b", delimiters := some [⟨1⟩] },
    { name := "r" }]

/-- The table of these rule sets, with fallbacks of the third one. -/
def unlisted (fallbacks : List RuleSetId) : RuleSetTable :=
  { delimiters := #[.plain ",", .plain ";"]
    ruleSets := #[{ name := "default", delimiters := some [⟨0⟩], slots := [(',', 0)] },
      { name := "b", delimiters := some [⟨1⟩], slots := [(';', 0)] },
      { name := "r", fallbacks }] }

theorem declared_unlisted : Declared (unlisted [⟨1⟩]) unlistedDefinitions := by
  have hstart := Declared.empty.addDelimiters [.plain ",", .plain ";"]
  have hdefault : Declared { unlisted [] with ruleSets := (unlisted []).ruleSets.take 1 }
      (unlistedDefinitions.take 1) :=
    hstart.ruleSet (by decide) (show _ = Except.ok ((⟨0⟩ : RuleSetId), _) by
      simp [define, find?, RuleSetTable.addDelimiters, RuleSetTable.empty, unlisted,
        sortDelimiters, sortStable, insertOrdered, dropRepeats, firstSlots, Delimiter.firstChar?,
        Delimiter.plain, RuleSetTable.delimiter])
  have hb : Declared { unlisted [] with ruleSets := (unlisted []).ruleSets.take 2 }
      (unlistedDefinitions.take 2) :=
    hdefault.ruleSet (by decide) (show _ = Except.ok ((⟨1⟩ : RuleSetId), _) by
      simp [define, find?, unlisted, sortDelimiters, sortStable, insertOrdered, dropRepeats,
        firstSlots, Delimiter.firstChar?, Delimiter.plain, RuleSetTable.delimiter])
  have hr : Declared (unlisted []) unlistedDefinitions :=
    hb.ruleSet (by decide) (show _ = Except.ok ((⟨2⟩ : RuleSetId), _) by
      simp [define, find?, unlisted, firstSlots, List.findIdx?, List.findIdx?.go])
  have hadd : (unlisted []).addFallback ⟨2⟩ ⟨1⟩ = .ok (unlisted [⟨1⟩]) := by
    simp [addFallback, fallbackPath?, searchPath, ids, length, ruleSet, unlisted]
  exact hr.fallback (by decide) (by decide) hadd

/-- A rule set without a list that is the default itself has its fallbacks asked. -/
theorem findDelimiter_listedFor_semicolon :
    let table := unlisted [⟨1⟩]
    let source := Source.ofString ";"
    Declared table unlistedDefinitions ∧ 2 < table.length ∧ source.drop? 0 = some [';'] ∧
      table.findDelimiter ⟨2⟩ ⟨2⟩ source 0 false = some ⟨1⟩ ∧
      table.Finds unlistedDefinitions
        (table.AdmissibleUnder unlistedDefinitions ⟨2⟩ ⟨2⟩ source 0 [';'] false)
        (listedFor unlistedDefinitions ⟨2⟩ ⟨2⟩) ⟨1⟩ := by
  intro table source
  have hlength : 2 < table.length := by decide
  have hdrop : source.drop? 0 = some [';'] := by decide +kernel
  have hfound : table.findDelimiter ⟨2⟩ ⟨2⟩ source 0 false = some ⟨1⟩ := by decide +kernel
  have hfinds := declared_unlisted.findDelimiter_listedFor hlength hlength hdrop false
  exact ⟨declared_unlisted, hlength, hdrop, hfound, (hfinds.1 ⟨1⟩).mp hfound⟩

/-- Another default takes the place of the fallbacks, of which one has a match. -/
theorem findDelimiter_unlisted :
    let table := unlisted [⟨1⟩]
    let source := Source.ofString ";"
    let admissible := table.AdmissibleUnder unlistedDefinitions ⟨2⟩ ⟨0⟩ source 0 [';'] false
    Declared table unlistedDefinitions ∧ source.drop? 0 = some [';'] ∧
      (unlistedDefinitions[2]?.bind fun definition => definition.delimiters) = none ∧
      (table.ruleSet ⟨2⟩).fallbacks = [⟨1⟩] ∧
      table.FindsNothing unlistedDefinitions admissible ⟨0⟩ ∧
      table.Finds unlistedDefinitions admissible ⟨1⟩ ⟨1⟩ ∧
      table.findDelimiter ⟨2⟩ ⟨0⟩ source 0 false = none := by
  intro table source admissible
  refine ⟨declared_unlisted, by decide +kernel, rfl, rfl, ?_, .own ⟨?_, [], [], rfl, ?_, ?_⟩,
    by decide +kernel⟩
  · intro reached hreached id hid hadm
    rcases Relation.ReflTransGen.cases_head hreached with rfl | ⟨next, hlink, -⟩
    · obtain rfl : id = ⟨0⟩ := List.mem_singleton.mp hid
      exact absurd hadm.1.isPrefix (by decide)
    · exact absurd hlink List.not_mem_nil
  · exact ⟨⟨by decide, by decide, fun holds h => nomatch h⟩, .inl rfl⟩
  · exact fun other hother => absurd hother List.not_mem_nil
  · exact fun other hother => absurd hother List.not_mem_nil

end Unlisted

end RuleSetTable
end ExprLang
