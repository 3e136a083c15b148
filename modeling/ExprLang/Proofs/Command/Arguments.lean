import ExprLang.Options
import ExprLang.Proofs.Text.Places

/-!
# Groups of arguments

Arguments come in groups: a flag with the argument that belongs to it, or an argument that stands
for itself. What follows such a flag belongs to it whatever it looks like, so that the groups of a
command can be read off its arguments in one way, and each group has its effect wherever it stands
among the others.

Main definitions:
* `ArgumentGroup`, `ArgumentGroup.arguments`: a group, and how it is written;
* `Options.take`: options with the effect of a group, or its refusal.

Main results:
* `Options.takeAll_group`: one group in front of any other arguments;
* `Options.takeAll_groups`: groups in any order;
* `Options.parse_groups`: the options that groups stand for.
-/

namespace ExprLang

/-- Arguments that belong together. -/
inductive ArgumentGroup where
  /-- The name of a grammar. -/
  | grammar (name : String)
  /-- A name with the text of its value. -/
  | assignment (name value : String) (named : name ≠ "") (plain : '=' ∉ name.toList)
  /-- Unknown names are left as they are. -/
  | partly
  /-- A source text that is given as an argument. -/
  | inline (text : String)
  /-- The standard input, by name. -/
  | stdin
  /-- A file by its path. -/
  | file (path : String) (plain : path.toList.head? ≠ some '-')

namespace ArgumentGroup

/-- How a group is written. -/
def arguments : ArgumentGroup → List String
  | grammar name => [Options.grammarFlag ++ name]
  | assignment name value _ _ => ["--set", name ++ "=" ++ value]
  | partly => ["--partial"]
  | inline text => ["-e", text]
  | stdin => ["-"]
  | file path _ => [path]

/-- The first argument of a group. -/
def firstArgument (group : ArgumentGroup) : String :=
  group.arguments.headD ""

/-- The grammar that a group names. -/
def grammar? : ArgumentGroup → Option String
  | grammar name => some name
  | _ => none

/-- The name and the text of the value that a group sets. -/
def assignment? : ArgumentGroup → Option (String × String)
  | assignment name value _ _ => some (name, value)
  | _ => none

/-- Does a group leave unknown names as they are? -/
def isPartly : ArgumentGroup → Bool
  | partly => true
  | _ => false

/-- The input that a group names. -/
def input? : ArgumentGroup → Option Input
  | inline text => some (.inline text)
  | stdin => some .stdin
  | file path _ => some (.file path)
  | _ => none

/-- Does a group name an input? -/
def isInput (group : ArgumentGroup) : Bool :=
  group.input?.isSome

end ArgumentGroup

namespace Options

section Arguments

variable (options : Options)

theorem splitAssignment?_join {name value : String} (named : name ≠ "")
    (plain : '=' ∉ name.toList) :
    splitAssignment? (name ++ "=" ++ value) = some (name, value) := by
  have htext : (name ++ "=" ++ value).toList = name.toList ++ '=' :: value.toList := by simp
  have htake : (name.toList ++ '=' :: value.toList).takeWhile (· != '=') = name.toList := by
    refine (List.takeWhile_append_of_pos fun c hc => ?_).trans ?_
    · exact bne_iff_ne.mpr fun h => plain (h ▸ hc)
    · simp
  obtain ⟨first, more, hname⟩ : ∃ first more, name.toList = first :: more :=
    List.exists_cons_of_ne_nil fun h => named (String.toList_eq_nil_iff.mp h)
  unfold splitAssignment?
  rw [htext]
  simp only [htake, List.drop_left]
  rw [hname]
  simp only
  rw [← hname, String.ofList_toList, String.ofList_toList]

/-- An argument that names a grammar. -/
theorem takeArgument_grammar (name : String) :
    options.takeArgument (grammarFlag ++ name) = .ok { options with grammar := name } := by
  have hname : Text.dropHead? grammarFlag.toList (grammarFlag ++ name).toList =
      some name.toList :=
    Text.dropHead?_eq_some_iff.mpr String.toList_append
  unfold takeArgument
  rw [hname]
  simp only [String.ofList_toList]

/-- A path is an argument that does not start like a flag. -/
theorem takeArgument_path {path : String} (plain : path.toList.head? ≠ some '-') :
    options.takeArgument path = options.setInput (.file path) path := by
  have hflag : ∀ {head : List Char}, head.head? = some '-' →
      Text.dropHead? head path.toList = none := by
    intro head hhead
    obtain ⟨tail, rfl⟩ := List.head?_eq_some_iff.mp hhead
    cases hpath : path.toList with
    | nil => rfl
    | cons c cs =>
        rw [hpath, List.head?_cons] at plain
        rw [Text.dropHead?, if_neg fun h => plain (congrArg some h.symm)]
  have hne : ∀ flag : String, flag.toList.head? = some '-' → path ≠ flag := by
    rintro _ h rfl
    exact plain h
  unfold takeArgument Text.startsWith
  rw [hflag rfl, hflag rfl]
  simp only [if_neg (hne "--partial" (by decide)), if_neg (hne "-" (by decide)),
    Option.isSome_none, Bool.false_eq_true, if_false]

end Arguments

section Groups

/-- Options with what a group says. -/
def adding (options : Options) (group : ArgumentGroup) : Options where
  grammar := group.grammar?.getD options.grammar
  sets := options.sets ++ group.assignment?.toList
  partly := options.partly || group.isPartly
  explicit := options.explicit <|> group.input?

/-- Takes a group, unless it names an input and there is one. -/
def take (options : Options) (group : ArgumentGroup) : Except Error Options :=
  if options.explicit.isSome && group.isInput then
    .error (.extraInput group.firstArgument)
  else
    .ok (options.adding group)

/-- A group that names an input sets it, once. -/
theorem setInput_eq_take (options : Options) {group : ArgumentGroup} {input : Input}
    (h : group.input? = some input) :
    options.setInput input group.firstArgument = options.take group := by
  have hother : group.grammar? = none ∧ group.assignment? = none ∧ group.isPartly = false := by
    cases group with
    | inline text => exact ⟨rfl, rfl, rfl⟩
    | stdin => exact ⟨rfl, rfl, rfl⟩
    | file path plain => exact ⟨rfl, rfl, rfl⟩
    | _ => cases h
  obtain ⟨hgrammar, hassignment, hpartly⟩ := hother
  unfold setInput take ArgumentGroup.isInput
  cases hexplicit : options.explicit with
  | some first => simp [h]
  | none => simp [adding, h, hexplicit, hgrammar, hassignment, hpartly]

/-- Any other group has its effect. -/
theorem take_of_not_input (options : Options) {group : ArgumentGroup} (h : group.input? = none) :
    options.take group = .ok (options.adding group) := by
  unfold take ArgumentGroup.isInput
  rw [h, Option.isSome_none, Bool.and_false, if_neg Bool.false_ne_true]

/-- The arguments of a group are taken together, whatever stands behind them. -/
theorem takeAll_group (options : Options) (group : ArgumentGroup) (rest : List String) :
    takeAll options (group.arguments ++ rest) =
      (options.take group).bind fun options => takeAll options rest := by
  have halone : ∀ {argument : String}, argument ≠ "--set" → argument ≠ "-e" →
      takeAll options (argument :: rest) =
        (options.takeArgument argument).bind fun options => takeAll options rest := by
    intro argument hset hinline
    rw [takeAll.eq_def]
    simp only [if_neg hset, if_neg hinline]
  cases group with
  | grammar name =>
      have hne : ∀ flag : String, ¬grammarFlag.toList <+: flag.toList →
          grammarFlag ++ name ≠ flag := by
        rintro _ h rfl
        exact h (by simp)
      refine (halone (hne "--set" (by decide)) (hne "-e" (by decide))).trans ?_
      rw [takeArgument_grammar, take_of_not_input options rfl]
      simp [adding, ArgumentGroup.grammar?, ArgumentGroup.assignment?, ArgumentGroup.isPartly,
        ArgumentGroup.input?]
  | assignment name value named plain =>
      have htake : takeAll options ("--set" :: (name ++ "=" ++ value) :: rest) =
          (options.takeAssignment (name ++ "=" ++ value)).bind fun options =>
            takeAll options rest := rfl
      refine htake.trans ?_
      rw [takeAssignment, splitAssignment?_join named plain, take_of_not_input options rfl]
      simp [adding, ArgumentGroup.grammar?, ArgumentGroup.assignment?, ArgumentGroup.isPartly,
        ArgumentGroup.input?]
  | partly =>
      refine (halone (by decide) (by decide)).trans ?_
      rw [take_of_not_input options rfl]
      simp [adding, ArgumentGroup.grammar?, ArgumentGroup.assignment?, ArgumentGroup.isPartly,
        ArgumentGroup.input?]
      rfl
  | inline text =>
      rw [← options.setInput_eq_take rfl]
      rfl
  | stdin =>
      rw [← options.setInput_eq_take rfl]
      exact halone (by decide) (by decide)
  | file path plain =>
      have hne : ∀ flag : String, flag.toList.head? = some '-' → path ≠ flag := by
        rintro _ h rfl
        exact plain h
      rw [← options.setInput_eq_take rfl]
      exact (halone (hne "--set" (by decide)) (hne "-e" (by decide))).trans
        (congrArg (Except.bind · _) (options.takeArgument_path plain))

/-- Options with what groups say: the last of their grammars, and the first of their inputs. -/
def addingAll (options : Options) (groups : List ArgumentGroup) : Options where
  grammar := (groups.filterMap ArgumentGroup.grammar?).getLast?.getD options.grammar
  sets := options.sets ++ groups.filterMap ArgumentGroup.assignment?
  partly := options.partly || groups.any ArgumentGroup.isPartly
  explicit := options.explicit <|> groups.findSome? ArgumentGroup.input?

theorem addingAll_cons (options : Options) (group : ArgumentGroup) (groups : List ArgumentGroup) :
    options.addingAll (group :: groups) = (options.adding group).addingAll groups := by
  have hgrammar : ((group :: groups).filterMap ArgumentGroup.grammar?).getLast?.getD
      options.grammar = (groups.filterMap ArgumentGroup.grammar?).getLast?.getD
        (group.grammar?.getD options.grammar) := by
    cases h : group.grammar? with
    | none => rw [List.filterMap_cons_none h, Option.getD_none]
    | some name => rw [List.filterMap_cons_some h, List.getLast?_cons, Option.getD_some,
        Option.getD_some]
  have hsets : (group :: groups).filterMap ArgumentGroup.assignment? =
      group.assignment?.toList ++ groups.filterMap ArgumentGroup.assignment? := by
    cases h : group.assignment? with
    | none => rw [List.filterMap_cons_none h, Option.toList_none, List.nil_append]
    | some assignment => rw [List.filterMap_cons_some h, Option.toList_some, List.singleton_append]
  have hinput : (group :: groups).findSome? ArgumentGroup.input? =
      (group.input? <|> groups.findSome? ArgumentGroup.input?) := by
    cases h : group.input? <;> simp [h]
  simp only [addingAll, adding, hgrammar, hsets, hinput, List.any_cons]
  simp [Bool.or_assoc, Option.or_assoc]

/-- Groups in any order: each has its effect, unless there is an input too many. -/
theorem takeAll_groups (options : Options) (groups : List ArgumentGroup) :
    takeAll options (groups.flatMap ArgumentGroup.arguments) =
      match (groups.filter ArgumentGroup.isInput)[if options.explicit.isSome then 0 else 1]? with
      | some extra => .error (.extraInput extra.firstArgument)
      | none => .ok (options.addingAll groups) := by
  induction groups generalizing options with
  | nil => simp [takeAll, addingAll]
  | cons group groups ih =>
      rw [List.flatMap_cons, takeAll_group, addingAll_cons]
      cases hinput : group.isInput with
      | false =>
          have hnone : group.input? = none := by simpa [ArgumentGroup.isInput] using hinput
          have hexplicit : (options.adding group).explicit = options.explicit := by
            simp [adding, hnone]
          rw [List.filter_cons_of_neg (by simp [hinput]), take_of_not_input options hnone,
            ← hexplicit]
          exact ih (options.adding group)
      | true =>
          rw [List.filter_cons_of_pos hinput, take, hinput]
          cases hexplicit : options.explicit with
          | some first => rfl
          | none =>
              -- the next input is one too many
              have hsome : (options.adding group).explicit.isSome = true := by
                simpa [adding, hexplicit, ArgumentGroup.isInput] using hinput
              have htake := ih (options.adding group)
              rw [hsome, if_pos rfl] at htake
              exact htake

/--
Groups of arguments in any order stand for the grammar that is named last, all names with the
texts of their values in their order, and the input that is named, each with its default. A second
input is refused, with the argument that it starts with.
-/
theorem parse_groups (groups : List ArgumentGroup) :
    match (groups.filter ArgumentGroup.isInput)[1]? with
    | some second =>
        parse (groups.flatMap ArgumentGroup.arguments) = .error (.extraInput second.firstArgument)
    | none =>
        ∃ options, parse (groups.flatMap ArgumentGroup.arguments) = .ok options ∧
          options.grammar =
            (groups.filterMap ArgumentGroup.grammar?).getLast?.getD Grammar.defaultName ∧
          options.sets = groups.filterMap ArgumentGroup.assignment? ∧
          (options.partly = true ↔ .partly ∈ groups) ∧
          options.input = (groups.findSome? ArgumentGroup.input?).getD .stdin := by
  have hparse := takeAll_groups {} groups
  have hpartly : ∀ group : ArgumentGroup, group.isPartly = true ↔ group = .partly := by
    intro group
    cases group <;> simp [ArgumentGroup.isPartly]
  rw [Option.isSome_none, if_neg Bool.false_ne_true] at hparse
  split
  · rename_i second hsecond
    rw [hsecond] at hparse
    exact hparse
  · rename_i hsecond
    rw [hsecond] at hparse
    refine ⟨_, hparse, rfl, rfl, ?_, rfl⟩
    simp [addingAll, hpartly]

end Groups

end Options
end ExprLang
