import ExprLang.Host.Basic
import ExprLang.Text.Quoted

/-!
# Object stores

A store holds objects by their references. An object either has nothing and takes
nothing, or has members, which can be set also where there was none, and
functions. A function may ask for a number of arguments, and its result may
depend on the arguments of its earlier calls.
-/

namespace ExprLang

/-- A function of an object. -/
structure StoredFunction where
  /-- The number of arguments; none takes any number. -/
  arity : Option Nat
  /-- The result, from the arguments of the earlier calls, the last one first, and of this one. -/
  body : (earlier : List (List Value)) → (args : List Value) → Except InvokeError Value
  /-- The arguments of the calls so far. -/
  calls : List (List Value) := []

/-- An object of a store. -/
inductive StoredObject where
  /-- Has nothing, and nothing can be set in it. -/
  | empty
  | scope (members : List (String × Value)) (functions : List (String × StoredFunction))

instance : Inhabited StoredObject :=
  ⟨.empty⟩

namespace StoredObject

/-- The value of a member. -/
def member? (name : String) : StoredObject → Option Value
  | empty => none
  | scope members _ => members.lookup name

/-- The value list of an object with a member set. -/
def putMember (name : String) (value : Value) : List (String × Value) → List (String × Value)
  | [] => [(name, value)]
  | (key, old) :: rest =>
      if key = name then (name, value) :: rest else (key, old) :: putMember name value rest

/-- The object with a member set; none if nothing can be set in it. -/
def assign? (name : String) (value : Value) : StoredObject → Option StoredObject
  | empty => none
  | scope members functions => some (scope (putMember name value members) functions)

/-- Calls a function of a list: its result, and the list with the call added to it. -/
def callFunction (name : String) (args : List Value) :
    List (String × StoredFunction) → Except InvokeError Value × List (String × StoredFunction)
  | [] => (.error (.notFound name), [])
  | (key, function) :: rest =>
      if key = name then
        match function.arity.filter (· ≠ args.length) with
        | some expected =>
            (.error (.argumentCount name expected args.length), (key, function) :: rest)
        | none =>
            (function.body function.calls args,
              (key, { function with calls := args :: function.calls }) :: rest)
      else
        let (result, rest) := callFunction name args rest
        (result, (key, function) :: rest)

/-- Calls a function of an object. -/
def invoke (name : String) (args : List Value) :
    StoredObject → Except InvokeError Value × StoredObject
  | empty => (.error (.notFound name), empty)
  | scope members functions =>
      let (result, functions) := callFunction name args functions
      (result, scope members functions)

/-- Names in order, quoted and between brackets. -/
def describeNames (names : List String) : String :=
  let sorted := names.mergeSort fun a b => decide (a ≤ b)
  "[" ++ ", ".intercalate (sorted.map fun name => Text.quote name.toList) ++ "]"

/-- The names of an object's members and functions. -/
def describe : StoredObject → String
  | empty => "EmptyScope"
  | scope members functions =>
      "MapScope \x7b members: " ++ describeNames (members.map Prod.fst) ++ ", functions: " ++
        describeNames (functions.map Prod.fst) ++ " \x7d"

section Lemmas

/-- A member that was set is found, and the others are what they were. -/
theorem lookup_putMember (name key : String) (value : Value) (members : List (String × Value)) :
    (putMember name value members).lookup key =
      if key = name then some value else members.lookup key := by
  induction members with
  | nil =>
      by_cases h : key = name
      · simp [putMember, h]
      · simp [putMember, List.lookup_cons, h, beq_eq_false_iff_ne.2 h]
  | cons entry rest ih =>
      obtain ⟨first, old⟩ := entry
      by_cases same : first = name
      · subst same
        by_cases h : key = first
        · simp [putMember, h]
        · simp [putMember, List.lookup_cons, h, beq_eq_false_iff_ne.2 h]
      · by_cases h : key = first
        · subst h
          simp [putMember, same]
        · simp [putMember, List.lookup_cons, same, beq_eq_false_iff_ne.2 h, ih]

end Lemmas

end StoredObject

/-- The objects of a host, by their references. -/
structure Store where
  objects : Array StoredObject := #[]

namespace Store

/-- Adds an object and gives its reference. -/
def add (store : Store) (object : StoredObject) : ObjectRef × Store :=
  (⟨store.objects.size⟩, { store with objects := store.objects.push object })

/-- The object of a reference. -/
def object (store : Store) (ref : ObjectRef) : StoredObject :=
  store.objects.getD ref.index .empty

/-- Puts an object in the place of another one. -/
def replace (store : Store) (ref : ObjectRef) (object : StoredObject) : Store :=
  { store with objects := store.objects.setIfInBounds ref.index object }

/-- The value of an object's member. -/
def member? (store : Store) (ref : ObjectRef) (name : String) : Option Value :=
  (store.object ref).member? name

/-- Sets a member: whether it was set, and the store. -/
def assign (store : Store) (ref : ObjectRef) (name : String) (value : Value) : Bool × Store :=
  match (store.object ref).assign? name value with
  | none => (false, store)
  | some object => (true, store.replace ref object)

/-- Calls a function of an object. -/
def invoke (store : Store) (ref : ObjectRef) (name : String) (args : List Value) :
    Except InvokeError Value × Store :=
  let (result, object) := (store.object ref).invoke name args
  (result, store.replace ref object)

/-- The host whose objects are those of a store. -/
def host : Host Store where
  member target name _ store := (store.member? target name, store)
  assign target name value store := store.assign target name value
  invoke target name args _ store := store.invoke target name args

end Store
end ExprLang
