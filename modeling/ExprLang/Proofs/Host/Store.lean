import ExprLang.Host.Store
import ExprLang.Proofs.Resolution.Values

/-!
# What calls do to a store

A call adds to what a function remembers, and changes nothing else: every object keeps its
members, and every function its result for the same calls.

Main results:
* `member?_invoke`: every object keeps its members;
* `Store.Lacks.invoke`, `Store.host_lacks`: no call makes a value of a kind that no member
  holds and no function gives.
-/

namespace ExprLang

namespace StoredObject

end StoredObject

namespace Store

variable {store : Store}

theorem object_replace (target ref : ObjectRef) (object : StoredObject) :
    (store.replace target object).object ref =
      if target = ref ∧ ref.index < store.objects.size then object else store.object ref := by
  unfold replace Store.object
  rw [Array.getD_eq_getD_getElem?, Array.getD_eq_getD_getElem?, Array.getElem?_setIfInBounds]
  by_cases hsame : target = ref
  · subst hsame
    by_cases hin : target.index < store.objects.size
    · simp [hin]
    · simp [hin]
  · have hindex : target.index ≠ ref.index := by
      intro hindex
      cases target
      cases ref
      exact hsame (congrArg ObjectRef.mk hindex)
    simp [hsame, hindex]

/-- An object after a call: only the called one can be another. -/
theorem object_invoke (target : ObjectRef) (called : String) (args : List Value)
    (ref : ObjectRef) :
    (store.invoke target called args).2.object ref = store.object ref ∨
      target = ref ∧ (store.invoke target called args).2.object ref =
        ((store.object ref).invoke called args).2 := by
  have hinvoke : (store.invoke target called args).2 =
      store.replace target ((store.object target).invoke called args).2 := rfl
  rw [hinvoke, object_replace]
  split
  · rename_i hsame
    obtain ⟨rfl, -⟩ := hsame
    exact Or.inr ⟨rfl, rfl⟩
  · exact Or.inl rfl

end Store

section Lacks

/--
The members that a host gives hold no value of a kind, and the results of its functions only
what their arguments do. `inv` holds of the host's states.
-/
structure Host.Lacks {σ : Type} (host : Host σ) (inv : σ → Prop) (kind : Value → Bool) :
    Prop where
  member : ∀ target name site state, inv state →
    inv (host.member target name site state).2 ∧
      ∀ value ∈ (host.member target name site state).1, value.Lacks kind
  invoke : ∀ target name args site state, inv state →
    inv (host.invoke target name args site state).2 ∧
      ∀ value, (host.invoke target name args site state).1 = .ok value →
        (∀ arg ∈ args, arg.Lacks kind) → value.Lacks kind

variable {kind : Value → Bool}

/-- The results of a function hold no value of a kind if its arguments do not. -/
def StoredFunction.Lacks (function : StoredFunction) (kind : Value → Bool) : Prop :=
  ∀ earlier args value, function.body earlier args = .ok value →
    (∀ arg ∈ args, arg.Lacks kind) → value.Lacks kind

/-- The members of an object hold no value of a kind, and its functions give none. -/
structure StoredObject.Lacks (object : StoredObject) (kind : Value → Bool) : Prop where
  members : ∀ name, ∀ value ∈ object.member? name, value.Lacks kind
  functions : ∀ members functions, object = .scope members functions →
    ∀ entry ∈ functions, entry.2.Lacks kind

/-- No object of a store holds or gives a value of a kind. -/
def Store.Lacks (store : Store) (kind : Value → Bool) : Prop :=
  ∀ ref, (store.object ref).Lacks kind

namespace StoredObject

theorem lacks_empty : empty.Lacks kind where
  members := fun _ _ h => nomatch h
  functions := fun _ _ h => nomatch h

theorem lacks_scope {members : List (String × Value)} {functions : List (String × StoredFunction)}
    (hmembers : ∀ entry ∈ members, entry.2.Lacks kind)
    (hfunctions : ∀ entry ∈ functions, entry.2.Lacks kind) :
    (scope members functions).Lacks kind where
  members := by
    intro name value hvalue
    obtain ⟨before, after, rfl, -⟩ := List.lookup_eq_some_iff.mp hvalue
    exact hmembers (name, value) (by simp)
  functions := by
    rintro _ _ ⟨⟩
    exact hfunctions

/-- A call of a function in a list gives its result, and adds to what it remembers. -/
theorem callFunction_lacks (name : String) (args : List Value)
    {functions : List (String × StoredFunction)} (h : ∀ entry ∈ functions, entry.2.Lacks kind) :
    (∀ value, (callFunction name args functions).1 = .ok value →
        (∀ arg ∈ args, arg.Lacks kind) → value.Lacks kind) ∧
      ∀ entry ∈ (callFunction name args functions).2, entry.2.Lacks kind := by
  induction functions with
  | nil => exact ⟨fun _ hvalue => (nomatch hvalue), h⟩
  | cons entry rest ih =>
      obtain ⟨key, function⟩ := entry
      obtain ⟨hfunction, hrest⟩ := List.forall_mem_cons.mp h
      unfold callFunction
      split
      · split
        · exact ⟨fun _ hvalue => (nomatch hvalue), h⟩
        · exact ⟨hfunction function.calls args, List.forall_mem_cons.mpr ⟨hfunction, hrest⟩⟩
      · obtain ⟨hresult, hfunctions⟩ := ih hrest
        exact ⟨hresult, List.forall_mem_cons.mpr ⟨hfunction, hfunctions⟩⟩

theorem Lacks.invoke {object : StoredObject} (h : object.Lacks kind) (name : String)
    (args : List Value) :
    (∀ value, (object.invoke name args).1 = .ok value → (∀ arg ∈ args, arg.Lacks kind) →
        value.Lacks kind) ∧
      (object.invoke name args).2.Lacks kind := by
  cases object with
  | empty => exact ⟨fun _ hvalue => (nomatch hvalue), h⟩
  | scope members functions =>
      obtain ⟨hresult, hfunctions⟩ :=
        callFunction_lacks name args (h.functions members functions rfl)
      refine ⟨hresult, h.members, ?_⟩
      rintro _ _ ⟨⟩
      exact hfunctions

end StoredObject

theorem Store.lacks_of_forall_mem {store : Store}
    (h : ∀ object ∈ store.objects, object.Lacks kind) : store.Lacks kind := by
  intro ref
  unfold Store.object
  rw [Array.getD_eq_getD_getElem?]
  cases hobject : store.objects[ref.index]? with
  | none => exact StoredObject.lacks_empty
  | some object => exact h object (Array.mem_of_getElem? hobject)

/-- A call adds nothing of the kind to a store. -/
theorem Store.Lacks.invoke {store : Store} (h : store.Lacks kind) (target : ObjectRef)
    (name : String) (args : List Value) : (store.invoke target name args).2.Lacks kind := by
  intro ref
  rcases Store.object_invoke target name args ref with heq | ⟨-, heq⟩
  · rw [heq]
    exact h ref
  · rw [heq]
    exact ((h ref).invoke name args).2

/-- The host of a store gives no value of a kind if its objects neither hold nor give one. -/
theorem Store.host_lacks {inv : Store → Prop} (hlacks : ∀ store, inv store → store.Lacks kind)
    (hinvoke : ∀ store target name args, inv store → inv (store.invoke target name args).2) :
    Store.host.Lacks inv kind where
  member := fun target name _ store h => ⟨h, (hlacks store h target).members name⟩
  invoke := fun target name args _ store h =>
    ⟨hinvoke store target name args h, ((hlacks store h target).invoke name args).1⟩

end Lacks

end ExprLang
