import Introspect.Declaration
import Introspect.Document.Kind
import Mathlib.Data.List.Basic

/-!
# Types that are built

The steps that build type information each go to one field. Package, modifiers and superclass are
overwritten, so the last step for such a field counts; interfaces are appended, so all of them
count, in the order of the steps. Name and kind are given at the start and no step goes to them. In
which order steps for different fields come makes therefore no difference.

* `TypeInfo.apply_eq` — what one step does to the information as a whole;
* `TypeInfo.build_eq` — what a run of steps does, by induction on the steps;
* `TypeInfo.get_apply_of_ne`, `TypeInfo.get_apply_congr` — a step keeps the fields that it does not
  go to, and looks at no other field than the one it goes to;
* `TypeInfo.get_build_filter` — hence what a run makes of a field is made by its steps for that
  field;
* `TypeInfo.build_bare` — what runs from a bare class or interface lead to, and that they lead to
  the same if they only differ in how the steps for different fields are interleaved.
-/

namespace Introspect

/-! ### The last of what is found in a list -/

namespace Steps

variable {α β : Type}

/-- What is found in the head comes first. -/
theorem filterMap_cons_toList (f : α → Option β) (a : α) (as : List α) :
    (a :: as).filterMap f = (f a).toList ++ as.filterMap f := by
  rw [List.filterMap_eq_flatMap_toList, List.filterMap_eq_flatMap_toList, List.flatMap_cons]

/-- **The last one** is found in the tail, or else the head is it. -/
theorem getLast?_filterMap_cons (f : α → Option β) (a : α) (as : List α) :
    ((a :: as).filterMap f).getLast? = (as.filterMap f).getLast?.or (f a) := by
  have hhead : (f a).toList.getLast? = f a := by cases f a <;> rfl
  rw [filterMap_cons_toList, List.getLast?_append, hhead]

end Steps

namespace TypeInfo

/-! ### What steps say -/

namespace Step

/-- The field that a step goes to. -/
def field : Step → schema.Field
  | inPackage _ => Field.package
  | withModifiers _ => Field.modifiers
  | extending _ => Field.superclass
  | implementing _ => Field.interfaces

/-- The package that a step sets. -/
def package? : Step → Option String
  | inPackage p => some p
  | _ => none

/-- The modifiers that a step sets. -/
def modifiers? : Step → Option ModifierSet
  | withModifiers m => some m
  | _ => none

/-- The superclass that a step sets. -/
def superclass? : Step → Option TypeRef
  | extending t => some t
  | _ => none

/-- The interface that a step appends. -/
def interface? : Step → Option TypeRef
  | implementing t => some t
  | _ => none

end Step

/-- **A class or an interface** without package, modifiers and supertypes. -/
def bare (isInterface : Bool) (name : String) : TypeInfo :=
  if isInterface then ofInterface name else ofClass name

/-- A bare type has nothing but its name and kind. -/
theorem bare_eq (isInterface : Bool) (name : String) :
    bare isInterface name =
      { name, package := none, isInterface, modifiers := ∅, superclass := none,
        interfaces := [] } := by
  cases isInterface <;> rfl

/-! ### Steps -/

/-- **What a step does**: it sets what it says, and keeps everything else. -/
theorem apply_eq (x : TypeInfo) (s : Step) :
    x.apply s =
      { x with
        package := s.package?.or x.package
        modifiers := s.modifiers?.getD x.modifiers
        superclass := s.superclass?.or x.superclass
        interfaces := x.interfaces ++ s.interface?.toList } := by
  have hnone : x.interfaces ++ (none : Option TypeRef).toList = x.interfaces :=
    List.append_nil x.interfaces
  -- setting a field appends no interface
  cases s with
  | implementing t => rfl
  | inPackage p | withModifiers m | extending t => simp only [Step.interface?, hnone]; rfl

/-- **What a run of steps does**: for each field that is overwritten the last setting counts, and
interfaces are appended in the order of the steps. -/
theorem build_eq (x : TypeInfo) (steps : List Step) :
    x.build steps =
      { x with
        package := (steps.filterMap Step.package?).getLast?.or x.package
        modifiers := (steps.filterMap Step.modifiers?).getLast?.getD x.modifiers
        superclass := (steps.filterMap Step.superclass?).getLast?.or x.superclass
        interfaces := x.interfaces ++ steps.filterMap Step.interface? } := by
  induction steps generalizing x with
  | nil =>
    cases x
    simp
  | cons s steps ih =>
    rw [build_cons, ih, apply_eq]
    -- the first step counts where no later one sets the same field
    simp only [Steps.getLast?_filterMap_cons, Option.or_assoc, Option.getD_or]
    rw [Steps.filterMap_cons_toList, List.append_assoc]

/-! ### Interleaved runs -/

variable {x y : TypeInfo} {s : Step} {f : schema.Field}

/-- A step keeps all fields but the one that it goes to. -/
theorem get_apply_of_ne (h : s.field ≠ f) : schema.get (x.apply s) f = schema.get x f := by
  -- field by field: the one that the step goes to is excluded
  cases s with
  | inPackage p =>
    cases f with
    | package => exact absurd rfl h
    | _ => rfl
  | withModifiers m =>
    cases f with
    | modifiers => exact absurd rfl h
    | _ => rfl
  | extending t =>
    cases f with
    | superclass => exact absurd rfl h
    | _ => rfl
  | implementing t =>
    cases f with
    | interfaces => exact absurd rfl h
    | _ => rfl

/-- What a step makes of a field depends on that field alone. -/
theorem get_apply_congr (h : schema.get x f = schema.get y f) (s : Step) :
    schema.get (x.apply s) f = schema.get (y.apply s) f := by
  by_cases hs : s.field = f
  · subst hs
    cases s with
    | implementing t => exact congrArg (· ++ [t]) h
    | inPackage p | withModifiers m | extending t =>
      -- what is overwritten does not matter
      rfl
  · -- the step keeps the field on both sides
    rw [get_apply_of_ne hs, get_apply_of_ne hs, h]

/-- **What a run makes of a field** is what its steps for that field make of it. -/
theorem get_build_filter (h : schema.get x f = schema.get y f) (steps : List Step) :
    schema.get (x.build (steps.filter (·.field = f))) f = schema.get (y.build steps) f := by
  -- by the steps, those for other fields being left out on the left
  induction steps generalizing x y with
  | nil => exact h
  | cons s steps ih =>
    by_cases hs : s.field = f
    · -- both runs take the step
      have hfilter : (s :: steps).filter (·.field = f) = s :: steps.filter (·.field = f) :=
        List.filter_cons_of_pos (decide_eq_true hs)
      rw [hfilter]
      exact ih (get_apply_congr h s)
    · -- the step is left out, and does not touch the field
      have hfilter : (s :: steps).filter (·.field = f) = steps.filter (·.field = f) :=
        List.filter_cons_of_neg (by simpa using hs)
      rw [hfilter]
      exact ih (h.trans (get_apply_of_ne hs).symm)

/-- **Runs lead to the same** if their steps for each field are the same, in the same order. -/
theorem build_congr {steps others : List Step}
    (h : ∀ f, steps.filter (·.field = f) = others.filter (·.field = f)) (x : TypeInfo) :
    x.build steps = x.build others := by
  -- field by field, since a record is nothing but its fields
  have hget : schema.get (x.build steps) = schema.get (x.build others) := by
    funext f
    rw [← get_build_filter rfl steps, h f, get_build_filter rfl others]
  rw [← schema.build_get (x.build steps), hget, schema.build_get]

/-! ### Runs from a bare type -/

/-- **What runs from a bare class or interface lead to.** After any number of steps of any run the
name and the kind are those of the start; package, modifiers and superclass are those that were set
last, if any were; and the interfaces are those that were appended, in their order, repeats and all.
Runs that have the same steps for each field, in the same order, lead to the same information, which
is then declared and written alike, wherever the type comes from. -/
theorem build_bare (isInterface : Bool) (name : String) :
    (∀ (run : List Step) (n : Nat),
      let steps := run.take n
      (bare isInterface name).build steps =
        { name, isInterface
          package := (steps.filterMap Step.package?).getLast?
          modifiers := (steps.filterMap Step.modifiers?).getLast?.getD ∅
          superclass := (steps.filterMap Step.superclass?).getLast?
          interfaces := steps.filterMap Step.interface? }) ∧
    ∀ steps others : List Step,
      (∀ f, steps.filter (·.field = f) = others.filter (·.field = f)) →
        let x := (bare isInterface name).build steps
        let y := (bare isInterface name).build others
        x = y ∧ Kind.typeInfo.write x = Kind.typeInfo.write y ∧
          ∀ origin, (⟨origin, x⟩ : TypeRef).declaration = (⟨origin, y⟩ : TypeRef).declaration ∧
            Kind.typeRef.write ⟨origin, x⟩ = Kind.typeRef.write ⟨origin, y⟩ := by
  refine ⟨fun run n => ?_, fun steps others h => ?_⟩
  · -- nothing was set before the run
    intro steps
    rw [build_eq, bare_eq]
    simp only [Option.or_none, List.nil_append]
  · intro x y
    have hxy : x = y := build_congr h (bare isInterface name)
    exact ⟨hxy, by rw [hxy], fun origin => by rw [hxy]; exact ⟨rfl, rfl⟩⟩

/-- The same steps for each field, with the package set twice and an interface named twice. -/
theorem build_bare_interleaved :
    let object := (ofClass "Object").native
    let list := (ofInterface "List").native
    let steps : List Step := [.inPackage "a", .implementing list, .extending object,
      .inPackage "b", .implementing list]
    let others : List Step := [.implementing list, .implementing list, .inPackage "a",
      .inPackage "b", .extending object]
    (∀ f, steps.filter (·.field = f) = others.filter (·.field = f)) ∧
      (ofClass "Items").build steps = (ofClass "Items").build others ∧
      ((ofClass "Items").build others).package = some "b" ∧
      ((ofClass "Items").build others).interfaces = [list, list] := by
  intro object list steps others
  have h : ∀ f, steps.filter (·.field = f) = others.filter (·.field = f) := by
    intro f
    cases f <;> rfl
  obtain ⟨hrun, hinterleaved⟩ := build_bare false "Items"
  have hothers := hrun others 5
  refine ⟨h, (hinterleaved steps others h).1, ?_, ?_⟩
  · exact (congrArg package hothers).trans rfl
  · exact (congrArg interfaces hothers).trans rfl

end TypeInfo

end Introspect
