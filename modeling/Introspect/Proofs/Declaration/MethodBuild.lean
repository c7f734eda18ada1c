import Introspect.Proofs.Declaration.MethodLine
import Introspect.Proofs.TypeRef.Build

/-!
# Methods that are built

A script method has its types and its names of parameters in two lists, which nothing forces to be
parallel: a document may give any two lists, and a host may change either of them. What builds a
method step by step appends to both or to neither, so the parameters of a method that was built line
up after every step, and its line shows what the steps say.

* `Callable.declaration_eq_error_iff` — when a declaration fails, and with which mismatch;
* `ScriptMethod.linesUp_apply`, `ScriptMethod.shownParameters_apply`,
  `ScriptMethod.returnType_apply` — what one step does to a method;
* `ScriptMethod.linesUp_build`, `ScriptMethod.shownParameters_build`,
  `ScriptMethod.returnType_build` — what a run of steps does, by induction on the steps;
* `ScriptMethod.declaration_build` — a run of steps always has a line, whatever else a method went
  through it has one just when its lists are equally long, and a host method always has one.
-/

namespace Introspect

open TypeRef (nameOf)

namespace Callable

/-- The line of a method, with its head spelled out. -/
theorem line_eq (m : Callable) : m.line =
    m.modifiers.render ++ " " ++ nameOf m.declaredType ++ " " ++ m.name ++
      "(" ++ ", ".intercalate m.shownParameters ++ ")" ++
      if Modifier.abstract ∈ m.modifiers then ";" else " \x7b\x7d" := by
  rw [line, intercalate_headWords, terminator_eq]
  simp only [String.append_assoc]

/-- **A declaration fails** just when names of parameters are known and not as many as the types.
The mismatch tells which method it is and how many there are of either. -/
theorem declaration_eq_error_iff {m : Callable} {e : ParameterMismatch} :
    m.declaration.value = .error e ↔
      ∃ names ∈ m.parameterNames, m.parameterTypes.length ≠ names.length ∧
        e = ⟨m.name, m.parameterTypes.length, names.length⟩ := by
  by_cases hlinesUp : m.LinesUp
  · rw [declaration_of_linesUp hlinesUp]
    simp only [reduceCtorEq, false_iff]
    rintro ⟨names, hnames, hne, -⟩
    exact hne (hlinesUp names hnames)
  · -- the names are known, and there is another number of them
    obtain ⟨names, hnames, hne⟩ : ∃ names ∈ m.parameterNames,
        m.parameterTypes.length ≠ names.length := by
      simpa [LinesUp] using hlinesUp
    have hvalue : m.declaration.value =
        .error ⟨m.name, m.parameterTypes.length, names.length⟩ := by
      simp [declaration, signature, Option.mem_def.mp hnames, Signature.withNames, hne, Except.map]
    rw [hvalue, Except.error.injEq]
    -- there is one list of names at most, so the mismatch is this one
    refine ⟨fun h => ⟨names, hnames, hne, h.symm⟩, ?_⟩
    rintro ⟨names', hnames', -, rfl⟩
    rw [Option.mem_unique hnames hnames']

end Callable

namespace ScriptMethod

/-! ### What steps say -/

/-- The return type that a step sets. -/
def Step.returned? : Step → Option TypeRef
  | returning t => some t
  | withParameter _ _ => none
  | withUntypedParameter _ => none

/-- **The parameter that a step appends**, as it is shown. -/
def Step.shown? : Step → Option String
  | returning _ => none
  | withParameter n t => some (t.name ++ " " ++ n)
  | withUntypedParameter n => some ("Object" ++ " " ++ n)

/-- **The name of the type that was set last**, which is `Object` if none was. -/
def returnedName (steps : List Step) : String :=
  ((steps.filterMap Step.returned?).getLast?.map TypeRef.name).getD "Object"

/-! ### One step -/

variable {m : ScriptMethod}

theorem name_apply (m : ScriptMethod) (s : Step) : (m.apply s).name = m.name := by
  cases s <;> rfl

theorem modifiers_apply (m : ScriptMethod) (s : Step) : (m.apply s).modifiers = m.modifiers := by
  cases s <;> rfl

/-- A step sets the return type, or leaves it. -/
theorem returnType_apply (m : ScriptMethod) (s : Step) :
    (m.apply s).returnType = s.returned?.or m.returnType := by
  cases s <;> rfl

/-- **A step keeps the parameters in line**: it appends to both lists or to neither. -/
theorem linesUp_apply (h : m.callable.LinesUp) (s : Step) : (m.apply s).callable.LinesUp := by
  rw [Callable.linesUp_scriptMethod_iff] at h ⊢
  cases s with
  | returning t => exact h
  | withParameter n t | withUntypedParameter n =>
    simp only [apply, withParameter, withUntypedParameter, push, List.length_append, h]
    rfl

/-- A step shows one parameter more, behind the others, or none. -/
theorem shownParameters_apply (h : m.callable.LinesUp) (s : Step) :
    (m.apply s).callable.shownParameters = m.callable.shownParameters ++ s.shown?.toList := by
  have hlength := Callable.linesUp_scriptMethod_iff.mp h
  rw [Callable.shownParameters_scriptMethod, Callable.shownParameters_scriptMethod]
  cases s with
  | returning t => exact (List.append_nil _).symm
  | withParameter n t | withUntypedParameter n =>
    -- the lists are equally long, so what is appended to them is paired
    exact List.zipWith_append hlength

/-! ### Runs of steps -/

/-- The name stays throughout a run. -/
theorem name_build (m : ScriptMethod) (steps : List Step) : (m.build steps).name = m.name := by
  induction steps generalizing m with
  | nil => rfl
  | cons s steps ih => exact (ih (m.apply s)).trans (name_apply m s)

/-- The modifiers stay throughout a run. -/
theorem modifiers_build (m : ScriptMethod) (steps : List Step) :
    (m.build steps).modifiers = m.modifiers := by
  induction steps generalizing m with
  | nil => rfl
  | cons s steps ih => exact (ih (m.apply s)).trans (modifiers_apply m s)

/-- The return type is the one that was set last. -/
theorem returnType_build (m : ScriptMethod) (steps : List Step) :
    (m.build steps).returnType = (steps.filterMap Step.returned?).getLast?.or m.returnType := by
  induction steps generalizing m with
  | nil => rfl
  | cons s steps ih =>
    show ((m.apply s).build steps).returnType = _
    -- a later setting counts, and else this one
    rw [ih, returnType_apply, Steps.getLast?_filterMap_cons, Option.or_assoc]

/-- **Parameters line up after every run**, if they did before. -/
theorem linesUp_build (h : m.callable.LinesUp) (steps : List Step) :
    (m.build steps).callable.LinesUp := by
  -- by the steps, each of which keeps the parameters in line
  induction steps generalizing m with
  | nil => exact h
  | cons s steps ih => exact ih (linesUp_apply h s)

/-- The parameters shown are those that were appended, in the order of the steps. -/
theorem shownParameters_build (h : m.callable.LinesUp) (steps : List Step) :
    (m.build steps).callable.shownParameters =
      m.callable.shownParameters ++ steps.filterMap Step.shown? := by
  induction steps generalizing m with
  | nil => exact (List.append_nil _).symm
  | cons s steps ih =>
    show ((m.apply s).build steps).callable.shownParameters = _
    rw [ih (linesUp_apply h s), shownParameters_apply h, List.append_assoc,
      Steps.filterMap_cons_toList]

/-- The type that is shown after a run from a new method. -/
theorem nameOf_returnType_build (name : String) (modifiers : ModifierSet) (steps : List Step) :
    nameOf ((new name modifiers).build steps).returnType = returnedName steps := by
  rw [returnType_build, returnedName]
  cases (steps.filterMap Step.returned?).getLast? <;> rfl

/-- **Building always leads to a line.** After any number of steps of any run, from a new method of
any name and modifiers, there are as many types of parameters as names, and the line shows the
parameters that were appended, in their order, and the return type that was set last.

However else a method came about, it has no line just when there are not as many types as names; the
mismatch then gives its name and both numbers. A method of the host always has a line. -/
theorem declaration_build :
    (∀ (name : String) (modifiers : ModifierSet) (run : List Step) (n : Nat),
      let steps := run.take n
      let m := (new name modifiers).build steps
      m.parameterTypes.length = m.parameterNames.length ∧
        m.callable.declaration.value = .ok
          (modifiers.render ++ " " ++ returnedName steps ++ " " ++ name ++
            "(" ++ ", ".intercalate (steps.filterMap Step.shown?) ++ ")" ++
            if Modifier.abstract ∈ modifiers then ";" else " \x7b\x7d")) ∧
    (∀ (m : ScriptMethod) (e : ParameterMismatch), m.callable.declaration.value = .error e ↔
      m.parameterTypes.length ≠ m.parameterNames.length ∧
        e = ⟨m.name, m.parameterTypes.length, m.parameterNames.length⟩) ∧
    ∀ m : HostMethod, ∃ line, m.callable.declaration.value = .ok line := by
  -- methods that are built, other methods of scripts, and methods of the host
  refine ⟨fun name modifiers run n => ?_, fun m e => ?_, fun m => ?_⟩
  · intro steps m
    have hnew : (new name modifiers).callable.LinesUp := Callable.linesUp_scriptMethod_iff.mpr rfl
    have hlinesUp : m.callable.LinesUp := linesUp_build hnew steps
    have hname : m.callable.name = name := name_build _ steps
    have hmodifiers : m.callable.modifiers = modifiers := modifiers_build _ steps
    have htype : nameOf m.callable.declaredType = returnedName steps :=
      nameOf_returnType_build name modifiers steps
    -- a new method shows no parameters
    have hshown : m.callable.shownParameters = steps.filterMap Step.shown? :=
      shownParameters_build hnew steps
    refine ⟨Callable.linesUp_scriptMethod_iff.mp hlinesUp, ?_⟩
    rw [Callable.declaration_of_linesUp hlinesUp, Callable.line_eq, hname, hmodifiers, htype,
      hshown]
  · -- a method of a script always has names of parameters, however many
    rw [Callable.declaration_eq_error_iff]
    simp [callable]
  · exact ⟨_, Callable.declaration_of_linesUp (Callable.linesUp_hostMethod m)⟩

end ScriptMethod

end Introspect
