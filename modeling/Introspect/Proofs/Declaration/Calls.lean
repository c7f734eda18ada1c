import Introspect.Completion
import Introspect.Declaration

/-!
# The events of a run

A host calls the functions of this library one after the other, and what they report goes to its
log. From the calls and their results alone it can be told what the log holds: nothing is reported
that did not happen, and nothing that has to be reported is left out.

* `Call`, `Call.run`, `Call.runAll` — a call with its arguments, its result, and a run of calls;
* `Call.announced` — a declaration of a method or type is announced when it is called for, one of a
  variable is not;
* `Outcome.reported` — a mismatch that is given back is reported, whichever call gave it back;
* `Call.log_run` — the log of one call is what it announces and then what it reports;
* `Call.log_runAll` — so for a run, by induction on its calls.
-/

namespace Introspect

/-- **A call**, with its arguments. -/
inductive Call where
  | methodDeclaration (m : Callable)
  | typeDeclaration (t : TypeRef)
  | variableDeclaration (m : Member)
  | signature (name : String) (params : List String)
  | signatureOfTypes (name : String) (types : List (Option TypeRef))
  | signatureWithNames (name : String) (types : List (Option TypeRef)) (names : List String)
  | signatureOfValues (name : String) (args : List RuntimeValue)
  | typeString (v : RuntimeValue)
  | commonBeginning (one two : String)

/-- What a call gives back: a text, unless parameters do not line up. -/
abbrev Outcome := Except ParameterMismatch String

namespace Call

/-- **Makes a call.** Only the first two and the one with names have anything to report. -/
def run : Call → Traced Outcome
  | methodDeclaration m => m.declaration
  | typeDeclaration t => .ok <$> t.declaration
  | variableDeclaration m => return .ok m.declaration
  | signature name params => return .ok (Signature.render name params)
  | signatureOfTypes name types => return .ok (Signature.ofTypes name types)
  | signatureWithNames name types names => Signature.withNames name types names
  | signatureOfValues name args => return .ok (Signature.ofValues name args)
  | typeString v => return .ok v.typeString
  | commonBeginning one two => return .ok (Completion.shared one two)

/-- **Makes calls**, one after the other, whatever comes of each. -/
def runAll : List Call → Traced (List Outcome)
  | [] => return []
  | c :: cs => do
    let outcome ← c.run
    let outcomes ← runAll cs
    return outcome :: outcomes

end Call

/-! ### Logs -/

/-- An event as it stands in a log. -/
abbrev Event.Entry := Level × Event

namespace Traced

variable {α β : Type}

/-- **The log of a traced value**: its events with their levels. -/
def log (x : Traced α) : List Event.Entry :=
  x.events.map fun e => (e.level, e)

@[simp] theorem log_pure (a : α) : (pure a : Traced α).log = [] := rfl

@[simp] theorem log_emit (e : Event) : (emit e).log = [(e.level, e)] := rfl

/-- The log of a computation comes before that of what follows it. -/
@[simp] theorem log_bind (x : Traced α) (f : α → Traced β) :
    (x >>= f).log = x.log ++ (f x.value).log := by
  rw [log, events_bind, List.map_append]
  rfl

/-- What is made of a value afterwards is not reported. -/
@[simp] theorem log_map (f : α → β) (x : Traced α) : (f <$> x).log = x.log := by
  rw [log, events_map]
  rfl

end Traced

/-- **What a call announces** before it does anything else. The supertypes of a type are not
announced with it. -/
def Call.announced : Call → List Event.Entry
  | methodDeclaration m => [(.trace, .renderingMethod m.name)]
  | typeDeclaration t => [(.trace, .renderingType t.name t.isGenerated)]
  | _ => []

/-- **What is reported of an outcome**: of a mismatch all that is known about it, of a text nothing.
-/
def Outcome.reported : Outcome → List Event.Entry
  | .ok _ => []
  | .error e => [(.debug, .parametersMisaligned e.method e.types e.names)]

/-! ### One call -/

/-- A signature with names reports its mismatch. -/
theorem Signature.log_withNames (name : String) (types : List (Option TypeRef))
    (names : List String) :
    (withNames name types names).log = Outcome.reported (withNames name types names).value := by
  -- only the branch for lists of different length reports something
  unfold withNames
  split <;> rfl

/-- A signature reports its mismatch, which it can only have if names are known. -/
theorem Callable.log_signature (m : Callable) :
    m.signature.log = Outcome.reported m.signature.value := by
  unfold signature
  cases m.parameterNames with
  | none => rfl
  | some names => exact Signature.log_withNames m.name m.parameterTypes names

/-- A method is announced, and then its signature reports what the declaration gives back. -/
theorem Callable.log_declaration (m : Callable) :
    m.declaration.log =
      (.trace, .renderingMethod m.name) :: Outcome.reported m.declaration.value := by
  rw [declaration]
  simp only [Traced.log_bind, Traced.log_emit, Traced.log_pure, Traced.value_bind,
    Traced.value_pure, List.append_nil, log_signature]
  cases m.signature.value <;> rfl

/-- A type is announced, and there is nothing else to report. -/
theorem TypeRef.log_declaration (t : TypeRef) :
    t.declaration.log = [(.trace, .renderingType t.name t.isGenerated)] := rfl

namespace Call

/-- **The log of a call**: its announcement, and then the report of its outcome. -/
theorem log_run (c : Call) : c.run.log = c.announced ++ Outcome.reported c.run.value := by
  -- most calls report nothing, and have no mismatch either
  cases c with
  | methodDeclaration m => exact m.log_declaration
  | typeDeclaration t => exact (Traced.log_map _ _).trans t.log_declaration
  | signatureWithNames name types names => exact Signature.log_withNames name types names
  | _ => rfl

/-! ### Runs -/

/-- A call gives back in a run what it gives back alone. -/
theorem value_runAll (calls : List Call) : (runAll calls).value = calls.map (·.run.value) := by
  -- by the calls; what one of them gives back does not depend on those before it
  induction calls with
  | nil => rfl
  | cons c cs ih =>
    rw [runAll, List.map_cons, ← ih]
    rfl

/-- **The log of a run** mirrors its calls and their outcomes: in the order of the calls, what each
of them announces and then what is reported of its outcome, and nothing else. -/
theorem log_runAll (calls : List Call) :
    (runAll calls).value = calls.map (·.run.value) ∧
      (runAll calls).log =
        (calls.zip (runAll calls).value).flatMap fun c => c.1.announced ++ c.2.reported := by
  refine ⟨value_runAll calls, ?_⟩
  induction calls with
  | nil => rfl
  | cons c cs ih =>
    -- the first call comes first, in the log as in the run
    have hvalue : (runAll (c :: cs)).value = c.run.value :: (runAll cs).value := rfl
    have hlog : (runAll (c :: cs)).log = c.run.log ++ (runAll cs).log := by
      rw [runAll]
      simp only [Traced.log_bind, Traced.log_pure, List.append_nil]
    rw [hvalue, List.zip_cons_cons, List.flatMap_cons, hlog, log_run, ih]

/-- Of two calls for a signature the one whose names do not line up is reported. -/
example : (runAll [.signatureWithNames "put" [none, none] ["key"],
    .signatureWithNames "put" [none] ["key"]]).log = [(.debug, .parametersMisaligned "put" 2 1)] :=
  rfl

end Call

end Introspect
