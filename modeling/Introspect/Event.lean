/-!
# Events

Rendering leaves a trace: a declaration being rendered, or parameters that do not line up, is an
`Event`. Nothing is sent anywhere; a function that emits events gives them back with its value, in
the order in which they were emitted (`Traced`).
-/

namespace Introspect

/-- **What rendering reports.** -/
inductive Event where
  /-- A method declaration is being rendered. -/
  | renderingMethod (method : String)
  /-- A type declaration is being rendered. -/
  | renderingType (name : String) (generated : Bool)
  /-- A method has another number of parameter names than of parameter types. -/
  | parametersMisaligned (method : String) (types names : Nat)
  deriving DecidableEq, Repr

/-- How much an event matters. -/
inductive Level where
  | trace
  | debug
  deriving DecidableEq, Repr

namespace Event

/-- Renderings are traced, faulty descriptors are worth a look. -/
def level : Event → Level
  | renderingMethod _ => .trace
  | renderingType _ _ => .trace
  | parametersMisaligned _ _ _ => .debug

/-- The message of an event, without its details. -/
def message : Event → String
  | renderingMethod _ => "rendering method declaration"
  | renderingType _ _ => "rendering type declaration"
  | parametersMisaligned _ _ _ => "parameter names do not line up with parameter types"

end Event

/-- **A value with the events emitted on the way to it.** -/
structure Traced (α : Type) where
  value : α
  events : List Event
  deriving DecidableEq, Repr

namespace Traced

variable {α β : Type}

/-- Emits one event. -/
def emit (e : Event) : Traced Unit := ⟨(), [e]⟩

instance : Monad Traced where
  pure a := ⟨a, []⟩
  bind x f := ⟨(f x.value).value, x.events ++ (f x.value).events⟩

@[simp] theorem value_pure (a : α) : (pure a : Traced α).value = a := rfl

@[simp] theorem events_pure (a : α) : (pure a : Traced α).events = [] := rfl

@[simp] theorem value_bind (x : Traced α) (f : α → Traced β) :
    (x >>= f).value = (f x.value).value := rfl

@[simp] theorem events_bind (x : Traced α) (f : α → Traced β) :
    (x >>= f).events = x.events ++ (f x.value).events := rfl

@[simp] theorem value_map (f : α → β) (x : Traced α) : (f <$> x).value = f x.value := rfl

@[simp] theorem events_map (f : α → β) (x : Traced α) : (f <$> x).events = x.events :=
  List.append_nil _

@[simp] theorem value_emit (e : Event) : (emit e).value = () := rfl

@[simp] theorem events_emit (e : Event) : (emit e).events = [e] := rfl

end Traced

end Introspect
