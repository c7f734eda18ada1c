import Introspect.Signature
import Mathlib.Data.List.Forall2

/-!
# How the arguments of a call are shown

A value can be named in two ways. Its own name (`RuntimeValue.typeString`) is known for every value,
null included. The signature of a call goes by the runtime types of its arguments instead, and null
has none, so null is shown as any other slot without a type. Everywhere else the two ways agree.

* `RuntimeValue.shown` — the name of an argument in the signature of a call;
* `RuntimeValue.nameOf_runtimeType?` — it is the name of the slot that the runtime type fills;
* `RuntimeValue.Boxes` — a wrapped primitive against an object of the host type of its kind, which
  no signature tells apart;
* `Signature.ofValues_shown` — hence what a signature shows of the arguments, one by one.
-/

namespace Introspect

namespace RuntimeValue

/-- **The name of an argument in the signature of a call**: the name of its type, or `Object` for
null, which has no type. -/
def shown : RuntimeValue → String
  | null => "Object"
  | v => v.typeString

/-- **Both ways of naming agree** on every value but null. -/
theorem shown_eq_typeString_iff {v : RuntimeValue} : v.shown = v.typeString ↔ v ≠ null := by
  cases v with
  | null =>
    -- here the default name stands against `null`
    refine iff_of_false (fun h => ?_) (fun h => h rfl)
    exact absurd h (by decide)
  | primitive p | object t => exact iff_of_true rfl (fun h => nomatch h)

/-- The runtime type of a value fills a slot of the name that the value is shown with. -/
theorem nameOf_runtimeType? (v : RuntimeValue) : TypeRef.nameOf v.runtimeType? = v.shown := by
  cases v with
  | null => rfl
  | primitive p =>
    -- the host type of a kind is named by the keyword of the kind
    exact p.kind.name_typeRef
  | object t => rfl

/-- **A value and one that may stand for it**: itself, or for a primitive an object of the host type
of its kind. -/
inductive Boxes : RuntimeValue → RuntimeValue → Prop where
  | same (v : RuntimeValue) : Boxes v v
  | boxed (p : Primitive) : Boxes (primitive p) (object p.kind.typeRef)

/-- A boxed primitive keeps its runtime type. -/
theorem Boxes.runtimeType?_eq {v w : RuntimeValue} (h : Boxes v w) :
    w.runtimeType? = v.runtimeType? := by
  cases h with
  | same => rfl
  | boxed p => rfl

theorem map_runtimeType?_eq {args others : List RuntimeValue} (h : List.Forall₂ Boxes args others) :
    others.map runtimeType? = args.map runtimeType? := by
  induction h with
  | nil => rfl
  | cons hv _ ih => rw [List.map_cons, List.map_cons, hv.runtimeType?_eq, ih]

end RuntimeValue

namespace Signature

/-- **The signature of a call** shows of each argument, in their order, the name of its own type,
and of null the name of a slot without a type. It is the signature with parameters of the runtime
types of the arguments, and stays as it is when primitives among the arguments are boxed, however
many of them. -/
theorem ofValues_shown (name : String) (args : List RuntimeValue) :
    ofValues name args = render name (args.map RuntimeValue.shown) ∧
      (∀ v : RuntimeValue, v.shown = v.typeString ↔ v ≠ .null) ∧
      ofValues name args = ofTypes name (args.map RuntimeValue.runtimeType?) ∧
      ∀ others, List.Forall₂ RuntimeValue.Boxes args others →
        ofValues name others = ofValues name args := by
  refine ⟨?_, fun _ => RuntimeValue.shown_eq_typeString_iff, rfl, fun others h => ?_⟩
  · have hnames : (args.map RuntimeValue.runtimeType?).map TypeRef.nameOf =
        args.map RuntimeValue.shown := by
      rw [List.map_map]
      exact List.map_congr_left fun v _ => v.nameOf_runtimeType?
    rw [ofValues, ofTypes, hnames]
  · rw [ofValues, ofValues, RuntimeValue.map_runtimeType?_eq h]

/-- One of two primitives is boxed, and null is not shown by its own name. -/
theorem ofValues_shown_boxed :
    let args := [.primitive (.int 42), .null, .primitive .void]
    let others := [.object PrimitiveKind.int.typeRef, .null, .primitive .void]
    List.Forall₂ RuntimeValue.Boxes args others ∧
      ofValues "call" others = "call(int, Object, void)" := by
  intro args others
  have h : List.Forall₂ RuntimeValue.Boxes args others :=
    .cons (.boxed (.int 42)) (.cons (.same .null) (.cons (.same (.primitive .void)) .nil))
  obtain ⟨hshown, -, -, hboxed⟩ := ofValues_shown "call" args
  refine ⟨h, ?_⟩
  rw [hboxed others h, hshown]
  decide +kernel

end Signature

end Introspect
