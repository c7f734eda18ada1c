import Introspect.Modifier.Basic

/-!
# Keywords

A declaration shows its modifiers as **keywords**, in one canonical order that differs from the
order of the bits, with single spaces between them and nothing before the first. `interface` comes
last, so that it stands right before the name of a type.
-/

namespace Introspect

namespace Modifier

/-- The keyword of a modifier. -/
def keyword : Modifier → String
  | publicAccess => "public"
  | privateAccess => "private"
  | protectedAccess => "protected"
  | static => "static"
  | final => "final"
  | synchronized => "synchronized"
  | volatile => "volatile"
  | transient => "transient"
  | native => "native"
  | interface => "interface"
  | abstract => "abstract"
  | strict => "strictfp"

/-- **The canonical order** of the keywords of a declaration. -/
def canonicalOrder : List Modifier :=
  [publicAccess, protectedAccess, privateAccess, abstract, static, final, transient, volatile,
    synchronized, native, strict, interface]

theorem mem_canonicalOrder (m : Modifier) : m ∈ canonicalOrder := by
  cases m <;> decide

end Modifier

namespace ModifierSet

/-- The keywords of a set in canonical order. -/
def keywords (s : ModifierSet) : List String :=
  (Modifier.canonicalOrder.filter s.has).map Modifier.keyword

/-- **The keywords as one text**, empty for a set without modifiers. -/
def render (s : ModifierSet) : String :=
  " ".intercalate s.keywords

end ModifierSet

end Introspect
