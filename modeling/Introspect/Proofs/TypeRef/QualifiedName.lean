import Introspect.TypeRef.Build
import Mathlib.Data.List.DropRight

/-!
# What a qualified name tells

A package may have any text for its name: it may have dots in it, begin or end with one, or be
empty, which is the same as no package. A qualified name nevertheless tells the package and the
simple name of a type, as long as the simple name itself has no dot: the last dot, if there is one,
is the one that was put between them.

* `Text.afterLast` — what stands behind the last separator of a text;
* `TypeRef.qualifier` — what stands before the simple name, which tells the package
  (`TypeRef.qualifier_eq_iff`);
* `TypeRef.qualifiedName_eq_iff` — types have the same qualified name just when they have the same
  simple name and the same package.
-/

namespace Introspect

/-! ### Behind the last separator -/

namespace Text

/-- **What stands behind the last separator of a text**; all of it if there is none. -/
def afterLast (sep : Char) (s : String) : String :=
  String.ofList (s.toList.rtakeWhile (· ≠ sep))

variable {sep : Char}

/-- A text without a separator stands behind the last one as a whole. -/
theorem afterLast_of_notMem {s : String} (h : sep ∉ s.toList) : afterLast sep s = s := by
  -- there is no separator to stop at
  have hall : s.toList.rtakeWhile (· ≠ sep) = s.toList := by
    rw [List.rtakeWhile_eq_self_iff]
    exact fun c hc => decide_eq_true fun hsep => h (hsep ▸ hc)
  rw [afterLast, hall, String.ofList_toList]

/-- **What comes behind a separator**, and has none itself, is found again, whatever comes before
the separator. -/
theorem afterLast_append (before : String) {s : String} (h : sep ∉ s.toList) :
    afterLast sep (before ++ String.singleton sep ++ s) = s := by
  have hall : ∀ c ∈ s.toList.reverse, decide (c ≠ sep) = true := by
    intro c hc
    rw [List.mem_reverse] at hc
    exact decide_eq_true fun hsep => h (hsep ▸ hc)
  -- seen from the end, the text starts with `s` and goes on with the separator
  have hreverse : (before ++ String.singleton sep ++ s).toList.reverse =
      s.toList.reverse ++ sep :: before.toList.reverse := by simp
  rw [afterLast, List.rtakeWhile, hreverse, List.takeWhile_append_of_pos hall,
    List.takeWhile_cons_of_neg (by simp), List.append_nil, List.reverse_reverse,
    String.ofList_toList]

end Text

/-! ### Qualified names -/

namespace TypeRef

/-- **The name of the package**; no package counts as one with an empty name. -/
def packageName (t : TypeRef) : String := t.info.package.getD ""

/-- **What stands before the simple name** in a qualified name: the package and a dot, if any. -/
def qualifier (t : TypeRef) : String :=
  if t.packageName = "" then "" else t.packageName ++ "."

variable {t u : TypeRef}

/-- A qualified name is the qualifier with the simple name behind it. -/
theorem qualifiedName_eq (t : TypeRef) : t.qualifiedName = t.qualifier ++ t.name := by
  unfold qualifiedName qualifier packageName
  cases t.info.package with
  | none => exact (String.empty_append).symm
  | some p =>
    -- an empty package is treated as none
    by_cases hp : p = ""
    · subst hp
      exact (String.empty_append).symm
    · simp [hp]

/-- **The qualifier tells the package**: it is empty only if the package is, and ends with one dot
more than the package otherwise. -/
theorem qualifier_eq_iff : t.qualifier = u.qualifier ↔ t.packageName = u.packageName := by
  -- a qualifier that is not empty ends with a dot, and is not mistaken for an empty one
  have hdot (p : String) : p ++ "." ≠ "" := by simp
  refine ⟨fun h => ?_, fun h => by rw [qualifier, qualifier, h]⟩
  unfold qualifier at h
  -- both packages are empty, one of them is, or none
  split at h <;> split at h
  · next ht hu => rw [ht, hu]
  · exact absurd h.symm (hdot _)
  · exact absurd h (hdot _)
  · exact (String.append_left_inj ".").mp h

/-- **The simple name is what stands behind the last dot**, if it has no dot itself. -/
theorem afterLast_qualifiedName (h : '.' ∉ t.name.toList) :
    Text.afterLast '.' t.qualifiedName = t.name := by
  rw [qualifiedName_eq]
  unfold qualifier
  split
  · rw [String.empty_append, Text.afterLast_of_notMem h]
  · exact Text.afterLast_append t.packageName h

/-- **A qualified name tells the package and the simple name of a type**, wherever the type comes
from and whatever the package is called. -/
theorem qualifiedName_eq_iff (ht : '.' ∉ t.name.toList) (hu : '.' ∉ u.name.toList) :
    (t.qualifiedName = u.qualifiedName ↔ t.name = u.name ∧ t.packageName = u.packageName) ∧
      t.name = Text.afterLast '.' t.qualifiedName := by
  refine ⟨⟨fun h => ?_, ?_⟩, (afterLast_qualifiedName ht).symm⟩
  · -- the simple names first, and what stands before them is then the same too
    have hname : t.name = u.name := by
      rw [← afterLast_qualifiedName ht, ← afterLast_qualifiedName hu, h]
    refine ⟨hname, qualifier_eq_iff.mp ?_⟩
    rw [qualifiedName_eq, qualifiedName_eq, hname] at h
    exact (String.append_left_inj u.name).mp h
  · rintro ⟨hname, hpackage⟩
    rw [qualifiedName_eq, qualifiedName_eq, hname, qualifier_eq_iff.mpr hpackage]

/-- A package that begins and ends with a dot, and one that lacks the dot at the end. -/
theorem qualifiedName_eq_iff_dots :
    let t := ((TypeInfo.ofClass "Map").inPackage ".java.").native
    let u := ((TypeInfo.ofClass "Map").inPackage ".java").generated
    '.' ∉ t.name.toList ∧ '.' ∉ u.name.toList ∧ t.packageName ≠ u.packageName ∧
      t.qualifiedName ≠ u.qualifiedName ∧ Text.afterLast '.' ".java..Map" = "Map" := by
  intro t u
  have ht : '.' ∉ t.name.toList := by decide
  have hu : '.' ∉ u.name.toList := by decide
  have hpackage : t.packageName ≠ u.packageName := by decide
  obtain ⟨hiff, hlast⟩ := qualifiedName_eq_iff ht hu
  exact ⟨ht, hu, hpackage, fun h => hpackage (hiff.mp h).2, hlast.symm⟩

/-- No package and an empty one make no difference. -/
example : ((TypeInfo.ofClass "Point").inPackage "").generated.qualifiedName =
    (TypeInfo.ofClass "Point").native.qualifiedName := by
  decide

end TypeRef

end Introspect
