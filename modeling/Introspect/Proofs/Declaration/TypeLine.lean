import Introspect.Declaration
import Introspect.Proofs.Modifier.Keywords
import Introspect.Proofs.Text.Blank

/-!
# The line of a type

The declaration of a class or interface is put together in one way for native interfaces, which have
their kind among the modifiers, and in another for all other types, which have it appended. Both
ways lead to the same words with single spaces between them (`TypeRef.words`).

* `TypeRef.untrimmed_eq` — before trimming the line is these words, with a space in front when no
  word comes before the kind that was appended;
* `TypeRef.trim_words` — trimming takes nothing away from the words, as the first is never blank and
  the last is a brace;
* `TypeRef.ShowsSame` — what two types must share to have the same words;
* `TypeRef.declaration_words` — the line of a type, what was trimmed from it, and what it depends
  on.
-/

namespace Introspect

namespace TypeRef

/-! ### The words of a line -/

/-- The word for the kind of a type. -/
def kindWord (t : TypeRef) : String :=
  if t.isInterface then "interface" else "class"

/-- The words for the superclass of a class. -/
def superclassWords (t : TypeRef) : List String :=
  if t.isInterface then [] else ["extends", nameOf t.superclass]

/-- The words for the interfaces of a type, if it has any. -/
def interfacesWords (t : TypeRef) : List String :=
  match t.interfaces.map name with
  | [] => []
  | names => [if t.isInterface then "extends" else "implements", ", ".intercalate names]

/-- The words from the name on. -/
def nameWords (t : TypeRef) : List String :=
  t.name :: (t.superclassWords ++ t.interfacesWords ++ ["\x7b"])

/-- **The words of a type declaration**: the modifiers except the one for interfaces, the kind, the
name, the supertypes, a brace. -/
def words (t : TypeRef) : List String :=
  (t.modifiers \ .single .interface).keywords ++ t.kindWord :: t.nameWords

/-- From the name on both ways of putting the line together are the same. -/
theorem tail_eq (t : TypeRef) :
    " " ++ t.name ++ t.extendsClause ++ t.interfacesClause ++ " \x7b" =
      " " ++ " ".intercalate t.nameWords := by
  unfold nameWords superclassWords interfacesWords extendsClause interfacesClause
  rw [← String.toList_inj]
  cases t.isInterface <;> cases t.interfaces <;> simp

/-- **The line before it is trimmed**: the words with single spaces between them, and one in front
if no word comes before the kind that was appended. -/
theorem untrimmed_eq (t : TypeRef) :
    t.untrimmed = " ".intercalate t.words ∨ t.untrimmed = " " ++ " ".intercalate t.words := by
  have hname : t.nameWords ≠ [] := List.cons_ne_nil _ _
  have hline : t.untrimmed = t.modifiersAndKind.1.render ++ t.modifiersAndKind.2 ++
      (" " ++ " ".intercalate t.nameWords) := by
    rw [← tail_eq, untrimmed]
    simp only [String.append_assoc]
  by_cases hnative : t.origin = .native ∧ t.isInterface = true
  · -- the kind is the last of the modifiers
    left
    rw [hline, modifiersAndKind, hnative.1, hnative.2, words, kindWord, hnative.2]
    simp only [ModifierSet.render, ModifierSet.keywords_union_interface, String.append_empty,
      if_true]
    rw [← String.append_assoc, ← String.intercalate_append_of_ne_nil (by simp) hname,
      List.append_assoc, List.singleton_append]
  · -- the kind is appended
    have hkind : t.modifiersAndKind = (t.modifiers \ .single .interface, " " ++ t.kindWord) := by
      unfold modifiersAndKind kindWord
      cases ho : t.origin <;> cases hi : t.isInterface <;> simp_all
    have hwords : t.untrimmed = (t.modifiers \ .single .interface).render ++ " " ++
        " ".intercalate (t.kindWord :: t.nameWords) := by
      rw [hline, hkind, String.intercalate_cons_of_ne_nil hname]
      simp only [String.append_assoc]
    by_cases hplain : (t.modifiers \ .single .interface).keywords = []
    · -- no keyword: the space in front of the kind comes first
      right
      rw [hwords, words, hplain, ModifierSet.render, hplain]
      rfl
    · left
      rw [hwords, words, ModifierSet.render,
        String.intercalate_append_of_ne_nil hplain (List.cons_ne_nil _ _)]

/-! ### Trimming -/

/-- The first word does not start with a blank. -/
theorem exists_words_eq_cons (t : TypeRef) :
    ∃ w ws c cs, t.words = w :: ws ++ ["\x7b"] ∧ w.toList = c :: cs ∧ Text.isBlank c = false := by
  have hnames : t.nameWords = t.name :: (t.superclassWords ++ t.interfacesWords) ++ ["\x7b"] := rfl
  rw [words, hnames]
  cases hkeywords : (t.modifiers \ .single .interface).keywords with
  | nil =>
    -- the kind comes first
    refine ⟨t.kindWord, t.name :: (t.superclassWords ++ t.interfacesWords), ?_⟩
    unfold kindWord
    cases t.isInterface with
    | true => exact ⟨_, _, rfl, rfl, rfl⟩
    | false => exact ⟨_, _, rfl, rfl, rfl⟩
  | cons w ws =>
    -- a keyword comes first
    have hw : w ∈ (t.modifiers \ .single .interface).keywords := hkeywords ▸ List.mem_cons_self ..
    obtain ⟨m, -, rfl⟩ := List.mem_map.mp hw
    obtain ⟨c, cs, hm, hc⟩ := m.head_keyword
    refine ⟨m.keyword, ws ++ t.kindWord :: t.name :: (t.superclassWords ++ t.interfacesWords),
      c, cs, ?_, hm, hc⟩
    simp only [List.cons_append, List.append_assoc]

/-- **Trimming takes nothing away from the words.** -/
theorem trim_words (t : TypeRef) :
    Text.trim (" ".intercalate t.words) = " ".intercalate t.words := by
  obtain ⟨w, ws, c, cs, hwords, hw, hc⟩ := t.exists_words_eq_cons
  rw [hwords]
  refine Text.trim_eq_self ?_ ?_
  -- the line starts as the first word does, and ends with the brace, whatever the name may be
  · rw [List.cons_append, String.intercalate_cons_of_ne_nil (by simp), String.toList_append,
      String.toList_append, hw]
    simpa using hc
  · rw [String.intercalate_append_of_ne_nil (List.cons_ne_nil _ _) (List.cons_ne_nil _ _),
      String.intercalate_singleton, String.toList_append]
    have hbrace : Text.isBlank '{' = false := rfl
    simpa using hbrace

/-! ### What a line depends on -/

/-- **Types that show the same**: of the same kind, with the same modifiers apart from the one for
interfaces, and with the same names for themselves and their direct supertypes. The superclass of an
interface is not shown. -/
structure ShowsSame (t u : TypeRef) : Prop where
  isInterface : t.isInterface = u.isInterface
  modifiers : (t.modifiers \ .single .interface).known = (u.modifiers \ .single .interface).known
  name : t.name = u.name
  superclass : t.isInterface = false → nameOf t.superclass = nameOf u.superclass
  interfaces : t.interfaces.map TypeRef.name = u.interfaces.map TypeRef.name

theorem ShowsSame.words_eq {t u : TypeRef} (h : t.ShowsSame u) : t.words = u.words := by
  have hinterfaces : t.interfacesWords = u.interfacesWords := by
    rw [interfacesWords, interfacesWords, h.interfaces, h.isInterface]
  have hsuperclass : t.superclassWords = u.superclassWords := by
    rw [superclassWords, superclassWords, ← h.isInterface]
    cases hi : t.isInterface with
    | true => rfl
    | false => simp [h.superclass hi]
  rw [words, words, nameWords, nameWords, kindWord, kindWord, h.isInterface, h.name,
    ModifierSet.keywords_congr h.modifiers, hsuperclass, hinterfaces]

/-- **The declaration of a type**: its words with single spaces between them. Trimming has taken one
space away at most, and the line is the same for all types that show the same, wherever they come
from. -/
theorem declaration_words (t : TypeRef) :
    t.declaration.value = " ".intercalate t.words ∧
      (t.untrimmed = t.declaration.value ∨ t.untrimmed = " " ++ t.declaration.value) ∧
      (∀ origin, (⟨origin, t.info⟩ : TypeRef).declaration.value = t.declaration.value) ∧
      ∀ u : TypeRef, t.ShowsSame u → u.declaration.value = t.declaration.value := by
  have hvalue (t : TypeRef) : t.declaration.value = " ".intercalate t.words := by
    show Text.trim t.untrimmed = _
    obtain h | h := t.untrimmed_eq
    · rw [h, trim_words]
    · rw [h, Text.trim_space, trim_words]
  refine ⟨hvalue t, ?_, fun origin => ?_, fun u hu => ?_⟩
  · rw [hvalue]
    exact t.untrimmed_eq
  · rw [hvalue, hvalue]
    rfl
  · rw [hvalue, hvalue, hu.words_eq]

end TypeRef

end Introspect
