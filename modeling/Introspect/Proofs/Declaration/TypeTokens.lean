import Introspect.Proofs.Declaration.TypeLine
import Introspect.Proofs.Text.Joined

/-!
# The line of a type, read back

What a type declaration shows can be told from the line. Names may well be keywords: it is the place
of a word in the line that says what the word means.

Where no name has a space in it, the spaces of the line separate its **tokens** (`TypeRef.tokens`),
which are the words of the line with the list of interfaces taken apart. Read from the front,

* the first token `class` or `interface` is the kind, since no modifier before it shows one of
  these;
* the next token is the name, and behind it a class has two tokens for its superclass;
* what is left before the brace are the interfaces.

The main statement is `TypeRef.typeLine_eq_iff`: two types have the same line just when they show
the same.
-/

namespace Introspect

namespace TypeRef

/-- **The names that the line of a type shows have no space in them.** -/
structure HasPlainNames (t : TypeRef) : Prop where
  name : ' ' ∉ t.name.toList
  superclass : t.isInterface = false → ∀ s ∈ t.superclass, ' ' ∉ s.name.toList
  interfaces : ∀ u ∈ t.interfaces, ' ' ∉ u.name.toList

/-! ### Tokens -/

/-- The words before the interfaces. -/
def frontWords (t : TypeRef) : List String :=
  (t.modifiers \ .single .interface).keywords ++ t.kindWord :: t.name :: t.superclassWords

/-- The tokens for the interfaces of a type: a word, and their names with the commas behind them. -/
def interfacesTokens (t : TypeRef) : List String :=
  match t.interfaces.map TypeRef.name with
  | [] => []
  | names => (if t.isInterface then "extends" else "implements") :: Text.listed names

/-- **The tokens of a type declaration.** -/
def tokens (t : TypeRef) : List String :=
  t.frontWords ++ (t.interfacesTokens ++ ["\x7b"])

/-- The words are those before the interfaces, the interfaces, and the brace. -/
theorem words_eq (t : TypeRef) : t.words = t.frontWords ++ (t.interfacesWords ++ ["\x7b"]) := by
  simp [words, nameWords, frontWords]

/-- The tokens make the same line as the words. -/
theorem intercalate_tokens (t : TypeRef) :
    " ".intercalate t.tokens = " ".intercalate t.words := by
  -- the two differ where the interfaces are
  rw [words_eq, tokens, interfacesTokens, interfacesWords]
  cases hnames : t.interfaces.map TypeRef.name with
  | nil => rfl
  | cons n ns =>
    -- the names are one word, but a token each
    have hnames := Text.intercalate_piece (Text.listed_ne_nil (List.cons_ne_nil n ns))
      (Text.intercalate_listed (n :: ns))
      (t.frontWords ++ [if t.isInterface then "extends" else "implements"]) ["\x7b"]
    simpa only [List.append_assoc, List.cons_append, List.nil_append] using hnames

/-- No token has a space in it. -/
theorem notMem_tokens {t : TypeRef} (h : t.HasPlainNames) : ∀ w ∈ t.tokens, ' ' ∉ w.toList := by
  have hkeywords : ∀ w ∈ (t.modifiers \ .single .interface).keywords, ' ' ∉ w.toList :=
    ModifierSet.notMem_keyword rfl
  have hkind : ' ' ∉ t.kindWord.toList := by
    unfold kindWord
    cases t.isInterface <;> decide
  have hsuperclass : ∀ w ∈ t.superclassWords, ' ' ∉ w.toList := by
    unfold superclassWords
    cases hi : t.isInterface with
    | true => exact fun w hw => absurd hw List.not_mem_nil
    | false =>
      refine List.forall_mem_cons.mpr ⟨by decide, List.forall_mem_singleton.mpr ?_⟩
      cases hs : t.superclass with
      | none => decide
      | some s => exact h.superclass hi s hs
  have hinterfaces : ∀ w ∈ t.interfacesTokens, ' ' ∉ w.toList := by
    have hnames : ∀ n ∈ t.interfaces.map TypeRef.name, ' ' ∉ n.toList := by
      simpa using h.interfaces
    unfold interfacesTokens
    split
    · exact fun w hw => absurd hw List.not_mem_nil
    · refine List.forall_mem_cons.mpr ⟨?_, Text.notMem_of_mem_listed (by decide) hnames⟩
      cases t.isInterface <;> decide
  intro w hw
  simp only [tokens, frontWords, List.mem_append, List.mem_cons, List.not_mem_nil, or_false] at hw
  obtain (hw | rfl | rfl | hw) | hw | rfl := hw
  · exact hkeywords w hw
  · exact hkind
  · exact h.name
  · exact hsuperclass w hw
  · exact hinterfaces w hw
  · decide

/-! ### What the tokens tell -/

/-- Is the word one of the two for the kind of a type? -/
def IsKindWord (w : String) : Prop := w = "class" ∨ w = "interface"

instance (w : String) : Decidable (IsKindWord w) :=
  inferInstanceAs (Decidable (w = "class" ∨ w = "interface"))

/-- The word for the kind is one of the two. -/
theorem isKindWord_kindWord (t : TypeRef) : IsKindWord t.kindWord := by
  unfold kindWord
  cases t.isInterface <;> decide

/-- The word for the kind tells the kind. -/
theorem kindWord_inj {t u : TypeRef} (h : t.kindWord = u.kindWord) :
    t.isInterface = u.isInterface := by
  revert h
  unfold kindWord
  cases t.isInterface <;> cases u.isInterface <;> decide

/-- Of the modifiers only `interface` has the word for a kind. -/
theorem eq_interface_of_isKindWord {m : Modifier} (h : IsKindWord m.keyword) : m = .interface := by
  revert h
  cases m <;> decide

/-- No modifier that the line of a type shows has the word for a kind. -/
theorem not_isKindWord_of_mem_keywords {s : ModifierSet} :
    ∀ w ∈ (s \ .single .interface).keywords, ¬IsKindWord w := by
  intro w hw hkind
  obtain ⟨m, hm, rfl⟩ := ModifierSet.mem_keywords.mp hw
  -- the only one that has is taken away
  rw [eq_interface_of_isKindWord hkind] at hm
  simp at hm

/-- The tokens for the interfaces tell their names. -/
theorem interfacesTokens_inj {t u : TypeRef} (h : t.interfacesTokens = u.interfacesTokens) :
    t.interfaces.map TypeRef.name = u.interfaces.map TypeRef.name := by
  -- either both types have interfaces or neither has
  unfold interfacesTokens at h
  cases ht : t.interfaces.map TypeRef.name with
  | nil =>
    cases hu : u.interfaces.map TypeRef.name with
    | nil => rfl
    | cons n ns => simp [ht, hu] at h
  | cons n ns =>
    cases hu : u.interfaces.map TypeRef.name with
    | nil => simp [ht, hu] at h
    | cons n' ns' =>
      rw [ht, hu] at h
      exact Text.listed_injective (List.cons.inj h).2

/-- **The tokens of a type tell all that it shows.** -/
theorem showsSame_of_tokens_eq {t u : TypeRef} (h : t.tokens = u.tokens) : t.ShowsSame u := by
  simp only [tokens, frontWords, List.append_assoc, List.cons_append] at h
  -- the kind comes behind the modifiers
  obtain ⟨hkeywords, hkind, htail⟩ := Text.append_cons_inj not_isKindWord_of_mem_keywords
    not_isKindWord_of_mem_keywords t.isKindWord_kindWord u.isKindWord_kindWord h
  have hisInterface : t.isInterface = u.isInterface := kindWord_inj hkind
  obtain ⟨hname, htail⟩ := List.cons.inj htail
  -- the words for the superclass are as many for both types, which are of one kind
  have hlength : t.superclassWords.length = u.superclassWords.length := by
    unfold superclassWords
    rw [hisInterface]
    split <;> rfl
  obtain ⟨hsuperclass, htail⟩ := List.append_inj htail hlength
  refine ⟨hisInterface, ModifierSet.keywords_eq_iff.mp hkeywords, hname, fun hclass => ?_,
    interfacesTokens_inj (List.append_cancel_right htail)⟩
  unfold superclassWords at hsuperclass
  simpa [hclass, ← hisInterface] using hsuperclass

/-! ### Lines -/

/-- The line of a type is made of its tokens. -/
theorem declaration_eq_tokens (t : TypeRef) : t.declaration.value = " ".intercalate t.tokens := by
  rw [intercalate_tokens]
  show Text.trim t.untrimmed = _
  -- the words neither begin nor end with a blank
  obtain h | h := t.untrimmed_eq
  · rw [h, trim_words]
  · rw [h, Text.trim_space, trim_words]

/-- **Lines of types are unambiguous.** Types whose names have no spaces in them have the same line
just when they show the same: the kind, the modifiers but the one for interfaces, the name, the
superclass of a class, and the interfaces in their order. -/
theorem typeLine_eq_iff {t u : TypeRef} (ht : t.HasPlainNames) (hu : u.HasPlainNames) :
    t.declaration.value = u.declaration.value ↔ t.ShowsSame u := by
  have htokens (t : TypeRef) : t.tokens ≠ [] := by simp [tokens, frontWords]
  refine ⟨fun h => ?_, fun h => ?_⟩
  · rw [declaration_eq_tokens, declaration_eq_tokens] at h
    refine showsSame_of_tokens_eq (Text.joined_inj rfl ?_ ?_ (htokens t) (htokens u) h)
    · exact notMem_tokens ht
    · exact notMem_tokens hu
  · rw [declaration_eq_tokens, declaration_eq_tokens, intercalate_tokens, intercalate_tokens,
      h.words_eq]

/-- Two interfaces with keywords for names. They come from different places and differ in all that
is not shown. -/
theorem typeLine_eq_iff_keywordNames :
    ∃ t u : TypeRef, t.origin ≠ u.origin ∧ t.HasPlainNames ∧ u.HasPlainNames ∧
      t.declaration.value = "abstract interface class extends extends, interface \x7b" ∧
      t.declaration.value = u.declaration.value ∧ t.ShowsSame u := by
  let named (name : String) : TypeRef := ⟨.native, ⟨name, none, true, ∅, none, []⟩⟩
  let interfaces := [named "extends", named "interface"]
  let t : TypeRef := ⟨.native, ⟨"class", none, true, .ofList [.abstract, .interface], none,
    interfaces⟩⟩
  let u : TypeRef := ⟨.generated, ⟨"class", some "p", true, ⟨0x8400⟩, some (named "a b"),
    interfaces⟩⟩
  have ht : t.HasPlainNames := ⟨by decide, by decide, by decide⟩
  have hu : u.HasPlainNames := ⟨by decide, by decide, by decide⟩
  have hline : t.declaration.value = u.declaration.value := by decide +kernel
  exact ⟨t, u, by decide, ht, hu, by decide +kernel, hline, (typeLine_eq_iff ht hu).mp hline⟩

end TypeRef

end Introspect
