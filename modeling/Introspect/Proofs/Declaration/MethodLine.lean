import Introspect.Declaration
import Introspect.Proofs.Declaration.MemberLine
import Introspect.Proofs.Modifier.Keywords
import Introspect.Proofs.Text.Joined
import Mathlib.Data.List.Zip

/-!
# The line of a method, read back

The line of a method is a head, the parameters in parentheses, and what closes it
(`Callable.line`). All of it can be told from the line, if no name has a character in it that
separates the parts, and no parameter's type has an empty name.

* Parentheses separate the three parts.
* The head ends with the name of the return type and the name of the method; whatever stands before
  them are modifiers, or nothing at all behind which there still is a space
  (`ModifierSet.leadingWords`).
* A parameter is its type, or its type and its name (`Callable.parameterWords`), and commas separate
  parameters.

The main statements are

* `Callable.methodLine_eq_variableLine` — the head of the line is what the method is shown as among
  variables, and what closes the line depends on its modifiers alone, although it is decided by a
  search in text;
* `Callable.methodLine_eq_iff` — two methods have the same line just when they show the same, be
  they methods of the host or of a script.
-/

namespace Introspect

namespace Callable

open TypeRef (nameOf)

/-! ### Methods that show the same -/

/-- **Methods that show the same**: the same modifiers, the same names for themselves and the types,
and the same names of parameters or none. Without parameters there is no telling whether their names
would be shown. -/
structure ShowsSame (a b : Callable) : Prop where
  modifiers : a.modifiers.known = b.modifiers.known
  returnType : nameOf a.declaredType = nameOf b.declaredType
  name : a.name = b.name
  parameterTypes : a.parameterTypes.map nameOf = b.parameterTypes.map nameOf
  parameterNames : a.parameterTypes ≠ [] → a.parameterNames = b.parameterNames

/-- **A name without any character that separates the parts of a line.** -/
def IsPlain (name : String) : Prop :=
  ∀ c ∈ [' ', ',', '(', ')'], c ∉ name.toList

instance (name : String) : Decidable (IsPlain name) :=
  List.decidableBAll (fun c => c ∉ name.toList) [' ', ',', '(', ')']

/-- **The names that the line of a method shows are plain**, and those of the parameters' types are
not empty. -/
structure HasPlainNames (m : Callable) : Prop where
  name : IsPlain m.name
  returnType : IsPlain (nameOf m.declaredType)
  parameterTypes : ∀ t ∈ m.parameterTypes, IsPlain (nameOf t) ∧ nameOf t ≠ ""
  parameterNames : ∀ names ∈ m.parameterNames, ∀ n ∈ names, IsPlain n

/-! ### The parts of a line -/

/-- Are there as many names of parameters as types, if there are names at all? -/
def LinesUp (m : Callable) : Prop :=
  ∀ names ∈ m.parameterNames, m.parameterTypes.length = names.length

/-- **The words of each parameter**: its type, and its name if it is known. -/
def parameterWords (m : Callable) : List (List String) :=
  match m.parameterNames with
  | none => m.parameterTypes.map fun t => [nameOf t]
  | some names => (m.parameterTypes.zip names).map fun p => [nameOf p.1, p.2]

/-- The parameters as they are shown. -/
def shownParameters (m : Callable) : List String :=
  m.parameterWords.map " ".intercalate

/-- The words before the parameters. -/
def headWords (m : Callable) : List String :=
  m.modifiers.leadingWords ++ [nameOf m.declaredType, m.name]

/-- **The line of a method** whose parameters line up. -/
def line (m : Callable) : String :=
  " ".intercalate m.headWords ++ "(" ++ ", ".intercalate m.shownParameters ++ ")" ++ m.terminator

/-- A signature shows the parameters if they line up. -/
theorem value_signature (m : Callable) (h : m.LinesUp) :
    m.signature.value = .ok (Signature.render m.name m.shownParameters) := by
  -- without names the parameters are shown by their types alone
  unfold signature shownParameters parameterWords
  cases hnames : m.parameterNames with
  | none =>
    rw [List.map_map]
    rfl
  | some names =>
    have hzip : (m.parameterTypes.zip names).map (fun p => " ".intercalate [nameOf p.1, p.2]) =
        List.zipWith Signature.parameter m.parameterTypes names := List.map_zip_eq_zipWith
    simp only [Signature.withNames, if_pos (h names hnames), List.map_map]
    rw [← hzip]
    rfl

/-- The head is what the method shows among members. -/
theorem intercalate_headWords (m : Callable) : " ".intercalate m.headWords =
    m.modifiers.render ++ " " ++ (nameOf m.declaredType ++ " " ++ m.name) :=
  m.toMember.intercalate_words

/-- **A method whose parameters line up** has a line, and it is made of its parts. -/
theorem declaration_of_linesUp {m : Callable} (h : m.LinesUp) :
    m.declaration.value = .ok m.line := by
  have hvalue : m.declaration.value = m.signature.value.map fun s =>
      m.modifiers.render ++ " " ++ nameOf m.declaredType ++ " " ++ s ++ m.terminator := rfl
  rw [hvalue, m.value_signature h, line, intercalate_headWords, Signature.render]
  simp only [Except.map, String.append_assoc]
  rfl

/-- A method that has a line has as many names of parameters as types. -/
theorem linesUp_of_declaration {m : Callable} {s : String} (h : m.declaration.value = .ok s) :
    m.LinesUp := by
  intro names hnames
  -- another number of names would have been reported in place of the line
  by_contra hne
  simp [declaration, signature, Option.mem_def.mp hnames, Signature.withNames, hne,
    Except.map] at h

/-- A method that has a line has parameters that line up. -/
theorem declaration_eq_ok {m : Callable} {s : String} (h : m.declaration.value = .ok s) :
    m.LinesUp ∧ s = m.line := by
  have hlinesUp := linesUp_of_declaration h
  rw [declaration_of_linesUp hlinesUp] at h
  exact ⟨hlinesUp, (Except.ok.inj h).symm⟩

/-- Having a line is having parameters in line, and there is only one line. -/
theorem declaration_eq_ok_iff {m : Callable} {s : String} :
    m.declaration.value = .ok s ↔ m.LinesUp ∧ s = m.line :=
  ⟨declaration_eq_ok, fun ⟨h, hs⟩ => hs ▸ declaration_of_linesUp h⟩

/-! ### The line of a method and its line as a member -/

/-- **A method is abstract** when its modifiers are searched and the word is found: no other keyword
and no two of them together mention it. -/
theorem isAbstract_iff {m : Callable} : m.isAbstract = true ↔ Modifier.abstract ∈ m.modifiers := by
  rw [isAbstract, Text.mentions_iff, ModifierSet.infix_render_iff]

/-- What closes the line depends on the modifiers alone. -/
theorem terminator_eq (m : Callable) :
    m.terminator = if Modifier.abstract ∈ m.modifiers then ";" else " \x7b\x7d" := by
  rw [terminator]
  simp only [isAbstract_iff]

/-- The head of the line is the line as a member, without the semicolon. -/
theorem line_eq_head (m : Callable) : ∃ head, m.toMember.declaration = head ++ ";" ∧
    m.line = head ++ "(" ++ ", ".intercalate m.shownParameters ++ ")" ++
      if Modifier.abstract ∈ m.modifiers then ";" else " \x7b\x7d" := by
  refine ⟨" ".intercalate m.headWords, m.toMember.declaration_eq_words, ?_⟩
  rw [line, terminator_eq]

/-- The names of the parameters of a host's method are not known, so they cannot be out of line. -/
theorem linesUp_hostMethod (m : HostMethod) : m.callable.LinesUp :=
  fun _ h => nomatch h

/-- A script's method has its parameters in line just when its lists are equally long. -/
theorem linesUp_scriptMethod_iff {m : ScriptMethod} :
    m.callable.LinesUp ↔ m.parameterTypes.length = m.parameterNames.length :=
  ⟨fun h => h _ rfl, fun h _ hnames => Option.some.inj hnames ▸ h⟩

/-- The host's parameters are shown by their types. -/
theorem shownParameters_hostMethod (m : HostMethod) :
    m.callable.shownParameters = m.parameterTypes.map TypeRef.name := by
  simp only [shownParameters, parameterWords, HostMethod.callable, List.map_map]
  rfl

/-- A script's parameters are shown by their types and names. -/
theorem shownParameters_scriptMethod (m : ScriptMethod) :
    m.callable.shownParameters =
      List.zipWith (fun t n => nameOf t ++ " " ++ n) m.parameterTypes m.parameterNames := by
  simp only [shownParameters, parameterWords, ScriptMethod.callable, List.map_map]
  exact List.map_zip_eq_zipWith

/-- **The line of a method** is its line as a member without the semicolon, then its parameters in
parentheses, and then a semicolon if it is abstract and an empty body if it is not. Only the
modifiers decide which of the two it is. A method of the host always has a line; one of a script has
it if its parameters line up. -/
theorem methodLine_eq_variableLine :
    (∀ m : HostMethod, ∃ head, m.member.declaration = head ++ ";" ∧
      ∀ line, m.callable.declaration.value = .ok line ↔
        line = head ++ "(" ++ ", ".intercalate (m.parameterTypes.map TypeRef.name) ++ ")" ++
          if Modifier.abstract ∈ m.member.modifiers then ";" else " \x7b\x7d") ∧
    ∀ m : ScriptMethod, ∃ head, m.member.declaration = head ++ ";" ∧
      ∀ line, m.callable.declaration.value = .ok line ↔
        m.parameterTypes.length = m.parameterNames.length ∧
          line = head ++ "(" ++ ", ".intercalate
              (List.zipWith (fun t n => nameOf t ++ " " ++ n) m.parameterTypes m.parameterNames) ++
            ")" ++ if Modifier.abstract ∈ m.member.modifiers then ";" else " \x7b\x7d" := by
  refine ⟨fun m => ?_, fun m => ?_⟩
  · obtain ⟨head, hhead, hline⟩ := m.callable.line_eq_head
    refine ⟨head, hhead, fun line => ?_⟩
    rw [declaration_eq_ok_iff, hline, shownParameters_hostMethod]
    exact and_iff_right (linesUp_hostMethod m)
  · obtain ⟨head, hhead, hline⟩ := m.callable.line_eq_head
    refine ⟨head, hhead, fun line => ?_⟩
    rw [declaration_eq_ok_iff, hline, shownParameters_scriptMethod, linesUp_scriptMethod_iff]

/-- Names that mention the word do not make a method abstract. -/
example :
    let m := (ScriptMethod.new "abstract" (.single .strict)).withUntypedParameter "abstract"
    m.callable.declaration.value = .ok "strictfp Object abstract(Object abstract) \x7b\x7d" := by
  decide +kernel

/-! ### What parts consist of -/

/-- **The words of a parameter**: a name that is not empty, alone or with another one behind it. -/
def IsParameter (ws : List String) : Prop :=
  ∃ t, IsPlain t ∧ t ≠ "" ∧ (ws = [t] ∨ ∃ n, IsPlain n ∧ ws = [t, n])

/-- Where the names are plain, every parameter has the words of one. -/
theorem isParameter_of_mem {m : Callable} (h : m.HasPlainNames) :
    ∀ ws ∈ m.parameterWords, IsParameter ws := by
  intro ws hws
  unfold parameterWords at hws
  split at hws
  · -- names of parameters are not known
    obtain ⟨t, ht, rfl⟩ := List.mem_map.mp hws
    obtain ⟨hplain, hne⟩ := h.parameterTypes t ht
    exact ⟨nameOf t, hplain, hne, .inl rfl⟩
  · next names hnames =>
    obtain ⟨⟨t, n⟩, hp, rfl⟩ := List.mem_map.mp hws
    obtain ⟨ht, hn⟩ := List.of_mem_zip hp
    obtain ⟨hplain, hne⟩ := h.parameterTypes t ht
    exact ⟨nameOf t, hplain, hne, .inr ⟨n, h.parameterNames names hnames n hn, rfl⟩⟩

theorem IsParameter.isPlain {ws : List String} (h : IsParameter ws) : ∀ w ∈ ws, IsPlain w := by
  obtain ⟨t, ht, -, rfl | ⟨n, hn, rfl⟩⟩ := h
  · exact List.forall_mem_singleton.mpr ht
  · exact List.forall_mem_cons.mpr ⟨ht, List.forall_mem_singleton.mpr hn⟩

theorem IsParameter.ne_nil {ws : List String} (h : IsParameter ws) : ws ≠ [] := by
  obtain ⟨t, -, -, rfl | ⟨n, -, rfl⟩⟩ := h <;> exact List.cons_ne_nil _ _

/-- A parameter shows something. -/
theorem IsParameter.shown_ne_empty {ws : List String} (h : IsParameter ws) :
    " ".intercalate ws ≠ "" := by
  obtain ⟨t, -, hne, rfl | ⟨n, -, rfl⟩⟩ := h
  · exact hne
  · rw [String.intercalate_cons_of_ne_nil (List.cons_ne_nil _ _)]
    simp [String.append_eq_empty_iff]

/-- What is shown of a parameter tells its words. -/
theorem IsParameter.eq_of_shown_eq {ws us : List String} (hws : IsParameter ws)
    (hus : IsParameter us) (h : " ".intercalate ws = " ".intercalate us) : ws = us := by
  -- no word has a space in it, so the spaces are those between the words
  refine Text.joined_inj rfl (fun w hw => ?_) (fun u hu => ?_) hws.ne_nil hus.ne_nil h
  · exact hws.isPlain w hw ' ' (by decide)
  · exact hus.isPlain u hu ' ' (by decide)

/-- The parameters have no character in them that separates anything but their own words. -/
theorem notMem_shownParameters {m : Callable} (h : m.HasPlainNames) {c : Char}
    (hc : c ∈ [',', '(', ')']) : ∀ p ∈ m.shownParameters, c ∉ p.toList := by
  intro p hp
  obtain ⟨ws, hws, rfl⟩ := List.mem_map.mp hp
  have hplain := (isParameter_of_mem h ws hws).isPlain
  have hspace : ' ' ∉ [',', '(', ')'] := by decide
  -- what stands between the words of a parameter is a space, and `c` is none
  refine Text.notMem_joined ?_ fun w hw => hplain w hw c (List.mem_cons_of_mem _ hc)
  intro hmem
  obtain rfl := List.mem_singleton.mp hmem
  exact hspace hc

/-- No parameter is shown as nothing. -/
theorem shownParameters_ne_empty {m : Callable} (h : m.HasPlainNames) :
    ∀ p ∈ m.shownParameters, p ≠ "" := by
  intro p hp
  obtain ⟨ws, hws, rfl⟩ := List.mem_map.mp hp
  exact (isParameter_of_mem h ws hws).shown_ne_empty

/-- No character that separates parts of the line is in a word of its head. -/
theorem notMem_headWords {m : Callable} (h : m.HasPlainNames) {c : Char}
    (hc : c ∈ [' ', ',', '(', ')']) : ∀ w ∈ m.headWords, c ∉ w.toList := by
  -- modifiers consist of small letters, and none of these characters is one
  have hlower : c.isLower = false := by
    simp only [List.mem_cons, List.not_mem_nil, or_false] at hc
    obtain rfl | rfl | rfl | rfl := hc <;> rfl
  exact Member.notMem_words hlower (h.name c hc) (h.returnType c hc)

/-! ### What parts tell -/

/-- The first words of the parameters are the names of their types. -/
theorem head_parameterWords {m : Callable} (h : m.LinesUp) :
    m.parameterWords.map List.head? = (m.parameterTypes.map nameOf).map some := by
  unfold parameterWords
  cases hnames : m.parameterNames with
  | none => simp
  | some names =>
    -- with as many names as types, pairing them loses neither
    have hfst : (m.parameterTypes.zip names).map Prod.fst = m.parameterTypes :=
      List.map_fst_zip (Nat.le_of_eq (h names hnames))
    conv_rhs => rw [← hfst]
    simp

/-- The second words of the parameters are their names, where they are known. -/
theorem second_parameterWords {m : Callable} (h : m.LinesUp) :
    m.parameterWords.map (·[1]?) =
      m.parameterNames.elim (m.parameterTypes.map fun _ => none) (List.map some) := by
  unfold parameterWords
  cases hnames : m.parameterNames with
  | none => exact List.map_map
  | some names =>
    have hsnd : (m.parameterTypes.zip names).map Prod.snd = names :=
      List.map_snd_zip (Nat.le_of_eq (h names hnames).symm)
    conv_rhs => rw [Option.elim_some, ← hsnd]
    simp

/-- **The words of the parameters tell their types**, and if there are parameters, also their names
or that these are not known. -/
theorem parameters_of_words_eq {a b : Callable} (ha : a.LinesUp) (hb : b.LinesUp)
    (h : a.parameterWords = b.parameterWords) :
    a.parameterTypes.map nameOf = b.parameterTypes.map nameOf ∧
      (a.parameterTypes ≠ [] → a.parameterNames = b.parameterNames) := by
  -- the types by the first words, the names by the second ones
  have htypes : a.parameterTypes.map nameOf = b.parameterTypes.map nameOf := by
    refine (List.map_inj_right fun _ _ => Option.some.inj).mp ?_
    rw [← head_parameterWords ha, ← head_parameterWords hb, h]
  have hsecond := (second_parameterWords ha).symm.trans (h ▸ second_parameterWords hb)
  refine ⟨htypes, fun hne => ?_⟩
  -- a parameter without a name is never one with a name
  have hmixed {types : List (Option TypeRef)} (hne : types ≠ []) (names : List String) :
      types.map (fun _ => none) ≠ names.map some := by
    cases types with
    | nil => exact absurd rfl hne
    | cons t ts => cases names <;> simp
  cases hna : a.parameterNames with
  | none =>
    cases hnb : b.parameterNames with
    | none => rfl
    | some names =>
      rw [hna, hnb] at hsecond
      exact absurd hsecond (hmixed hne names)
  | some names =>
    cases hnb : b.parameterNames with
    | none =>
      have hne' : b.parameterTypes ≠ [] := by
        rintro hnil
        rw [hnil] at htypes
        exact hne (List.map_eq_nil_iff.mp htypes)
      rw [hna, hnb] at hsecond
      exact absurd hsecond.symm (hmixed hne' names)
    | some names' =>
      rw [hna, hnb] at hsecond
      rw [(List.map_inj_right fun _ _ => Option.some.inj).mp hsecond]

/-! ### Lines -/

/-- Methods that show the same have the same words for their parameters. -/
theorem ShowsSame.parameterWords_eq {a b : Callable} (h : a.ShowsSame b) :
    a.parameterWords = b.parameterWords := by
  -- the words depend on the types through their names
  have hnamed (m : Callable) : m.parameterWords =
      m.parameterNames.elim ((m.parameterTypes.map nameOf).map fun t => [t])
        fun names => ((m.parameterTypes.map nameOf).zip names).map fun p => [p.1, p.2] := by
    unfold parameterWords
    cases m.parameterNames with
    | none =>
      rw [Option.elim_none, List.map_map]
      rfl
    | some names =>
      rw [Option.elim_some, List.zip_map_left, List.map_map]
      rfl
  rw [hnamed a, hnamed b, h.parameterTypes]
  by_cases hnil : a.parameterTypes = []
  · -- without parameters there are no words
    have hnil' : b.parameterTypes.map nameOf = [] := by rw [← h.parameterTypes, hnil]; rfl
    rw [hnil']
    cases a.parameterNames <;> cases b.parameterNames <;> rfl
  · rw [h.parameterNames hnil]

/-- Methods that show the same have the same line. -/
theorem ShowsSame.line_eq {a b : Callable} (h : a.ShowsSame b) : a.line = b.line := by
  have hkeywords := ModifierSet.keywords_congr h.modifiers
  have hhead : a.headWords = b.headWords :=
    Member.ShowsSame.words_eq ⟨h.modifiers, h.returnType, h.name⟩
  have hterminator : a.terminator = b.terminator := by
    rw [terminator, terminator, isAbstract, isAbstract, ModifierSet.render, ModifierSet.render,
      hkeywords]
  rw [line, line, hhead, hterminator, shownParameters, shownParameters, h.parameterWords_eq]

/-- **The line of a method tells all that it shows.** -/
theorem showsSame_of_line_eq {a b : Callable} (ha : a.LinesUp) (hb : b.LinesUp)
    (hpa : a.HasPlainNames) (hpb : b.HasPlainNames) (h : a.line = b.line) : a.ShowsSame b := by
  have hchars := congrArg String.toList h
  simp only [line, String.toList_append, List.append_assoc] at hchars
  -- the parentheses separate the head, the parameters, and what closes the line
  have hhead {m : Callable} (hm : m.HasPlainNames) : '(' ∉ (" ".intercalate m.headWords).toList :=
    Text.notMem_joined (by decide) (notMem_headWords hm (by decide))
  have hbody {m : Callable} (hm : m.HasPlainNames) :
      ')' ∉ (", ".intercalate m.shownParameters).toList :=
    Text.notMem_joined (by decide) (notMem_shownParameters hm (by decide))
  obtain ⟨hhead, hchars⟩ := Text.append_cons_inj_of_notMem (hhead hpa) (hhead hpb) hchars
  obtain ⟨hbody, -⟩ := Text.append_cons_inj_of_notMem (hbody hpa) (hbody hpb) hchars
  -- the last two words of the head are names
  have hwords : a.headWords = b.headWords := by
    refine Text.joined_inj rfl ?_ ?_ ?_ ?_ (String.toList_inj.mp hhead)
    · exact notMem_headWords hpa (by decide)
    · exact notMem_headWords hpb (by decide)
    · exact List.append_ne_nil_of_left_ne_nil a.modifiers.leadingWords_ne_nil _
    · exact List.append_ne_nil_of_left_ne_nil b.modifiers.leadingWords_ne_nil _
  obtain ⟨hmodifiers, hreturnType, hname⟩ := Member.showsSame_of_words_eq hwords
  -- the commas separate the parameters, and the spaces their words
  have hshown : a.shownParameters = b.shownParameters :=
    Text.joined_inj_of_ne_empty rfl (notMem_shownParameters hpa (by decide))
      (notMem_shownParameters hpb (by decide)) (shownParameters_ne_empty hpa)
      (shownParameters_ne_empty hpb) (String.toList_inj.mp hbody)
  have hparameters : a.parameterWords = b.parameterWords :=
    Text.map_inj_of_forall_mem (fun _ _ => IsParameter.eq_of_shown_eq) (isParameter_of_mem hpa)
      (isParameter_of_mem hpb) hshown
  obtain ⟨htypes, hparameterNames⟩ := parameters_of_words_eq ha hb hparameters
  exact ⟨hmodifiers, hreturnType, hname, htypes, hparameterNames⟩

/-- **Lines of methods are unambiguous.** Methods of the host or of a script, whose names are plain
and which have a line at all, have the same line just when they show the same: the modifiers, the
return type, the name, the types of the parameters, and if there are any, their names or none. -/
theorem methodLine_eq_iff {a b : Callable} (ha : a.HasPlainNames) (hb : b.HasPlainNames)
    {s t : String} (hs : a.declaration.value = .ok s) (ht : b.declaration.value = .ok t) :
    s = t ↔ a.ShowsSame b := by
  obtain ⟨hlinesUp, rfl⟩ := declaration_eq_ok hs
  obtain ⟨hlinesUp', rfl⟩ := declaration_eq_ok ht
  exact ⟨showsSame_of_line_eq hlinesUp hlinesUp' ha hb, ShowsSame.line_eq⟩

/-- A method of the host and one of a script, of which the former has no names of parameters to
show. Their lines differ, although all else is the same; unknown access flags do not matter. -/
theorem methodLine_eq_iff_mixed :
    ∃ (a : HostMethod) (b : ScriptMethod) (s t : String),
      a.callable.HasPlainNames ∧ b.callable.HasPlainNames ∧
        a.callable.declaration.value = .ok s ∧ b.callable.declaration.value = .ok t ∧
        s = "abstract public final(Object);" ∧ t = "abstract public final(Object static);" ∧
        (s = t ↔ a.callable.ShowsSame b.callable) := by
  let named (name : String) : TypeRef := ⟨.native, ⟨name, none, false, ∅, none, []⟩⟩
  let a : HostMethod := ⟨"final", 0x8400, named "public", [named "Object"]⟩
  let b : ScriptMethod := ⟨"final", .single .abstract, some (named "public"), [none], ["static"]⟩
  -- both sets of bits have `abstract` for their only modifier
  have ha : a.callable.HasPlainNames := ⟨by decide, by decide, by decide, by decide⟩
  have hb : b.callable.HasPlainNames := ⟨by decide, by decide, by decide, by decide⟩
  have hs : a.callable.declaration.value = .ok "abstract public final(Object);" := by
    decide +kernel
  have ht : b.callable.declaration.value = .ok "abstract public final(Object static);" := by
    decide +kernel
  exact ⟨a, b, _, _, ha, hb, hs, ht, rfl, rfl, methodLine_eq_iff ha hb hs ht⟩

end Callable

end Introspect
