import Introspect.Proofs.Json.Compact

/-!
# Texts that stop too early

The compact text of a tree may be cut off anywhere: inside a word, a number, an escape or a name,
before a colon, behind a comma. The scanner then reads what it is given to the end, and the draft
that it yields is **cut off** from the tree (`Draft.CutOff`): whole parts of the tree, at most one
part that is itself cut off, and behind that the fault of a text that has ended.

A number is the one part that may be cut off and still be whole, the digits at the front of a number
being a number too. It is no greater than the number that it was cut from.

* `CutShort` — a text that has lost at least its last character;
* `Json.toDigits_of_isPrefix`, `StringLiteral.lex_cutOff` — digits and strings that are cut off;
* `Draft.scanValue_cutOff`, `Draft.scan_cutOff` — the draft of a text that was cut off is cut off
  from the tree of the text, and nothing is left behind it.
-/

namespace Introspect

/-! ### Cutting a text -/

/-- **A text cut short**: it starts like the other one, which goes on. -/
def CutShort (p l : List Char) : Prop :=
  p <+: l ∧ p ≠ l

theorem not_cutShort_nil {p : List Char} : ¬CutShort p [] := by
  rintro ⟨hp, hne⟩
  exact hne (List.prefix_nil.mp hp)

/-- A text that is cut short is empty, or it has the first character and the rest is cut short. -/
theorem cutShort_cons_iff {p l : List Char} {c : Char} :
    CutShort p (c :: l) ↔ p = [] ∨ ∃ q, p = c :: q ∧ CutShort q l := by
  rw [CutShort, List.prefix_cons_iff]
  refine ⟨?_, ?_⟩
  · rintro ⟨rfl | ⟨q, rfl, hq⟩, hne⟩
    · exact .inl rfl
    · exact .inr ⟨q, rfl, hq, fun h => hne (congrArg (c :: ·) h)⟩
  · rintro (rfl | ⟨q, rfl, hq, hne⟩)
    · exact ⟨.inl rfl, (List.cons_ne_nil c l).symm⟩
    · exact ⟨.inr ⟨q, rfl, hq⟩, fun h => hne (List.cons.inj h).2⟩

/-- A text that is cut short has fewer bytes. -/
theorem CutShort.utf8ByteSize_lt {p l : List Char} (h : CutShort p l) :
    (String.ofList p).utf8ByteSize < (String.ofList l).utf8ByteSize := by
  obtain ⟨⟨t, rfl⟩, hne⟩ := h
  cases t with
  | nil =>
    -- nothing was lost, so it is not cut short
    exact absurd (List.append_nil p).symm hne
  | cons c t =>
    have hc := c.utf8Size_pos
    rw [String.ofList_append, String.ofList_cons]
    simp only [String.utf8ByteSize_append, String.utf8ByteSize_singleton]
    omega

/-- A text of two parts is cut off inside the first or behind it. -/
theorem isPrefix_append_iff {p a b : List Char} :
    p <+: a ++ b ↔ CutShort p a ∨ ∃ q, p = a ++ q ∧ q <+: b := by
  refine ⟨?_, ?_⟩
  · intro hp
    -- both are beginnings of the whole, so one of the two begins the other
    rcases List.prefix_or_prefix_of_prefix hp (List.prefix_append a b) with hpa | ⟨q, rfl⟩
    · by_cases hne : p = a
      · exact .inr ⟨[], by rw [hne, List.append_nil], List.nil_prefix⟩
      · exact .inl ⟨hpa, hne⟩
    · exact .inr ⟨q, rfl, (List.prefix_append_right_inj a).mp hp⟩
  · rintro (⟨hp, -⟩ | ⟨q, rfl, hq⟩)
    · exact hp.trans (List.prefix_append a b)
    · exact (List.prefix_append_right_inj a).mpr hq

theorem cutShort_or_eq {p l : List Char} (hp : p <+: l) : CutShort p l ∨ p = l := by
  by_cases hne : p = l
  · exact .inr hne
  · exact .inl ⟨hp, hne⟩

/-- A text of two parts with a mark between them is cut off inside the first part, before the mark,
or behind it. -/
theorem isPrefix_append_cons {p a b : List Char} {c : Char} (hp : p <+: a ++ c :: b) :
    CutShort p a ∨ p = a ∨ ∃ q, p = a ++ c :: q ∧ q <+: b := by
  rcases isPrefix_append_iff.mp hp with hcut | ⟨q, rfl, hq⟩
  · exact .inl hcut
  rcases List.prefix_cons_iff.mp hq with rfl | ⟨r, rfl, hr⟩
  · exact .inr (.inl (List.append_nil a))
  · exact .inr (.inr ⟨r, rfl, hr⟩)

/-- What stands between two marks is all there, at most, when the second one is cut off. -/
theorem cutShort_between_iff {p l : List Char} {c d : Char} :
    CutShort p (c :: (l ++ [d])) ↔ p = [] ∨ ∃ q, p = c :: q ∧ q <+: l := by
  have hlast (q : List Char) : CutShort q (l ++ [d]) ↔ q <+: l := by
    rw [CutShort, List.prefix_concat_iff]
    refine ⟨?_, ?_⟩
    · rintro ⟨rfl | hq, hne⟩
      · -- the whole text with its last mark is not cut short
        exact absurd rfl hne
      · exact hq
    · intro hq
      refine ⟨.inr hq, ?_⟩
      -- a text that has the last mark is longer than `l`
      rintro rfl
      have hlength := hq.length_le
      simp only [List.length_append, List.length_cons] at hlength
      omega
  rw [cutShort_cons_iff]
  simp only [hlast]

/-! ### Strings -/

namespace StringLiteral

theorem pieces_nil : pieces [] = .stop .ended := by
  rw [pieces]

/-- The digits of a code unit that are cut off. -/
theorem pieces_unit_cutOff {r : List Char} (h : (String.ofList r).utf8ByteSize < 4) :
    pieces ('\\' :: 'u' :: r) = .stop .ended := by
  rw [pieces, if_pos h]
  -- four characters are at least four bytes
  rintro a b c d rest rfl
  have ha := a.utf8Size_pos
  have hb := b.utf8Size_pos
  have hc := c.utf8Size_pos
  have hd := d.utf8Size_pos
  simp only [String.ofList_cons, String.utf8ByteSize_append, String.utf8ByteSize_singleton] at h
  omega

/-- **An escape that is cut off** has ended, wherever that is. -/
theorem pieces_escape_cutOff {c : Char} {p : List Char} (h : CutShort p (escape c)) :
    pieces p = .stop .ended := by
  rcases escape_cases c with ⟨e, -, hescape⟩ | ⟨hcontrol, hescape⟩ | ⟨-, -, -, hescape⟩
  · -- at most the backslash is left
    rw [hescape] at h
    rcases cutShort_cons_iff.mp h with rfl | ⟨q, rfl, hq⟩
    · exact pieces_nil
    rcases cutShort_cons_iff.mp hq with rfl | ⟨r, rfl, hr⟩
    · rw [pieces]
    · exact absurd hr not_cutShort_nil
  · rw [hescape] at h
    rcases cutShort_cons_iff.mp h with rfl | ⟨q, rfl, hq⟩
    · exact pieces_nil
    rcases cutShort_cons_iff.mp hq with rfl | ⟨r, rfl, hr⟩
    · rw [pieces]
    -- all four digits are four bytes, and at least one of them is missing
    have hfour : (String.ofList ['0', '0', Nat.digitChar (c.toNat / 16),
        Nat.digitChar (c.toNat % 16)]).utf8ByteSize = 4 := by
      have hall : ∀ n : Fin 32, (String.ofList ['0', '0', Nat.digitChar (n / 16),
          Nat.digitChar (n % 16)]).utf8ByteSize = 4 := by decide
      exact hall ⟨c.toNat, hcontrol⟩
    refine pieces_unit_cutOff ?_
    rw [← hfour]
    exact hr.utf8ByteSize_lt
  · -- the character stands for itself, and is all there or not at all
    rw [hescape] at h
    rcases cutShort_cons_iff.mp h with rfl | ⟨q, rfl, hq⟩
    · exact pieces_nil
    · exact absurd hq not_cutShort_nil

/-- **A string that is cut off** inside its text has ended, to a reader and to one that skips. -/
theorem lex_cutOff {cs q : List Char} (h : q <+: cs.flatMap escape) :
    lex q = (.broken .ended, []) := by
  -- whole characters, and then at most the beginning of an escape
  have hpieces : ∃ done r, Spelled q done r ∧ pieces r = .stop .ended := by
    induction cs generalizing q with
    | nil =>
      obtain rfl := List.prefix_nil.mp h
      exact ⟨[], [], .nil [], pieces_nil⟩
    | cons c cs ih =>
      rw [List.flatMap_cons] at h
      rcases isPrefix_append_iff.mp h with hcut | ⟨q', rfl, hq'⟩
      · exact ⟨[], q, .nil q, pieces_escape_cutOff hcut⟩
      · obtain ⟨done, r, hspelled, hr⟩ := ih hq'
        exact ⟨c :: done, r, spelled_escape c hspelled, hr⟩
  obtain ⟨done, r, hspelled, hr⟩ := hpieces
  obtain ⟨ps, hdivided, hassemble⟩ := exists_divided_of_spelled hspelled
  -- the pieces that are whole join, but the end of the text is what stops the string
  have hps := pieces_of_divided hdivided
  have hended := hassemble (some .ended) []
  rw [hr, Body.stop] at hps
  simp only [lex, hps, hended]
  rfl

/-- A whole string that others follow. -/
theorem encode_append (s : String) (r : List Char) :
    encode s ++ r = '"' :: (s.toList.flatMap escape ++ '"' :: r) := by
  rw [encode, List.cons_append, List.append_assoc]
  rfl

/-- A whole string is read, and what follows is left. -/
theorem lex_escapes (s : String) (r : List Char) :
    lex (s.toList.flatMap escape ++ '"' :: r) = (.sound s, r) := by
  rw [lex_of_spelled (spelled_escapes s.toList ('"' :: r)), String.ofList_toList]

end StringLiteral

/-! ### Numbers -/

/-- **The digits at the front of a number** are those of a number that is no greater. -/
theorem Json.toDigits_of_isPrefix {p : List Char} {n : Nat} (hp : p <+: Nat.toDigits 10 n)
    (hne : p ≠ []) : ∃ m ≤ n, p = Nat.toDigits 10 m := by
  induction n using Nat.strongRecOn with
  | ind n ih =>
    -- by the last digit: it is there, or the text is cut off in the digits before it
    by_cases hn : n < 10
    · rw [Nat.toDigits_of_lt_base hn] at hp
      rcases List.prefix_cons_iff.mp hp with rfl | ⟨q, rfl, hq⟩
      · exact absurd rfl hne
      · obtain rfl := List.prefix_nil.mp hq
        exact ⟨n, Nat.le_refl n, (Nat.toDigits_of_lt_base hn).symm⟩
    · rw [Nat.toDigits_of_base_le (by decide) (by omega)] at hp
      rcases List.prefix_concat_iff.mp hp with rfl | hp
      · exact ⟨n, Nat.le_refl n, (Nat.toDigits_of_base_le (by decide) (by omega)).symm⟩
      · -- the last digit is gone, and with it the number is divided by ten
        obtain ⟨m, hm, rfl⟩ := ih (n / 10) (by omega) hp
        exact ⟨m, Nat.le_trans hm (Nat.div_le_self n 10), rfl⟩

/-! ### Drafts -/

namespace Draft

open Json

/-- **A draft that is cut off from a tree.** Parts before the cut are whole; the one that is cut is
cut off from its own tree, unless it is a name or no part has begun; parts behind the cut are lost.
-/
inductive CutOff : Json → Draft → Prop
  | ended (j : Json) (onSkip : Option Fault) : CutOff j (.leaf (.faulty .ended onSkip))
  | number {m n : Nat} (h : m ≤ n) : CutOff (.nat n) (ofJson (.nat m))
  | behindItem (done rest : List Json) :
      CutOff (.array (done ++ rest)) (.array (ofItems done) (some .ended))
  | beforeItem (done rest : List Json) :
      CutOff (.array (done ++ rest)) (.array (ofItems done ++ [.broken .ended]) (some .ended))
  | inItem (done rest : List Json) {j : Json} {d : Draft} (h : CutOff j d) :
      CutOff (.array (done ++ j :: rest)) (.array (ofItems done ++ [d]) (some .ended))
  | behindMember (done rest : List (String × Json)) :
      CutOff (.object (done ++ rest)) (.object (ofMembers done) (some .ended))
  | inName (done rest : List (String × Json)) (d : Draft) :
      CutOff (.object (done ++ rest)) (.object (ofMembers done ++ [(.broken .ended, d)]) none)
  | behindName (done rest : List (String × Json)) (k : String) (j : Json) :
      CutOff (.object (done ++ (k, j) :: rest))
        (.object (ofMembers done ++ [(.sound k, .broken .ended)]) none)
  | inMember (done rest : List (String × Json)) (k : String) {j : Json} {d : Draft}
      (h : CutOff j d) :
      CutOff (.object (done ++ (k, j) :: rest))
        (.object (ofMembers done ++ [(.sound k, d)]) (some .ended))

/-- One more item before the cut. -/
theorem CutOff.cons_item {js : List Json} {ds : List Draft} {ending : Option Fault}
    (h : CutOff (.array js) (.array ds ending)) (j : Json) :
    CutOff (.array (j :: js)) (.array (ofJson j :: ds) ending) := by
  cases h with
  | behindItem done rest => exact .behindItem (j :: done) rest
  | beforeItem done rest => exact .beforeItem (j :: done) rest
  | inItem done rest h => exact .inItem (j :: done) rest h

/-- One more member before the cut. -/
theorem CutOff.cons_member {ms : List (String × Json)} {ds : List (Lexeme String × Draft)}
    {ending : Option Fault} (h : CutOff (.object ms) (.object ds ending)) (k : String) (j : Json) :
    CutOff (.object ((k, j) :: ms)) (.object ((.sound k, ofJson j) :: ds) ending) := by
  cases h with
  | behindMember done rest => exact .behindMember ((k, j) :: done) rest
  | inName done rest d => exact .inName ((k, j) :: done) rest d
  | behindName done rest k' j' => exact .behindName ((k, j) :: done) rest k' j'
  | inMember done rest k' h => exact .inMember ((k, j) :: done) rest k' h

/-! ### Scalars -/

/-- A word that is cut off ends before it differs from what was expected. -/
theorem expect_cutOff {word p : List Char} (h : CutShort p word) :
    expect word p = .error .ended := by
  induction word generalizing p with
  | nil => exact absurd h not_cutShort_nil
  | cons w ws ih =>
    rcases cutShort_cons_iff.mp h with rfl | ⟨q, rfl, hq⟩
    · rfl
    · rw [expect, if_pos rfl]
      exact ih hq

/-- A word of which a part is missing has ended. -/
theorem scanWord_cutOff {word p : List Char} (h : CutShort p word) (value : Scalar) :
    scanWord word value p = (.broken .ended, []) := by
  simp only [scanWord, expect_cutOff h]

/-! ### Arrays and objects

What the scanner does where the text ends. -/

/-- Nothing is the beginning of no value. -/
theorem scanValue_nil (fuel : Nat) : scanValue (fuel + 1) [] = (.broken .ended, []) := by
  rw [scanValue]
  rfl

/-- Behind the last item a comma or a bracket is missing. -/
theorem scanItems_ended {text : List Char} {fuel : Nat} {d : Draft}
    (hvalue : scanValue fuel text = (d, [])) :
    scanItems (fuel + 1) text = (([d], some .ended), []) := by
  rw [scanItems, hvalue]
  rfl

/-- Where a member should start the text has ended. -/
theorem scanMembers_nil (fuel : Nat) : scanMembers (fuel + 1) [] = (([], some .ended), []) := by
  rw [scanMembers]
  rfl

/-- A name with nothing behind it lacks its colon. -/
theorem scanMembers_noColon {l : List Char} {name : Lexeme String} (fuel : Nat)
    (hname : StringLiteral.lex l = (name, [])) :
    scanMembers (fuel + 1) ('"' :: l) = (([(name, .broken .ended)], none), []) := by
  rw [scanMembers, dropBlanks_cons rfl]
  simp only [hname]
  rfl

/-- Behind the last member a comma or a brace is missing. -/
theorem scanMembers_ended {l l' : List Char} {fuel : Nat} {name : Lexeme String} {d : Draft}
    (hname : StringLiteral.lex l = (name, ':' :: l')) (hvalue : scanValue fuel l' = (d, [])) :
    scanMembers (fuel + 1) ('"' :: l) = (([(name, d)], some .ended), []) := by
  rw [scanMembers, dropBlanks_cons rfl]
  simp only [hname, dropBlanks_cons (show isBlank ':' = false from rfl), hvalue]
  rfl

/-! ### Values -/

/-- **The scanner finds out that a tree is cut off**, wherever its text is. -/
def FindsCutOff (j : Json) : Prop :=
  ∀ (fuel : Nat) {p : List Char}, CutShort p j.compact → 2 * p.length + 1 ≤ fuel →
    ∃ d, scanValue fuel p = (d, []) ∧ CutOff j d

/-- Where a value is whole the scanner goes on behind it. -/
theorem scanValue_compact {j : Json} (hj : j.HasNaturals) (fuel : Nat) {r : List Char}
    (hr : Numeral.Delimited r) (hfuel : 2 * (j.compact ++ r).length + 1 ≤ fuel) :
    scanValue fuel (j.compact ++ r) = (ofJson j, r) := by
  have hspelled := (spelled_compact hj r).ofJson
  exact scanValue_of_spelled hspelled fuel hspelled.dropBlanks_eq hfuel hr

/-- A value that is all there is found, and nothing is left. -/
theorem scanValue_whole {j : Json} (hj : j.HasNaturals) (fuel : Nat)
    (hfuel : 2 * j.compact.length + 1 ≤ fuel) : scanValue fuel j.compact = (ofJson j, []) := by
  rw [← List.append_nil j.compact] at hfuel ⊢
  exact scanValue_compact hj fuel delimited_nil hfuel

/-- A scalar that is cut off is a part of a word or a string, or a shorter number. -/
theorem findsCutOff_scalar {s : Scalar} (hs : (Json.scalar s).HasNaturals) :
    FindsCutOff (.scalar s) := by
  intro fuel p hp hfuel
  obtain ⟨fuel, rfl⟩ : ∃ n, fuel = n + 1 := ⟨fuel - 1, by omega⟩
  by_cases hnil : p = []
  · subst hnil
    exact ⟨_, scanValue_nil fuel, .ended _ _⟩
  -- one of the three words
  have hword (c : Char) (word : List Char) (value : Scalar) (hp : CutShort p (c :: word))
      (hscan : ∀ q, scanValue (fuel + 1) (c :: q) = scanWord word value q) :
      ∃ d, scanValue (fuel + 1) p = (d, []) ∧ CutOff (.scalar s) d := by
    rcases cutShort_cons_iff.mp hp with rfl | ⟨q, rfl, hq⟩
    · exact absurd rfl hnil
    · exact ⟨_, (hscan q).trans (scanWord_cutOff hq value), .ended _ _⟩
  cases s with
  | null =>
    exact hword 'n' _ _ hp fun q => scanValue_scalar fuel (dropBlanks_cons rfl q) (by decide)
      (by decide)
  | bool b =>
    cases b with
    | true =>
      exact hword 't' _ _ hp fun q => scanValue_scalar fuel (dropBlanks_cons rfl q) (by decide)
        (by decide)
    | false =>
      exact hword 'f' _ _ hp fun q => scanValue_scalar fuel (dropBlanks_cons rfl q) (by decide)
        (by decide)
  | number x =>
    -- the digits that are left are a number, too
    obtain ⟨n, hn, rfl⟩ := hs
    obtain ⟨m, hm, rfl⟩ := toDigits_of_isPrefix hp.1 hnil
    have hnat : (Json.nat m).HasNaturals := ⟨m, Nat.lt_of_le_of_lt hm hn, rfl⟩
    exact ⟨_, scanValue_whole hnat _ hfuel, .number hm⟩
  | string s =>
    rcases cutShort_between_iff.mp hp with rfl | ⟨q, rfl, hq⟩
    · exact absurd rfl hnil
    · refine ⟨.broken .ended, ?_, .ended _ _⟩
      rw [scanValue_scalar fuel (dropBlanks_cons rfl q) (by decide) (by decide)]
      simp only [scanScalar, scanString, StringLiteral.lex_cutOff hq]
      rfl

/-- The text of items is cut off in the first of them, behind it, or behind the comma. -/
theorem isPrefix_compactItems_cons {p : List Char} {j : Json} {js : List Json}
    (hp : p <+: compactItems (j :: js)) :
    CutShort p j.compact ∨ p = j.compact ∨
      ∃ q, p = j.compact ++ ',' :: q ∧ q <+: compactItems js := by
  cases js with
  | nil => exact (cutShort_or_eq hp).imp_right .inl
  | cons k js =>
    rw [compactItems.eq_3 j _ (List.cons_ne_nil k js)] at hp
    exact isPrefix_append_cons hp

/-- **Items that are cut off**, whatever the last of them is. -/
theorem scanItems_cutOff {js : List Json} (hjs : ∀ j ∈ js, j.HasNaturals)
    (h : ∀ j ∈ js, FindsCutOff j) (fuel : Nat) {p : List Char} (hp : p <+: compactItems js)
    (hfuel : 2 * p.length + 2 ≤ fuel) :
    ∃ ds, scanItems fuel p = ((ds, some .ended), []) ∧
      CutOff (.array js) (.array ds (some .ended)) := by
  induction js generalizing fuel p with
  | nil =>
    -- nothing stands between the brackets, and the text ends where an item could start
    obtain rfl := List.prefix_nil.mp hp
    obtain ⟨fuel, rfl⟩ : ∃ n, fuel = n + 2 := ⟨fuel - 2, by omega⟩
    exact ⟨_, scanItems_ended (scanValue_nil fuel), .beforeItem [] []⟩
  | cons j js ih =>
    obtain ⟨hj, hjs⟩ := List.forall_mem_cons.mp hjs
    obtain ⟨hcut, h⟩ := List.forall_mem_cons.mp h
    obtain ⟨fuel, rfl⟩ : ∃ n, fuel = n + 1 := ⟨fuel - 1, by omega⟩
    rcases isPrefix_compactItems_cons hp with hp | rfl | ⟨q, rfl, hq⟩
    · -- inside the first item
      obtain ⟨d, hscan, hd⟩ := hcut fuel hp (by omega)
      exact ⟨_, scanItems_ended hscan, .inItem [] js hd⟩
    · -- behind it, where a comma or the bracket is missing
      have hscan := scanValue_whole hj fuel (by omega)
      exact ⟨_, scanItems_ended hscan, .behindItem [j] js⟩
    · -- behind the comma the other items are cut off
      have hscan := scanValue_compact hj fuel (delimited_cons (.inl rfl) q) (by omega)
      simp only [List.length_append, List.length_cons] at hfuel
      obtain ⟨ds, hitems, hds⟩ := ih hjs h fuel hq (by omega)
      exact ⟨_, scanItems_cons hscan (dropBlanks_cons rfl q) hitems, hds.cons_item j⟩

/-- The text of members is cut off in the name of the first of them, behind the name, or behind the
colon, and there like the text of an item. -/
theorem isPrefix_compactMembers_cons {p : List Char} {k : String} {j : Json}
    {ms : List (String × Json)} (hp : p <+: compactMembers ((k, j) :: ms)) :
    CutShort p (StringLiteral.encode k) ∨ p = StringLiteral.encode k ∨
      ∃ q, p = StringLiteral.encode k ++ ':' :: q ∧
        (CutShort q j.compact ∨ q = j.compact ∨
          ∃ r, q = j.compact ++ ',' :: r ∧ r <+: compactMembers ms) := by
  cases ms with
  | nil =>
    rcases isPrefix_append_cons hp with hp | rfl | ⟨q, rfl, hq⟩
    · exact .inl hp
    · exact .inr (.inl rfl)
    · exact .inr (.inr ⟨q, rfl, (cutShort_or_eq hq).imp_right .inl⟩)
  | cons m ms =>
    rw [compactMembers.eq_3 k j _ (List.cons_ne_nil m ms)] at hp
    rcases isPrefix_append_cons hp with hp | rfl | ⟨q, rfl, hq⟩
    · exact .inl hp
    · exact .inr (.inl rfl)
    · exact .inr (.inr ⟨q, rfl, isPrefix_append_cons hq⟩)

/-- **Members that are cut off**, wherever in the last of them. -/
theorem scanMembers_cutOff {ms : List (String × Json)} (hms : ∀ m ∈ ms, m.2.HasNaturals)
    (h : ∀ m ∈ ms, FindsCutOff m.2) (fuel : Nat) {p : List Char} (hp : p <+: compactMembers ms)
    (hfuel : 2 * p.length + 2 ≤ fuel) :
    ∃ ds ending, scanMembers fuel p = ((ds, ending), []) ∧
      CutOff (.object ms) (.object ds ending) := by
  induction ms generalizing fuel p with
  | nil =>
    -- behind the brace there is nothing, neither a name nor the other brace
    obtain rfl := List.prefix_nil.mp hp
    obtain ⟨fuel, rfl⟩ : ∃ n, fuel = n + 1 := ⟨fuel - 1, by omega⟩
    exact ⟨_, _, scanMembers_nil fuel, .behindMember [] []⟩
  | cons m ms ih =>
    obtain ⟨k, j⟩ := m
    obtain ⟨hj, hms⟩ : j.HasNaturals ∧ ∀ m ∈ ms, m.2.HasNaturals := List.forall_mem_cons.mp hms
    obtain ⟨hcut, h⟩ : FindsCutOff j ∧ ∀ m ∈ ms, FindsCutOff m.2 := List.forall_mem_cons.mp h
    obtain ⟨fuel, rfl⟩ : ∃ n, fuel = n + 1 := ⟨fuel - 1, by omega⟩
    rcases isPrefix_compactMembers_cons hp with hp | rfl | ⟨q, rfl, hq⟩
    · -- in the name, or before it
      rcases cutShort_between_iff.mp hp with rfl | ⟨q, rfl, hq⟩
      · exact ⟨_, _, scanMembers_nil fuel, .behindMember [] _⟩
      · have hlex := StringLiteral.lex_cutOff hq
        exact ⟨_, _, scanMembers_noColon fuel hlex, .inName [] _ _⟩
    · -- behind the name, where the colon is missing
      have hlex := StringLiteral.lex_escapes k []
      exact ⟨_, _, scanMembers_noColon fuel hlex, .behindName [] ms k j⟩
    -- behind the colon
    rw [StringLiteral.encode_append] at hfuel ⊢
    have hlex := StringLiteral.lex_escapes k (':' :: q)
    simp only [List.length_cons, List.length_append] at hfuel
    rcases hq with hq | rfl | ⟨r, rfl, hr⟩
    · -- inside the value
      obtain ⟨d, hscan, hd⟩ := hcut fuel hq (by omega)
      exact ⟨_, _, scanMembers_ended hlex hscan, .inMember [] ms k hd⟩
    · -- behind the value, where a comma or the brace is missing
      have hscan := scanValue_whole hj fuel (by omega)
      exact ⟨_, _, scanMembers_ended hlex hscan, .behindMember [(k, j)] ms⟩
    · -- behind the comma the other members are cut off
      have hscan := scanValue_compact hj fuel (delimited_cons (.inl rfl) r) (by
        simp only [List.length_cons, List.length_append] at hfuel ⊢
        omega)
      simp only [List.length_cons, List.length_append] at hfuel
      obtain ⟨ds, ending, hmembers, hds⟩ := ih hms h fuel hr (by omega)
      refine ⟨_, ending, ?_, hds.cons_member k j⟩
      exact scanMembers_cons (dropBlanks_cons rfl _) hlex (dropBlanks_cons rfl _) hscan
        (dropBlanks_cons rfl r) hmembers

/-- Where a text is cut off it starts as before, if it starts at all. -/
theorem dropBlanks_of_isPrefix {p l : List Char} {close : Char} (hp : p <+: l)
    (hl : ∀ c ∈ l.head?, isBlank c = false ∧ c ≠ close) :
    dropBlanks p = p ∧ ∀ rest, p ≠ close :: rest := by
  cases p with
  | nil => exact ⟨rfl, fun rest => (List.cons_ne_nil close rest).symm⟩
  | cons c p =>
    obtain ⟨r, rfl⟩ := hp
    obtain ⟨hblank, hclose⟩ := hl c rfl
    refine ⟨dropBlanks_cons hblank p, ?_⟩
    intro rest hrest
    exact hclose (List.cons.inj hrest).1

/-- The text of items starts neither with a blank nor with the bracket that closes an array. -/
theorem head_compactItems {js : List Json} (hjs : ∀ j ∈ js, j.HasNaturals) :
    ∀ c ∈ (compactItems js).head?, isBlank c = false ∧ c ≠ ']' := by
  cases js with
  | nil => simp [compactItems]
  | cons j js =>
    -- the text starts with that of the first item
    have hj := (List.forall_mem_cons.mp hjs).1
    obtain ⟨c, rest, hc, hblank, hclose⟩ := (spelled_compact hj []).ofJson.head
    rw [List.append_nil] at hc
    have hhead : (compactItems (j :: js)).head? = some c := by
      cases js <;> simp [compactItems, hc]
    intro d hd
    obtain rfl : c = d := by simpa [hhead] using hd
    exact ⟨hblank, hclose⟩

/-- The text of members starts neither with a blank nor with the brace that closes an object. -/
theorem head_compactMembers (ms : List (String × Json)) :
    ∀ c ∈ (compactMembers ms).head?, isBlank c = false ∧ c ≠ '}' := by
  intro c hc
  -- a member starts with the mark before its name
  have hmark : c = '"' := by
    match ms with
    | [] => simp [compactMembers] at hc
    | [(k, j)] => simpa [compactMembers, StringLiteral.encode, eq_comm] using hc
    | (k, j) :: m :: ms => simpa [compactMembers, StringLiteral.encode, eq_comm] using hc
  rw [hmark]
  decide

/-- **The draft of a value that was cut off** is cut off from the value, and nothing is left. -/
theorem scanValue_cutOff {j : Json} (hj : j.HasNaturals) : FindsCutOff j := by
  -- by the tree: the parts of a value are cut off as the value is
  induction j using Json.induction with
  | scalar s => exact findsCutOff_scalar hj
  | array js ih =>
    have hjs := hasNaturals_array_iff.mp hj
    intro fuel p hp hfuel
    obtain ⟨fuel, rfl⟩ : ∃ n, fuel = n + 1 := ⟨fuel - 1, by omega⟩
    rcases cutShort_between_iff.mp hp with rfl | ⟨q, rfl, hq⟩
    · exact ⟨_, scanValue_nil fuel, .ended _ _⟩
    -- no item starts with a blank or with the bracket that is missing
    have hstart := dropBlanks_of_isPrefix hq (head_compactItems hjs)
    obtain ⟨ds, hitems, hds⟩ := scanItems_cutOff hjs (fun j hj => ih j hj (hjs j hj)) fuel hq (by
      simp only [List.length_cons] at hfuel
      omega)
    refine ⟨_, scanValue_array (dropBlanks_cons rfl q) ?_ ?_, hds⟩
    · rw [hstart.1]
      exact hstart.2
    · rw [hstart.1]
      exact hitems
  | object ms ih =>
    have hms := hasNaturals_object_iff.mp hj
    intro fuel p hp hfuel
    obtain ⟨fuel, rfl⟩ : ∃ n, fuel = n + 1 := ⟨fuel - 1, by omega⟩
    rcases cutShort_between_iff.mp hp with rfl | ⟨q, rfl, hq⟩
    · exact ⟨_, scanValue_nil fuel, .ended _ _⟩
    -- no member starts with a blank or with the brace that is missing
    have hstart := dropBlanks_of_isPrefix hq (head_compactMembers ms)
    obtain ⟨ds, ending, hmembers, hds⟩ :=
      scanMembers_cutOff hms (fun m hm => ih m hm (hms m hm)) fuel hq (by
        simp only [List.length_cons] at hfuel
        omega)
    refine ⟨_, scanValue_object (dropBlanks_cons rfl q) ?_ ?_, hds⟩
    · rw [hstart.1]
      exact hstart.2
    · rw [hstart.1]
      exact hmembers

/-- **The draft of a text that was cut off.** -/
theorem scan_cutOff {j : Json} (hj : j.HasNaturals) {p : List Char} (hp : CutShort p j.compact) :
    ∃ d, scan p = (d, []) ∧ CutOff j d :=
  scanValue_cutOff hj (2 * p.length + 2) hp (Nat.le_succ _)

end Draft

end Introspect
