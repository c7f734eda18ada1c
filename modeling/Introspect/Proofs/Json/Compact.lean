import Introspect.Json.Compact
import Introspect.Proofs.Json.Scan
import Introspect.Proofs.Json.Tree

/-!
# Compact text denotes its tree

`Json.denoted_text` — the compact text of a tree is a JSON document that denotes the tree, whatever
strings stand in it. Numbers are asked to be natural numbers of 64 bits (`Json.HasNaturals`), which
is all that the descriptors of this library ever write.
-/

namespace Introspect

/-! ### Strings -/

/-- **The three forms of an escape**: a backslash with a letter, a backslash with the number of a
control character, and the character itself. -/
theorem StringLiteral.escape_cases (c : Char) :
    (∃ e, shortEscape? e = some c ∧ escape c = ['\\', e]) ∨
      (c.toNat < 0x20 ∧ escape c =
        ['\\', 'u', '0', '0', Nat.digitChar (c.toNat / 16), Nat.digitChar (c.toNat % 16)]) ∨
      (c ≠ '"' ∧ c ≠ '\\' ∧ 0x20 ≤ c.toNat ∧ escape c = [c]) := by
  unfold escape
  -- seven characters have a short escape
  split
  · exact .inl ⟨'"', rfl, rfl⟩
  · exact .inl ⟨'\\', rfl, rfl⟩
  · exact .inl ⟨'b', rfl, rfl⟩
  · exact .inl ⟨'f', rfl, rfl⟩
  · exact .inl ⟨'n', rfl, rfl⟩
  · exact .inl ⟨'r', rfl, rfl⟩
  · exact .inl ⟨'t', rfl, rfl⟩
  · next hmark hslash _ _ _ _ _ =>
    -- of the others a control character is given by its number
    split
    · next hcontrol => exact .inr (.inl ⟨hcontrol, rfl⟩)
    · next hcontrol => exact .inr (.inr ⟨hmark, hslash, Nat.le_of_not_lt hcontrol, rfl⟩)

/-- Every character may be written as its escape. -/
theorem StringLiteral.spelled_escape {l cs r : List Char} (c : Char)
    (h : StringLiteral.Spelled l cs r) :
    StringLiteral.Spelled (StringLiteral.escape c ++ l) (c :: cs) r := by
  rcases escape_cases c with ⟨e, he, hescape⟩ | ⟨hcontrol, hescape⟩ | ⟨hmark, hslash, hc, hescape⟩
  · rw [hescape]
    exact .short e c he h
  · -- a control character without a short escape is given by its number
    have hhex : Text.hexValue? ['0', '0', Nat.digitChar (c.toNat / 16),
        Nat.digitChar (c.toNat % 16)] = some c.toNat := by
      have hall : ∀ n : Fin 32, Text.hexValue? ['0', '0', Nat.digitChar (n / 16),
          Nat.digitChar (n % 16)] = some n.val := by decide
      exact hall ⟨c.toNat, hcontrol⟩
    have hlow : isLow c.toNat = false := by
      simp only [isLow, Bool.and_eq_false_iff, decide_eq_false_iff_not]
      omega
    have hhigh : isHigh c.toNat = false := by
      simp only [isHigh, Bool.and_eq_false_iff, decide_eq_false_iff_not]
      omega
    have hunit := StringLiteral.Spelled.unit _ _ _ _ _ hhex hlow hhigh h
    rw [Char.ofNat_toNat] at hunit
    rw [hescape]
    exact hunit
  · rw [hescape]
    exact .raw c hmark hslash hc h

/-- The characters of a string, each in its escape, spell the string. -/
theorem StringLiteral.spelled_escapes (cs r : List Char) :
    StringLiteral.Spelled (cs.flatMap StringLiteral.escape ++ r) cs r := by
  -- one escape at a time, from the front
  induction cs with
  | nil => exact .nil r
  | cons c cs ih =>
    rw [List.flatMap_cons, List.append_assoc]
    exact StringLiteral.spelled_escape c ih

/-! ### Numbers -/

/-- A number is written without leading zeros. -/
theorem Numeral.isWhole_toDigits (n : Nat) : Numeral.IsWhole (Nat.toDigits 10 n) := by
  refine ⟨⟨Nat.toDigits_ne_nil, fun c hc => Nat.isDigit_of_mem_toDigits (by decide) (by decide) hc⟩,
    ?_⟩
  -- by the number of digits: all but the last are those of `n / 10`
  induction n using Nat.strongRecOn with
  | ind n ih =>
    intro rest hrest
    by_cases hn : n < 10
    · -- a zero that is the only digit
      rw [Nat.toDigits_of_lt_base hn] at hrest
      injection hrest with _ hnil
      exact hnil.symm
    · rw [Nat.toDigits_of_base_le (by decide) (by omega)] at hrest
      cases hds : Nat.toDigits 10 (n / 10) with
      | nil => exact absurd hds Nat.toDigits_ne_nil
      | cons d ds =>
        -- a leading zero would make all but the last digit a zero, and the number less than ten
        rw [hds, List.cons_append] at hrest
        injection hrest with hd _
        subst hd
        obtain rfl := ih (n / 10) (by omega) ds hds
        have hvalue := Nat.ofDigitChars_ten_toDigits (n := n / 10)
        rw [hds] at hvalue
        have hzero : Nat.ofDigitChars 10 ['0'] 0 = 0 := by decide
        omega

/-- The digits of a natural number spell it, without sign, fraction or exponent. -/
theorem Numeral.spelled_toDigits (n : Nat) (r : List Char) :
    Numeral.Spelled (Nat.toDigits 10 n ++ r) ⟨false, Nat.toDigits 10 n, none, none⟩ r :=
  .positive (Numeral.isWhole_toDigits n) (.absent r) (.absent r)

/-- What is spelled so is read as the number itself, as long as it has 64 bits. -/
theorem Numeral.number?_toDigits {n : Nat} (h : n < UInt64.size) :
    Numeral.number? ⟨false, Nat.toDigits 10 n, none, none⟩ = some (.integer n) := by
  simp only [Numeral.number?, Nat.ofDigitChars_ten_toDigits, Bool.false_eq_true, if_false, h,
    if_true]

/-! ### Values -/

namespace Json

mutual

/-- **All numbers of the value are natural numbers of 64 bits.** -/
def HasNaturals : Json → Prop
  | .scalar (.number x) => ∃ n : Nat, n < UInt64.size ∧ x = .integer n
  | .scalar _ => True
  | .array items => ItemsHaveNaturals items
  | .object members => MembersHaveNaturals members

/-- The same for the items of an array. -/
def ItemsHaveNaturals : List Json → Prop
  | [] => True
  | j :: js => j.HasNaturals ∧ ItemsHaveNaturals js

/-- The same for the values of the members of an object. -/
def MembersHaveNaturals : List (String × Json) → Prop
  | [] => True
  | (_, j) :: ms => j.HasNaturals ∧ MembersHaveNaturals ms

end

/-- The numbers of an array are those of its items. -/
theorem hasNaturals_array_iff {js : List Json} :
    (array js).HasNaturals ↔ ∀ j ∈ js, j.HasNaturals := by
  rw [HasNaturals]
  induction js with
  | nil => simp [ItemsHaveNaturals]
  | cons j js ih => rw [ItemsHaveNaturals, ih, List.forall_mem_cons]

/-- The numbers of an object are those of its members. -/
theorem hasNaturals_object_iff {ms : List (String × Json)} :
    (object ms).HasNaturals ↔ ∀ m ∈ ms, m.2.HasNaturals := by
  rw [HasNaturals]
  induction ms with
  | nil => simp [MembersHaveNaturals]
  | cons m ms ih => rw [MembersHaveNaturals, ih, List.forall_mem_cons]

mutual

/-- The compact text of a value spells it, whatever follows. -/
theorem spelled_compact : ∀ {j : Json}, j.HasNaturals → ∀ r, Spelled (j.compact ++ r) j r
  | .scalar .null, _, r => .nullWord r
  | .scalar (.bool true), _, r => .trueWord r
  | .scalar (.bool false), _, r => .falseWord r
  | .scalar (.number _), ⟨n, hn, hx⟩, r => by
    subst hx
    exact .number (Numeral.spelled_toDigits n r) (Numeral.number?_toDigits hn)
  | .scalar (.string s), _, r => by
    have hs := StringLiteral.spelled_escapes s.toList ('"' :: r)
    have hstring := Spelled.string hs
    -- the marks around the string are part of its text
    rw [String.ofList_toList] at hstring
    simpa [compact, Scalar.compact, StringLiteral.encode] using hstring
  | .array [], _, r => .emptyArray (.nil _)
  | .array (j :: js), h, r => by
    rw [compact, List.cons_append, List.append_assoc]
    exact .array (itemsSpelled_compact (by simp) h (']' :: r))
  | .object [], _, r => .emptyObject (.nil _)
  | .object (m :: ms), h, r => by
    rw [compact, List.cons_append, List.append_assoc]
    exact .object (membersSpelled_compact (by simp) h ('}' :: r))

/-- The items of an array that is not empty are spelled with commas between them. -/
theorem itemsSpelled_compact : ∀ {js : List Json}, js ≠ [] → ItemsHaveNaturals js →
    ∀ r, ItemsSpelled (compactItems js ++ r) js r
  | [j], _, h, r => .last (.nil _) (spelled_compact h.1 r) (.nil r)
  | j :: k :: js, _, h, r => by
    rw [compactItems, List.append_assoc, List.cons_append]
    · exact .cons (.nil _) (spelled_compact h.1 _) (.nil _)
        (itemsSpelled_compact (by simp) h.2 r)
    · simp

/-- The members of an object that is not empty are spelled with commas between them. -/
theorem membersSpelled_compact : ∀ {ms : List (String × Json)}, ms ≠ [] →
    MembersHaveNaturals ms → ∀ r, MembersSpelled (compactMembers ms ++ r) ms r
  | [(k, j)], _, h, r => by
    -- a name, a colon and a value, with no blanks around them
    have hmember := MembersSpelled.last (.nil _)
      (StringLiteral.spelled_escapes k.toList ('"' :: ':' :: (j.compact ++ r))) (.nil _) (.nil _)
      (spelled_compact h.1 r) (.nil r)
    rw [String.ofList_toList] at hmember
    simpa [compactMembers, StringLiteral.encode] using hmember
  | (k, j) :: m :: ms, _, h, r => by
    -- the same, with a comma and the other members behind the value
    have hmember := MembersSpelled.cons (.nil _)
      (StringLiteral.spelled_escapes k.toList
        ('"' :: ':' :: (j.compact ++ ',' :: (compactMembers (m :: ms) ++ r)))) (.nil _) (.nil _)
      (spelled_compact h.1 _) (.nil _) (membersSpelled_compact (by simp) h.2 r)
    rw [String.ofList_toList] at hmember
    simpa [compactMembers, StringLiteral.encode] using hmember

end

/-- **The compact text of a tree denotes the tree.** -/
theorem denoted_text {j : Json} (h : j.HasNaturals) : Denoted j.text j := by
  -- no blanks stand before the value, and none behind it
  refine ⟨j.compact, [], ?_, ?_, .nil []⟩
  · rw [text, String.toList_ofList]
    exact .nil _
  · have hspelled := spelled_compact h []
    rwa [List.append_nil] at hspelled

end Json

end Introspect
