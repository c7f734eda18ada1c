import Introspect.Document.Kind
import Introspect.Modifier.Text
import Introspect.Proofs.Modifier.Bits
import Introspect.Proofs.Text.Blank
import Introspect.Proofs.Text.Hex
import Introspect.Proofs.Text.Joined

/-!
# Which texts are sets of modifiers

A text is taken apart at its bars, and the blanks around each part are dropped
(`ModifierSet.trimmedParts`). What a part may be, and what it then stands for, is said without
reading it: `ModifierSet.PartDenotes` knows the twelve constant names and the numbers, and
`ModifierSet.PartFault` says what is wrong with any other part.

* `ModifierSet.ofPart_eq_ok_iff`, `ModifierSet.ofPart_eq_error_iff` — a part is read as what it
  stands for, and refused for what is wrong with it;
* `ModifierSet.ofParts_eq_ok_iff`, `ModifierSet.ofParts_eq_error_iff` — parts are read from the
  left, each adding its bits, up to the first that is refused;
* `ModifierSet.ofTree_text_iff` — the same of a document, with blank text as the empty set. What is
  read depends on which parts there are, not on their order, their number or the blanks around them.
-/

namespace Introspect

open Text (isBlank trimChars HexDenotes)

/-- The modifier of a constant name is the one that has it. -/
theorem Modifier.ofConstant?_eq_some_iff {name : String} {m : Modifier} :
    ofConstant? name = some m ↔ m.constant = name := by
  refine ⟨fun h => ?_, ?_⟩
  · have hname := List.find?_some h
    exact eq_of_beq hname
  · rintro rfl
    exact ofConstant?_constant m

/-- A name that is no constant name of a modifier is not known. -/
theorem Modifier.ofConstant?_eq_none_iff {name : String} :
    ofConstant? name = none ↔ ∀ m : Modifier, m.constant ≠ name := by
  rw [Option.eq_none_iff_forall_ne_some]
  exact forall_congr' fun m => not_congr ofConstant?_eq_some_iff

namespace ModifierSet

/-! ### Parts -/

/-- **What a part of a text stands for**, the blanks around it being gone: a modifier, by its
constant name, or bits of any kind, by a hexadecimal number of 16 bits. -/
inductive PartDenotes : List Char → ModifierSet → Prop where
  | constant (m : Modifier) : PartDenotes m.constant.toList (single m)
  | number {sign digits : List Char} {n : Nat} (hsign : sign = [] ∨ sign = ['+'])
      (hne : digits ≠ []) (hdigits : HexDenotes digits n) (hn : n ≤ 0xffff) :
      PartDenotes ('0' :: 'x' :: (sign ++ digits)) ⟨n.toUInt16⟩

/-- **What is wrong with a part** that stands for nothing. One that starts as a number is a bad
number, whatever follows. -/
inductive PartFault : List Char → ModifierError → Prop where
  | blank : PartFault [] .blankPart
  | number {rest : List Char} (h : ∀ t, ¬PartDenotes ('0' :: 'x' :: rest) t) :
      PartFault ('0' :: 'x' :: rest) .badNumber
  | name {part : List Char} (hne : part ≠ []) (hnumber : ¬['0', 'x'] <+: part)
      (h : ∀ t, ¬PartDenotes part t) : PartFault part .unknownName

/-- A sign is no digit. -/
theorem not_hexDenotes_plus {cs : List Char} {n : Nat} : ¬HexDenotes ('+' :: cs) n := by
  rintro ⟨_, _ | ⟨hd, -⟩, -⟩
  have hnone : Text.hexDigit? '+' = none := by decide
  rw [← Text.hexDigit?_eq_some_iff, hnone] at hd
  cases hd

/-- The digits alone, without a sign. -/
theorem bind_hexValue?_eq_some_iff {ds : List Char} {bits : UInt16} :
    ((Text.hexValue? ds).bind fun n => if n < UInt16.size then some n.toUInt16 else none) =
        some bits ↔ ∃ n, HexDenotes ds n ∧ n ≤ 0xffff ∧ n.toUInt16 = bits := by
  simp only [Option.bind_eq_some_iff, Text.hexValue?_eq_some_iff, Option.ite_none_right_eq_some,
    Option.some.injEq]
  exact exists_congr fun n => and_congr_right fun _ => and_congr_left fun _ => Nat.lt_succ_iff

/-- **A number of 16 bits** has digits, and may have a sign before them. -/
theorem ofHex?_eq_some_iff {cs : List Char} {bits : UInt16} :
    ofHex? cs = some bits ↔
      ∃ sign digits n, (sign = [] ∨ sign = ['+']) ∧ cs = sign ++ digits ∧ digits ≠ [] ∧
        HexDenotes digits n ∧ n ≤ 0xffff ∧ n.toUInt16 = bits := by
  refine ⟨fun h => ?_, ?_⟩
  · unfold ofHex? at h
    split at h
    · next ds =>
      -- a sign alone is no number
      cases ds with
      | nil => cases h
      | cons d ds =>
        obtain ⟨n, hn⟩ := bind_hexValue?_eq_some_iff.mp h
        exact ⟨['+'], d :: ds, n, .inr rfl, rfl, List.cons_ne_nil d ds, hn⟩
    · cases cs with
      | nil => cases h
      | cons d ds =>
        obtain ⟨n, hn⟩ := bind_hexValue?_eq_some_iff.mp h
        exact ⟨[], d :: ds, n, .inl rfl, rfl, List.cons_ne_nil d ds, hn⟩
  · rintro ⟨_, digits, n, hsign, rfl, hne, hn⟩
    have hbits := bind_hexValue?_eq_some_iff.mpr ⟨n, hn⟩
    cases digits with
    | nil => exact absurd rfl hne
    | cons d ds =>
      obtain rfl | rfl := hsign
      · -- the first digit is not taken for a sign
        have hd : d ≠ '+' := by
          rintro rfl
          exact not_hexDenotes_plus hn.1
        unfold ofHex?
        split
        · next h => exact absurd (List.cons.inj h).1 hd
        · exact hbits
      · exact hbits

/-- **A part is read as what it stands for.** -/
theorem ofPart_eq_ok_iff {part : List Char} {t : ModifierSet} :
    ofPart part = .ok t ↔ PartDenotes part t := by
  refine ⟨fun h => ?_, fun h => ?_⟩
  · -- a part is told by its beginning
    unfold ofPart at h
    split at h
    · cases h
    · -- what starts as a number is a number
      split at h
      · next bits hbits =>
        obtain ⟨sign, digits, n, hsign, rfl, hne, hdigits, hn, rfl⟩ := ofHex?_eq_some_iff.mp hbits
        cases h
        exact .number hsign hne hdigits hn
      · cases h
    · -- anything else is a name
      split at h
      · next m hm =>
        have hname := congrArg String.toList (Modifier.ofConstant?_eq_some_iff.mp hm)
        rw [String.toList_ofList] at hname
        cases h
        exact hname ▸ .constant m
      · cases h
  · cases h with
    | constant m => cases m <;> rfl
    | number hsign hne hdigits hn =>
      have hbits := ofHex?_eq_some_iff.mpr ⟨_, _, _, hsign, rfl, hne, hdigits, hn, rfl⟩
      simp only [ofPart, hbits]

/-- A part in which something is wrong stands for nothing. -/
theorem PartFault.not_denotes {part : List Char} {e : ModifierError} (h : PartFault part e) :
    ∀ t, ¬PartDenotes part t := by
  cases h with
  | blank =>
    intro t ht
    cases ofPart_eq_ok_iff.mpr ht
  | number h => exact h
  | name _ _ h => exact h

/-- There is one thing wrong with a part. -/
theorem PartFault.unique {part : List Char} {e e' : ModifierError} (h : PartFault part e)
    (h' : PartFault part e') : e = e' := by
  -- blank, a number and a name exclude one another
  cases h with
  | blank =>
    cases h' with
    | blank => rfl
    | name hne => exact absurd rfl hne
  | number =>
    cases h' with
    | number => rfl
    | name _ hnumber => exact absurd ⟨_, rfl⟩ hnumber
  | name hne hnumber =>
    cases h' with
    | blank => exact absurd rfl hne
    | number => exact absurd ⟨_, rfl⟩ hnumber
    | name => rfl

/-- **A part is refused for what is wrong with it.** -/
theorem ofPart_eq_error_iff {part : List Char} {e : ModifierError} :
    ofPart part = .error e ↔ PartFault part e := by
  -- each error comes from a branch of its own, and `ofPart_eq_ok_iff` says that nothing is denoted
  have hfault {e : ModifierError} (h : ofPart part = .error e) : PartFault part e := by
    have hnothing : ∀ t, ¬PartDenotes part t := by
      intro t ht
      rw [ofPart_eq_ok_iff.mpr ht] at h
      cases h
    unfold ofPart at h
    split at h
    · cases h
      exact .blank
    · split at h
      · cases h
      · cases h
        exact .number hnothing
    · next hne hnumber =>
      split at h
      · cases h
      · cases h
        refine .name hne ?_ hnothing
        rintro ⟨rest, hrest⟩
        exact hnumber rest hrest.symm
  refine ⟨hfault, fun h => ?_⟩
  cases hread : ofPart part with
  | ok t => exact absurd (ofPart_eq_ok_iff.mp hread) (h.not_denotes t)
  | error e' => rw [(hfault hread).unique h]

/-- A part stands for one set. -/
theorem PartDenotes.unique {part : List Char} {t u : ModifierSet} (ht : PartDenotes part t)
    (hu : PartDenotes part u) : t = u := by
  have h := (ofPart_eq_ok_iff.mpr ht).symm.trans (ofPart_eq_ok_iff.mpr hu)
  exact Except.ok.inj h

/-! ### Lists of parts -/

/-- **The union of what parts stand for**, bit by bit. Each of them has to stand for something. -/
structure IsUnion (parts : List (List Char)) (t : ModifierSet) : Prop where
  denotes : ∀ part ∈ parts, ∃ u, PartDenotes part u
  hasBit_iff : ∀ i, t.HasBit i ↔ ∃ part ∈ parts, ∃ u, PartDenotes part u ∧ u.HasBit i

/-- The union depends on which parts there are. -/
theorem IsUnion.congr {parts others : List (List Char)} {t : ModifierSet} (h : IsUnion parts t)
    (hmem : ∀ part, part ∈ others ↔ part ∈ parts) : IsUnion others t := by
  refine ⟨fun part hpart => h.denotes part ((hmem part).mp hpart), fun i => ?_⟩
  simp only [h.hasBit_iff i, hmem]

/-- **Parts that are read** all stand for something, and their bits are added to those that are
there already. -/
theorem ofParts_eq_ok_iff {s t : ModifierSet} {parts : List (List Char)} :
    ofParts s parts = .ok t ↔
      (∀ part ∈ parts.map trimChars, ∃ u, PartDenotes part u) ∧
        ∀ i, t.HasBit i ↔
          s.HasBit i ∨ ∃ part ∈ parts.map trimChars, ∃ u, PartDenotes part u ∧ u.HasBit i := by
  -- by the parts, each of which adds its bits to those of the parts before it
  induction parts generalizing s with
  | nil =>
    simp only [ofParts, Except.ok.injEq, List.map_nil, List.not_mem_nil, false_and, exists_false,
      or_false, IsEmpty.forall_iff, implies_true, true_and]
    exact ⟨fun h i => by rw [h], fun h => ext_hasBit fun i => (h i).symm⟩
  | cons part parts ih =>
    rw [ofParts, List.map_cons, List.forall_mem_cons]
    cases hread : ofPart (trimChars part) with
    | error e =>
      -- the first part is refused, so it stands for nothing
      refine iff_of_false (fun h => nomatch h) ?_
      rintro ⟨⟨⟨u, hu⟩, -⟩, -⟩
      exact (ofPart_eq_error_iff.mp hread).not_denotes u hu
    | ok u =>
      have hu := ofPart_eq_ok_iff.mp hread
      have hbits (i : Nat) : (∃ v, PartDenotes (trimChars part) v ∧ v.HasBit i) ↔ u.HasBit i :=
        ⟨fun ⟨v, hv, hi⟩ => hu.unique hv ▸ hi, fun hi => ⟨u, hu, hi⟩⟩
      simp only [ih, hasBit_union, List.exists_mem_cons_iff, hbits, or_assoc]
      exact and_congr_left fun _ => (and_iff_right ⟨u, hu⟩).symm

/-- **Parts that are not read** start with some that stand for something, and go on with one in
which there is something wrong. -/
theorem ofParts_eq_error_iff {s : ModifierSet} {parts : List (List Char)} {e : ModifierError} :
    ofParts s parts = .error e ↔
      ∃ before part after, parts.map trimChars = before ++ part :: after ∧
        (∀ p ∈ before, ∃ u, PartDenotes p u) ∧ PartFault part e := by
  -- by the parts, up to the one that is to blame
  induction parts generalizing s with
  | nil => simp [ofParts]
  | cons part parts ih =>
    rw [ofParts, List.map_cons]
    rw [Text.exists_first_cons_iff]
    cases hread : ofPart (trimChars part) with
    | error e' =>
      -- the first part is to blame
      have hfault := ofPart_eq_error_iff.mp hread
      refine ⟨fun h => .inl (Except.error.inj h ▸ hfault), ?_⟩
      rintro (h | ⟨⟨u, hu⟩, -⟩)
      · rw [hfault.unique h]
      · exact absurd hu (hfault.not_denotes u)
    | ok u =>
      -- the first part is fine, so another one is
      have hu := ofPart_eq_ok_iff.mp hread
      refine ih.trans ⟨fun h => .inr ⟨⟨u, hu⟩, h⟩, ?_⟩
      rintro (h | ⟨-, h⟩)
      · exact absurd hu (h.not_denotes u)
      · exact h

/-! ### Texts -/

/-- **The parts of a text**, without the blanks around them. -/
def trimmedParts (s : String) : List (List Char) :=
  (s.toList.splitOn '|').map trimChars

/-- Blank text has one part, which is blank. -/
theorem trimmedParts_of_blank {s : String} (h : s.toList.all isBlank = true) :
    trimmedParts s = [[]] := by
  have hblank := List.all_eq_true.mp h
  have hbar : '|' ∉ s.toList := fun hmem => absurd (hblank _ hmem) (by decide)
  have htrim := Text.trimChars_pad hblank (List.forall_mem_nil _) []
  rw [List.append_nil, List.append_nil] at htrim
  rw [trimmedParts, List.splitOn_eq_singleton hbar, List.map_singleton, htrim]
  rfl

/-- Blank text is no union, since its only part stands for nothing. -/
theorem not_isUnion_of_blank {s : String} (h : s.toList.all isBlank = true) (t : ModifierSet) :
    ¬IsUnion (trimmedParts s) t := by
  intro ht
  rw [trimmedParts_of_blank h] at ht
  obtain ⟨u, hu⟩ := ht.denotes [] (List.mem_singleton_self _)
  exact PartFault.blank.not_denotes u hu

/-- A text is read as the empty set when it is blank, and else as the union of its parts. -/
theorem ofText_eq_ok_iff {s : String} {t : ModifierSet} :
    ofText s = .ok t ↔ s.toList.all isBlank = true ∧ t = ∅ ∨ IsUnion (trimmedParts s) t := by
  unfold ofText
  split
  · next h =>
    simp [h, not_isUnion_of_blank h, eq_comm]
  · next h =>
    simp only [h, Bool.false_eq_true, false_and, false_or, ofParts_eq_ok_iff, not_hasBit_empty]
    exact ⟨fun ⟨hdenotes, hbits⟩ => ⟨hdenotes, hbits⟩, fun h => ⟨h.denotes, h.hasBit_iff⟩⟩

/-- A text that is refused is refused for its leftmost part that stands for nothing. -/
theorem ofText_eq_error_iff {s : String} {e : ModifierError} :
    ofText s = .error e ↔ s.toList.all isBlank = false ∧
      ∃ before part after, trimmedParts s = before ++ part :: after ∧
        (∀ p ∈ before, ∃ u, PartDenotes p u) ∧ PartFault part e := by
  unfold ofText
  split
  · next h => simp [h]
  · next h => rw [ofParts_eq_error_iff, Bool.eq_false_iff, trimmedParts, and_iff_right h]

/-- **A text is refused** just when it is not blank and some part of it stands for nothing. -/
theorem exists_ofText_eq_error_iff {s : String} :
    (∃ e, ofText s = .error e) ↔ s.toList.all isBlank = false ∧
      ∃ part ∈ trimmedParts s, ∀ u, ¬PartDenotes part u := by
  refine ⟨?_, ?_⟩
  · -- the part that is to blame
    rintro ⟨e, he⟩
    obtain ⟨hblank, before, part, after, hparts, -, hfault⟩ := ofText_eq_error_iff.mp he
    exact ⟨hblank, part, by rw [hparts]; simp, hfault.not_denotes⟩
  · rintro ⟨hblank, part, hpart, hnothing⟩
    cases hread : ofText s with
    | error e => exact ⟨e, rfl⟩
    | ok t =>
      -- an accepted text is blank or the union of what all its parts stand for
      obtain ⟨hall, -⟩ | hunion := ofText_eq_ok_iff.mp hread
      · exact absurd (hblank ▸ hall) Bool.false_ne_true
      · obtain ⟨u, hu⟩ := hunion.denotes part hpart
        exact absurd hu (hnothing u)

/-! ### Documents -/

/-- In a document a set of modifiers is read from its text. -/
theorem ofTree_text (s : String) : Kind.modifiers.ofTree (.string s) =
    Decoded.ofData ((ofText s).mapError DataError.modifiers) := by
  show Decoded.ofData (Scalar.asModifiers (.string s)) = _
  rw [Scalar.asModifiers]
  cases ofText s <;> rfl

/-- A document is read just when the text in it is. -/
theorem ofTree_text_eq_ok_iff {s : String} {t : ModifierSet} :
    Kind.modifiers.ofTree (.string s) = .ok t ↔ ofText s = .ok t := by
  rw [ofTree_text]
  cases ofText s <;> simp [Except.mapError]

/-- A document is refused for what is wrong with the text in it. -/
theorem ofTree_text_eq_error_iff {s : String} {e : DecodeError} :
    Kind.modifiers.ofTree (.string s) = .error e ↔
      ∃ cause, ofText s = .error cause ∧ .data (.modifiers cause) = e := by
  rw [ofTree_text]
  cases ofText s <;> simp [Except.mapError]

/-- **Which texts are sets of modifiers.** Blank text is the empty set. Of any other text every part
has to stand for something, and the text is the union of that, unknown bits included; so it is the
same for all texts with the same parts, in whichever order, however often and with whatever blanks
around them. A text that is refused is refused for its leftmost part that stands for nothing,
whatever comes behind that part. -/
theorem ofTree_text_grammar (s : String) :
    ((∃ t, Kind.modifiers.ofTree (.string s) = .ok t) ↔
        s.toList.all isBlank = true ∨ ∀ part ∈ trimmedParts s, ∃ u, PartDenotes part u) ∧
      (∀ t, Kind.modifiers.ofTree (.string s) = .ok t ↔
        s.toList.all isBlank = true ∧ t = ∅ ∨ IsUnion (trimmedParts s) t) ∧
      (∀ e, Kind.modifiers.ofTree (.string s) = .error e ↔
        s.toList.all isBlank = false ∧
          ∃ before part after cause, trimmedParts s = before ++ part :: after ∧
            (∀ p ∈ before, ∃ u, PartDenotes p u) ∧ PartFault part cause ∧
              e = .data (.modifiers cause)) ∧
      ∀ t, IsUnion (trimmedParts s) t → ∀ s' : String,
        (∀ part, part ∈ trimmedParts s' ↔ part ∈ trimmedParts s) →
          Kind.modifiers.ofTree (.string s') = .ok t := by
  have hok (s : String) (t : ModifierSet) :=
    (ofTree_text_eq_ok_iff (s := s) (t := t)).trans ofText_eq_ok_iff
  refine ⟨⟨?_, ?_⟩, hok s, fun e => ?_, fun t ht s' hmem => (hok s' t).mpr (.inr (ht.congr hmem))⟩
  · -- what was accepted is blank, or all its parts stand for something
    rintro ⟨t, ht⟩
    exact ((hok s t).mp ht).imp And.left IsUnion.denotes
  · intro h
    cases hread : ofText s with
    | ok t => exact ⟨t, ofTree_text_eq_ok_iff.mpr hread⟩
    | error e =>
      -- the part that is to blame is neither blank text nor does it stand for something
      obtain ⟨hblank, before, part, after, hparts, -, hfault⟩ := ofText_eq_error_iff.mp hread
      obtain h | h := h
      · exact absurd (hblank ▸ h) Bool.false_ne_true
      · have hpart : part ∈ trimmedParts s := by rw [hparts]; simp
        obtain ⟨u, hu⟩ := h part hpart
        exact absurd hu (hfault.not_denotes u)
  · -- the fault of the document is the fault of the text
    rw [ofTree_text_eq_error_iff]
    simp only [ofText_eq_error_iff]
    refine ⟨?_, ?_⟩
    · rintro ⟨cause, ⟨hblank, before, part, after, hparts, hbefore, hfault⟩, rfl⟩
      exact ⟨hblank, before, part, after, cause, hparts, hbefore, hfault, rfl⟩
    · rintro ⟨hblank, before, part, after, cause, hparts, hbefore, hfault, rfl⟩
      exact ⟨cause, ⟨hblank, before, part, after, hparts, hbefore, hfault⟩, rfl⟩

/-- A modifier and an unknown bit, one of them twice; and a text with three bad parts. -/
example : ofText " FINAL|0x+08010 |FINAL" = .ok ⟨0x8010⟩ ∧
    ofText "FINAL|0x10000||final" = .error .badNumber := by
  decide +kernel

end ModifierSet

end Introspect
