import Introspect.Proofs.Document.OnePart
import Introspect.Proofs.Json.Gap

/-!
# Numerals for access flags

A number is written as a numeral: a sign or none, digits, and perhaps a fraction and an exponent.
Which of them are a word of 16 bits can be told from how they are written. Neither the length of a
numeral nor its being a whole number matters, for what is too large for 64 bits, has a fraction or
an exponent, or is a negative zero is a double, and doubles are refused.

* `Numeral.IsPlain`, `Numeral.natural`, `Numeral.integer` — what is written;
* `Numeral.number?_eq_integer_iff` — which numerals are integers;
* `Numeral.decode_word_eq_ok`, `Numeral.decode_word_eq_overflow` — numerals where a word is wanted;
* `Kind.FlagsIn`, `Kind.decode_flags` — the access flags of a method or field of the host;
* `Kind.read_accessFlags` — any numeral in their place, in an otherwise valid text.
-/

namespace Introspect

/-! ### What a numeral says -/

namespace Numeral

/-- **A numeral without fraction and exponent.** -/
structure IsPlain (x : Numeral) : Prop where
  fraction : x.fraction = none
  exponent : x.exponent = none

/-- The number of the digits before the fraction. -/
def natural (x : Numeral) : Nat :=
  Nat.ofDigitChars 10 x.whole 0

/-- **The integer of a plain numeral**: its digits and their sign. -/
def integer (x : Numeral) : Int :=
  if x.negative then -x.natural else x.natural

variable {x : Numeral}

/-- A negative numeral says the negative of its digits. -/
theorem integer_of_negative (h : x.negative = true) : x.integer = -x.natural :=
  if_pos h

/-- A numeral without a sign says its digits. -/
theorem integer_of_not_negative (h : x.negative = false) : x.integer = x.natural :=
  if_neg (by simp [h])

/-- **The numerals that are integers**: the plain ones that 64 bits can hold, with or without a
sign, except for the negative zero. -/
theorem number?_eq_integer_iff {i : Int} :
    x.number? = some (.integer i) ↔
      x.IsPlain ∧ x.integer = i ∧ -2 ^ 63 ≤ i ∧ i < 2 ^ 64 ∧ ¬(x.negative = true ∧ i = 0) := by
  -- a double is no integer, so both sides say which case is met
  have hdouble {y : Option Float} {f : Float → Float} :
      y.map (fun d => Number.double (f d)) ≠ some (.integer i) := by
    cases y <;> simp
  have hsize : UInt64.size = 2 ^ 64 := rfl
  rw [number?]
  split
  · -- a plain numeral: digits and perhaps a sign
    next hfraction hexponent =>
    have hplain : x.IsPlain := ⟨hfraction, hexponent⟩
    have hnatural : Nat.ofDigitChars 10 x.whole 0 = x.natural := rfl
    simp only [hnatural]
    cases hsign : x.negative with
    | true =>
      have hinteger := integer_of_negative hsign
      simp only [if_true]
      split
      · -- the negative number fits into 64 bits, and is not zero
        simp only [Option.some.injEq, Number.integer.injEq, hplain, hinteger, true_and]
        refine ⟨fun hi => ⟨hi, ?_⟩, And.left⟩
        omega
      · -- it is a double, since it is zero or too small
        simp only [hdouble, hplain, hinteger, true_and, false_iff]
        omega
    | false =>
      have hinteger := integer_of_not_negative hsign
      simp only [Bool.false_eq_true, if_false, false_and, not_false_eq_true, and_true]
      split
      · -- the number fits into 64 bits
        simp only [Option.some.injEq, Number.integer.injEq, hplain, hinteger, true_and]
        refine ⟨fun hi => ⟨hi, ?_⟩, And.left⟩
        omega
      · -- it is a double, since it is too large
        simp only [hdouble, hplain, hinteger, true_and, false_iff]
        omega
  · -- a fraction or an exponent makes it a double
    next hnot =>
    simp only [hdouble, false_iff]
    exact fun h => hnot h.1.fraction h.1.exponent

variable {ref : RefDecoder} {place : Place}

/-- A numeral where a word is wanted. -/
theorem decode_word (x : Numeral) :
    Shape.word.decode ref place (.leaf x.lexeme) =
      match x.number? with
      | some n => .ofData (Scalar.asWord (.number n))
      | none => .error (.fault .malformed) := by
  rw [lexeme]
  cases x.number? <;> rfl

/-- **The numerals that are words.** -/
theorem decode_word_eq_ok {w : UInt16} :
    Shape.word.decode ref place (.leaf x.lexeme) = .ok w ↔
      x.IsPlain ∧ x.negative = false ∧ w.toNat = x.natural := by
  -- an integer is accepted where a word is wanted if it is the number of a word
  have hword : Shape.word.decode ref place (.leaf x.lexeme) = .ok w ↔
      x.number? = some (.integer w.toNat) := by
    rw [decode_word]
    cases x.number? with
    | none => simp
    | some n =>
      show Decoded.ofData _ = _ ↔ _
      rw [Decoded.ofData_eq_ok, Scalar.asWord_eq_ok, Scalar.number.injEq, Option.some.injEq]
  have hlt : w.toNat < 2 ^ 16 := w.toNat_lt_size
  rw [hword, number?_eq_integer_iff]
  cases hsign : x.negative with
  | true =>
    rw [integer_of_negative hsign]
    constructor
    · -- what is both negated and not negative is zero
      rintro ⟨-, hinteger, -, -, hzero⟩
      exact absurd ⟨rfl, by omega⟩ hzero
    · -- a negative numeral is not asked for
      rintro ⟨-, ⟨⟩, -⟩
  | false =>
    rw [integer_of_not_negative hsign]
    constructor
    · -- the digits say the number of the word
      rintro ⟨hplain, hinteger, -⟩
      exact ⟨hplain, rfl, by omega⟩
    · rintro ⟨hplain, -, hnatural⟩
      exact ⟨hplain, by omega, by omega, by omega, by simp⟩

/-- **An integer that is no word** is reported, as it is. -/
theorem decode_word_eq_overflow (hplain : x.IsPlain) (hlow : -2 ^ 63 ≤ x.integer)
    (hhigh : x.integer < 2 ^ 64) (hzero : ¬(x.negative = true ∧ x.integer = 0))
    (hword : ¬(x.negative = false ∧ x.natural ≤ 65535)) :
    Shape.word.decode ref place (.leaf x.lexeme) = .error (.data (.wordOverflow x.integer)) := by
  have hnumber : x.number? = some (.integer x.integer) :=
    number?_eq_integer_iff.mpr ⟨hplain, rfl, hlow, hhigh, hzero⟩
  -- outside the range of words: negative, as it is not a negative zero, or too large
  have hrange : ¬(0 ≤ x.integer ∧ x.integer < UInt16.size) := by
    have hsize : UInt16.size = 65536 := rfl
    cases hsign : x.negative with
    | true =>
      have hinteger := integer_of_negative hsign
      have hne : x.integer ≠ 0 := fun h => hzero ⟨hsign, h⟩
      omega
    | false =>
      have hinteger := integer_of_not_negative hsign
      have hlarge : 65535 < x.natural := Nat.not_le.mp fun h => hword ⟨hsign, h⟩
      omega
  rw [decode_word, hnumber]
  show Decoded.ofData (if 0 ≤ x.integer ∧ x.integer < UInt16.size then _ else _) = _
  rw [if_neg hrange]
  rfl

end Numeral

/-! ### Access flags -/

namespace Kind

/-- **A document with a place for access flags**: an object with such a member, or an array, in
which they are the second item. -/
inductive FlagsIn : (Draft → Draft) → Prop
  | member (before behind : List (Lexeme String × Draft)) :
      FlagsIn fun d => .object (before ++ (.sound "access_flags", d) :: behind) none
  | item (name : Draft) (behind : List Draft) : FlagsIn fun d => .array ([name] ++ d :: behind) none

/-- A method or field of the host with other access flags. -/
def withFlags : (k : Kind) → k.Value → UInt16 → k.Value
  | hostMethod, m, flags => { m with accessFlags := flags }
  | hostField, f, flags => { f with accessFlags := flags }
  | _, x, _ => x

variable {k : Kind} {whole : Draft → Draft}

/-- A well-formed text with access flags is well formed with any other value in their place. -/
theorem FlagsIn.exists_gap (hwhole : FlagsIn whole) {text : String} {d : Draft}
    (h : Draft.Denoted text (whole d)) :
    ∃ front value tail : String, text = front ++ value ++ tail ∧ Draft.IsValue value.toList d ∧
      Draft.HasGap front tail whole := by
  cases hwhole with
  | member => exact h.exists_gap_member
  | item => exact h.exists_gap_item

/-- **The outcome depends on the access flags alone** when everything else is right. -/
theorem decode_flags (hk : k = hostMethod ∨ k = hostField) (hwhole : FlagsIn whole)
    {place inside : Place} {d : Draft} {y : k.Value} (h : k.decode place (whole d) = .ok y)
    (hinside : place.enter = .ok inside) (d' : Draft) :
    k.decode place (whole d') =
      (Shape.word.decode TypeRef.decode inside d').map (k.withFlags y) := by
  obtain rfl | rfl := hk
  -- the flags are one field of the record, and decoding it is decoding the part for it
  · have hset : HostMethod.schema.set y .accessFlags = hostMethod.withFlags y := rfl
    rw [← hset]
    cases hwhole with
    | member => exact Schema.decode_member (S := HostMethod.schema) (f := .accessFlags) h hinside d'
    | item => exact HostMethod.schema.decode_item rfl h hinside d'
  · have hset : HostField.schema.set y .accessFlags = hostField.withFlags y := rfl
    rw [← hset]
    cases hwhole with
    | member => exact Schema.decode_member (S := HostField.schema) (f := .accessFlags) h hinside d'
    | item => exact HostField.schema.decode_item rfl h hinside d'

/-- In a text that is valid with a zero for the access flags, the outcome is that of the numeral
that is written instead. -/
theorem read_numeral (hk : k = hostMethod ∨ k = hostField) (hwhole : FlagsIn whole)
    {front tail : String} (hgap : Draft.HasGap front tail whole) {y : k.Value}
    (hvalid : k.read (front ++ "0" ++ tail) = .ok y) {literal : String} {x : Numeral}
    (hx : x.Spelled literal.toList []) :
    k.read (front ++ literal ++ tail) =
      (Shape.word.decode TypeRef.decode (.stream (nestingLimit - 1)) (.leaf x.lexeme)).map
        (k.withFlags y) := by
  -- the zero stands for any value there: with it everything else has been found right
  have hzero : Numeral.Spelled "0".toList ⟨false, Nat.toDigits 10 0, none, none⟩ [] :=
    Numeral.spelled_toDigits 0 []
  rw [read_of_wellFormed k (hgap "0" _ hzero.isValue)] at hvalid
  rw [read_of_wellFormed k (hgap literal _ hx.isValue)]
  exact decode_flags hk hwhole hvalid rfl _

/-- **Numerals for access flags.** A text of a method or field of the host that has access flags
consists of what stands before and behind them, and any other value can be written there. If it is
valid with a zero, it is accepted with a numeral exactly when that is an unsigned integer of at most
65535, and these are the flags then. Any other integer of 64 bits is reported as it is. -/
theorem read_accessFlags (hk : k = hostMethod ∨ k = hostField) (hwhole : FlagsIn whole) :
    (∀ text d, Draft.Denoted text (whole d) → ∃ front value tail : String,
      text = front ++ value ++ tail ∧ Draft.IsValue value.toList d ∧
        Draft.HasGap front tail whole) ∧
    ∀ front tail, Draft.HasGap front tail whole → ∀ y, k.read (front ++ "0" ++ tail) = .ok y →
      ∀ (literal : String) (x : Numeral), x.Spelled literal.toList [] →
        ((∃ z, k.read (front ++ literal ++ tail) = .ok z) ↔
          x.IsPlain ∧ x.negative = false ∧ x.natural ≤ 65535) ∧
        (∀ z, k.read (front ++ literal ++ tail) = .ok z →
          ∃ flags : UInt16, flags.toNat = x.natural ∧ z = k.withFlags y flags) ∧
        (x.IsPlain → -2 ^ 63 ≤ x.integer → x.integer < 2 ^ 64 →
          ¬(x.negative = true ∧ x.integer = 0) → ¬(x.negative = false ∧ x.natural ≤ 65535) →
          ∃ e : DataError, k.read (front ++ literal ++ tail) = .error (.data e) ∧
            e.message = "invalid value: integer `" ++ toString x.integer ++ "`, expected u16") := by
  refine ⟨fun text d => hwhole.exists_gap, fun front tail hgap y hvalid literal x hx => ?_⟩
  have hread := read_numeral hk hwhole hgap hvalid hx
  -- accepted are the flags that the numeral says, and the rest of the record stays
  have haccepted : ∀ z, k.read (front ++ literal ++ tail) = .ok z ↔
      ∃ flags : UInt16, (x.IsPlain ∧ x.negative = false ∧ flags.toNat = x.natural) ∧
        k.withFlags y flags = z := by
    intro z
    rw [hread, Decoded.map_eq_ok]
    exact exists_congr fun flags => and_congr_left' Numeral.decode_word_eq_ok
  -- in order: which numerals are accepted, as what, and how the others are reported
  refine ⟨?_, fun z hz => ?_, fun hplain hlow hhigh hzero hword => ?_⟩
  · constructor
    · rintro ⟨z, hz⟩
      obtain ⟨flags, ⟨hplain, hsign, hflags⟩, -⟩ := (haccepted z).mp hz
      have hlt : flags.toNat < 2 ^ 16 := flags.toNat_lt_size
      exact ⟨hplain, hsign, by omega⟩
    · rintro ⟨hplain, hsign, hle⟩
      have hflags : (UInt16.ofNat x.natural).toNat = x.natural :=
        UInt16.toNat_ofNat_of_lt' (Nat.lt_succ_of_le hle)
      exact ⟨_, (haccepted _).mpr ⟨_, ⟨hplain, hsign, hflags⟩, rfl⟩⟩
  · obtain ⟨flags, ⟨-, -, hflags⟩, rfl⟩ := (haccepted z).mp hz
    exact ⟨flags, hflags, rfl⟩
  · refine ⟨.wordOverflow x.integer, ?_, rfl⟩
    rw [hread, Numeral.decode_word_eq_overflow hplain hlow hhigh hzero hword]
    rfl

/-- The largest flags, an integer that is larger by one, and a number that has a fraction, in a
field that is given as an array. -/
theorem read_accessFlags_hostField :
    ∃ whole y z, FlagsIn whole ∧
      Draft.HasGap "[\"f\"," ",[\"native\",\"A\"]]" whole ∧
      hostField.read "[\"f\",0,[\"native\",\"A\"]]" = .ok y ∧
      hostField.read "[\"f\",65535,[\"native\",\"A\"]]" = .ok z ∧
      (∃ e : DataError, hostField.read "[\"f\",65536,[\"native\",\"A\"]]" = .error (.data e) ∧
        e.message = "invalid value: integer `65536`, expected u16") ∧
      ∀ z, hostField.read "[\"f\",1.0,[\"native\",\"A\"]]" ≠ .ok z := by
  let name : Json := .string "f"
  let type : Json := .array [.string "native", .string "A"]
  let whole (d : Draft) : Draft := .array ([Draft.ofJson name] ++ d :: [Draft.ofJson type]) none
  have hwhole : FlagsIn whole := .item ..
  have hgap : Draft.HasGap "[\"f\"," ",[\"native\",\"A\"]]" whole := by
    -- the numeral has the name before it and the type behind it, both written compactly
    intro value d hd
    have hname : name.HasNaturals := trivial
    have htype : type.HasNaturals := by simp [type, Json.HasNaturals, Json.ItemsHaveNaturals]
    have hitems := Draft.ItemsSpelled.cons (.nil _) (Json.spelled_compact hname _).ofJson (.nil _)
      (.cons (.nil _) (hd _) (.nil _)
        (.last (.nil _) (Json.spelled_compact htype [']']).ofJson (.nil _)))
    refine ⟨_, [], .nil _, ?_, .nil []⟩
    have hfront : "[\"f\",".toList = '[' :: (name.compact ++ [',']) := by decide +kernel
    have htail : ",[\"native\",\"A\"]]".toList = ',' :: (type.compact ++ [']']) := by
      decide +kernel
    rw [String.toList_append, String.toList_append, hfront, htail]
    have harray : Draft.Spelled _ (whole d) [] := .array hitems
    simpa using harray
  have hvalid : hostField.read "[\"f\",0,[\"native\",\"A\"]]" =
      .ok ⟨"f", 0, ⟨.native, ⟨"A", none, false, ∅, none, []⟩⟩⟩ :=
    Decoded.eq_ok_of_toOption (by decide +kernel)
  -- each numeral in the place of the zero
  obtain ⟨-, hflags⟩ := read_accessFlags (.inr rfl) hwhole
  have hflags := hflags _ _ hgap _ hvalid
  obtain ⟨hlargest, -, -⟩ := hflags "65535" _ (Numeral.spelled_toDigits 65535 [])
  obtain ⟨-, -, hlarger⟩ := hflags "65536" _ (Numeral.spelled_toDigits 65536 [])
  have hpoint : Numeral.Spelled "1.0".toList ⟨false, ['1'], some ['0'], none⟩ [] :=
    .positive (Numeral.isWhole_toDigits 1)
      (.present ['0'] [] (Numeral.isWhole_toDigits 0).toIsDigits) (.absent [])
  obtain ⟨hfraction, -, -⟩ := hflags "1.0" _ hpoint
  obtain ⟨z, hz⟩ := hlargest.mpr ⟨⟨rfl, rfl⟩, rfl, by decide⟩
  refine ⟨whole, _, z, hwhole, hgap, hvalid, hz, ?_, fun z hz => ?_⟩
  · exact hlarger ⟨rfl, rfl⟩ (by decide) (by decide) (by decide) (by decide)
  · obtain ⟨⟨⟨⟩, -⟩, -⟩ := hfraction.mp ⟨z, hz⟩

end Kind

end Introspect
