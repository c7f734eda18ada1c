import Introspect.Proofs.Json.Grammar

/-!
# Strings and numbers are found

The lexers take from the front of a text exactly what the grammar spells there.

* `StringLiteral.Divided`, `StringLiteral.ofPieces` — a string in pieces, and its value, if it has
  one;
* `StringLiteral.lex_of_spelled` — a string is read as its characters, whichever escapes spell them;
* `Numeral.lex_of_spelled` — a number is found with its sign, whole part, fraction and exponent.

A number has no closing mark, so the second needs to know that the text behind it cannot go on with
the number (`Numeral.Delimited`).
-/

namespace Introspect

/-! ### Strings -/

namespace StringLiteral

/-- A character that needs no escape is a piece of its own. -/
theorem pieces_raw {c : Char} (hmark : c ≠ '"') (hslash : c ≠ '\\') (hcontrol : 0x20 ≤ c.toNat)
    (l : List Char) : pieces (c :: l) = .cons (.char c) (pieces l) := by
  rw [pieces]
  · rw [if_neg (by omega)]
  all_goals simp [hmark, hslash]

/-- A short escape is the piece of its character. -/
theorem pieces_short {e c : Char} (he : shortEscape? e = some c) (l : List Char) :
    pieces ('\\' :: e :: l) = .cons (.char c) (pieces l) := by
  -- `\u` is not a short escape
  have hu : e ≠ 'u' := by
    rintro rfl
    simp [shortEscape?] at he
  rw [pieces]
  · rw [he]
  all_goals simp [hu]

/-- Four digits are a code unit, whether or not it can stand alone. -/
theorem pieces_unit {a b c d : Char} {n : Nat} (hn : Text.hexValue? [a, b, c, d] = some n)
    (l : List Char) :
    pieces ('\\' :: 'u' :: a :: b :: c :: d :: l) = .cons (.unit n) (pieces l) := by
  rw [pieces, hn]

/-- No code unit is both halves of a pair. -/
theorem isLow_of_isHigh {n : Nat} (h : isHigh n = true) : isLow n = false := by
  simp only [isHigh, Bool.and_eq_true, decide_eq_true_eq] at h
  simp only [isLow, Bool.and_eq_false_iff, decide_eq_false_iff_not]
  omega

/-- A unit that belongs to no pair is a character. -/
theorem assemble_unit {n : Nat} (hlow : isLow n = false) (hhigh : isHigh n = false)
    (fault : Option Fault) (ps : List Piece) :
    assemble fault (.unit n :: ps) = (assemble fault ps).map (Char.ofNat n :: ·) := by
  rw [assemble.eq_def]
  simp only [hlow, hhigh, Bool.false_eq_true, if_false]

/-- Two units that belong together are one character. -/
theorem assemble_pair {n m : Nat} (hhigh : isHigh n = true) (hlow : isLow m = true)
    (fault : Option Fault) (ps : List Piece) :
    assemble fault (.unit n :: .unit m :: ps) = (assemble fault ps).map (join n m :: ·) := by
  rw [assemble.eq_def]
  simp only [isLow_of_isHigh hhigh, hhigh, hlow, Bool.false_eq_true, if_false, if_true]

/-- **The inside of a string, in pieces.** Here code units may stand alone. -/
inductive Divided : List Char → List Piece → List Char → Prop
  | nil (r : List Char) : Divided r [] r
  | raw {l r : List Char} {ps : List Piece} (c : Char) (hmark : c ≠ '"') (hslash : c ≠ '\\')
      (hcontrol : 0x20 ≤ c.toNat) : Divided l ps r → Divided (c :: l) (.char c :: ps) r
  | short {l r : List Char} {ps : List Piece} (e c : Char) (he : shortEscape? e = some c) :
      Divided l ps r → Divided ('\\' :: e :: l) (.char c :: ps) r
  | unit {l r : List Char} {ps : List Piece} (a b c d : Char) (n : Nat)
      (hn : Text.hexValue? [a, b, c, d] = some n) :
      Divided l ps r → Divided ('\\' :: 'u' :: a :: b :: c :: d :: l) (.unit n :: ps) r

/-- **The string of its pieces**, which can be skipped even if they do not join. -/
def ofPieces (ps : List Piece) : Lexeme String :=
  match assemble none ps with
  | .ok cs => .sound (String.ofList cs)
  | .error f => .faulty f none

/-- A string that has been divided into pieces is skipped without looking at them. -/
theorem skip_ofPieces (ps : List Piece) : (ofPieces ps).skip = .ok () := by
  rw [ofPieces]
  cases assemble none ps <;> rfl

/-- The pieces of a string stand in front of those of the text behind them. -/
theorem pieces_of_divided {l r : List Char} {ps : List Piece} (h : Divided l ps r) :
    pieces l = ⟨ps ++ (pieces r).pieces, (pieces r).rest⟩ := by
  -- by the division, one piece at a time
  induction h with
  | nil r => rfl
  | raw c hmark hslash hcontrol _ ih =>
    rw [pieces_raw hmark hslash hcontrol, ih]
    rfl
  | short e c he _ ih =>
    rw [pieces_short he, ih]
    rfl
  | unit a b c d n hn _ ih =>
    rw [pieces_unit hn, ih]
    rfl

/-- **A string is found**, whether or not its pieces join. -/
theorem lex_of_divided {l r : List Char} {ps : List Piece} (h : Divided l ps ('"' :: r)) :
    lex l = (ofPieces ps, r) := by
  -- the mark that closes the string is behind all of its pieces
  have hmark : pieces ('"' :: r) = ⟨[], .ok r⟩ := by rw [pieces]
  rw [lex, pieces_of_divided h, hmark, List.append_nil, ofPieces]
  cases assemble none ps <;> rfl

/-- **The pieces of spelled characters** join to these characters, whatever they are joined with. -/
theorem exists_divided_of_spelled {l cs r : List Char} (h : Spelled l cs r) :
    ∃ ps, Divided l ps r ∧
      ∀ fault qs, assemble fault (ps ++ qs) = (assemble fault qs).map (cs ++ ·) := by
  -- characters that are joined in front of others
  have hmap (c : Char) (cs : List Char) (x : Except Fault (List Char)) :
      (x.map (cs ++ ·)).map (c :: ·) = x.map (c :: cs ++ ·) := by
    cases x <;> rfl
  -- by the spelling: each way of writing a character adds the piece that it is written with
  induction h with
  | nil r =>
    refine ⟨[], .nil r, ?_⟩
    intro fault qs
    rw [List.nil_append]
    cases assemble fault qs <;> rfl
  | raw c hmark hslash hcontrol _ ih =>
    obtain ⟨ps, hps, hcs⟩ := ih
    refine ⟨.char c :: ps, .raw c hmark hslash hcontrol hps, ?_⟩
    intro fault qs
    rw [List.cons_append, assemble, hcs, hmap]
  | short e c he _ ih =>
    obtain ⟨ps, hps, hcs⟩ := ih
    refine ⟨.char c :: ps, .short e c he hps, ?_⟩
    intro fault qs
    rw [List.cons_append, assemble, hcs, hmap]
  | unit a b c d n hn hlow hhigh _ ih =>
    -- a unit that is no half of a pair joins to its character
    obtain ⟨ps, hps, hcs⟩ := ih
    refine ⟨.unit n :: ps, .unit a b c d n hn hps, ?_⟩
    intro fault qs
    rw [List.cons_append, assemble_unit hlow hhigh, hcs, hmap]
  | pair a b c d a' b' c' d' n m hn hm hhigh hlow _ ih =>
    -- two units make one character
    obtain ⟨ps, hps, hcs⟩ := ih
    refine ⟨.unit n :: .unit m :: ps,
      .unit a b c d n hn (.unit a' b' c' d' m hm hps), ?_⟩
    intro fault qs
    rw [List.cons_append, List.cons_append, assemble_pair hhigh hlow, hcs, hmap]

/-- **Spelled characters are those of a string.** -/
theorem exists_ofPieces_of_spelled {l cs r : List Char} (h : Spelled l cs r) :
    ∃ ps, Divided l ps r ∧ ofPieces ps = .sound (String.ofList cs) := by
  obtain ⟨ps, hps, hcs⟩ := exists_divided_of_spelled h
  have hassemble : assemble none ps = .ok (cs ++ []) := by
    rw [← List.append_nil ps, hcs, assemble]
    rfl
  refine ⟨ps, hps, ?_⟩
  rw [ofPieces, hassemble, List.append_nil]

/-- **A string is found and read.** -/
theorem lex_of_spelled {l cs r : List Char} (h : Spelled l cs ('"' :: r)) :
    lex l = (.sound (String.ofList cs), r) := by
  obtain ⟨ps, hps, hcs⟩ := exists_ofPieces_of_spelled h
  rw [lex_of_divided hps, hcs]

end StringLiteral

/-! ### Numbers -/

namespace Numeral

/-- **A text that cannot go on with a number.** -/
def Delimited (r : List Char) : Prop :=
  ∀ c ∈ r.head?, c.isDigit = false ∧ c ≠ '.' ∧ c ≠ 'e' ∧ c ≠ 'E'

/-- A text that cannot go on with digits. -/
def NoDigit (r : List Char) : Prop :=
  ∀ c ∈ r.head?, c.isDigit = false

theorem Delimited.noDigit {r : List Char} (h : Delimited r) : NoDigit r :=
  fun c hc => (h c hc).1

theorem IsDigits.head {ds : List Char} (h : IsDigits ds) (r : List Char) :
    ∃ d rest, ds ++ r = d :: rest ∧ d.isDigit = true := by
  cases ds with
  | nil => exact absurd rfl h.ne_nil
  | cons d ds => exact ⟨d, ds ++ r, rfl, h.digit d (by simp)⟩

/-- Digits are taken as far as they go. -/
theorem digits_append {ds r : List Char} (hds : IsDigits ds) (hr : NoDigit r) :
    digits (ds ++ r) = (ds, r) := by
  unfold digits
  rw [List.takeWhile_append_of_pos hds.digit, List.dropWhile_append_of_pos hds.digit]
  cases r with
  | nil => simp
  | cons c r =>
    -- the first character behind the digits stops both
    have hc : ¬ (c.isDigit = true) := by simp [hr c rfl]
    rw [List.takeWhile_cons_of_neg hc, List.dropWhile_cons_of_neg hc, List.append_nil]

/-- A whole part is taken as far as its digits go, and a leading zero has none behind it. -/
theorem lexWhole_append {ds r : List Char} (hds : IsWhole ds) (hr : NoDigit r) :
    lexWhole (ds ++ r) = (.sound ds, r) := by
  unfold lexWhole
  rw [digits_append hds.toIsDigits hr]
  split
  · -- there is a digit, so the text is not without one
    next hnil => exact absurd (congrArg Prod.fst hnil) hds.ne_nil
  · next c cs r' hzero =>
    -- digits behind a leading zero
    have hrest := hds.no_leading_zero _ (congrArg Prod.fst hzero)
    exact absurd hrest (List.cons_ne_nil c cs)
  · next h =>
    injection h with h₁ h₂
    rw [h₁, h₂]

/-- A fraction is found if there is one, and else nothing is taken. -/
theorem lexFraction_of_spelled {l r : List Char} {fraction : Option (List Char)}
    (h : FractionSpelled l fraction r) (hr : NoDigit r) (hpoint : ∀ rest, r ≠ '.' :: rest) :
    lexFraction l = (.sound fraction, r) := by
  cases h with
  | absent =>
    unfold lexFraction
    split
    · -- a point would have to be part of the number
      next cs => exact absurd rfl (hpoint cs)
    · rfl
  | present ds r hds =>
    simp only [lexFraction, digits_append hds hr]
    -- at least one digit stands behind the point
    split
    · next hnil => exact absurd (congrArg Prod.fst hnil) hds.ne_nil
    · next h =>
      injection h with h₁ h₂
      rw [h₁, h₂]

/-- The digits of an exponent are found, and there is at least one. -/
theorem lexExponentDigits_append {ds r : List Char} (negative : Bool) (hds : IsDigits ds)
    (hr : NoDigit r) :
    lexExponentDigits negative (ds ++ r) = (.sound (some (negative, ds)), r) := by
  unfold lexExponentDigits
  rw [digits_append hds hr]
  split
  · next hnil => exact absurd (congrArg Prod.fst hnil) hds.ne_nil
  · next h =>
    injection h with h₁ h₂
    rw [h₁, h₂]

/-- An exponent is found with its sign, and the plus that may stand there is dropped. -/
theorem lexExponent_of_spelled {l r : List Char} {exponent : Option (Bool × List Char)}
    (h : ExponentSpelled l exponent r) (hr : Delimited r) :
    lexExponent l = (.sound exponent, r) := by
  cases h with
  | absent =>
    cases l with
    | nil => rfl
    | cons c l =>
      have hc := hr c rfl
      -- what stands there is no letter of an exponent
      exact if_neg (by simp [hc])
  | unsigned e he ds r hds =>
    -- no sign: the text after the letter starts with a digit
    obtain ⟨d, rest, hd, hdigit⟩ := hds.head r
    have hsign : ∀ c : Char, c = '+' ∨ c = '-' → ∀ cs, ds ++ r ≠ c :: cs := by
      rintro c hc cs hcs
      rw [hd] at hcs
      injection hcs with hdc _
      rw [hdc] at hdigit
      rcases hc with rfl | rfl <;> exact absurd hdigit (by decide)
    rw [lexExponent, if_pos he]
    · exact lexExponentDigits_append false hds hr.noDigit
    · exact fun cs hcs => hsign '+' (.inl rfl) cs hcs
    · exact fun cs hcs => hsign '-' (.inr rfl) cs hcs
  | plus e he ds r hds =>
    -- a sign stands before the digits, and only the minus is kept
    rw [lexExponent, if_pos he]
    exact lexExponentDigits_append false hds hr.noDigit
  | minus e he ds r hds =>
    rw [lexExponent, if_pos he]
    exact lexExponentDigits_append true hds hr.noDigit

/-- What stands where an exponent may stand is no digit and no point. -/
theorem ExponentSpelled.head {l r : List Char} {exponent : Option (Bool × List Char)}
    (h : ExponentSpelled l exponent r) (hr : Delimited r) :
    NoDigit l ∧ ∀ rest, l ≠ '.' :: rest := by
  have hletter : ∀ e : Char, e = 'e' ∨ e = 'E' → e.isDigit = false ∧ e ≠ '.' := by
    rintro e (rfl | rfl) <;> decide
  cases h with
  | absent =>
    refine ⟨hr.noDigit, ?_⟩
    rintro rest rfl
    exact (hr '.' rfl).2.1 rfl
  | unsigned e he ds r hds | plus e he ds r hds | minus e he ds r hds =>
    refine ⟨?_, ?_⟩
    · intro c hc
      obtain rfl : e = c := by simpa using hc
      exact (hletter e he).1
    · intro rest hrest
      injection hrest with hpoint _
      exact (hletter e he).2 hpoint

/-- What stands where a fraction may stand is no digit. -/
theorem FractionSpelled.noDigit {l r : List Char} {fraction : Option (List Char)}
    (h : FractionSpelled l fraction r) (hr : NoDigit r) : NoDigit l := by
  cases h with
  | absent => exact hr
  | present ds r hds =>
    intro c hc
    obtain rfl : '.' = c := by simpa using hc
    rfl

/-- The parts of a number are found one behind the other. -/
theorem lexUnsigned_append {whole l l' r : List Char} {fraction : Option (List Char)}
    {exponent : Option (Bool × List Char)} (negative : Bool) (hwhole : IsWhole whole)
    (hfraction : FractionSpelled l fraction l') (hexponent : ExponentSpelled l' exponent r)
    (hr : Delimited r) :
    lexUnsigned negative (whole ++ l) = (.sound ⟨negative, whole, fraction, exponent⟩, r) := by
  obtain ⟨hdigit, hpoint⟩ := hexponent.head hr
  -- each piece ends where the next may start
  simp only [lexUnsigned, lexWhole_append hwhole (hfraction.noDigit hdigit),
    lexFraction_of_spelled hfraction hdigit hpoint, lexExponent_of_spelled hexponent hr]

/-- **A number is found.** -/
theorem lex_of_spelled {l r : List Char} {x : Numeral} (h : Spelled l x r) (hr : Delimited r) :
    lex l = (.sound x, r) := by
  cases h with
  | positive hwhole hfraction hexponent =>
    rename_i whole l l' fraction exponent
    obtain ⟨d, rest, hd, hdigit⟩ := hwhole.toIsDigits.head l
    unfold lex
    split
    · -- a sign is not a digit
      next cs hminus =>
      rw [hd] at hminus
      injection hminus with hd' _
      rw [hd'] at hdigit
      exact absurd hdigit (by decide)
    · exact lexUnsigned_append false hwhole hfraction hexponent hr
  | negative hwhole hfraction hexponent =>
    -- the sign is taken first, and the rest is as without one
    exact lexUnsigned_append true hwhole hfraction hexponent hr

/-- A number starts with a sign or a digit. -/
theorem Spelled.head {l r : List Char} {x : Numeral} (h : Spelled l x r) :
    ∃ c rest, l = c :: rest ∧ (c = '-' ∨ c.isDigit = true) := by
  cases h with
  | positive hwhole hfraction hexponent =>
    rename_i whole l l' fraction exponent
    obtain ⟨d, rest, hd, hdigit⟩ := hwhole.toIsDigits.head l
    exact ⟨d, rest, hd, .inr hdigit⟩
  | negative hwhole hfraction hexponent => exact ⟨_, _, rfl, .inl rfl⟩

end Numeral

end Introspect
