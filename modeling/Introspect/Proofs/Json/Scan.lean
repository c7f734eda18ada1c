import Introspect.Proofs.Json.WellFormed
import Mathlib.Data.List.DropRight

/-!
# Well-formed texts are scanned in full

The scanner finds every text that is well formed: `Draft.scan_of_denoted` says that the text has the
draft of its value, with nothing but blanks left behind it. Of an object that has only begun it
finds the members that are there (`Draft.scan_of_begun`).

The scanner counts its steps down, the grammar does not. What connects them is the length of the
text: a value of the grammar takes up at least one character (`Draft.Spelled.length_lt`), so twice
the length of what is still to be scanned always covers the steps that are still to be made.
-/

namespace Introspect

namespace Json

/-! ### Lengths -/

/-- Blanks do not make a text longer. -/
theorem Blanks.length_le {l r : List Char} (h : Blanks l r) : r.length ≤ l.length := by
  induction h with
  | nil => exact Nat.le_refl _
  | cons c hc _ ih => exact Nat.le_succ_of_le ih

end Json

/-- The inside of a string does not make a text longer. -/
theorem StringLiteral.Divided.length_le {l r : List Char} {ps : List StringLiteral.Piece}
    (h : StringLiteral.Divided l ps r) : r.length ≤ l.length := by
  induction h with
  | nil => exact Nat.le_refl _
  | raw | short | unit =>
    simp only [List.length_cons]
    omega

namespace Numeral

/-- A fraction does not make a text longer. -/
theorem FractionSpelled.length_le {l r : List Char} {fraction : Option (List Char)}
    (h : FractionSpelled l fraction r) : r.length ≤ l.length := by
  cases h with
  | absent => exact Nat.le_refl _
  | present =>
    simp only [List.length_cons, List.length_append]
    omega

/-- An exponent does not make a text longer. -/
theorem ExponentSpelled.length_le {l r : List Char} {exponent : Option (Bool × List Char)}
    (h : ExponentSpelled l exponent r) : r.length ≤ l.length := by
  cases h with
  | absent => exact Nat.le_refl _
  | unsigned | plus | minus =>
    simp only [List.length_cons, List.length_append]
    omega

/-- A number takes up at least one character, since its whole part has digits. -/
theorem Spelled.length_lt {l r : List Char} {x : Numeral} (h : Spelled l x r) :
    r.length < l.length := by
  cases h with
  | positive hwhole hfraction hexponent | negative hwhole hfraction hexponent =>
    have hpos := List.length_pos_iff.mpr hwhole.ne_nil
    have hf := hfraction.length_le
    have he := hexponent.length_le
    simp only [List.length_cons, List.length_append]
    omega

end Numeral

namespace Draft

mutual

/-- A value takes up at least one character. -/
theorem Spelled.length_lt {l r : List Char} {d : Draft} : Spelled l d r → r.length < l.length
  | .nullWord r | .trueWord r | .falseWord r => by
    simp only [List.length_cons]
    omega
  | .number hx => hx.length_lt
  -- the closing mark is behind the pieces, the opening one in front of them
  | .string hps => by
    have h := hps.length_le
    simp only [List.length_cons] at h ⊢
    omega
  | .emptyArray hl | .emptyObject hl => by
    have h := hl.length_le
    simp only [List.length_cons] at h ⊢
    omega
  | .array hitems => by
    have h := hitems.length_lt
    simp only [List.length_cons] at h ⊢
    omega
  | .object hmembers => by
    have h := hmembers.length_lt
    simp only [List.length_cons] at h ⊢
    omega

/-- Items take up at least one character. -/
theorem ItemsSpelled.length_lt {l r : List Char} {ds : List Draft} :
    ItemsSpelled l ds r → r.length < l.length
  | .last hbefore hd hbehind => by
    have h₁ := hbefore.length_le
    have h₂ := hd.length_lt
    have h₃ := hbehind.length_le
    omega
  | .cons hbefore hd hbehind hds => by
    have h₁ := hbefore.length_le
    have h₂ := hd.length_lt
    have h₃ := hbehind.length_le
    have h₄ := hds.length_lt
    simp only [List.length_cons] at h₃
    omega

/-- A member takes up at least one character. -/
theorem MemberSpelled.length_lt {l r : List Char} {m : Lexeme String × Draft} :
    MemberSpelled l m r → r.length < l.length
  | .mk hbefore hname hcolon hvalue hd hbehind => by
    have h₁ := hbefore.length_le
    have h₂ := hname.length_le
    have h₃ := hcolon.length_le
    have h₄ := hvalue.length_le
    have h₅ := hd.length_lt
    have h₆ := hbehind.length_le
    simp only [List.length_cons] at h₁ h₂ h₃
    omega

/-- Members take up at least one character. -/
theorem MembersSpelled.length_lt {l r : List Char} {ms : List (Lexeme String × Draft)} :
    MembersSpelled l ms r → r.length < l.length
  | .last hm => hm.length_lt
  | .cons hm hms => by
    have h₁ := hm.length_lt
    have h₂ := hms.length_lt
    simp only [List.length_cons] at h₁
    omega

end

end Draft

namespace Json

/-! ### Blanks and first characters -/

/-- The scanner drops all the blanks of the grammar. -/
theorem Blanks.dropBlanks_eq {l r : List Char} (h : Blanks l r) : dropBlanks l = dropBlanks r := by
  induction h with
  | nil => rfl
  | cons c hc _ ih =>
    rw [← ih]
    exact List.dropWhile_cons_of_pos hc

/-- What does not start with a blank is left as it is. -/
theorem dropBlanks_cons {c : Char} (hc : isBlank c = false) (r : List Char) :
    dropBlanks (c :: r) = c :: r :=
  List.dropWhile_cons_of_neg (by simp [hc])

/-- Behind its blanks a text has no more of them. -/
theorem dropBlanks_dropBlanks (l : List Char) : dropBlanks (dropBlanks l) = dropBlanks l :=
  List.dropWhile_idempotent isBlank l

/-- Behind blanks a text goes on with what stands behind them. -/
theorem Blanks.dropBlanks_cons {l r : List Char} {c : Char} (h : Blanks l (c :: r))
    (hc : isBlank c = false) : dropBlanks l = c :: r :=
  h.dropBlanks_eq.trans (Json.dropBlanks_cons hc r)

/-- A text that goes on with blanks, or ends, does not go on with a number. -/
theorem Blanks.delimited {l r : List Char} (h : Blanks l r) (hr : Numeral.Delimited r) :
    Numeral.Delimited l := by
  cases h with
  | nil => exact hr
  | cons c hc _ =>
    intro d hd
    obtain rfl : c = d := by simpa using hd
    -- the four blanks, none of which can stand in a number
    simp only [isBlank, Bool.or_eq_true, beq_iff_eq] at hc
    rcases hc with ((rfl | rfl) | rfl) | rfl <;> decide

/-- What stands behind a value in an array or object is no part of a number. -/
theorem delimited_cons {c : Char} (hc : c = ',' ∨ c = ']' ∨ c = '}') (r : List Char) :
    Numeral.Delimited (c :: r) := by
  intro d hd
  obtain rfl : c = d := by simpa using hd
  rcases hc with rfl | rfl | rfl <;> decide

/-- The end of a text is no part of a number either. -/
theorem delimited_nil : Numeral.Delimited [] := by
  simp [Numeral.Delimited]

/-- A number does not start with a blank. -/
theorem isBlank_eq_false_of_numeral {c : Char} (hc : c = '-' ∨ c.isDigit = true) :
    isBlank c = false := by
  cases hblank : isBlank c with
  | false => rfl
  | true =>
    simp only [isBlank, Bool.or_eq_true, beq_iff_eq] at hblank
    -- none of the four blanks is a minus or a digit
    rcases hblank with ((rfl | rfl) | rfl) | rfl <;>
      exact absurd hc (by decide)

end Json

namespace Draft

open Json

/-- A value starts with a character that is neither a blank nor a closing bracket. -/
theorem Spelled.head {l r : List Char} {d : Draft} (h : Spelled l d r) :
    ∃ c rest, l = c :: rest ∧ isBlank c = false ∧ c ≠ ']' := by
  cases h with
  -- the opening characters of these are known
  | nullWord | trueWord | falseWord | string | emptyArray | array | emptyObject | object =>
    exact ⟨_, _, rfl, by decide, by decide⟩
  | number hx =>
    -- a number starts with a minus or a digit
    obtain ⟨c, rest, rfl, hc⟩ := hx.head
    refine ⟨c, rest, rfl, isBlank_eq_false_of_numeral hc, ?_⟩
    rintro rfl
    exact absurd hc (by decide)

/-- A value has no blanks in front of it. -/
theorem Spelled.dropBlanks_eq {l r : List Char} {d : Draft} (h : Spelled l d r) :
    dropBlanks l = l := by
  obtain ⟨c, rest, rfl, hc, -⟩ := h.head
  exact dropBlanks_cons hc rest

/-- What stands inside an array that has items does not start with its closing bracket. -/
theorem ItemsSpelled.head {l r : List Char} {ds : List Draft} (h : ItemsSpelled l ds r) :
    ∀ rest, dropBlanks l ≠ ']' :: rest := by
  -- in both cases there is a first item
  have key : ∀ {l l₁ l₂ : List Char} {d : Draft}, Blanks l l₁ → Spelled l₁ d l₂ →
      ∀ rest, dropBlanks l ≠ ']' :: rest := by
    intro l l₁ l₂ d hbefore hd rest hrest
    obtain ⟨c, rest', rfl, hc, hclose⟩ := hd.head
    rw [hbefore.dropBlanks_cons hc] at hrest
    injection hrest with hcc _
    exact hclose hcc
  cases h with
  | last hbefore hd _ => exact key hbefore hd
  | cons hbefore hd _ _ => exact key hbefore hd

/-- A member starts with its name. -/
theorem MemberSpelled.head {l r : List Char} {m : Lexeme String × Draft}
    (h : MemberSpelled l m r) : ∃ rest, dropBlanks l = '"' :: rest := by
  cases h with
  | mk hbefore => exact ⟨_, hbefore.dropBlanks_cons rfl⟩

/-- What stands inside an object that has members starts with a name. -/
theorem MembersSpelled.head {l r : List Char} {ms : List (Lexeme String × Draft)}
    (h : MembersSpelled l ms r) : ∃ rest, dropBlanks l = '"' :: rest := by
  cases h with
  | last hm => exact hm.head
  | cons hm _ => exact hm.head

end Draft

/-! ### Scanning -/

namespace Draft

open Json

/-! What the scanner does at each character that it may meet. -/

/-- At any character that opens neither an array nor an object the scanner reads a scalar. -/
theorem scanValue_scalar {c : Char} {text l : List Char} (fuel : Nat)
    (htext : dropBlanks text = c :: l) (harray : c ≠ '[') (hobject : c ≠ '{') :
    scanValue (fuel + 1) text = scanScalar c l := by
  rw [scanValue, htext]
  split
  -- of the four branches only the last one fits the character
  · next hnil => exact absurd hnil (List.cons_ne_nil _ _)
  · next hcons =>
    injection hcons with hc _
    exact absurd hc harray
  · next hcons =>
    injection hcons with hc _
    exact absurd hc hobject
  · next hcons =>
    injection hcons with hc hl
    rw [hc, hl]

/-- Brackets with blanks between them are the empty array. -/
theorem scanValue_emptyArray {text l r : List Char} (fuel : Nat)
    (htext : dropBlanks text = '[' :: l) (hl : dropBlanks l = ']' :: r) :
    scanValue (fuel + 1) text = (.array [] none, r) := by
  rw [scanValue, htext]
  simp only [hl]

/-- Behind an opening bracket the scanner reads items, unless the array is closed at once. -/
theorem scanValue_array {text l r : List Char} {fuel : Nat} {items : List Draft}
    {ending : Option Fault} (htext : dropBlanks text = '[' :: l)
    (hl : ∀ rest, dropBlanks l ≠ ']' :: rest)
    (hitems : scanItems fuel (dropBlanks l) = ((items, ending), r)) :
    scanValue (fuel + 1) text = (.array items ending, r) := by
  rw [scanValue, htext]
  simp only [hitems]

/-- Braces with blanks between them are the empty object. -/
theorem scanValue_emptyObject {text l r : List Char} (fuel : Nat)
    (htext : dropBlanks text = '{' :: l) (hl : dropBlanks l = '}' :: r) :
    scanValue (fuel + 1) text = (.object [] none, r) := by
  rw [scanValue, htext]
  simp only [hl]

/-- Behind an opening brace the scanner reads members, unless the object is closed at once. -/
theorem scanValue_object {text l r : List Char} {fuel : Nat}
    {members : List (Lexeme String × Draft)} {ending : Option Fault}
    (htext : dropBlanks text = '{' :: l) (hl : ∀ rest, dropBlanks l ≠ '}' :: rest)
    (hmembers : scanMembers fuel (dropBlanks l) = ((members, ending), r)) :
    scanValue (fuel + 1) text = (.object members ending, r) := by
  rw [scanValue, htext]
  simp only [hmembers]

/-- An item with a closing bracket behind it is the last one. -/
theorem scanItems_last {text l r : List Char} {fuel : Nat} {d : Draft}
    (hvalue : scanValue fuel text = (d, l)) (hl : dropBlanks l = ']' :: r) :
    scanItems (fuel + 1) text = (([d], none), r) := by
  rw [scanItems, hvalue]
  simp only [hl]

/-- An item with a comma behind it has more items behind the comma. -/
theorem scanItems_cons {text l l' r : List Char} {fuel : Nat} {d : Draft} {ds : List Draft}
    {ending : Option Fault} (hvalue : scanValue fuel text = (d, l))
    (hl : dropBlanks l = ',' :: l') (hitems : scanItems fuel l' = ((ds, ending), r)) :
    scanItems (fuel + 1) text = ((d :: ds, ending), r) := by
  rw [scanItems, hvalue]
  simp only [hl, hitems]

/-- A member with a closing brace behind it is the last one. -/
theorem scanMembers_last {text l₁ l₂ l₃ l₄ r : List Char} {fuel : Nat} {name : Lexeme String}
    {d : Draft} (htext : dropBlanks text = '"' :: l₁) (hname : StringLiteral.lex l₁ = (name, l₂))
    (hcolon : dropBlanks l₂ = ':' :: l₃) (hvalue : scanValue fuel l₃ = (d, l₄))
    (hl : dropBlanks l₄ = '}' :: r) :
    scanMembers (fuel + 1) text = (([(name, d)], none), r) := by
  rw [scanMembers, htext]
  simp only [hname, hcolon, hvalue, hl]

/-- A member with a comma behind it has more members behind the comma. -/
theorem scanMembers_cons {text l₁ l₂ l₃ l₄ l₅ r : List Char} {fuel : Nat} {name : Lexeme String}
    {d : Draft} {members : List (Lexeme String × Draft)} {ending : Option Fault}
    (htext : dropBlanks text = '"' :: l₁) (hname : StringLiteral.lex l₁ = (name, l₂))
    (hcolon : dropBlanks l₂ = ':' :: l₃) (hvalue : scanValue fuel l₃ = (d, l₄))
    (hl : dropBlanks l₄ = ',' :: l₅) (hmembers : scanMembers fuel l₅ = ((members, ending), r)) :
    scanMembers (fuel + 1) text = (((name, d) :: members, ending), r) := by
  rw [scanMembers, htext]
  simp only [hname, hcolon, hvalue, hl, hmembers]

/-- A numeral is scanned in full if the text does not go on with it. -/
theorem scanScalar_of_numeral {c : Char} {cs r : List Char} {x : Numeral}
    (hx : x.Spelled (c :: cs) r) (hr : Numeral.Delimited r) :
    scanScalar c cs = (.leaf x.lexeme, r) := by
  have hc : c = '-' ∨ c.isDigit = true := by
    obtain ⟨d, rest, hd, hdigit⟩ := hx.head
    injection hd with hcd _
    rwa [hcd]
  unfold scanScalar
  split
  -- a number starts with none of the characters that other scalars start with
  · exact absurd hc (by decide)
  · exact absurd hc (by decide)
  · exact absurd hc (by decide)
  · exact absurd hc (by decide)
  · rw [if_pos hc, scanNumber, Numeral.lex_of_spelled hx hr, Numeral.lexeme]
    cases hn : x.number? <;> simp only [hn]

/-! The grammar drives the scanner: one case for each of its rules. -/

mutual

/-- **A value is found**, behind whatever blanks. -/
theorem scanValue_of_spelled {l r : List Char} {d : Draft} :
    Spelled l d r → ∀ (fuel : Nat) {text : List Char}, dropBlanks text = l →
      2 * l.length + 1 ≤ fuel → Numeral.Delimited r → scanValue fuel text = (d, r)
  | .nullWord r, fuel + 1, text, htext, _, _ =>
    scanValue_scalar fuel htext (by decide) (by decide)
  | .trueWord r, fuel + 1, text, htext, _, _ =>
    scanValue_scalar fuel htext (by decide) (by decide)
  | .falseWord r, fuel + 1, text, htext, _, _ =>
    scanValue_scalar fuel htext (by decide) (by decide)
  | .number hx, fuel + 1, text, htext, _, hr => by
    -- the first character decides which branch of the scanner is taken
    obtain ⟨c, rest, rfl, hc⟩ := hx.head
    rw [scanValue_scalar fuel htext, scanScalar_of_numeral hx hr]
    -- what is left: the first character opens neither an array nor an object
    · rintro rfl
      exact absurd hc (by decide)
    · rintro rfl
      exact absurd hc (by decide)
  | .string hps, fuel + 1, text, htext, _, _ => by
    rw [scanValue_scalar fuel htext (by decide) (by decide)]
    simp only [scanScalar, scanString, StringLiteral.lex_of_divided hps]
  | .emptyArray hl, fuel + 1, text, htext, _, _ =>
    scanValue_emptyArray fuel htext (hl.dropBlanks_cons rfl)
  | .array hitems, fuel + 1, text, htext, hfuel, _ => by
    simp only [List.length_cons] at hfuel
    -- the items are inside the brackets, so the text is shorter by one character for one step
    have hinside := scanItems_of_spelled hitems fuel (dropBlanks_dropBlanks _) (by omega)
    exact scanValue_array htext hitems.head hinside
  | .emptyObject hl, fuel + 1, text, htext, _, _ =>
    scanValue_emptyObject fuel htext (hl.dropBlanks_cons rfl)
  | .object hmembers, fuel + 1, text, htext, hfuel, _ => by
    simp only [List.length_cons] at hfuel
    have hinside := scanMembers_of_spelled hmembers fuel (dropBlanks_dropBlanks _) (by omega)
    refine scanValue_object htext (fun rest hclose => ?_) hinside
    -- a name stands where the closing brace would be
    obtain ⟨rest', hmark⟩ := hmembers.head
    rw [hmark] at hclose
    injection hclose with hc _
    exact absurd hc (by decide)

/-- **The items of an array are found**, and its closing bracket. -/
theorem scanItems_of_spelled {l r : List Char} {ds : List Draft} :
    ItemsSpelled l ds (']' :: r) → ∀ (fuel : Nat) {text : List Char},
      dropBlanks text = dropBlanks l → 2 * l.length + 2 ≤ fuel →
      scanItems fuel text = ((ds, none), r)
  | .last hbefore hd hbehind, fuel + 1, text, htext, hfuel => by
    -- one step goes to the item, as no comma follows
    have hlength := hbefore.length_le
    -- the blanks in front are dropped by the scanner, not here
    have hstart := (htext.trans hbefore.dropBlanks_eq).trans hd.dropBlanks_eq
    have hvalue := scanValue_of_spelled hd fuel hstart (by omega)
      (hbehind.delimited (delimited_cons (by decide) r))
    exact scanItems_last hvalue (hbehind.dropBlanks_cons rfl)
  | .cons hbefore hd hbehind hds, fuel + 1, text, htext, hfuel => by
    have hlength := hbefore.length_le
    have hlength' := hd.length_lt
    have hlength'' := hbehind.length_le
    simp only [List.length_cons] at hlength''
    -- the value and the comma behind it leave a shorter text for the other items
    have hstart := (htext.trans hbefore.dropBlanks_eq).trans hd.dropBlanks_eq
    have hvalue := scanValue_of_spelled hd fuel hstart (by omega)
      (hbehind.delimited (delimited_cons (by decide) _))
    have hitems := scanItems_of_spelled hds fuel rfl (by omega)
    exact scanItems_cons hvalue (hbehind.dropBlanks_cons rfl) hitems

/-- **A member is found**: its name, its colon and its value, with what stands behind the value. -/
theorem scanMember_of_spelled {l r : List Char} {m : Lexeme String × Draft} :
    MemberSpelled l m r → Numeral.Delimited r → ∀ (fuel : Nat) {text : List Char},
      dropBlanks text = dropBlanks l → 2 * l.length + 1 ≤ fuel →
      ∃ l₁ l₂ l₃ l₄, dropBlanks text = '"' :: l₁ ∧ StringLiteral.lex l₁ = (m.1, l₂) ∧
        dropBlanks l₂ = ':' :: l₃ ∧ scanValue fuel l₃ = (m.2, l₄) ∧ dropBlanks l₄ = dropBlanks r
  | .mk hbefore hname hcolon hvalue hd hbehind, hr, fuel, text, htext, hfuel => by
    have h₁ := hbefore.length_le
    have h₂ := hname.length_le
    have h₃ := hcolon.length_le
    have h₄ := hvalue.length_le
    simp only [List.length_cons] at h₁ h₂ h₃
    have hstart := hvalue.dropBlanks_eq.trans hd.dropBlanks_eq
    have hscan := scanValue_of_spelled hd fuel hstart (by omega) (hbehind.delimited hr)
    exact ⟨_, _, _, _, htext.trans (hbefore.dropBlanks_cons rfl),
      StringLiteral.lex_of_divided hname, hcolon.dropBlanks_cons rfl, hscan,
      hbehind.dropBlanks_eq⟩

/-- **The members of an object are found**, and its closing brace. -/
theorem scanMembers_of_spelled {l r : List Char} {ms : List (Lexeme String × Draft)} :
    MembersSpelled l ms ('}' :: r) → ∀ (fuel : Nat) {text : List Char},
      dropBlanks text = dropBlanks l → 2 * l.length + 2 ≤ fuel →
      scanMembers fuel text = ((ms, none), r)
  | .last hm, fuel + 1, text, htext, hfuel => by
    -- what follows a last member is the brace, which delimits a number at its end
    obtain ⟨l₁, l₂, l₃, l₄, hstart, hname, hcolon, hvalue, hend⟩ :=
      scanMember_of_spelled hm (delimited_cons (by decide) r) fuel htext (by omega)
    exact scanMembers_last hstart hname hcolon hvalue (hend.trans (dropBlanks_cons rfl r))
  | .cons hm hms, fuel + 1, text, htext, hfuel => by
    have hlength := hm.length_lt
    simp only [List.length_cons] at hlength
    obtain ⟨l₁, l₂, l₃, l₄, hstart, hname, hcolon, hvalue, hend⟩ :=
      scanMember_of_spelled hm (delimited_cons (by decide) _) fuel htext (by omega)
    -- the other members have a shorter text, and with it enough steps
    have hmembers := scanMembers_of_spelled hms fuel rfl (by omega)
    exact scanMembers_cons hstart hname hcolon hvalue (hend.trans (dropBlanks_cons rfl _)) hmembers

end

/-- **A well-formed text is scanned in full.** Nothing but blanks is left behind its value. -/
theorem scan_of_denoted {text : String} {d : Draft} (h : Denoted text d) :
    ∃ r, scan text.toList = (d, r) ∧ atEnd r = .ok () := by
  obtain ⟨l, r, hbefore, hd, hbehind⟩ := h
  refine ⟨r, ?_, ?_⟩
  · -- twice the length of the text was the number of steps the scanner started with
    have hlength := hbefore.length_le
    unfold scan
    exact scanValue_of_spelled hd _ (hbefore.dropBlanks_eq.trans hd.dropBlanks_eq) (by omega)
      (hbehind.delimited delimited_nil)
  · -- nothing but blanks is left, which the end of the text allows
    unfold atEnd
    rw [hbehind.dropBlanks_eq]
    rfl

/-! Of an object that has only begun, the members that are there are found. -/

/-- What the scanner finds behind a member does not change the member. -/
theorem exists_scanMembers {text l₁ l₂ l₃ l₄ : List Char} (fuel : Nat) {m : Lexeme String × Draft}
    (htext : dropBlanks text = '"' :: l₁) (hname : StringLiteral.lex l₁ = (m.1, l₂))
    (hcolon : dropBlanks l₂ = ':' :: l₃) (hvalue : scanValue fuel l₃ = (m.2, l₄)) :
    ∃ behind ending r, scanMembers (fuel + 1) text = ((m :: behind, ending), r) := by
  rw [scanMembers, htext]
  simp only [hname, hcolon, hvalue]
  split <;> exact ⟨_, _, _, rfl⟩

/-- The members that an object has begun with are found before the one that follows them. -/
theorem scanMembers_of_begin {l l' rest : List Char} {before : List (Lexeme String × Draft)}
    {m : Lexeme String × Draft} (hbefore : MembersBegin l before l')
    (hm : MemberSpelled l' m rest) (hrest : Numeral.Delimited rest) (fuel : Nat)
    {text : List Char} (htext : dropBlanks text = dropBlanks l) (hfuel : 2 * l.length + 2 ≤ fuel) :
    ∃ behind ending r, scanMembers fuel text = ((before ++ m :: behind, ending), r) := by
  -- the steps are written as those that the text needs and some more, for the induction
  obtain ⟨fuel, rfl⟩ := Nat.exists_eq_add_of_le' hfuel
  induction hbefore generalizing text fuel with
  -- the member itself is reached, and what the scanner finds behind it does not matter
  | nil l =>
    obtain ⟨l₁, l₂, l₃, l₄, hstart, hname, hcolon, hvalue, -⟩ :=
      scanMember_of_spelled hm hrest (fuel + (2 * l.length + 1)) htext (by omega)
    exact exists_scanMembers _ hstart hname hcolon hvalue
  | @cons l l₁ _ _ _ hfirst _ ih =>
    have hlength := hfirst.length_lt
    simp only [List.length_cons] at hlength
    obtain ⟨_, _, _, _, hstart, hname, hcolon, hvalue, hend⟩ :=
      scanMember_of_spelled hfirst (delimited_cons (by decide) _)
        (fuel + (2 * l.length + 1)) htext (by omega)
    -- the comma leaves a shorter text for the members behind it
    obtain ⟨steps, hsteps⟩ : ∃ steps, fuel + (2 * l.length + 1) = steps + (2 * l₁.length + 2) :=
      Nat.exists_eq_add_of_le' (by omega)
    obtain ⟨behind, ending, r, hscan⟩ := ih hm rfl steps (by omega)
    rw [← hsteps] at hscan
    exact ⟨behind, ending, r, scanMembers_cons hstart hname hcolon hvalue
      (hend.trans (dropBlanks_cons rfl _)) hscan⟩

/-- What stands first in an object that has begun is a name. -/
theorem MembersBegin.head {l l' rest : List Char} {before : List (Lexeme String × Draft)}
    {m : Lexeme String × Draft} (hbefore : MembersBegin l before l')
    (hm : MemberSpelled l' m rest) : ∃ rest, dropBlanks l = '"' :: rest := by
  cases hbefore with
  | nil => exact hm.head
  | cons hfirst => exact hfirst.head

/-- **Of an object that has begun its members are found**, whatever follows them. -/
theorem scan_of_begun {text rest : List Char} {before : List (Lexeme String × Draft)}
    {m : Lexeme String × Draft} (h : Begun text before m rest) (hrest : Numeral.Delimited rest) :
    ∃ behind ending r, scan text = (.object (before ++ m :: behind) ending, r) := by
  obtain ⟨l₁, l₂, hstart, hbefore, hm⟩ := h
  -- the opening brace pays for the step that goes inside
  have hlength := hstart.length_le
  simp only [List.length_cons] at hlength
  obtain ⟨behind, ending, r, hscan⟩ := scanMembers_of_begin hbefore hm hrest
    (2 * text.length + 1) (dropBlanks_dropBlanks l₁) (by omega)
  refine ⟨behind, ending, r, scanValue_object (hstart.dropBlanks_cons rfl) ?_ hscan⟩
  -- a name stands where the closing brace would be
  intro rest hclose
  obtain ⟨rest', hmark⟩ := MembersBegin.head hbefore hm
  rw [hmark] at hclose
  injection hclose with hc _
  exact absurd hc (by decide)

end Draft

end Introspect
