import Introspect.Proofs.Json.Tree
import Introspect.Proofs.Json.WellFormed

/-!
# What is passed over is well formed

The scanner takes everything for a draft, and leaves it to others to find out what is wrong with it.
The converse of `Draft.scan_of_denoted`: where a draft can be passed over, the text is well formed
and the draft is that of its value. So the grammar leaves out no text that a decoder accepts.

* `StringLiteral.divided_of_pieces`, `Numeral.spelled_of_lex` — strings and numbers;
* `Draft.FindsSpelled`, `Draft.findsSpelled` — values, items and members, by induction on the steps
  of the scanner;
* `Draft.denoted_of_skip` — whole texts.
-/

namespace Introspect

open Json (Blanks dropBlanks)

/-! ### Blanks -/

/-- The blanks that are dropped are blanks. -/
theorem Json.blanks_dropBlanks (l : List Char) : Blanks l (dropBlanks l) := by
  induction l with
  | nil => exact .nil []
  | cons c l ih =>
    by_cases hc : isBlank c = true
    · -- the first character is dropped with those behind it
      rw [dropBlanks, List.dropWhile_cons_of_pos hc]
      exact .cons c hc ih
    · -- nothing is dropped
      rw [dropBlanks, List.dropWhile_cons_of_neg hc]
      exact .nil _

/-- Blanks may stand behind blanks. -/
theorem Json.Blanks.trans {l l' r : List Char} (h : Blanks l l') (h' : Blanks l' r) :
    Blanks l r := by
  induction h with
  | nil => exact h'
  | cons c hc _ ih => exact .cons c hc (ih h')

/-! ### Strings -/

namespace StringLiteral

/-- What is left when the first piece of a string is taken away ends as the whole string does. -/
theorem Body.cons_eq {p : Piece} {b : Body} {ps : List Piece} {x : Except Fault (List Char)}
    (h : Body.cons p b = ⟨ps, x⟩) : ∃ qs, ps = p :: qs ∧ b = ⟨qs, x⟩ := by
  obtain ⟨qs, y⟩ := b
  cases h
  exact ⟨qs, rfl, rfl⟩

/-- **The pieces of a string that is closed** are those of the grammar. -/
theorem divided_of_pieces {l r : List Char} {ps : List Piece} (h : pieces l = ⟨ps, .ok r⟩) :
    Divided l ps ('"' :: r) := by
  -- one case for each way in which the string may go on; the order is that of the scanner
  fun_induction pieces l generalizing ps with
  | case2 rest =>
    cases h
    exact .nil _
  | case4 a b c d rest n hn ih =>
    obtain ⟨qs, rfl, hqs⟩ := Body.cons_eq h
    exact .unit a b c d n hn (ih hqs)
  | case7 e rest _ _ c he ih =>
    obtain ⟨qs, rfl, hqs⟩ := Body.cons_eq h
    exact .short e c he (ih hqs)
  | case10 c rest hmark hlast _ _ hescape hcontrol ih =>
    obtain ⟨qs, rfl, hqs⟩ := Body.cons_eq h
    -- a backslash stands before nothing, or before an escape
    have hslash : c ≠ '\\' := by
      rintro rfl
      cases rest with
      | nil => exact hlast rfl rfl
      | cons e rest => exact hescape e rest rfl rfl
    exact .raw c hmark hslash (Nat.le_of_not_lt hcontrol) (ih hqs)
  -- everywhere else the string stops before its closing mark
  | _ => cases h

/-- **A string that can be skipped** is one in pieces. -/
theorem exists_divided_of_lex {l r : List Char} {x : Lexeme String} (h : lex l = (x, r))
    (hskip : x.skip = .ok ()) : ∃ ps, Divided l ps ('"' :: r) ∧ x = ofPieces ps := by
  unfold lex at h
  cases hrest : (pieces l).rest with
  | ok rest =>
    have hps := divided_of_pieces (show pieces l = ⟨(pieces l).pieces, .ok rest⟩ by rw [← hrest])
    simp only [hrest] at h
    cases hcs : assemble none (pieces l).pieces with
    | ok cs =>
      rw [hcs] at h
      cases h
      exact ⟨_, hps, by rw [ofPieces, hcs]⟩
    | error f =>
      rw [hcs] at h
      cases h
      exact ⟨_, hps, by rw [ofPieces, hcs]⟩
  | error f =>
    -- a string that is not closed cannot be skipped
    simp only [hrest] at h
    cases hcs : assemble (some f) (pieces l).pieces with
    | ok cs =>
      rw [hcs] at h
      cases h
      cases hskip
    | error g =>
      rw [hcs] at h
      cases h
      cases hskip

end StringLiteral

/-! ### Numbers -/

namespace Numeral

/-- Digits are taken from the front of a text, and all of them are digits. -/
theorem digits_eq {cs ds rest : List Char} (h : digits cs = (ds, rest)) :
    cs = ds ++ rest ∧ ∀ c ∈ ds, c.isDigit = true := by
  cases h
  exact ⟨(List.takeWhile_append_dropWhile ..).symm, List.all_eq_true.mp List.all_takeWhile⟩

/-- A whole part that is found is spelled there, and has no needless zero in front. -/
theorem isWhole_of_lexWhole {cs ds rest : List Char} (h : lexWhole cs = (.sound ds, rest)) :
    cs = ds ++ rest ∧ IsWhole ds := by
  unfold lexWhole at h
  split at h
  · next rest' _ => cases rest' <;> cases h
  · cases h
  · next ds' rest' hnil hzero hdigits =>
    cases h
    obtain ⟨hcs, hdigit⟩ := digits_eq hdigits
    refine ⟨hcs, ⟨hnil, hdigit⟩, ?_⟩
    -- the scanner has met a zero: a digit behind it would have been refused
    intro tail hds
    cases tail with
    | nil => rfl
    | cons d tail => exact (hzero d tail hds).elim

/-- A fraction that is found, or is not there, is spelled so. -/
theorem fractionSpelled_of_lex {cs rest : List Char} {fraction : Option (List Char)}
    (h : lexFraction cs = (.sound fraction, rest)) : FractionSpelled cs fraction rest := by
  unfold lexFraction at h
  split at h
  · -- behind a point there must be digits
    split at h
    · next rest' _ => cases rest' <;> cases h
    · next ds rest' hnil hdigits =>
      cases h
      obtain ⟨rfl, hdigit⟩ := digits_eq hdigits
      exact .present ds rest ⟨hnil, hdigit⟩
  · -- without a point there is no fraction
    cases h
    exact .absent _

/-- The digits of an exponent that is found behind its sign. -/
theorem exponentDigits_of_lex {negative : Bool} {cs rest : List Char}
    {exponent : Option (Bool × List Char)}
    (h : lexExponentDigits negative cs = (.sound exponent, rest)) :
    ∃ ds, IsDigits ds ∧ cs = ds ++ rest ∧ exponent = some (negative, ds) := by
  unfold lexExponentDigits at h
  split at h
  · next rest' _ => cases rest' <;> cases h
  · next ds rest' hnil hdigits =>
    cases h
    obtain ⟨hcs, hdigit⟩ := digits_eq hdigits
    exact ⟨ds, ⟨hnil, hdigit⟩, hcs, rfl⟩

/-- An exponent that is found, or is not there, is spelled so. -/
theorem exponentSpelled_of_lex {cs rest : List Char} {exponent : Option (Bool × List Char)}
    (h : lexExponent cs = (.sound exponent, rest)) : ExponentSpelled cs exponent rest := by
  unfold lexExponent at h
  split at h
  · next c cs' =>
    split at h
    · next he =>
      -- the digits may have a plus, a minus or no sign before them
      split at h
      · obtain ⟨ds, hds, rfl, rfl⟩ := exponentDigits_of_lex h
        exact .plus c he ds rest hds
      · obtain ⟨ds, hds, rfl, rfl⟩ := exponentDigits_of_lex h
        exact .minus c he ds rest hds
      · obtain ⟨ds, hds, rfl, rfl⟩ := exponentDigits_of_lex h
        exact .unsigned c he ds rest hds
    · -- the character is not the mark of an exponent
      cases h
      exact .absent _
  · -- the text has ended
    cases h
    exact .absent _

/-- The parts of a number that is found behind its sign. -/
theorem exists_parts_of_lexUnsigned {negative : Bool} {cs rest : List Char} {x : Numeral}
    (h : lexUnsigned negative cs = (.sound x, rest)) :
    ∃ l l', cs = x.whole ++ l ∧ IsWhole x.whole ∧ FractionSpelled l x.fraction l' ∧
      ExponentSpelled l' x.exponent rest ∧ x.negative = negative := by
  unfold lexUnsigned at h
  split at h
  · cases h
  -- the whole part, the fraction and the exponent, each scanned where the last one ended
  · next whole l hwhole =>
    split at h
    · cases h
    · next fraction l' hfraction =>
      split at h
      · cases h
      · next exponent l'' hexponent =>
        cases h
        obtain ⟨hcs, hwhole⟩ := isWhole_of_lexWhole hwhole
        exact ⟨l, l', hcs, hwhole, fractionSpelled_of_lex hfraction,
          exponentSpelled_of_lex hexponent, rfl⟩

/-- **A number that is found** is spelled there. -/
theorem spelled_of_lex {cs rest : List Char} {x : Numeral} (h : lex cs = (.sound x, rest)) :
    Spelled cs x rest := by
  unfold lex at h
  split at h
  · -- behind a minus the number is negative
    obtain ⟨l, l', rfl, hwhole, hfraction, hexponent, hsign⟩ := exists_parts_of_lexUnsigned h
    obtain ⟨negative, whole, fraction, exponent⟩ := x
    cases hsign
    exact .negative hwhole hfraction hexponent
  · -- without a minus it is not
    obtain ⟨l, l', rfl, hwhole, hfraction, hexponent, hsign⟩ := exists_parts_of_lexUnsigned h
    obtain ⟨negative, whole, fraction, exponent⟩ := x
    cases hsign
    exact .positive hwhole hfraction hexponent

/-! What is at fault in a number is at fault for who skips it too, part by part. -/

/-- A whole part that is at fault cannot be skipped. -/
theorem lexWhole_ne {cs rest : List Char} {r : Fault} : lexWhole cs ≠ (.faulty r none, rest) := by
  intro h
  unfold lexWhole at h
  split at h
  · next rest' _ => cases rest' <;> cases h
  · cases h
  · cases h

/-- A fraction that is at fault cannot be skipped. -/
theorem lexFraction_ne {cs rest : List Char} {r : Fault} :
    lexFraction cs ≠ (.faulty r none, rest) := by
  intro h
  unfold lexFraction at h
  split at h
  · split at h
    · next rest' _ => cases rest' <;> cases h
    · cases h
  · cases h

/-- An exponent without digits cannot be skipped. -/
theorem lexExponentDigits_ne {negative : Bool} {cs rest : List Char} {r : Fault} :
    lexExponentDigits negative cs ≠ (.faulty r none, rest) := by
  intro h
  unfold lexExponentDigits at h
  split at h
  · next rest' _ => cases rest' <;> cases h
  · cases h

/-- An exponent that is at fault cannot be skipped. -/
theorem lexExponent_ne {cs rest : List Char} {r : Fault} :
    lexExponent cs ≠ (.faulty r none, rest) := by
  intro h
  unfold lexExponent at h
  split at h
  · split at h
    · split at h <;> exact lexExponentDigits_ne h
    · cases h
  · cases h

/-- What is at fault behind the sign of a number cannot be skipped, whichever part it is. -/
theorem lexUnsigned_ne {negative : Bool} {cs rest : List Char} {r : Fault} :
    lexUnsigned negative cs ≠ (.faulty r none, rest) := by
  intro h
  unfold lexUnsigned at h
  split at h
  · next hwhole =>
    cases h
    exact lexWhole_ne hwhole
  · split at h
    · next hfraction =>
      cases h
      exact lexFraction_ne hfraction
    · split at h
      · next hexponent =>
        cases h
        exact lexExponent_ne hexponent
      · cases h

/-- **A number that is broken off cannot be skipped**, whichever part of it is at fault. -/
theorem lex_ne {cs rest : List Char} {r : Fault} : lex cs ≠ (.faulty r none, rest) := by
  intro h
  unfold lex at h
  split at h <;> exact lexUnsigned_ne h

end Numeral

/-! ### Values -/

namespace Draft

/-- What is left of a text behind a word. -/
theorem eq_append_of_expect {word cs rest : List Char} (h : expect word cs = .ok rest) :
    cs = word ++ rest := by
  induction word generalizing cs with
  | nil => cases h; rfl
  | cons w ws ih =>
    cases cs with
    | nil => cases h
    | cons c cs =>
      rw [expect] at h
      split at h
      · next hc => rw [hc, ih h]; rfl
      · cases h

/-- A number that can be passed over is spelled there, whether or not it has a value. -/
theorem spelled_of_scanNumber {cs r : List Char} {d : Draft} (h : scanNumber cs = (d, r))
    (hskip : d.skip = .ok ()) : Spelled cs d r := by
  unfold scanNumber at h
  split at h
  · next onRead onSkip rest hlex =>
    cases h
    -- a number that is broken off cannot be skipped
    cases onSkip with
    | none => exact absurd hlex Numeral.lex_ne
    | some f => cases hskip
  · next x rest hlex =>
    have hnumber := Spelled.number (Numeral.spelled_of_lex hlex)
    rw [Numeral.lexeme] at hnumber
    -- the draft is sound or faulty as the number is in range or not, like the lexeme of the grammar
    split at h
    · next n hn =>
      cases h
      rwa [hn] at hnumber
    · next hn =>
      cases h
      rwa [hn] at hnumber

/-- **A scalar that can be passed over** is spelled there. -/
theorem spelled_of_scanScalar {c : Char} {cs r : List Char} {d : Draft}
    (h : scanScalar c cs = (d, r)) (hskip : d.skip = .ok ()) : Spelled (c :: cs) d r := by
  -- a word is all there, or cannot be passed over
  have hword {word : List Char} {s : Scalar} (h : scanWord word s cs = (d, r)) :
      cs = word ++ r ∧ d = .leaf (.sound s) := by
    unfold scanWord at h
    split at h
    · next hexpect =>
      cases h
      exact ⟨eq_append_of_expect hexpect, rfl⟩
    · cases h
      cases hskip
  unfold scanScalar at h
  split at h
  · obtain ⟨rfl, rfl⟩ := hword h
    exact .nullWord r
  · obtain ⟨rfl, rfl⟩ := hword h
    exact .trueWord r
  · obtain ⟨rfl, rfl⟩ := hword h
    exact .falseWord r
  · cases h
    rw [skip, Lexeme.skip_map] at hskip
    obtain ⟨ps, hps, hx⟩ := StringLiteral.exists_divided_of_lex rfl hskip
    have hstring := Spelled.string hps
    rwa [← hx] at hstring
  · split at h
    · exact spelled_of_scanNumber h hskip
    · cases h
      cases hskip

/-! Blanks may stand in front of what is inside an array or object. -/

/-- Blanks may stand in front of the items of an array. -/
theorem ItemsSpelled.of_blanks {l l' r : List Char} {ds : List Draft} (h : Blanks l l')
    (hds : ItemsSpelled l' ds r) : ItemsSpelled l ds r := by
  cases hds with
  | last hbefore hd hbehind => exact .last (h.trans hbefore) hd hbehind
  | cons hbefore hd hbehind hds => exact .cons (h.trans hbefore) hd hbehind hds

/-- Blanks may stand in front of a member. -/
theorem MemberSpelled.of_blanks {l l' r : List Char} {m : Lexeme String × Draft}
    (h : Blanks l l') (hm : MemberSpelled l' m r) : MemberSpelled l m r := by
  cases hm with
  | mk hbefore hname hcolon hvalue hd hbehind =>
    exact .mk (h.trans hbefore) hname hcolon hvalue hd hbehind

/-- Blanks may stand in front of the members of an object. -/
theorem MembersSpelled.of_blanks {l l' r : List Char} {ms : List (Lexeme String × Draft)}
    (h : Blanks l l') (hms : MembersSpelled l' ms r) : MembersSpelled l ms r := by
  cases hms with
  | last hm => exact .last (hm.of_blanks h)
  | cons hm hms => exact .cons (hm.of_blanks h) hms

/-- **What the scanner finds in so many steps is well formed**, if it can be passed over: a value
behind its blanks, the items of an array, the members of an object. -/
structure FindsSpelled (fuel : Nat) : Prop where
  value : ∀ cs d r, scanValue fuel cs = (d, r) → d.skip = .ok () → Spelled (dropBlanks cs) d r
  items : ∀ cs ds r, scanItems fuel cs = ((ds, none), r) → skipItems ds = .ok () →
    ItemsSpelled cs ds (']' :: r)
  members : ∀ cs ms r, scanMembers fuel cs = ((ms, none), r) → skipMembers ms = .ok () →
    MembersSpelled cs ms ('}' :: r)

/-! With one step more the scanner goes one level deeper. -/

/-- With one step more values are found that are one level deeper. -/
theorem FindsSpelled.value_succ {fuel : Nat} (ih : FindsSpelled fuel) {cs r : List Char}
    {d : Draft} (h : scanValue (fuel + 1) cs = (d, r)) (hskip : d.skip = .ok ()) :
    Spelled (dropBlanks cs) d r := by
  rw [scanValue] at h
  split at h
  · -- where the text has ended there is nothing to pass over
    cases h
    cases hskip
  · next l hl =>
    rw [hl]
    split at h
    · -- the bracket is closed at once
      next r' hclose =>
      cases h
      exact .emptyArray (hclose ▸ Json.blanks_dropBlanks l)
    · -- the items stand behind the blanks
      cases h
      obtain ⟨hskip, hending⟩ := skip_array_eq_ok.mp hskip
      have hinside := ih.items (dropBlanks l) _ _ (by rw [← hending]) hskip
      rw [hending]
      exact .array (hinside.of_blanks (Json.blanks_dropBlanks l))
  · next l hl =>
    rw [hl]
    split at h
    · -- the brace is closed at once
      next r' hclose =>
      cases h
      exact .emptyObject (hclose ▸ Json.blanks_dropBlanks l)
    · cases h
      obtain ⟨hskip, hending⟩ := skip_object_eq_ok.mp hskip
      have hinside := ih.members (dropBlanks l) _ _ (by rw [← hending]) hskip
      rw [hending]
      exact .object (hinside.of_blanks (Json.blanks_dropBlanks l))
  · -- any other character starts a scalar
    next c l _ _ hl =>
    rw [hl]
    exact spelled_of_scanScalar h hskip

/-- With one step more one more item is found. -/
theorem FindsSpelled.items_succ {fuel : Nat} (ih : FindsSpelled fuel) {cs r : List Char}
    {ds : List Draft} (h : scanItems (fuel + 1) cs = ((ds, none), r))
    (hskip : skipItems ds = .ok ()) : ItemsSpelled cs ds (']' :: r) := by
  rw [scanItems] at h
  cases hd : scanValue fuel cs with
  | mk d l =>
    -- behind the item stands the closing bracket or a comma; otherwise the array is not closed
    simp only [hd] at h
    have hbehind := Json.blanks_dropBlanks l
    split at h
    · next r' hclose =>
      cases h
      have hskip := (skipItems_cons_eq_ok.mp hskip).1
      exact .last (Json.blanks_dropBlanks cs) (ih.value cs d l hd hskip) (hclose ▸ hbehind)
    · next r' hcomma =>
      -- the other items stand behind the comma
      cases hds : scanItems fuel r' with
      | mk found rest =>
        obtain ⟨ds, ending⟩ := found
        simp only [hds] at h
        cases h
        obtain ⟨hskip, hrest⟩ := skipItems_cons_eq_ok.mp hskip
        exact .cons (Json.blanks_dropBlanks cs) (ih.value cs d l hd hskip) (hcomma ▸ hbehind)
          (ih.items r' ds r hds hrest)
    · -- any other character would have been the fault of the array
      cases h

/-- One member: its name, its colon and its value, with what stands behind the value. -/
theorem FindsSpelled.member {fuel : Nat} (ih : FindsSpelled fuel) {cs l₁ l₂ l₃ l₄ t : List Char}
    {name : Lexeme String} {d : Draft} (hmark : dropBlanks cs = '"' :: l₁)
    (hname : StringLiteral.lex l₁ = (name, l₂)) (hcolon : dropBlanks l₂ = ':' :: l₃)
    (hd : scanValue fuel l₃ = (d, l₄)) (hend : dropBlanks l₄ = t) (hskip : name.skip = .ok ())
    (hskip' : d.skip = .ok ()) : MemberSpelled cs (name, d) t := by
  obtain ⟨ps, hps, rfl⟩ := StringLiteral.exists_divided_of_lex hname hskip
  exact .mk (hmark ▸ Json.blanks_dropBlanks cs) hps (hcolon ▸ Json.blanks_dropBlanks l₂)
    (Json.blanks_dropBlanks l₃) (ih.value l₃ d l₄ hd hskip') (hend ▸ Json.blanks_dropBlanks l₄)

/-- With one step more one more member is found. -/
theorem FindsSpelled.members_succ {fuel : Nat} (ih : FindsSpelled fuel) {cs r : List Char}
    {ms : List (Lexeme String × Draft)} (h : scanMembers (fuel + 1) cs = ((ms, none), r))
    (hskip : skipMembers ms = .ok ()) : MembersSpelled cs ms ('}' :: r) := by
  rw [scanMembers] at h
  -- name, colon and value must be there in this order, and the scanner stops where one is not
  split at h
  · next l₁ hmark =>
    cases hname : StringLiteral.lex l₁ with
    | mk name l₂ =>
      simp only [hname] at h
      split at h
      · next l₃ hcolon =>
        cases hd : scanValue fuel l₃ with
        | mk d l₄ =>
          simp only [hd] at h
          split at h
          · next r' hclose =>
            cases h
            obtain ⟨hskip, hskip', -⟩ := skipMembers_cons_eq_ok.mp hskip
            exact .last (ih.member hmark hname hcolon hd hclose hskip hskip')
          · next r' hcomma =>
            -- the other members stand behind the comma
            cases hms : scanMembers fuel r' with
            | mk found rest =>
              obtain ⟨ms, ending⟩ := found
              simp only [hms] at h
              cases h
              obtain ⟨hskip, hskip', hrest⟩ := skipMembers_cons_eq_ok.mp hskip
              exact .cons (ih.member hmark hname hcolon hd hcomma hskip hskip')
                (ih.members r' ms r hms hrest)
          · -- any other character would have been the fault of the object
            cases h
      · -- without its colon a member has no value
        cases h
        obtain ⟨-, hbroken, -⟩ := skipMembers_cons_eq_ok.mp hskip
        cases hbroken
  · -- without a name there would be a fault at the end of the object
    cases h

/-- **Whatever the number of steps, what is found is well formed.** -/
theorem findsSpelled (fuel : Nat) : FindsSpelled fuel := by
  induction fuel with
  | zero =>
    -- without steps nothing is found that could be passed over
    refine ⟨?_, ?_, ?_⟩
    · rintro cs d r ⟨⟩ hskip
      cases hskip
    · rintro cs ds r ⟨⟩
    · rintro cs ms r ⟨⟩
  | succ fuel ih =>
    exact ⟨fun _ _ _ => ih.value_succ, fun _ _ _ => ih.items_succ, fun _ _ _ => ih.members_succ⟩

/-- **A text whose draft can be passed over is well formed**, if nothing but blanks is left. -/
theorem denoted_of_skip {text : String} {d : Draft} {r : List Char}
    (h : scan text.toList = (d, r)) (hskip : d.skip = .ok ()) (hend : Json.atEnd r = .ok ()) :
    Denoted text d := by
  -- what was dropped in front of the value and what is left behind it are blanks
  refine ⟨dropBlanks text.toList, r, Json.blanks_dropBlanks _,
    (findsSpelled _).value _ d r h hskip, ?_⟩
  have hblanks := Json.blanks_dropBlanks r
  unfold Json.atEnd at hend
  split at hend
  · next hnil => rwa [hnil] at hblanks
  · cases hend

end Draft

end Introspect
