import Introspect.Proofs.Json.Lexemes
import Introspect.Proofs.Json.Tree

/-!
# Texts that are well formed

What it means that a text has the form of a JSON document, whether or not everything in it has a
value. A number that is out of range and a string with half a surrogate pair are well formed and
denote nothing; a decoder that does not want their values passes over them. So what stands at the
front of a text is a draft here, and not a tree as in the grammar of documents. The relations have
the same three places: a text, what stands at its front, and what is left behind it.

* `StringLiteral.Divided`, `StringLiteral.ofPieces` — the inside of a string, and its value if it
  has one; `Numeral.lexeme` likewise for numbers;
* `Draft.Spelled` — a value, with `Draft.ItemsSpelled`, `Draft.MemberSpelled` and
  `Draft.MembersSpelled` for the inside of arrays and objects;
* `Draft.MembersBegin`, `Draft.Begun` — an object that has only begun;
* `Json.Spelled.ofJson` — what the grammar of documents spells is well formed;
* `Draft.skip_of_spelled` — what is well formed can be passed over;
* `Draft.Spelled.exists_front` — whether a text is well formed does not depend on what follows it.
-/

namespace Introspect

/-! ### Lexemes -/

/-- **The number of a numeral**, which can be skipped even if it is out of range. -/
def Numeral.lexeme (x : Numeral) : Lexeme Scalar :=
  match x.number? with
  | some n => .sound (.number n)
  | none => .faulty .malformed none

/-- The value of a numeral is not looked at when it is passed over. -/
theorem Numeral.skip_lexeme (x : Numeral) : x.lexeme.skip = .ok () := by
  rw [lexeme]
  cases x.number? <;> rfl

/-! ### Values -/

namespace Draft

open Json (Blanks)

mutual

/-- **A value that is well formed.** -/
inductive Spelled : List Char → Draft → List Char → Prop
  | nullWord (r : List Char) :
      Spelled ('n' :: 'u' :: 'l' :: 'l' :: r) (.leaf (.sound .null)) r
  | trueWord (r : List Char) :
      Spelled ('t' :: 'r' :: 'u' :: 'e' :: r) (.leaf (.sound (.bool true))) r
  | falseWord (r : List Char) :
      Spelled ('f' :: 'a' :: 'l' :: 's' :: 'e' :: r) (.leaf (.sound (.bool false))) r
  | number {l r : List Char} {x : Numeral} (hx : x.Spelled l r) : Spelled l (.leaf x.lexeme) r
  | string {l r : List Char} {ps : List StringLiteral.Piece}
      (hps : StringLiteral.Divided l ps ('"' :: r)) :
      Spelled ('"' :: l) (.leaf ((StringLiteral.ofPieces ps).map .string)) r
  | emptyArray {l r : List Char} (hl : Blanks l (']' :: r)) :
      Spelled ('[' :: l) (.array [] none) r
  | array {l r : List Char} {items : List Draft} (hitems : ItemsSpelled l items (']' :: r)) :
      Spelled ('[' :: l) (.array items none) r
  | emptyObject {l r : List Char} (hl : Blanks l ('}' :: r)) :
      Spelled ('{' :: l) (.object [] none) r
  | object {l r : List Char} {members : List (Lexeme String × Draft)}
      (hmembers : MembersSpelled l members ('}' :: r)) :
      Spelled ('{' :: l) (.object members none) r

/-- The items of an array that has some. -/
inductive ItemsSpelled : List Char → List Draft → List Char → Prop
  | last {l l₁ l₂ r : List Char} {d : Draft} (hbefore : Blanks l l₁) (hd : Spelled l₁ d l₂)
      (hbehind : Blanks l₂ r) : ItemsSpelled l [d] r
  | cons {l l₁ l₂ l₃ r : List Char} {d : Draft} {ds : List Draft} (hbefore : Blanks l l₁)
      (hd : Spelled l₁ d l₂) (hbehind : Blanks l₂ (',' :: l₃)) (hds : ItemsSpelled l₃ ds r) :
      ItemsSpelled l (d :: ds) r

/-- One member of an object, with the blanks around it. -/
inductive MemberSpelled : List Char → Lexeme String × Draft → List Char → Prop
  | mk {l l₁ l₂ l₃ l₄ l₅ r : List Char} {ps : List StringLiteral.Piece} {d : Draft}
      (hbefore : Blanks l ('"' :: l₁)) (hname : StringLiteral.Divided l₁ ps ('"' :: l₂))
      (hcolon : Blanks l₂ (':' :: l₃)) (hvalue : Blanks l₃ l₄) (hd : Spelled l₄ d l₅)
      (hbehind : Blanks l₅ r) : MemberSpelled l (StringLiteral.ofPieces ps, d) r

/-- The members of an object that has some. -/
inductive MembersSpelled : List Char → List (Lexeme String × Draft) → List Char → Prop
  | last {l r : List Char} {m : Lexeme String × Draft} (hm : MemberSpelled l m r) :
      MembersSpelled l [m] r
  | cons {l l₁ r : List Char} {m : Lexeme String × Draft} {ms : List (Lexeme String × Draft)}
      (hm : MemberSpelled l m (',' :: l₁)) (hms : MembersSpelled l₁ ms r) :
      MembersSpelled l (m :: ms) r

end

/-- **A text that is well formed**, and the draft of its value. -/
def Denoted (text : String) (d : Draft) : Prop :=
  ∃ l r, Blanks text.toList l ∧ Spelled l d r ∧ Blanks r []

/-- Members with a comma behind each. -/
inductive MembersBegin : List Char → List (Lexeme String × Draft) → List Char → Prop
  | nil (r : List Char) : MembersBegin r [] r
  | cons {l l₁ r : List Char} {m : Lexeme String × Draft} {ms : List (Lexeme String × Draft)}
      (hm : MemberSpelled l m (',' :: l₁)) (hms : MembersBegin l₁ ms r) :
      MembersBegin l (m :: ms) r

/-- **An object that has begun**: its first members, up to one behind which a comma or the closing
brace is to follow. -/
def Begun (text : List Char) (before : List (Lexeme String × Draft)) (m : Lexeme String × Draft)
    (rest : List Char) : Prop :=
  ∃ l₁ l₂, Blanks text ('{' :: l₁) ∧ MembersBegin l₁ before l₂ ∧ MemberSpelled l₂ m rest

/-- A well-formed object begins with each of its members and those before it. -/
theorem MembersSpelled.exists_begin {l r : List Char} {before behind : List (Lexeme String × Draft)}
    {m : Lexeme String × Draft} (h : MembersSpelled l (before ++ m :: behind) r) :
    ∃ l' rest, MembersBegin l before l' ∧ MemberSpelled l' m rest ∧
      (rest = r ∨ ∃ tail, rest = ',' :: tail) := by
  -- induction on the members before `m`, which the derivation has read when it comes to `m`
  induction before generalizing l with
  | nil =>
    cases h with
    -- `m` is the last one, and what follows it is what follows all the members
    | last hm => exact ⟨l, r, .nil l, hm, .inl rfl⟩
    -- there is one more member, and a comma before it
    | cons hm _ => exact ⟨l, _, .nil l, hm, .inr ⟨_, rfl⟩⟩
  | cons first before ih =>
    generalize hms : first :: before ++ m :: behind = ms at h
    cases h with
    -- a single member would be `first`, with no place for `m`
    | last _ => simp at hms
    | cons hfirst hrest =>
      obtain ⟨rfl, rfl⟩ := List.cons.inj hms
      obtain ⟨l', rest, hbefore, hm, hend⟩ := ih hrest
      exact ⟨l', rest, .cons hfirst hbefore, hm, hend⟩

/-- The same for a whole text: what follows the member is a comma or the closing brace. -/
theorem Denoted.exists_begun {text : String} {before behind : List (Lexeme String × Draft)}
    {m : Lexeme String × Draft} (h : Denoted text (.object (before ++ m :: behind) none)) :
    ∃ c tail, (c = ',' ∨ c = '}') ∧ Begun text.toList before m (c :: tail) := by
  obtain ⟨l, r, hstart, hobject, -⟩ := h
  -- the list is named, so that the derivation can be taken apart by its last rule
  generalize hms : before ++ m :: behind = ms at hobject
  cases hobject with
  | emptyObject => simp at hms
  | object hmembers =>
    subst hms
    obtain ⟨l', rest, hbefore, hm, rfl | ⟨tail, rfl⟩⟩ := hmembers.exists_begin
    · exact ⟨'}', r, .inr rfl, _, l', hstart, hbefore, hm⟩
    · exact ⟨',', tail, .inl rfl, _, l', hstart, hbefore, hm⟩

/-! ### Passing over what is well formed -/

mutual

/-- **What is well formed can be passed over**, whatever it denotes. -/
theorem skip_of_spelled {l r : List Char} {d : Draft} : Spelled l d r → d.skip = .ok ()
  | .nullWord r | .trueWord r | .falseWord r => rfl
  | .number hx => Numeral.skip_lexeme _
  -- half a surrogate pair has no value, but its escapes are read to the end all the same
  | .string hps => by rw [skip, Lexeme.skip_map, StringLiteral.skip_ofPieces]
  | .emptyArray hl | .emptyObject hl => rfl
  | .array hitems => by
    rw [skip, skipItems_of_spelled hitems]
    rfl
  | .object hmembers => by
    rw [skip, skipMembers_of_spelled hmembers]
    rfl

/-- The items of an array can be passed over one after the other. -/
theorem skipItems_of_spelled {l r : List Char} {ds : List Draft} :
    ItemsSpelled l ds r → skipItems ds = .ok ()
  | .last hbefore hd hbehind => by
    rw [skipItems, skip_of_spelled hd]
    rfl
  | .cons hbefore hd hbehind hds => by
    rw [skipItems, skip_of_spelled hd]
    exact skipItems_of_spelled hds

/-- A member can be passed over, its name as well as its value. -/
theorem skipMember_of_spelled {l r : List Char} {m : Lexeme String × Draft} :
    MemberSpelled l m r → m.1.skip = .ok () ∧ m.2.skip = .ok ()
  | .mk _ _ _ _ hd _ => ⟨StringLiteral.skip_ofPieces _, skip_of_spelled hd⟩

/-- The members of an object can be passed over one after the other. -/
theorem skipMembers_of_spelled {l r : List Char} {ms : List (Lexeme String × Draft)} :
    MembersSpelled l ms r → skipMembers ms = .ok ()
  | .last hm => by
    obtain ⟨hname, hvalue⟩ := skipMember_of_spelled hm
    rw [skipMembers, hname, hvalue]
    rfl
  | .cons hm hms => by
    obtain ⟨hname, hvalue⟩ := skipMember_of_spelled hm
    rw [skipMembers, hname, hvalue]
    exact skipMembers_of_spelled hms

end

/-- The members of a well-formed object can be passed over. -/
theorem Denoted.skip {text : String} {ms : List (Lexeme String × Draft)} {ending : Option Fault}
    (h : Denoted text (.object ms ending)) : ∀ m ∈ ms, m.2.skip = .ok () := by
  obtain ⟨l, r, -, hobject, -⟩ := h
  -- the object can be passed over as a whole, hence each of its members
  obtain ⟨hmembers, -⟩ := skip_object_eq_ok.mp (skip_of_spelled hobject)
  exact fun m hm => (skipMembers_eq_ok.mp hmembers m hm).2

/-- What stands before a member of an object can be passed over. -/
theorem Begun.skip {text rest : List Char} {before : List (Lexeme String × Draft)}
    {m : Lexeme String × Draft} (h : Begun text before m rest) :
    ∀ m ∈ before, m.2.skip = .ok () := by
  obtain ⟨l₁, l₂, -, hbefore, -⟩ := h
  induction hbefore with
  | nil => simp
  | cons hm _ ih => exact List.forall_mem_cons.mpr ⟨(skipMember_of_spelled hm).2, ih⟩

end Draft

/-! ### What follows does not matter -/

/-- Blanks are blanks whatever follows them. -/
theorem Json.Blanks.exists_front {l r : List Char} (h : Blanks l r) :
    ∃ w, l = w ++ r ∧ ∀ t, Blanks (w ++ t) t := by
  induction h with
  | nil r => exact ⟨[], rfl, .nil⟩
  | cons c hc _ ih =>
    obtain ⟨w, rfl, hw⟩ := ih
    exact ⟨c :: w, rfl, fun t => .cons c hc (hw t)⟩

/-- A string is divided into the same pieces whatever follows it. -/
theorem StringLiteral.Divided.exists_front {l r : List Char} {ps : List Piece}
    (h : Divided l ps r) : ∃ w, l = w ++ r ∧ ∀ t, Divided (w ++ t) ps t := by
  induction h with
  | nil r => exact ⟨[], rfl, .nil⟩
  | raw c hmark hslash hcontrol _ ih =>
    obtain ⟨w, rfl, hw⟩ := ih
    exact ⟨c :: w, rfl, fun t => .raw c hmark hslash hcontrol (hw t)⟩
  | short e c he _ ih =>
    obtain ⟨w, rfl, hw⟩ := ih
    exact ⟨_ :: e :: w, rfl, fun t => .short e c he (hw t)⟩
  | unit a b c d n hn _ ih =>
    obtain ⟨w, rfl, hw⟩ := ih
    exact ⟨_ :: _ :: a :: b :: c :: d :: w, rfl, fun t => .unit a b c d n hn (hw t)⟩

namespace Numeral

/-- A fraction is the same whatever follows it. -/
theorem FractionSpelled.exists_front {l r : List Char} {fraction : Option (List Char)}
    (h : FractionSpelled l fraction r) :
    ∃ w, l = w ++ r ∧ ∀ t, FractionSpelled (w ++ t) fraction t := by
  cases h with
  | absent => exact ⟨[], rfl, .absent⟩
  | present ds r hds => exact ⟨'.' :: ds, rfl, fun t => .present ds t hds⟩

/-- An exponent is the same whatever follows it. -/
theorem ExponentSpelled.exists_front {l r : List Char} {exponent : Option (Bool × List Char)}
    (h : ExponentSpelled l exponent r) :
    ∃ w, l = w ++ r ∧ ∀ t, ExponentSpelled (w ++ t) exponent t := by
  cases h with
  | absent => exact ⟨[], rfl, .absent⟩
  | unsigned e he ds r hds => exact ⟨e :: ds, rfl, fun t => .unsigned e he ds t hds⟩
  | plus e he ds r hds => exact ⟨e :: '+' :: ds, rfl, fun t => .plus e he ds t hds⟩
  | minus e he ds r hds => exact ⟨e :: '-' :: ds, rfl, fun t => .minus e he ds t hds⟩

/-- **A numeral is the same whatever follows it**, since its parts are. -/
theorem Spelled.exists_front {l r : List Char} {x : Numeral} (h : Spelled l x r) :
    ∃ w, l = w ++ r ∧ ∀ t, Spelled (w ++ t) x t := by
  cases h with
  | @positive whole _ _ _ _ _ hwhole hfraction hexponent =>
    obtain ⟨f, rfl, hf⟩ := hfraction.exists_front
    obtain ⟨e, rfl, he⟩ := hexponent.exists_front
    -- the parts are put together from the back: each of them allows any text behind it
    refine ⟨whole ++ (f ++ e), by simp only [List.append_assoc], fun t => ?_⟩
    simpa only [List.append_assoc] using Spelled.positive hwhole (hf (e ++ t)) (he t)
  | @negative whole _ _ _ _ _ hwhole hfraction hexponent =>
    obtain ⟨f, rfl, hf⟩ := hfraction.exists_front
    obtain ⟨e, rfl, he⟩ := hexponent.exists_front
    refine ⟨'-' :: (whole ++ (f ++ e)), by simp only [List.cons_append, List.append_assoc],
      fun t => ?_⟩
    simpa only [List.cons_append, List.append_assoc] using
      Spelled.negative hwhole (hf (e ++ t)) (he t)

end Numeral

namespace Draft

mutual

/-- **Whether a value is well formed does not depend on what follows it.** -/
theorem Spelled.exists_front {l r : List Char} {d : Draft} :
    Spelled l d r → ∃ w, l = w ++ r ∧ ∀ t, Spelled (w ++ t) d t
  | .nullWord r => ⟨['n', 'u', 'l', 'l'], rfl, .nullWord⟩
  | .trueWord r => ⟨['t', 'r', 'u', 'e'], rfl, .trueWord⟩
  | .falseWord r => ⟨['f', 'a', 'l', 's', 'e'], rfl, .falseWord⟩
  | .number hx => by
    obtain ⟨w, rfl, hw⟩ := hx.exists_front
    exact ⟨w, rfl, fun t => .number (hw t)⟩
  -- the mark that closes the string belongs to what was read
  | .string hps => by
    obtain ⟨w, rfl, hw⟩ := hps.exists_front
    refine ⟨'"' :: (w ++ ['"']), by simp, fun t => ?_⟩
    simpa using Spelled.string (hw ('"' :: t))
  | .emptyArray hl => by
    obtain ⟨w, rfl, hw⟩ := hl.exists_front
    refine ⟨'[' :: (w ++ [']']), by simp, fun t => ?_⟩
    simpa using Spelled.emptyArray (hw (']' :: t))
  | .array hitems => by
    obtain ⟨w, rfl, hw⟩ := hitems.exists_front
    refine ⟨'[' :: (w ++ [']']), by simp, fun t => ?_⟩
    simpa using Spelled.array (hw (']' :: t))
  | .emptyObject hl => by
    obtain ⟨w, rfl, hw⟩ := hl.exists_front
    refine ⟨'{' :: (w ++ ['}']), by simp, fun t => ?_⟩
    simpa using Spelled.emptyObject (hw ('}' :: t))
  | .object hmembers => by
    obtain ⟨w, rfl, hw⟩ := hmembers.exists_front
    refine ⟨'{' :: (w ++ ['}']), by simp, fun t => ?_⟩
    simpa using Spelled.object (hw ('}' :: t))

/-- The items do not depend on what follows the last of them. -/
theorem ItemsSpelled.exists_front {l r : List Char} {ds : List Draft} :
    ItemsSpelled l ds r → ∃ w, l = w ++ r ∧ ∀ t, ItemsSpelled (w ++ t) ds t
  | .last hbefore hd hbehind => by
    -- each of the three parts is what it is before any text, so also before the next part
    obtain ⟨w₁, rfl, h₁⟩ := hbefore.exists_front
    obtain ⟨w₂, rfl, h₂⟩ := hd.exists_front
    obtain ⟨w₃, rfl, h₃⟩ := hbehind.exists_front
    refine ⟨w₁ ++ (w₂ ++ w₃), by simp, fun t => ?_⟩
    simpa using ItemsSpelled.last (h₁ _) (h₂ _) (h₃ t)
  | .cons hbefore hd hbehind hds => by
    obtain ⟨w₁, rfl, h₁⟩ := hbefore.exists_front
    obtain ⟨w₂, rfl, h₂⟩ := hd.exists_front
    obtain ⟨w₃, rfl, h₃⟩ := hbehind.exists_front
    obtain ⟨w₄, rfl, h₄⟩ := hds.exists_front
    refine ⟨w₁ ++ (w₂ ++ (w₃ ++ ',' :: w₄)), by simp, fun t => ?_⟩
    simpa using ItemsSpelled.cons (h₁ _) (h₂ _) (h₃ _) (h₄ t)

/-- A member does not depend on what follows it. -/
theorem MemberSpelled.exists_front {l r : List Char} {m : Lexeme String × Draft} :
    MemberSpelled l m r → ∃ w, l = w ++ r ∧ ∀ t, MemberSpelled (w ++ t) m t
  | .mk hbefore hname hcolon hvalue hd hbehind => by
    obtain ⟨w₁, rfl, h₁⟩ := hbefore.exists_front
    obtain ⟨w₂, rfl, h₂⟩ := hname.exists_front
    obtain ⟨w₃, rfl, h₃⟩ := hcolon.exists_front
    obtain ⟨w₄, rfl, h₄⟩ := hvalue.exists_front
    obtain ⟨w₅, rfl, h₅⟩ := hd.exists_front
    obtain ⟨w₆, rfl, h₆⟩ := hbehind.exists_front
    refine ⟨w₁ ++ '"' :: (w₂ ++ '"' :: (w₃ ++ ':' :: (w₄ ++ (w₅ ++ w₆)))), by simp, fun t => ?_⟩
    simpa using MemberSpelled.mk (h₁ _) (h₂ _) (h₃ _) (h₄ _) (h₅ _) (h₆ t)

/-- The members do not depend on what follows the last of them. -/
theorem MembersSpelled.exists_front {l r : List Char} {ms : List (Lexeme String × Draft)} :
    MembersSpelled l ms r → ∃ w, l = w ++ r ∧ ∀ t, MembersSpelled (w ++ t) ms t
  | .last hm => by
    obtain ⟨w, rfl, hw⟩ := hm.exists_front
    exact ⟨w, rfl, fun t => .last (hw t)⟩
  | .cons hm hms => by
    obtain ⟨w₁, rfl, h₁⟩ := hm.exists_front
    obtain ⟨w₂, rfl, h₂⟩ := hms.exists_front
    refine ⟨w₁ ++ ',' :: w₂, by simp, fun t => ?_⟩
    simpa using MembersSpelled.cons (h₁ _) (h₂ t)

end

/-- The members that an object has begun with are the same before any text. -/
theorem MembersBegin.exists_front {l r : List Char} {ms : List (Lexeme String × Draft)}
    (h : MembersBegin l ms r) : ∃ w, l = w ++ r ∧ ∀ t, MembersBegin (w ++ t) ms t := by
  induction h with
  | nil r => exact ⟨[], rfl, .nil⟩
  | cons hm _ ih =>
    obtain ⟨w₁, hl, h₁⟩ := hm.exists_front
    obtain ⟨w₂, rfl, h₂⟩ := ih
    refine ⟨w₁ ++ ',' :: w₂, by simp [hl], fun t => ?_⟩
    simpa using MembersBegin.cons (h₁ _) (h₂ t)

/-- So an object that has begun may go on in any way. -/
theorem Begun.exists_front {text rest : List Char} {before : List (Lexeme String × Draft)}
    {m : Lexeme String × Draft} (h : Begun text before m rest) :
    ∃ front, text = front ++ rest ∧ ∀ t, Begun (front ++ t) before m t := by
  obtain ⟨l₁, l₂, hstart, hbefore, hm⟩ := h
  obtain ⟨w₁, rfl, h₁⟩ := hstart.exists_front
  obtain ⟨w₂, rfl, h₂⟩ := hbefore.exists_front
  obtain ⟨w₃, rfl, h₃⟩ := hm.exists_front
  refine ⟨w₁ ++ '{' :: (w₂ ++ w₃), by simp, fun t => ⟨w₂ ++ (w₃ ++ t), w₃ ++ t, ?_, h₂ _, h₃ t⟩⟩
  simpa using h₁ ('{' :: (w₂ ++ (w₃ ++ t)))

/-- **A well-formed object is begun by each of its members**, and stays so whatever stands behind
the comma that follows the member. -/
theorem Denoted.exists_front {text : String} {before behind : List (Lexeme String × Draft)}
    {m : Lexeme String × Draft} (h : Denoted text (.object (before ++ m :: behind) none)) :
    ∃ front tail : String, (text = front ++ "," ++ tail ∨ text = front ++ "\x7d" ++ tail) ∧
      Begun front.toList before m [] ∧
      ∀ tail' : String, Begun (front ++ "," ++ tail').toList before m (',' :: tail'.toList) := by
  -- the front is what was read; the tail is given as a text, so `hbegin` takes any other one
  obtain ⟨c, tail, hc, hbegun⟩ := h.exists_begun
  obtain ⟨front, hfront, hbegin⟩ := hbegun.exists_front
  refine ⟨String.ofList front, String.ofList tail, ?_, ?_, fun tail' => ?_⟩
  · rw [← String.toList_inj, ← String.toList_inj, hfront]
    -- behind the member stands the comma or the brace, the rest of the text being the tail
    obtain rfl | rfl := hc
    · left
      simp
    · right
      simp
  · simpa using hbegin []
  · simpa using hbegin (',' :: tail'.toList)

end Draft

/-! ### Documents are well formed -/

namespace Json

mutual

/-- **What the grammar of documents spells is well formed**, and its draft is that of its tree. -/
theorem Spelled.ofJson {l r : List Char} {j : Json} :
    Spelled l j r → Draft.Spelled l (Draft.ofJson j) r
  | .nullWord r => .nullWord r
  | .trueWord r => .trueWord r
  | .falseWord r => .falseWord r
  -- a numeral of the grammar has a number, so that its lexeme is sound
  | .number hx hn => by
    have hnumber := Draft.Spelled.number hx
    rwa [Numeral.lexeme, hn] at hnumber
  | .string hcs => by
    -- the characters of the string are the value of the pieces it is divided into
    obtain ⟨ps, hps, hvalue⟩ := StringLiteral.exists_ofPieces_of_spelled hcs
    have hstring := Draft.Spelled.string hps
    rwa [hvalue] at hstring
  | .emptyArray hl => .emptyArray hl
  | .array hitems => .array hitems.ofJson
  | .emptyObject hl => .emptyObject hl
  | .object hmembers => .object hmembers.ofJson

/-- The items of an array are well formed. -/
theorem ItemsSpelled.ofJson {l r : List Char} {js : List Json} :
    ItemsSpelled l js r → Draft.ItemsSpelled l (Draft.ofItems js) r
  | .last hbefore hj hbehind => .last hbefore hj.ofJson hbehind
  | .cons hbefore hj hbehind hjs => .cons hbefore hj.ofJson hbehind hjs.ofJson

/-- The members of an object are well formed, with sound names. -/
theorem MembersSpelled.ofJson {l r : List Char} {ms : List (String × Json)} :
    MembersSpelled l ms r → Draft.MembersSpelled l (Draft.ofMembers ms) r
  | .last hbefore hname hcolon hvalue hj hbehind => by
    obtain ⟨ps, hps, hkey⟩ := StringLiteral.exists_ofPieces_of_spelled hname
    have hmember := Draft.MemberSpelled.mk hbefore hps hcolon hvalue hj.ofJson hbehind
    rw [hkey] at hmember
    exact .last hmember
  | .cons hbefore hname hcolon hvalue hj hbehind hms => by
    obtain ⟨ps, hps, hkey⟩ := StringLiteral.exists_ofPieces_of_spelled hname
    have hmember := Draft.MemberSpelled.mk hbefore hps hcolon hvalue hj.ofJson hbehind
    rw [hkey] at hmember
    exact .cons hmember hms.ofJson

end

/-- A document is a text that is well formed. -/
theorem Denoted.ofJson {text : String} {j : Json} :
    Denoted text j → Draft.Denoted text (Draft.ofJson j)
  | ⟨l, r, hbefore, hj, hbehind⟩ => ⟨l, r, hbefore, hj.ofJson, hbehind⟩

end Json

end Introspect
