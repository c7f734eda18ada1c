import Introspect.Proofs.Json.WellFormed

/-!
# A gap in a text

Take one value out of a text that is well formed. Whichever value is written into the gap, the text
is well formed again, and its draft is the old one with the draft of the new value in its place; for
whether a value is well formed does not depend on what stands around it.

* `Draft.IsValue` — a text that is a value; `Numeral.Spelled.isValue` — a number;
* `Draft.Gap`, `Draft.Opens` — two ends with a gap between them, and a text that has one;
  `Draft.Opens.map` — in a larger text;
* `Draft.MembersSpelled.opens`, `Draft.ItemsSpelled.opens` — each value among the members of an
  object and the items of an array leaves a gap;
* `Draft.HasGap`, `Draft.Denoted.exists_gap_member`, `Draft.Denoted.exists_gap_item` — the same for
  whole texts.
-/

namespace Introspect

namespace Draft

open Json (Blanks)

/-- **A text that is a value**, whatever follows it. -/
def IsValue (cs : List Char) (d : Draft) : Prop :=
  ∀ r, Spelled (cs ++ r) d r

section Gap

variable {α β : Type}

/-- **Two ends with a gap between them**: with any value in the gap they are well formed, in the
sense of `P`, and what stands there is `whole` of its draft. -/
def Gap (P : List Char → α → List Char → Prop) (front tail : List Char) (whole : Draft → α) :
    Prop :=
  ∀ cs d, IsValue cs d → ∀ r, P (front ++ (cs ++ (tail ++ r))) (whole d) r

/-- **A text that has a gap** when the value `d` is taken out of it. -/
def Opens (P : List Char → α → List Char → Prop) (whole : Draft → α) (l : List Char) (d : Draft)
    (r : List Char) : Prop :=
  ∃ front cs tail, l = front ++ (cs ++ (tail ++ r)) ∧ IsValue cs d ∧ Gap P front tail whole

variable {P : List Char → α → List Char → Prop} {Q : List Char → β → List Char → Prop}
  {whole : Draft → α} {l r : List Char} {d : Draft}

/-- **A larger text has the gap too**, if whatever `P` allows is well formed with `pre` before it
and `post` behind it. -/
theorem Opens.map (pre post : List Char) {f : α → β} (h : Opens P whole l d (post ++ r))
    (hPQ : ∀ l a r, P l a (post ++ r) → Q (pre ++ l) (f a) r) :
    Opens Q (fun d => f (whole d)) (pre ++ l) d r := by
  obtain ⟨front, cs, tail, rfl, hcs, hgap⟩ := h
  -- the new ends are the old ones with `pre` and `post` around them; the value stays what it is
  refine ⟨pre ++ front, cs, tail ++ post, by simp, hcs, fun cs' d' hd' r' => ?_⟩
  have hlarger := hPQ _ _ r' (hgap cs' d' hd' (post ++ r'))
  simpa using hlarger

end Gap

variable {l r : List Char} {d : Draft}

/-- A value leaves nothing but the gap. -/
theorem Spelled.opens (h : Spelled l d r) : Opens Spelled id l d r := by
  obtain ⟨cs, rfl, hcs⟩ := h.exists_front
  -- nothing stands around the value, so both ends are empty
  exact ⟨[], cs, [], rfl, hcs, fun _ _ hd' r' => hd' r'⟩

/-! ### Members and items -/

/-- The value of a member leaves a gap in the member. -/
theorem MemberSpelled.opens {k : Lexeme String} (h : MemberSpelled l (k, d) r) :
    Opens MemberSpelled (fun d => (k, d)) l d r := by
  cases h with
  | mk hbefore hname hcolon hvalue hd hbehind =>
    -- everything around the value is the same before any text; `w₁` to `w₄` are the front, `w₅` the
    -- tail
    obtain ⟨w₁, rfl, h₁⟩ := hbefore.exists_front
    obtain ⟨w₂, rfl, h₂⟩ := hname.exists_front
    obtain ⟨w₃, rfl, h₃⟩ := hcolon.exists_front
    obtain ⟨w₄, rfl, h₄⟩ := hvalue.exists_front
    obtain ⟨w₅, rfl, h₅⟩ := hbehind.exists_front
    have hmember := hd.opens.map (Q := MemberSpelled)
      (w₁ ++ '"' :: (w₂ ++ '"' :: (w₃ ++ ':' :: w₄))) w₅ (f := fun d => (_, d))
      fun l d r hd => by simpa using MemberSpelled.mk (h₁ _) (h₂ _) (h₃ _) (h₄ _) hd (h₅ r)
    simpa using hmember

/-- It leaves a gap in the members of the object too. -/
theorem MembersSpelled.opens {k : Lexeme String} {before behind : List (Lexeme String × Draft)}
    (h : MembersSpelled l (before ++ (k, d) :: behind) r) :
    Opens MembersSpelled (fun d => before ++ (k, d) :: behind) l d r := by
  -- induction on the members before the one with the gap: they go to the front, one after another
  induction before generalizing l with
  | nil =>
    cases h with
    | last hm =>
      exact hm.opens.map [] [] (f := fun m => [m]) fun _ _ _ hm => .last hm
    | cons hm hms =>
      -- the members behind it go to the tail, where any text may follow them
      obtain ⟨w, rfl, hw⟩ := hms.exists_front
      exact hm.opens.map [] (',' :: w) (f := fun m => m :: behind)
        fun _ _ r hm => .cons hm (hw r)
  | cons first before ih =>
    generalize hms : first :: before ++ (k, d) :: behind = ms at h
    cases h with
    | last _ => simp at hms
    | cons hfirst hrest =>
      obtain ⟨rfl, rfl⟩ := List.cons.inj hms
      obtain ⟨w, rfl, hw⟩ := hfirst.exists_front
      -- the first member and its comma are put before the front that the others have
      have hmembers := (ih hrest).map (Q := MembersSpelled) (w ++ [',']) []
        (f := fun ms => first :: ms) fun l _ _ hms => by simpa using .cons (hw (',' :: l)) hms
      simpa using hmembers

/-- So does an item among the items of an array. -/
theorem ItemsSpelled.opens {before behind : List Draft}
    (h : ItemsSpelled l (before ++ d :: behind) r) :
    Opens ItemsSpelled (fun d => before ++ d :: behind) l d r := by
  induction before generalizing l with
  | nil =>
    cases h with
    | last hbefore hd hbehind =>
      obtain ⟨w₁, rfl, h₁⟩ := hbefore.exists_front
      obtain ⟨w₂, rfl, h₂⟩ := hbehind.exists_front
      exact hd.opens.map w₁ w₂ (f := fun d => [d]) fun _ _ r hd => .last (h₁ _) hd (h₂ r)
    | cons hbefore hd hbehind hds =>
      obtain ⟨w₁, rfl, h₁⟩ := hbefore.exists_front
      obtain ⟨w₂, rfl, h₂⟩ := hbehind.exists_front
      obtain ⟨w₃, rfl, h₃⟩ := hds.exists_front
      -- the blanks and the comma behind the item are one text, as `map` asks for
      rw [← List.cons_append, ← List.append_assoc] at hd
      refine hd.opens.map w₁ (w₂ ++ ',' :: w₃) (f := fun d => d :: behind) fun l d r hd => ?_
      rw [List.append_assoc] at hd
      exact .cons (h₁ l) hd (h₂ _) (h₃ r)
  | cons first before ih =>
    generalize hds : first :: before ++ d :: behind = ds at h
    cases h with
    | last _ _ _ => simp at hds
    | cons hbefore hfirst hbehind hrest =>
      obtain ⟨rfl, rfl⟩ := List.cons.inj hds
      -- as for members, with blanks before and behind the first item
      obtain ⟨w₁, rfl, h₁⟩ := hbefore.exists_front
      obtain ⟨w₂, rfl, h₂⟩ := hfirst.exists_front
      obtain ⟨w₃, rfl, h₃⟩ := hbehind.exists_front
      have hitems := (ih hrest).map (Q := ItemsSpelled) (w₁ ++ (w₂ ++ (w₃ ++ [',']))) []
        (f := fun ds => first :: ds)
        fun l _ _ hds => by simpa using .cons (h₁ _) (h₂ _) (h₃ (',' :: l)) hds
      simpa using hitems

/-! ### Whole texts -/

/-- **The two ends of a text with a gap between them**: with any value in the gap the text is well
formed, and its draft is `whole` of that of the value. -/
def HasGap (front tail : String) (whole : Draft → Draft) : Prop :=
  ∀ value d, IsValue value.toList d → Denoted (front ++ value ++ tail) (whole d)

/-- A well-formed text has a gap if its value does. -/
theorem Denoted.exists_gap {text : String} {d : Draft} (whole : Draft → Draft)
    (h : Denoted text (whole d))
    (hopens : ∀ l r, Spelled l (whole d) r → Opens Spelled whole l d r) :
    ∃ front value tail : String, text = front ++ value ++ tail ∧ IsValue value.toList d ∧
      HasGap front tail whole := by
  obtain ⟨l, r, hbefore, hd, hbehind⟩ := h
  obtain ⟨front, cs, tail, rfl, hcs, hgap⟩ := hopens l r hd
  -- the blanks before the value are part of the front, those behind it part of the tail
  obtain ⟨w, htext, hw⟩ := hbefore.exists_front
  refine ⟨String.ofList (w ++ front), String.ofList cs, String.ofList (tail ++ r), ?_, by simpa,
    fun value d' hd' => ⟨front ++ (value.toList ++ (tail ++ r)), r, ?_, hgap _ d' hd' r, hbehind⟩⟩
  · rw [← String.toList_inj, htext]
    simp
  · simpa using hw (front ++ (value.toList ++ (tail ++ r)))

/-- **The value of a member leaves a gap.** -/
theorem Denoted.exists_gap_member {text : String} {k : Lexeme String}
    {before behind : List (Lexeme String × Draft)} {d : Draft}
    (h : Denoted text (.object (before ++ (k, d) :: behind) none)) :
    ∃ front value tail : String, text = front ++ value ++ tail ∧ IsValue value.toList d ∧
      HasGap front tail fun d => .object (before ++ (k, d) :: behind) none := by
  refine h.exists_gap (fun d => .object (before ++ (k, d) :: behind) none)
    fun l r hobject => ?_
  generalize hms : before ++ (k, d) :: behind = ms at hobject
  cases hobject with
  | emptyObject => simp at hms
  | object hmembers =>
    -- the braces are what stands around the members
    subst hms
    exact hmembers.opens.map (Q := Spelled) ['{'] ['}']
      (f := fun ms => object ms none) fun _ _ _ hms => .object hms

/-- **An item leaves a gap.** -/
theorem Denoted.exists_gap_item {text : String} {before behind : List Draft} {d : Draft}
    (h : Denoted text (.array (before ++ d :: behind) none)) :
    ∃ front value tail : String, text = front ++ value ++ tail ∧ IsValue value.toList d ∧
      HasGap front tail fun d => .array (before ++ d :: behind) none := by
  refine h.exists_gap (fun d => .array (before ++ d :: behind) none)
    fun l r harray => ?_
  generalize hds : before ++ d :: behind = ds at harray
  cases harray with
  | emptyArray => simp at hds
  | array hitems =>
    -- the brackets are what stands around the items
    subst hds
    exact hitems.opens.map (Q := Spelled) ['['] [']']
      (f := fun ds => array ds none) fun _ _ _ hds => .array hds

end Draft

/-- **A number is a value**, whatever follows it. -/
theorem Numeral.Spelled.isValue {cs : List Char} {x : Numeral} (h : x.Spelled cs []) :
    Draft.IsValue cs (.leaf x.lexeme) := by
  -- the numeral ends where the text does, so that it is all that was read
  obtain ⟨w, rfl, hw⟩ := h.exists_front
  intro r
  rw [List.append_nil]
  exact .number (hw r)

end Introspect
