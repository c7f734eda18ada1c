import Introspect.Document.Decode
import Introspect.Proofs.Json.Tree

/-!
# References inside references

`TypeRef.decode` counts down from the depth of the draft, so that it ends. The count is never felt:
every reference inside a draft stands inside one of its arrays or objects and is less deep.

* `TypeRef.decode_eq` — a reference is decoded by decoding the references inside it in the same way,
  which is the equation that all further proofs use;
* `Shape.decode_congr`, `Schema.ofMembers_congr`, `Schema.ofItems_congr` — what decoding makes of a
  draft depends on what the decoder of references makes of the parts of that draft and on nothing
  else.
-/

namespace Introspect

/-- **Two decoders agree on everything less deep than `n`.** -/
def AgreeBelow {α : Type} (n : Nat) (f g : Place → Draft → Decoded α) : Prop :=
  ∀ place d, d.depth < n → f place d = g place d

/-! ### Values of a shape -/

/-- Items are decoded alike when each of them is. -/
theorem decodeItems_congr {α : Type} {f g : Draft → Decoded α} {ds : List Draft}
    (h : ∀ d ∈ ds, f d = g d) : decodeItems f ds = decodeItems g ds := by
  induction ds with
  | nil => rfl
  | cons d ds ih =>
    rw [decodeItems, decodeItems, h d (List.mem_cons_self ..),
      ih fun e he => h e (List.mem_cons_of_mem _ he)]

/-- Lists are decoded alike when their items are. -/
theorem decodeList_congr {α : Type} {n : Nat} {f g : Place → Draft → Decoded α}
    (h : AgreeBelow n f g) : AgreeBelow n (decodeList f) (decodeList g) := by
  intro place d hd
  cases d with
  | leaf x => rfl
  | object members ending => rfl
  | array items ending =>
    -- items are less deep than their array
    have hitems (inside : Place) : decodeItems (f inside) items = decodeItems (g inside) items :=
      decodeItems_congr fun e he => h inside e (Nat.lt_trans (Draft.depth_lt_of_mem_items he) hd)
    simp only [decodeList, hitems]

/-- An optional value is decoded alike when the value is, which is not looked at where it is null.
-/
theorem decodeOption_congr {α : Type} {f g : Draft → Decoded α} {d : Draft} (h : f d = g d) :
    decodeOption f d = decodeOption g d := by
  unfold decodeOption
  split
  · rfl
  · rw [h]

variable {ref ref' : RefDecoder} {n : Nat}

/-- A value of any shape is decoded alike when the references inside it are. -/
theorem Shape.decode_congr (h : AgreeBelow n ref ref') :
    ∀ s : Shape, AgreeBelow n (s.decode ref) (s.decode ref')
  | .text | .flag | .word | .modifiers => fun _ _ _ => rfl
  | .typeRef => h
  | .optional s => fun place d hd => decodeOption_congr (Shape.decode_congr h s place d hd)
  | .list s => decodeList_congr (Shape.decode_congr h s)

/-! ### Records -/

namespace Schema

variable {α : Type} (S : Schema α)

/-- Members fill the same slots when their values are decoded alike. -/
theorem decodeMembers_congr (h : AgreeBelow n ref ref') (place : Place)
    {ms : List (Lexeme String × Draft)} (hms : ∀ m ∈ ms, m.2.depth < n) (slots : S.Slots) :
    S.decodeMembers ref place slots ms = S.decodeMembers ref' place slots ms := by
  -- induction on the members; the slots are those that the members before have filled
  induction ms generalizing slots with
  | nil => rfl
  | cons m ms ih =>
    have ih := ih fun m' hm' => hms m' (List.mem_cons_of_mem _ hm')
    have hvalue (f : S.Field) :
        (S.shape f).decode ref place m.2 = (S.shape f).decode ref' place m.2 :=
      Shape.decode_congr h _ place m.2 (hms m (List.mem_cons_self ..))
    simp only [decodeMembers, hvalue, ih]

/-- Items fill the same slots when each is decoded alike by the field at its position. -/
theorem decodeFields_congr (h : AgreeBelow n ref ref') (place : Place) (ending : Option Fault)
    (fs : List S.Field) (index : Nat) (slots : S.Slots) {ds : List Draft}
    (hds : ∀ d ∈ ds, d.depth < n) :
    S.decodeFields ref place ending fs index slots ds =
      S.decodeFields ref' place ending fs index slots ds := by
  -- induction on the fields, of which each takes an item as long as there are some
  induction fs generalizing index slots ds with
  | nil => cases ds <;> rfl
  | cons f fs ih =>
    cases ds with
    | nil => simp only [decodeFields, ih _ _ hds]
    | cons d ds =>
      have ih := fun index slots => ih index slots fun e he => hds e (List.mem_cons_of_mem d he)
      have hvalue : (S.shape f).decode ref place d = (S.shape f).decode ref' place d :=
        Shape.decode_congr h _ place d (hds d (List.mem_cons_self ..))
      simp only [decodeFields, hvalue, ih]

/-- An object holds the same record when its members are decoded alike. -/
theorem ofMembers_congr (h : AgreeBelow n ref ref') (place : Place)
    {ms : List (Lexeme String × Draft)} (hms : ∀ m ∈ ms, m.2.depth < n) (ending : Option Fault) :
    S.ofMembers ref place ms ending = S.ofMembers ref' place ms ending := by
  rw [ofMembers, ofMembers, S.decodeMembers_congr h place hms]

/-- An array holds the same record when its items are decoded alike. -/
theorem ofItems_congr (h : AgreeBelow n ref ref') (place : Place) {ds : List Draft}
    (hds : ∀ d ∈ ds, d.depth < n) (ending : Option Fault) :
    S.ofItems ref place ds ending = S.ofItems ref' place ds ending := by
  rw [ofItems, ofItems, S.decodeFields_congr h place ending _ _ _ hds]

end Schema

/-! ### References to types -/

namespace TypeRef

/-- What is collected from an object are members of the object. -/
theorem mem_of_mem_collect {place : Place} {origin o : Option Origin}
    {ms rest : List (Lexeme String × Draft)} (h : collect place origin ms = .ok (o, rest)) :
    ∀ m ∈ rest, m ∈ ms := by
  induction ms generalizing origin rest with
  | nil =>
    obtain ⟨-, rfl⟩ : origin = o ∧ [] = rest := by simpa [collect] using h
    exact fun m hm => hm
  | cons m ms ih =>
    obtain ⟨k, d⟩ := m
    simp only [collect, Decoded.bind_eq_ok] at h
    obtain ⟨name, -, h⟩ := h
    split at h
    · -- the origin itself is not collected
      split at h
      · cases h
      · obtain ⟨p, -, h⟩ := Decoded.bind_eq_ok.mp h
        exact fun m hm => List.mem_cons_of_mem _ (ih h m hm)
    · -- any other member is, with its draft as it stands
      obtain ⟨-, -, h⟩ := Decoded.bind_eq_ok.mp h
      obtain ⟨⟨p, kept⟩, hkept, h⟩ := Decoded.bind_eq_ok.mp h
      obtain ⟨rfl, rfl⟩ : p = o ∧ (k, d) :: kept = rest := by simpa using h
      exact fun m hm => List.mem_cons.mpr ((List.mem_cons.mp hm).imp id (ih hkept m))

/-- **A reference is decoded alike when the references inside it are.** -/
theorem decodeWith_congr {d : Draft} (h : AgreeBelow d.depth ref ref') (place : Place) :
    decodeWith ref place d = decodeWith ref' place d := by
  cases d with
  | leaf x => rfl
  | object members ending =>
    have hmembers (inside : Place) :
        ofMembers ref inside members ending = ofMembers ref' inside members ending := by
      -- the fields are decoded from what was collected, and that comes from the object itself
      unfold ofMembers
      cases hcollect : collect inside none members with
      | error e => rfl
      | ok found =>
        have hdepth : ∀ m ∈ found.2, m.2.depth < (Draft.object members ending).depth := fun m hm =>
          Draft.depth_lt_of_mem_members (mem_of_mem_collect hcollect m hm)
        simp only [Decoded.ok_bind, TypeInfo.schema.ofMembers_congr h .collected hdepth]
    simp only [decodeWith, hmembers]
  | array items ending =>
    have hitems (inside : Place) :
        ofItems ref inside ending items = ofItems ref' inside ending items := by
      -- the first item is the origin, which holds no reference
      cases items with
      | nil => rfl
      | cons d ds =>
        have hdepth : ∀ e ∈ ds, e.depth < (Draft.array (d :: ds) ending).depth := fun e he =>
          Draft.depth_lt_of_mem_items (List.mem_cons_of_mem d he)
        simp only [ofItems, TypeInfo.schema.ofItems_congr h .collected hdepth]
    simp only [decodeWith, hitems]

/-- The count does not matter as long as it exceeds the depth of the draft. -/
theorem decodeTo_eq {m n : Nat} {d : Draft} (hm : d.depth < m) (hn : d.depth < n)
    (place : Place) : decodeTo m place d = decodeTo n place d := by
  -- induction on one count, for all drafts and the other count
  induction m generalizing n d place with
  | zero => exact absurd hm (Nat.not_lt_zero _)
  | succ m ih =>
    cases n with
    | zero => exact absurd hn (Nat.not_lt_zero _)
    | succ n =>
      rw [decodeTo, decodeTo]
      refine decodeWith_congr ?_ place
      -- both counts go down by one, and so does at least the depth
      intro inside e he
      have hem : e.depth < m := Nat.lt_of_lt_of_le he (Nat.le_of_lt_succ hm)
      have hen : e.depth < n := Nat.lt_of_lt_of_le he (Nat.le_of_lt_succ hn)
      exact ih hem hen inside

/-- **A reference is decoded by decoding the references inside it.** -/
theorem decode_eq (place : Place) (d : Draft) : decode place d = decodeWith decode place d := by
  rw [decode, decodeTo]
  refine decodeWith_congr ?_ place
  -- a part of the draft is less deep, so the count that is left still exceeds its depth
  intro inside e he
  show decodeTo d.depth inside e = decodeTo (e.depth + 1) inside e
  exact decodeTo_eq he (Nat.lt_succ_self _) inside

end TypeRef

end Introspect
