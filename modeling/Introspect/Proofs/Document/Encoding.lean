import Introspect.Document.Kind
import Introspect.Proofs.Json.Compact
import Introspect.Proofs.Json.Sorted
import Introspect.Proofs.Json.Tree
import Mathlib.Data.List.Nodup

/-!
# What is written

The trees of descriptors, seen from outside: which members they have, what they consist of, and that
their compact texts are documents.

* `Schema.mem_members_iff` — the members of a record are those of the fields that are written;
* `TypeRef.encode_eq` — a reference has its origin before the members of its information, none of
  which has the origin's name;
* `TypeRef.induction_on_fields` — induction over the references inside a reference, which are less
  deep;
* `Kind.isEncoded_encode` — trees of descriptors consist of strings, truth values and words, and
  repeat no name;
* `Kind.denoted_write` — the text of a descriptor denotes its tree.
-/

namespace Introspect

/-! ### Members -/

namespace Schema

variable {α : Type} {S : Schema α} {a : α}

/-- The members of a record are the fields that are written. -/
theorem mem_members_iff {m : String × Json} :
    m ∈ S.members a ↔
      ∃ f, S.isWritten a f = true ∧ m = (S.key f, (S.shape f).encode (S.get a f)) := by
  rw [members, List.mem_map]
  refine ⟨?_, ?_⟩
  · rintro ⟨f, hf, rfl⟩
    exact ⟨f, (List.mem_filter.mp hf).2, rfl⟩
  · rintro ⟨f, hf, rfl⟩
    exact ⟨f, List.mem_filter.mpr ⟨S.mem_fields f, hf⟩, rfl⟩

/-- A field that is written is less deep than the record. -/
theorem depth_lt_of_isWritten {f : S.Field} (h : S.isWritten a f = true) :
    ((S.shape f).encode (S.get a f)).depth < (S.encode a).depth :=
  Json.depth_lt_of_mem_members (mem_members_iff.mpr ⟨f, h, rfl⟩)

end Schema

namespace TypeRef

/-- No field of the information has the name of the origin. -/
theorem key_ne_originKey (f : TypeInfo.schema.Field) : TypeInfo.schema.key f ≠ originKey := by
  cases f <;> decide

/-- The tree of a reference is an object with the origin before the members of the information. -/
theorem encode_eq (t : TypeRef) :
    t.encode = .object ((originKey, .string t.origin.word) :: TypeInfo.schema.members t.info) := by
  obtain ⟨origin, info⟩ := t
  rw [TypeRef.encode, TypeInfo.members_eq]

/-- None of the members of the information is taken for the origin. -/
theorem fst_ne_originKey {x : TypeInfo} {m : String × Json} (h : m ∈ TypeInfo.schema.members x) :
    m.1 ≠ originKey := by
  obtain ⟨f, -, rfl⟩ := Schema.mem_members_iff.mp h
  exact key_ne_originKey f

/-- **Induction over the references inside a reference**: those no deeper than one of the fields
that are written. -/
@[elab_as_elim]
theorem induction_on_fields {motive : TypeRef → Prop}
    (step : ∀ t : TypeRef,
      (∀ f, TypeInfo.schema.isWritten t.info f = true → ∀ u : TypeRef,
        u.encode.depth ≤
          ((TypeInfo.schema.shape f).encode (TypeInfo.schema.get t.info f)).depth → motive u) →
        motive t) (t : TypeRef) : motive t := by
  -- by the depth of the trees: a field is less deep than the reference it stands in
  induction hn : t.encode.depth using Nat.strongRecOn generalizing t with
  | ind n ih =>
    subst hn
    refine step t ?_
    intro f hf u hu
    have hmember := List.mem_cons_of_mem (originKey, Json.string t.origin.word)
      (Schema.mem_members_iff.mpr ⟨f, hf, rfl⟩)
    have hlt : u.encode.depth < t.encode.depth := by
      rw [encode_eq t]
      exact Nat.lt_of_le_of_lt hu (Json.depth_lt_of_mem_members hmember)
    exact ih u.encode.depth hlt u rfl

end TypeRef

/-! ### Trees -/

/-- **What a descriptor may be written as**: strings, truth values, words of 16 bits, `null`, and
arrays and objects of these, no object repeating a name. -/
inductive Json.IsEncoded : Json → Prop
  | null : IsEncoded .null
  | bool (b : Bool) : IsEncoded (.bool b)
  | string (s : String) : IsEncoded (.string s)
  | word (w : UInt16) : IsEncoded (.nat w.toNat)
  | array {js : List Json} (hitems : ∀ j ∈ js, IsEncoded j) : IsEncoded (.array js)
  | object {ms : List (String × Json)} (hkeys : (ms.map Prod.fst).Nodup)
      (hmembers : ∀ m ∈ ms, IsEncoded m.2) : IsEncoded (.object ms)

/-- All numbers in it are natural numbers of 64 bits. -/
theorem Json.IsEncoded.hasNaturals {j : Json} (h : j.IsEncoded) : j.HasNaturals := by
  induction h with
  | null | bool | string => trivial
  | word w => exact ⟨w.toNat, Nat.lt_trans w.toNat_lt_size (by decide), rfl⟩
  | array _ ih => exact hasNaturals_array_iff.mpr ih
  | object _ _ ih => exact hasNaturals_object_iff.mpr ih

/-- No name is repeated in it. -/
theorem Json.IsEncoded.hasUniqueKeys {j : Json} (h : j.IsEncoded) : j.HasUniqueKeys := by
  -- an object lists its fields, and no two of them have one key
  induction h with
  | null | bool | string | word => trivial
  | array _ ih => exact hasUniqueKeys_array_iff.mpr ih
  | object hkeys _ ih => exact hasUniqueKeys_object_iff.mpr ⟨hkeys, ih⟩

/-- **What a value is written as**, if the references in it are. -/
theorem Shape.isEncoded_encode {s : Shape} {v : s.Value}
    (href : ∀ t : TypeRef, t.encode.depth ≤ (s.encode v).depth → t.encode.IsEncoded) :
    (s.encode v).IsEncoded := by
  induction s with
  | text | modifiers => exact .string _
  | flag => exact .bool v
  | word => exact .word v
  | typeRef => exact href v (Nat.le_refl _)
  | optional s ih =>
    cases v with
    | none => exact .null
    | some x => exact ih href
  | list s ih =>
    refine .array ?_
    intro j hj
    obtain ⟨x, -, rfl⟩ := List.mem_map.mp hj
    -- references inside an element are no deeper than the list
    exact ih fun t ht => href t (Nat.le_trans ht (Nat.le_of_lt (Json.depth_lt_of_mem_items hj)))

/-- The members of a record have the names of different fields. -/
theorem Schema.nodup_fst_members {α : Type} (S : Schema α) (a : α) :
    ((S.members a).map Prod.fst).Nodup := by
  rw [members, List.map_map]
  exact (S.nodup_fields.filter _).map S.key_injective

/-- **What a reference is written as**: an object whose members are its origin and what its fields
are written as. -/
theorem TypeRef.isEncoded_encode (t : TypeRef) : t.encode.IsEncoded := by
  induction t using TypeRef.induction_on_fields with
  | step t ih =>
    rw [encode_eq]
    refine .object ?_ (List.forall_mem_cons.mpr ⟨.string _, ?_⟩)
    · -- no field has the name of the origin
      refine List.nodup_cons.mpr ⟨?_, TypeInfo.schema.nodup_fst_members t.info⟩
      intro h
      obtain ⟨m, hm, hname⟩ := List.mem_map.mp h
      exact fst_ne_originKey hm hname
    · -- the fields are less deep than the reference, so the induction covers the references in them
      intro m hm
      obtain ⟨f, hf, rfl⟩ := Schema.mem_members_iff.mp hm
      exact Shape.isEncoded_encode (ih f hf)

/-- **What a record is written as.** -/
theorem Schema.isEncoded_encode {α : Type} (S : Schema α) (a : α) : (S.encode a).IsEncoded := by
  refine .object (S.nodup_fst_members a) ?_
  intro m hm
  obtain ⟨f, -, rfl⟩ := mem_members_iff.mp hm
  exact Shape.isEncoded_encode fun t _ => t.isEncoded_encode

/-- **What a descriptor is written as.** -/
theorem Kind.isEncoded_encode (k : Kind) (d : k.Value) : (k.encode d).IsEncoded := by
  cases k with
  | typeRef => exact TypeRef.isEncoded_encode d
  | modifiers => exact .string _
  | _ => exact Schema.isEncoded_encode _ d

/-- **What is written is a document** that denotes the tree of the descriptor. -/
theorem Kind.denoted_write (k : Kind) (d : k.Value) : Json.Denoted (k.write d) (k.encode d) :=
  Json.denoted_text (k.isEncoded_encode d).hasNaturals

end Introspect
