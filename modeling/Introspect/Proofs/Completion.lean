import Introspect.Completion
import Mathlib.Data.List.Infix
import Mathlib.Order.Bounds.Basic

/-!
# What words share

Words are compared as characters, and cut as bytes. That the two go together is owed to UTF-8, in
which no character starts with another one: texts begin alike just when their bytes do
(`Text.isPrefix_iff_bytes`).

* `Completion.common` — what two lists have in common from the front, of characters as of bytes;
* `Completion.toList_shared` — the part that is cut from the first word has the characters that both
  words have in common, and is as long as the account of the comparison says;
* `Completion.shared_isGreatest` — so it ends at the last boundary between characters up to which
  the bytes of the words agree, and it is the longest text with which both words begin.

Many words are taken in one after the other, and in the end it is as if they had been compared all
at once.

* `Completion.isPrefix_sharedByAll_iff` — a text begins all words just when it begins what they have
  in common;
* `Completion.sharedByAll_isPrefix_of_subset` — so more words have less in common, and their order
  does not matter;
* `Completion.sharedByAll_isGreatest` — the results on the way, and the last of them.
-/

namespace Introspect

/-! ### Bytes -/

namespace Text

/-- **The bytes of a text** in UTF-8. -/
def bytes (s : String) : List UInt8 :=
  s.toByteArray.data.toList

theorem bytes_append (s t : String) : bytes (s ++ t) = bytes s ++ bytes t := by
  simp [bytes]

theorem length_bytes (s : String) : (bytes s).length = s.utf8ByteSize := by
  rw [bytes, Array.length_toList, ByteArray.size_data, String.size_toByteArray]

/-- **Texts begin alike just when their bytes do.** -/
theorem isPrefix_iff_bytes {s t : String} : s.toList <+: t.toList ↔ bytes s <+: bytes t := by
  refine ⟨?_, ?_⟩
  · rintro ⟨r, hr⟩
    have ht : t = s ++ String.ofList r := by
      rw [← String.ofList_toList (s := t), ← hr, String.ofList_append, String.ofList_toList]
    rw [ht, bytes_append]
    exact List.prefix_append _ _
  · rintro ⟨r, hr⟩
    -- no character starts with another one, so the bytes of `t` are decoded in the same way
    refine List.isPrefix_of_utf8Encode_append_eq_utf8Encode ⟨r.toArray⟩ ?_
    rw [String.utf8Encode_toList, String.utf8Encode_toList]
    refine ByteArray.ext (Array.toList_inj.mp ?_)
    rw [ByteArray.data_append, Array.toList_append]
    exact hr

end Text

/-! ### Common beginnings -/

namespace Completion

section Common

variable {α : Type} [DecidableEq α]

/-- **What two lists have in common** from the front. -/
def common : List α → List α → List α
  | a :: as, b :: bs => if a = b then a :: common as bs else []
  | _, _ => []

/-- **The greatest list with which both begin.** -/
theorem isPrefix_common_iff {l as bs : List α} : l <+: common as bs ↔ l <+: as ∧ l <+: bs := by
  -- by the first list, comparing one element of each
  induction as generalizing l bs with
  | nil =>
    refine ⟨fun h => ⟨h, h.trans List.nil_prefix⟩, And.left⟩
  | cons a as ih =>
    cases bs with
    | nil => exact ⟨fun h => ⟨h.trans List.nil_prefix, h⟩, And.right⟩
    | cons b bs =>
      cases l with
      | nil => exact iff_of_true List.nil_prefix ⟨List.nil_prefix, List.nil_prefix⟩
      | cons c l =>
        rw [common, List.cons_prefix_cons, List.cons_prefix_cons]
        split
        · next hab =>
          rw [List.cons_prefix_cons, ih, hab]
          exact and_and_left
        · next hab =>
          -- no element is both of the two that differ
          refine iff_of_false (fun h => List.cons_ne_nil c l (List.prefix_nil.mp h)) ?_
          rintro ⟨⟨hca, -⟩, hcb, -⟩
          exact hab (hca.symm.trans hcb)

theorem common_isPrefix_left (as bs : List α) : common as bs <+: as :=
  (isPrefix_common_iff.mp (List.prefix_refl _)).1

theorem common_isPrefix_right (as bs : List α) : common as bs <+: bs :=
  (isPrefix_common_iff.mp (List.prefix_refl _)).2

theorem common_comm (as bs : List α) : common as bs = common bs as := by
  -- each begins the other, so they are equally long
  have h {as bs : List α} : common as bs <+: common bs as :=
    isPrefix_common_iff.mpr ⟨common_isPrefix_right as bs, common_isPrefix_left as bs⟩
  exact h.eq_of_length_le h.length_le

/-- No list with which both begin is longer. -/
theorem isGreatest_common (as bs : List α) :
    IsGreatest {n | ∃ l, l <+: as ∧ l <+: bs ∧ l.length = n} (common as bs).length := by
  refine ⟨⟨common as bs, common_isPrefix_left as bs, common_isPrefix_right as bs, rfl⟩, ?_⟩
  rintro n ⟨l, has, hbs, rfl⟩
  exact (isPrefix_common_iff.mpr ⟨has, hbs⟩).length_le

end Common

/-! ### The comparison -/

/-- **The comparison accounts for the characters in common.** -/
theorem partingFrom_eq (done as bs : List Char) :
    partingFrom (String.ofList done).rawEndPos as bs =
      (String.ofList (done ++ common as bs)).rawEndPos := by
  -- by the first word; `done` are the characters that have been found equal
  induction as generalizing done bs with
  | nil => rw [partingFrom, common, List.append_nil] <;> simp
  | cons a as ih =>
    cases bs with
    | nil => rw [partingFrom, common, List.append_nil] <;> simp
    | cons b bs =>
      rw [partingFrom, common]
      split
      · rw [← rawEndPos_concat, ih, List.append_assoc, List.singleton_append]
      · rw [List.append_nil]

/-- The words part behind what they have in common. -/
theorem parting_eq (one two : String) :
    parting one two = (String.ofList (common one.toList two.toList)).rawEndPos :=
  partingFrom_eq [] one.toList two.toList

/-- **What is cut from the first word** are the characters that both have in common. -/
theorem toList_shared (one two : String) :
    (shared one two).toList = common one.toList two.toList := by
  obtain ⟨rest, hrest⟩ := common_isPrefix_left one.toList two.toList
  -- the parting is a boundary of the first word, and splits it into what is shared and the rest
  let p : one.Pos := ⟨parting one two, isValid_parting one two⟩
  have hsplits : p.Splits (String.ofList (common one.toList two.toList)) (String.ofList rest) := by
    refine ⟨?_, parting_eq one two⟩
    rw [← String.ofList_append, hrest, String.ofList_toList]
  have hshared : shared one two = String.ofList (common one.toList two.toList) := by
    refine String.toByteArray_inj.mp ?_
    rw [hsplits.toByteArray_left_eq]
    rfl
  rw [hshared, String.toList_ofList]

/-- The comparison counts the bytes of what is shared. -/
theorem byteIdx_parting (one two : String) :
    (parting one two).byteIdx = (shared one two).utf8ByteSize := by
  rw [parting_eq, String.byteIdx_rawEndPos, ← toList_shared, String.ofList_toList]

/-! ### Boundaries -/

/-- The boundaries between the characters of a text are the ends of the texts with which it begins.
-/
theorem isValid_iff_exists_isPrefix {s : String} {n : Nat} :
    (⟨n⟩ : String.Pos.Raw).IsValid s ↔
      ∃ t : String, t.toList <+: s.toList ∧ t.utf8ByteSize = n := by
  rw [String.Pos.Raw.isValid_iff_exists_append]
  refine ⟨?_, ?_⟩
  · rintro ⟨t, r, rfl, hn⟩
    refine ⟨t, ?_, (congrArg String.Pos.Raw.byteIdx hn).symm⟩
    rw [String.toList_append]
    exact List.prefix_append _ _
  · rintro ⟨t, ⟨r, hr⟩, rfl⟩
    refine ⟨t, String.ofList r, ?_, rfl⟩
    rw [← String.ofList_toList (s := s), ← hr, String.ofList_append, String.ofList_toList]

/-- What two words share begins both, and everything that begins both begins it. -/
theorem isPrefix_shared_iff {one two s : String} :
    s.toList <+: (shared one two).toList ↔ s.toList <+: one.toList ∧ s.toList <+: two.toList := by
  rw [toList_shared]
  exact isPrefix_common_iff

theorem shared_comm (one two : String) : shared one two = shared two one := by
  rw [← String.toList_inj, toList_shared, toList_shared, common_comm]

/-- **The last boundary up to which the bytes agree** is where the shared part ends. -/
theorem isGreatest_utf8ByteSize_shared (one two : String) :
    IsGreatest {n | (⟨n⟩ : String.Pos.Raw).IsValid one ∧
        n ≤ (common (Text.bytes one) (Text.bytes two)).length} (shared one two).utf8ByteSize := by
  obtain ⟨hone, htwo⟩ := isPrefix_shared_iff.mp (List.prefix_refl (shared one two).toList)
  refine ⟨⟨isValid_iff_exists_isPrefix.mpr ⟨_, hone, rfl⟩, ?_⟩, ?_⟩
  · -- both texts begin with its bytes
    rw [← Text.length_bytes]
    have hcommon := isPrefix_common_iff.mpr
      ⟨Text.isPrefix_iff_bytes.mp hone, Text.isPrefix_iff_bytes.mp htwo⟩
    exact hcommon.length_le
  · rintro n ⟨hvalid, hn⟩
    obtain ⟨s, hs, rfl⟩ := isValid_iff_exists_isPrefix.mp hvalid
    rw [← Text.length_bytes] at hn ⊢
    rw [← Text.length_bytes]
    -- up to a boundary that is no later the second word has the same bytes, hence characters
    have hcommon := List.prefix_of_prefix_length_le (Text.isPrefix_iff_bytes.mp hs)
      (common_isPrefix_left (Text.bytes one) (Text.bytes two)) hn
    have htwo := Text.isPrefix_iff_bytes.mpr (hcommon.trans (common_isPrefix_right _ _))
    exact (Text.isPrefix_iff_bytes.mp (isPrefix_shared_iff.mpr ⟨hs, htwo⟩)).length_le

/-- **The longest text with which both words begin.** The comparison ends at a boundary between two
characters of the first word, so that cutting there cannot fail; of the boundaries up to which the
bytes of both words agree it is the last. What is cut off there begins both words, everything that
begins both begins it, and the order of the words does not matter. -/
theorem shared_isGreatest (one two : String) :
    (parting one two).IsValid one ∧ (parting one two).byteIdx = (shared one two).utf8ByteSize ∧
      (∃ m, IsGreatest {n | ∃ l, l <+: Text.bytes one ∧ l <+: Text.bytes two ∧ l.length = n} m ∧
        IsGreatest {n | (⟨n⟩ : String.Pos.Raw).IsValid one ∧ n ≤ m}
          (shared one two).utf8ByteSize) ∧
      (shared one two).toList <+: one.toList ∧ (shared one two).toList <+: two.toList ∧
      (∀ s : String, s.toList <+: one.toList → s.toList <+: two.toList →
        s.toList <+: (shared one two).toList) ∧
      shared one two = shared two one := by
  obtain ⟨hone, htwo⟩ := isPrefix_shared_iff.mp (List.prefix_refl (shared one two).toList)
  refine ⟨isValid_parting one two, byteIdx_parting one two, ?_, hone, htwo, ?_, shared_comm one two⟩
  · exact ⟨_, isGreatest_common _ _, isGreatest_utf8ByteSize_shared one two⟩
  · intro s hs hs'
    exact isPrefix_shared_iff.mpr ⟨hs, hs'⟩

/-- Two letters whose first bytes are the same have nothing in common. -/
example : shared "é" "è" = "" ∧ (common (Text.bytes "é") (Text.bytes "è")).length = 1 := by
  decide

/-! ### Many words -/

/-- What begins the result of taking in words begins each of them, and the other way round. -/
theorem isPrefix_foldl_shared_iff {word s : String} {words : List String} :
    s.toList <+: (words.foldl shared word).toList ↔
      ∀ w ∈ word :: words, s.toList <+: w.toList := by
  induction words generalizing word with
  | nil => rw [List.foldl_nil, List.forall_mem_singleton]
  | cons next words ih =>
    -- the first two words have become one, which begins with what both begin with
    rw [List.foldl_cons, ih, List.forall_mem_cons, isPrefix_shared_iff, List.forall_mem_cons,
      List.forall_mem_cons, and_assoc]

/-- **The greatest text with which all words begin.** -/
theorem isPrefix_sharedByAll_iff {words : List String} (hne : words ≠ []) {s : String} :
    s.toList <+: (sharedByAll words).toList ↔ ∀ w ∈ words, s.toList <+: w.toList := by
  cases words with
  | nil => exact absurd rfl hne
  | cons word words => exact isPrefix_foldl_shared_iff

/-- All words begin with what they have in common. -/
theorem sharedByAll_isPrefix {words : List String} (hne : words ≠ []) :
    ∀ w ∈ words, (sharedByAll words).toList <+: w.toList :=
  (isPrefix_sharedByAll_iff hne).mp (List.prefix_refl _)

/-- More words have less in common. -/
theorem sharedByAll_isPrefix_of_subset {words more : List String} (hne : words ≠ [])
    (h : words ⊆ more) : (sharedByAll more).toList <+: (sharedByAll words).toList := by
  have hne' : more ≠ [] := by
    rintro rfl
    exact hne (List.subset_nil.mp h)
  exact (isPrefix_sharedByAll_iff hne).mpr fun w hw => sharedByAll_isPrefix hne' w (h hw)

/-- Nothing else matters than which words there are. -/
theorem sharedByAll_congr {words others : List String} (hne : words ≠ [])
    (h : ∀ w, w ∈ others ↔ w ∈ words) : sharedByAll others = sharedByAll words := by
  have hne' : others ≠ [] := by
    obtain ⟨w, hw⟩ := List.exists_mem_of_ne_nil words hne
    exact List.ne_nil_of_mem ((h w).mpr hw)
  -- each begins the other, so they are the same
  have hle := sharedByAll_isPrefix_of_subset hne fun w => (h w).mpr
  have hge := sharedByAll_isPrefix_of_subset hne' fun w => (h w).mp
  exact String.toList_inj.mp (hle.eq_of_length_le hge.length_le)

/-- The results on the way are those of a scan. -/
theorem stepsFrom_eq_scanl (result : String) (words : List String) :
    stepsFrom result words = words.scanl shared result := by
  induction words generalizing result with
  | nil => rw [stepsFrom, List.scanl_nil]
  | cons word words ih => rw [stepsFrom, ih, List.scanl_cons]

/-- **The results on the way** are what the words so far have in common. -/
theorem steps_eq_map (words : List String) :
    steps words = (List.range words.length).map fun k => sharedByAll (words.take (k + 1)) := by
  cases words with
  | nil => rfl
  | cons word words =>
    rw [steps, stepsFrom_eq_scanl]
    -- at each place stands the result for the words up to it
    refine List.ext_getElem (by simp) fun k _ _ => ?_
    rw [List.getElem_scanl, List.getElem_map, List.getElem_range, List.take_succ_cons]
    rfl

/-- One more word leaves a beginning of the result before it. -/
theorem isChain_steps (words : List String) :
    (steps words).IsChain fun before after => after.toList <+: before.toList := by
  rw [steps_eq_map, List.isChain_iff_getElem]
  intro k hk
  rw [List.getElem_map, List.getElem_map, List.getElem_range, List.getElem_range]
  refine sharedByAll_isPrefix_of_subset ?_ (List.take_prefix_take_left (Nat.le_succ _)).subset
  -- the first word has been taken in
  have hlt : k + 1 < words.length := by simpa using hk
  refine List.ne_nil_of_length_pos ?_
  rw [List.length_take]
  omega

/-- **Completion over many words.** The words are taken in one after the other. After each of them
the result is what the words so far have in common, a beginning of the result before it. The last
result is the longest text with which all words begin, so neither the order of the words matters nor
whether some are there twice. -/
theorem sharedByAll_isGreatest {words : List String} (hne : words ≠ []) :
    steps words = (List.range words.length).map (fun k => sharedByAll (words.take (k + 1))) ∧
      (steps words).getLast? = some (sharedByAll words) ∧
      (steps words).IsChain (fun before after => after.toList <+: before.toList) ∧
      (∀ w ∈ words, (sharedByAll words).toList <+: w.toList) ∧
      (∀ s : String, (∀ w ∈ words, s.toList <+: w.toList) →
        s.toList <+: (sharedByAll words).toList) ∧
      (∀ others : List String, others.Perm words → sharedByAll others = sharedByAll words) ∧
      ∀ others : List String, (∀ w, w ∈ others ↔ w ∈ words) →
        sharedByAll others = sharedByAll words := by
  refine ⟨steps_eq_map words, ?_, isChain_steps words, ?_, ?_, ?_, ?_⟩
  · -- in the end all words have been taken in
    obtain ⟨n, hn⟩ := Nat.exists_eq_succ_of_ne_zero (List.length_pos_iff.mpr hne).ne'
    rw [steps_eq_map, hn, List.range_succ, List.map_append, List.map_singleton,
      List.getLast?_concat, List.take_of_length_le hn.le]
  · exact sharedByAll_isPrefix hne
  · exact fun s => (isPrefix_sharedByAll_iff hne).mpr
  · exact fun others hperm => sharedByAll_congr hne fun w => hperm.mem_iff
  · exact fun others => sharedByAll_congr hne

/-- Three words of which the last parts from the others inside the bytes of a letter; the same words
in another order, one of them twice. -/
theorem sharedByAll_isGreatest_accents :
    ["aéb", "aéc", "aè"] ≠ [] ∧ steps ["aéb", "aéc", "aè"] = ["aéb", "aé", "a"] ∧
      sharedByAll ["aè", "aéc", "aéb", "aéc"] = sharedByAll ["aéb", "aéc", "aè"] ∧
      (sharedByAll ["aéb", "aéc", "aè"]).toList <+: "aè".toList := by
  have hne : ["aéb", "aéc", "aè"] ≠ [] := List.cons_ne_nil _ _
  obtain ⟨-, -, -, hprefix, -, -, hothers⟩ := sharedByAll_isGreatest hne
  refine ⟨hne, by decide, hothers _ ?_, hprefix _ (by decide)⟩
  intro w
  simp only [List.mem_cons, List.not_mem_nil, or_false]
  tauto

end Completion

end Introspect
