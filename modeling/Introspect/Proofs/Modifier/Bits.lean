import Introspect.Modifier.Keywords

/-!
# Sets of modifiers, bit by bit

Each modifier owns one bit, so asking for it is a bit test (`ModifierSet.has_eq_getLsbD`) and the
operations on sets act on the answers:

* `has_union`, `has_sdiff` — a modifier is in a union or difference as one expects, and `has_single`
  says which sets of one modifier it is in;
* `known_eq_iff` — the twelve answers determine the known bits and are determined by them;
* `foldl_union_single` — the modifiers of a set, taken one by one, give back its known bits;
* `known_or_unknown` — known and unknown bits together are all bits;
* `hasBit_union` and its siblings — the operations act on each of the sixteen bits of the word;
* `ext_hasBit` — a set is determined by its sixteen bits, unknown ones included;
* `known_eq_iff_hasBit`, `unknown_eq_zero_iff` — the twelve lowest bits are the known ones, the
  others are unknown.
-/

namespace Introspect

namespace Modifier

/-- The place of a modifier's bit in the word. -/
def place : Modifier → Nat
  | publicAccess => 0
  | privateAccess => 1
  | protectedAccess => 2
  | static => 3
  | final => 4
  | synchronized => 5
  | volatile => 6
  | transient => 7
  | native => 8
  | interface => 9
  | abstract => 10
  | strict => 11

/-- The places of modifiers are the twelve lowest ones. -/
theorem place_lt (m : Modifier) : m.place < 12 := by
  cases m <;> decide

/-- The bit of a modifier is the one at its place. -/
theorem toBitVec_bit (m : Modifier) : m.bit.toBitVec = BitVec.twoPow 16 m.place := by
  cases m <;> rfl

/-- Every place below twelve belongs to a modifier. -/
theorem exists_place {i : Nat} (h : i < 12) : ∃ m : Modifier, m.place = i := by
  have hall : ∀ j : Fin 12, ∃ m ∈ all, m.place = j := by decide
  obtain ⟨m, -, hm⟩ := hall ⟨i, h⟩
  exact ⟨m, hm⟩

end Modifier

namespace ModifierSet

/-! ### Membership as a bit test -/

/-- The bit of a modifier selects one bit of a word or none. -/
theorem toBitVec_and_bit (b : UInt16) (m : Modifier) :
    (b &&& m.bit).toBitVec = if b.toBitVec.getLsbD m.place then m.bit.toBitVec else 0 := by
  rw [UInt16.toBitVec_and, Modifier.toBitVec_bit, BitVec.and_twoPow]
  rfl

theorem bit_ne_zero (m : Modifier) : m.bit ≠ 0 := by
  cases m <;> decide

/-- **Membership is a bit test.** -/
theorem has_eq_getLsbD (s : ModifierSet) (m : Modifier) :
    s.has m = s.bits.toBitVec.getLsbD m.place := by
  have hand := toBitVec_and_bit s.bits m
  unfold has contains
  rw [bits_single]
  cases h : s.bits.toBitVec.getLsbD m.place with
  | true =>
    -- the bit of `m` is all that is left of `s`
    rw [h, if_pos rfl] at hand
    simpa using UInt16.toBitVec_inj.mp hand
  | false =>
    -- nothing is left of `s`, but the bit of `m` is something
    rw [h, if_neg (by decide)] at hand
    have hzero : s.bits &&& m.bit = 0 := UInt16.toBitVec_inj.mp hand
    simpa [hzero] using (bit_ne_zero m).symm

/-- What a modifier's bit selects from a set: the bit itself when the modifier is in the set,
nothing otherwise. -/
theorem and_bit (s : ModifierSet) (m : Modifier) :
    s.bits &&& m.bit = if s.has m then m.bit else 0 := by
  -- two words are the same when their bits are
  apply UInt16.toBitVec_inj.mp
  rw [toBitVec_and_bit, has_eq_getLsbD]
  split <;> rfl

/-! ### Operations -/

@[simp] theorem has_union (s t : ModifierSet) (m : Modifier) :
    (s ∪ t).has m = (s.has m || t.has m) := by
  simp only [has_eq_getLsbD, bits_union, UInt16.toBitVec_or, BitVec.getLsbD_or]

@[simp] theorem has_sdiff (s t : ModifierSet) (m : Modifier) :
    (s \ t).has m = (s.has m && !t.has m) := by
  have hlt : m.place < 16 := by have := m.place_lt; omega
  simp only [has_eq_getLsbD, bits_sdiff, UInt16.toBitVec_and, UInt16.toBitVec_not,
    BitVec.getLsbD_and, BitVec.getLsbD_not, hlt, decide_true, Bool.true_and]

/-- A set of one modifier has no other one. -/
@[simp] theorem has_single (n m : Modifier) : (single n).has m = decide (n = m) := by
  cases n <;> cases m <;> rfl

/-! ### Known bits -/

/-- The known bits are the twelve lowest ones. -/
theorem getLsbD_knownBits (i : Nat) : knownBits.toBitVec.getLsbD i = decide (i < 12) := by
  by_cases hi : i < 16
  · -- one of the sixteen places of the word
    have hall : ∀ j : Fin 16, knownBits.toBitVec.getLsbD j = decide (j.val < 12) := by decide
    exact hall ⟨i, hi⟩
  · -- beyond the word every bit is clear
    rw [BitVec.getLsbD_of_ge _ _ (by omega)]
    simp only [Bool.false_eq, decide_eq_false_iff_not]
    omega

/-- Of the bits of a set those below twelve are known. -/
theorem getLsbD_known (s : ModifierSet) (i : Nat) :
    s.known.toBitVec.getLsbD i = (s.bits.toBitVec.getLsbD i && decide (i < 12)) := by
  rw [known, UInt16.toBitVec_and, BitVec.getLsbD_and, getLsbD_knownBits]

/-- **The known bits are the modifiers.** -/
theorem known_eq_iff {s t : ModifierSet} : s.known = t.known ↔ ∀ m, s.has m = t.has m := by
  refine ⟨?_, ?_⟩
  · -- each modifier is one bit of the word
    intro h m
    have hbit := congrArg (fun b : UInt16 => b.toBitVec.getLsbD m.place) h
    simpa only [getLsbD_known, m.place_lt, decide_true, Bool.and_true, ← has_eq_getLsbD] using hbit
  · intro h
    apply UInt16.toBitVec_inj.mp
    apply BitVec.eq_of_getLsbD_eq
    intro i _
    rw [getLsbD_known, getLsbD_known]
    by_cases hi : i < 12
    · -- the bit belongs to a modifier
      obtain ⟨m, rfl⟩ := Modifier.exists_place hi
      rw [← has_eq_getLsbD, ← has_eq_getLsbD, h m]
    · simp [hi]

/-- Known and unknown bits together are all bits. -/
theorem known_or_unknown (s : ModifierSet) : s.known ||| s.unknown = s.bits := by
  apply UInt16.toBitVec_inj.mp
  apply BitVec.eq_of_getLsbD_eq
  intro i hi
  simp only [known, unknown, UInt16.toBitVec_or, UInt16.toBitVec_and, UInt16.toBitVec_not,
    BitVec.getLsbD_or, BitVec.getLsbD_and, BitVec.getLsbD_not, hi, decide_true, Bool.true_and]
  -- a bit is masked by `knownBits` or by its complement
  cases s.bits.toBitVec.getLsbD i <;> cases knownBits.toBitVec.getLsbD i <;> rfl

/-! ### All sixteen bits -/

/-- **Has the set the bit at this place of the word**, whether or not it stands for a modifier? -/
def HasBit (s : ModifierSet) (i : Nat) : Prop :=
  s.bits.toBitVec.getLsbD i = true

theorem not_hasBit_empty (i : Nat) : ¬(∅ : ModifierSet).HasBit i := by
  simp [HasBit]

section Bits

variable {s t : ModifierSet} {i : Nat}

@[simp] theorem hasBit_union : (s ∪ t).HasBit i ↔ s.HasBit i ∨ t.HasBit i := by
  simp [HasBit]

@[simp] theorem hasBit_inter : (s ∩ t).HasBit i ↔ s.HasBit i ∧ t.HasBit i := by
  simp [HasBit]

@[simp] theorem hasBit_sdiff : (s \ t).HasBit i ↔ s.HasBit i ∧ ¬t.HasBit i := by
  by_cases hi : i < 16
  · simp [HasBit, hi]
  · -- beyond the word no set has a bit
    have hbeyond (u : ModifierSet) : ¬u.HasBit i := by
      rw [HasBit, BitVec.getLsbD_of_ge _ _ (by omega)]
      exact Bool.false_ne_true
    exact iff_of_false (hbeyond _) fun h => hbeyond s h.1

/-- A symmetric difference has the bits that one set has and the other has not. -/
@[simp] theorem hasBit_symmDiff : (s.symmDiff t).HasBit i ↔ ¬(s.HasBit i ↔ t.HasBit i) := by
  simp only [HasBit, symmDiff, UInt16.toBitVec_xor, BitVec.getLsbD_xor]
  cases s.bits.toBitVec.getLsbD i <;> cases t.bits.toBitVec.getLsbD i <;> decide

/-- The full set has the twelve lowest bits, and no unknown one. -/
@[simp] theorem hasBit_full : full.HasBit i ↔ i < 12 := by
  rw [HasBit, full, getLsbD_knownBits, decide_eq_true_eq]

/-- A set of one modifier has one bit. -/
@[simp] theorem hasBit_single {m : Modifier} : (single m).HasBit i ↔ i = m.place := by
  have hlt : m.place < 16 := by have := m.place_lt; omega
  rw [HasBit, bits_single, Modifier.toBitVec_bit, BitVec.getLsbD_twoPow]
  simp [hlt, eq_comm]

/-- The bits determine the set. -/
theorem ext_hasBit (h : ∀ i, s.HasBit i ↔ t.HasBit i) : s = t := by
  -- there are no bits but the sixteen of the word
  refine ModifierSet.ext (UInt16.toBitVec_inj.mp (BitVec.eq_of_getLsbD_eq fun i _ => ?_))
  exact Bool.eq_iff_iff.mpr (h i)

/-- The complement has the known bits that the set has not. -/
theorem complement_eq (s : ModifierSet) : s.complement = full \ s :=
  ModifierSet.ext (UInt16.and_comm _ _)

/-- **Sets have the same known bits** when they agree on the twelve lowest ones. -/
theorem known_eq_iff_hasBit : s.known = t.known ↔ ∀ i < 12, (s.HasBit i ↔ t.HasBit i) := by
  -- the known bits are what a set shares with the full set
  have hmask (u : ModifierSet) : (⟨u.known⟩ : ModifierSet) = u ∩ full := rfl
  refine ⟨fun h i hi => ?_, fun h => ?_⟩
  · have hbit : (s ∩ full).HasBit i ↔ (t ∩ full).HasBit i := by rw [← hmask, ← hmask, h]
    simpa [hi] using hbit
  · have hsets : s ∩ full = t ∩ full := by
      refine ext_hasBit fun i => ?_
      rw [hasBit_inter, hasBit_inter, hasBit_full]
      exact and_congr_left fun hi => h i hi
    rw [← hmask, ← hmask] at hsets
    exact congrArg bits hsets

/-- **A set has no unknown bits** when it has none of the four highest ones. -/
theorem unknown_eq_zero_iff : s.unknown = 0 ↔ ∀ i, 12 ≤ i → ¬s.HasBit i := by
  -- the unknown bits are what the full set leaves of a set
  have hmask : (⟨s.unknown⟩ : ModifierSet) = s \ full := rfl
  refine ⟨fun h i hi hbit => ?_, fun h => ?_⟩
  · have hunknown : (s \ full).HasBit i := by simpa using ⟨hbit, hi⟩
    rw [← hmask, h] at hunknown
    exact not_hasBit_empty i hunknown
  · have hempty : s \ full = ∅ := by
      refine ext_hasBit fun i => iff_of_false ?_ (not_hasBit_empty i)
      simpa using fun hbit => Nat.lt_of_not_le fun hi => h i hi hbit
    rw [← hmask] at hempty
    exact congrArg bits hempty

end Bits

/-! ### Taking a set apart -/

/-- The bits of listed modifiers. -/
def mask (ms : List Modifier) : UInt16 :=
  ms.foldr (fun m bits => m.bit ||| bits) 0

/-- The bits of all modifiers together are the known bits. -/
theorem mask_all : mask Modifier.all = knownBits := by decide

/-- Adding those of the listed modifiers that are in `s` adds the bits that `s` and the list
share. -/
theorem foldl_union_filter (s : ModifierSet) (ms : List Modifier) (t : ModifierSet) :
    ((ms.filter s.has).map single).foldl (· ∪ ·) t = t ∪ ⟨s.bits &&& mask ms⟩ := by
  -- by the list, with the set `t` that has been built so far
  induction ms generalizing t with
  | nil => ext; simp [mask]
  | cons m ms ih =>
    have hdistrib : s.bits &&& mask (m :: ms) = (s.bits &&& m.bit) ||| (s.bits &&& mask ms) := by
      apply UInt16.toBitVec_inj.mp
      simp only [mask, List.foldr_cons, UInt16.toBitVec_and, UInt16.toBitVec_or]
      exact BitVec.and_or_distrib_left
    rw [hdistrib, and_bit]
    cases hm : s.has m with
    | true =>
      -- `m` is added first, then the rest of the list
      rw [List.filter_cons_of_pos hm, List.map_cons, List.foldl_cons, ih]
      ext
      simp [UInt16.or_assoc]
    | false =>
      rw [List.filter_cons_of_neg (by simp [hm]), ih]
      simp

/-- **The modifiers of a set give back its known bits.** -/
theorem foldl_union_single (s t : ModifierSet) :
    (s.toList.map single).foldl (· ∪ ·) t = t ∪ ⟨s.known⟩ := by
  rw [toList, foldl_union_filter, mask_all, known]

end ModifierSet

end Introspect
