import Introspect.Modifier.Change
import Introspect.Proofs.Modifier.Grammar
import Introspect.Proofs.Modifier.Keywords

/-!
# Runs of changes and the bits that no modifier stands for

A set of modifiers keeps the bits that stand for no modifier, some changes let more of them in, and
others drop them all. None of this is ever seen in what is rendered: every change acts on each bit
apart from the others, so an unknown bit has no way to reach a known one.

* `ModifierSet.Change.Refused`, `ModifierSet.change_eq_error_iff` — which changes are refused; it is
  up to the change alone, not to the set;
* `ModifierSet.hasBit_after_congr` — a bit after a change is settled by the same bit before it;
* `ModifierSet.Change.Brings`, `ModifierSet.hasBit_after_unknown` — an unknown bit after a change
  was there before it, or the change brought it;
* `ModifierSet.unknown_after` — some changes leave no unknown bit;
* `ModifierSet.hasBit_run_congr`, `ModifierSet.hasBit_run_unknown` — the same for runs, by induction
  on the changes;
* `ModifierSet.run_hides_unknown` — sets that differ in unknown bits only are rendered alike after
  every step of every run.
-/

namespace Introspect.ModifierSet

/-! ### What changes do, said of the changes alone -/

namespace Change

/-- **A bit that a change may bring**, unless it stands for a modifier: one of the argument that is
joined to the set or flipped in it, or one of what some part of a text stands for. No other change
brings any, whatever its argument. -/
def Brings (i : Nat) : Change → Prop
  | union t | symmDiff t | set t true => t.HasBit i
  | takeText text => ∃ part ∈ trimmedParts text, ∃ u, PartDenotes part u ∧ u.HasBit i
  | _ => False

/-- **A change that is refused**: to a word with an unknown bit, to a name that is no modifier's, or
to a text that has a part which stands for nothing. -/
def Refused : Change → Prop
  | takeKnown bits => ∃ i, 12 ≤ i ∧ (⟨bits⟩ : ModifierSet).HasBit i
  | takeConstant name => ∀ m : Modifier, m.constant ≠ name
  | takeText text => text.toList.all Text.isBlank = false ∧
      ∃ part ∈ trimmedParts text, ∀ u, ¬PartDenotes part u
  | _ => False

/-- **A change that leaves no unknown bit**, unless it is refused. -/
def DropsUnknown : Change → Prop
  | complement | clear | fill | takeFlags _ | takeKnown _ | takeConstant _ => True
  | _ => False

end Change

variable {s t u : ModifierSet} {c : Change} {i : Nat}

/-! ### Outcomes -/

/-- A word is taken as it is, if it has no unknown bits. -/
theorem ofKnown?_eq_some_iff {bits : UInt16} :
    ofKnown? bits = some u ↔ u = ⟨bits⟩ ∧ u.unknown = 0 := by
  rw [ofKnown?, Option.ite_none_right_eq_some, Option.some.injEq]
  refine ⟨?_, ?_⟩
  · rintro ⟨hunknown, rfl⟩
    exact ⟨rfl, hunknown⟩
  · rintro ⟨rfl, hunknown⟩
    exact ⟨hunknown, rfl⟩

/-- A word that has an unknown bit is not taken. -/
theorem ofKnown?_eq_none_iff {bits : UInt16} :
    ofKnown? bits = none ↔ ∃ i, 12 ≤ i ∧ (⟨bits⟩ : ModifierSet).HasBit i := by
  have hunknown : (⟨bits⟩ : ModifierSet).unknown = 0 ↔ _ := unknown_eq_zero_iff
  rw [ofKnown?, ite_eq_right_iff]
  refine ⟨fun h => ?_, ?_⟩
  · by_contra hnone
    exact absurd (h (hunknown.mpr fun i hi hbit => hnone ⟨i, hi, hbit⟩)) (Option.some_ne_none _)
  · rintro ⟨i, hi, hbit⟩ h
    exact absurd hbit (hunknown.mp h i hi)

/-- **A change is refused for what it is**, whatever set it is made to. -/
theorem change_eq_error_iff : (∃ r, s.change c = .error r) ↔ c.Refused := by
  -- three kinds of change can be refused, each for what it takes
  cases c with
  | takeKnown bits =>
    refine Iff.trans ?_ ofKnown?_eq_none_iff
    rw [change]
    cases ofKnown? bits <;> simp
  | takeConstant name =>
    refine Iff.trans ?_ Modifier.ofConstant?_eq_none_iff
    rw [change]
    cases Modifier.ofConstant? name <;> simp
  | takeText text =>
    refine Iff.trans ?_ exists_ofText_eq_error_iff
    rw [change]
    cases ofText text <;> simp
  | _ => exact iff_of_false (fun ⟨_, h⟩ => nomatch h) id

/-- What may be refused leads to what it reads, if it does read something. -/
theorem change_takeKnown_eq_ok {bits : UInt16} (h : s.change (.takeKnown bits) = .ok u) :
    ofKnown? bits = some u := by
  rw [change] at h
  split at h
  · next v hv => exact Except.ok.inj h ▸ hv
  · cases h

/-- A name that is taken leads to the set of one modifier. -/
theorem change_takeConstant_eq_ok {name : String} (h : s.change (.takeConstant name) = .ok u) :
    ∃ m : Modifier, u = single m := by
  rw [change] at h
  split at h
  · next m _ => exact ⟨m, (Except.ok.inj h).symm⟩
  · cases h

/-- A text that is taken leads to the set that it is read as. -/
theorem change_takeText_eq_ok {text : String} (h : s.change (.takeText text) = .ok u) :
    ofText text = .ok u := by
  rw [change] at h
  split at h
  · next v hv => exact Except.ok.inj h ▸ hv
  · cases h

/-- A refused change leaves the set as it was, all its bits included. -/
theorem after_of_refused (h : c.Refused) : s.after c = s := by
  obtain ⟨r, hr⟩ := change_eq_error_iff (s := s).mpr h
  rw [after, hr]

/-- Any other change leads to a set. -/
theorem exists_change_of_not_refused (h : ¬c.Refused) :
    ∃ u, s.change c = .ok u ∧ s.after c = u := by
  -- without a refusal the set after the change is the result
  cases hchange : s.change c with
  | error r => exact absurd (change_eq_error_iff.mp ⟨r, hchange⟩) h
  | ok u => exact ⟨u, rfl, by rw [after, hchange]⟩

/-! ### One change -/

/-- **A bit after a change is settled by the same bit before it**, and by the change. -/
theorem hasBit_after_congr (h : s.HasBit i ↔ t.HasBit i) (c : Change) :
    (s.after c).HasBit i ↔ (t.after c).HasBit i := by
  cases c with
  | union u | inter u | diff u | symmDiff u =>
    -- a bit of the result is made of the same bits of the two sets
    simp only [after, change, hasBit_union, hasBit_inter, hasBit_sdiff, hasBit_symmDiff, h]
  | set u on => cases on <;> simp [after, change, set, h]
  | complement => simp only [after, change, complement_eq, hasBit_sdiff, h]
  | clear | fill | takeFlags _ => exact Iff.rfl
  | takeKnown _ | takeConstant _ | takeText _ =>
    -- both sets go over to the same set, or both stay as they are
    rw [after, after, change, change]
    split
    · exact Iff.rfl
    · exact h

/-- **An unknown bit comes from somewhere.** After a change that is not refused it was brought by
the change, or it was there before and the change does not drop such bits. -/
theorem hasBit_after_unknown (hi : 12 ≤ i) (hrefused : ¬c.Refused) (h : (s.after c).HasBit i) :
    c.Brings i ∨ ¬c.DropsUnknown ∧ s.HasBit i := by
  have hknown : ¬i < 12 := Nat.not_lt.mpr hi
  -- one case for each kind of change, with the set `u` that it leads to
  obtain ⟨u, hchange, hafter⟩ := exists_change_of_not_refused (s := s) hrefused
  rw [hafter] at h
  cases c with
  | union v =>
    cases hchange
    exact (hasBit_union.mp h).symm.imp_right fun hs => ⟨id, hs⟩
  | inter v =>
    cases hchange
    exact .inr ⟨id, (hasBit_inter.mp h).1⟩
  | diff v =>
    cases hchange
    exact .inr ⟨id, (hasBit_sdiff.mp h).1⟩
  | symmDiff v =>
    cases hchange
    -- a bit of neither would be a bit of both or of none
    by_contra hneither
    obtain ⟨hv, hs⟩ := not_or.mp hneither
    exact hasBit_symmDiff.mp h (iff_of_false (fun hbit => hs ⟨id, hbit⟩) hv)
  | set v on =>
    cases hchange
    cases on with
    | true => exact (hasBit_union.mp h).symm.imp_right fun hs => ⟨id, hs⟩
    | false => exact .inr ⟨id, (hasBit_sdiff.mp h).1⟩
  | complement =>
    cases hchange
    rw [complement_eq, hasBit_sdiff, hasBit_full] at h
    exact absurd h.1 hknown
  | clear =>
    cases hchange
    exact absurd h (not_hasBit_empty i)
  | fill =>
    cases hchange
    exact absurd (hasBit_full.mp h) hknown
  | takeFlags flags =>
    cases hchange
    exact absurd (hasBit_full.mp (hasBit_inter.mp h).2) hknown
  | takeKnown bits =>
    obtain ⟨-, hunknown⟩ := ofKnown?_eq_some_iff.mp (change_takeKnown_eq_ok hchange)
    exact absurd h (unknown_eq_zero_iff.mp hunknown i hi)
  | takeConstant name =>
    -- one modifier, and its bit is known
    obtain ⟨m, rfl⟩ := change_takeConstant_eq_ok hchange
    exact absurd (hasBit_single.mp h ▸ m.place_lt) hknown
  | takeText text =>
    -- the union of the parts, or nothing at all
    obtain ⟨-, rfl⟩ | hunion := ofText_eq_ok_iff.mp (change_takeText_eq_ok hchange)
    · exact absurd h (not_hasBit_empty i)
    · exact .inl ((hunion.hasBit_iff i).mp h)

/-- A change that drops unknown bits brings none either. -/
theorem Change.DropsUnknown.not_brings (h : c.DropsUnknown) : ¬c.Brings i := by
  cases c with
  | union _ | inter _ | diff _ | symmDiff _ | set _ _ | takeText _ => exact h.elim
  | _ => exact id

/-- **Changes that leave no unknown bit.** -/
theorem unknown_after (hdrops : c.DropsUnknown) (hrefused : ¬c.Refused) :
    (s.after c).unknown = 0 := by
  -- an unknown bit would be one that was brought or one that was kept
  rw [unknown_eq_zero_iff]
  intro i hi h
  obtain hbrings | ⟨hkeeps, -⟩ := hasBit_after_unknown hi hrefused h
  · exact hdrops.not_brings hbrings
  · exact hkeeps hdrops

/-! ### Runs -/

/-- One step more of a run is one more change. -/
theorem run_take_succ {changes : List Change} {n : Nat} (h : c ∈ changes[n]?) :
    s.run (changes.take (n + 1)) = (s.run (changes.take n)).after c := by
  rw [List.take_add_one, Option.mem_def.mp h]
  exact List.foldl_concat ..

/-- **A bit after a run is settled by the same bit before it**, and by the changes. -/
theorem hasBit_run_congr (h : s.HasBit i ↔ t.HasBit i) (changes : List Change) :
    (s.run changes).HasBit i ↔ (t.run changes).HasBit i := by
  -- by the changes, each of which keeps the agreement on the bit
  induction changes generalizing s t with
  | nil => exact h
  | cons c changes ih => exact ih (hasBit_after_congr h c)

/-- **An unknown bit after a run** was there at the start, or one of the changes brought it. -/
theorem hasBit_run_unknown (hi : 12 ≤ i) {changes : List Change} (h : (s.run changes).HasBit i) :
    s.HasBit i ∨ ∃ c ∈ changes, c.Brings i := by
  -- by the changes, from the first one on
  induction changes generalizing s with
  | nil => exact .inl h
  | cons c changes ih =>
    obtain hafter | ⟨d, hd, hbrings⟩ := ih h
    · -- it was there after the first change, which brought it, kept it or was refused
      by_cases hrefused : c.Refused
      · exact .inl (after_of_refused (s := s) hrefused ▸ hafter)
      · obtain hbrings | ⟨-, hs⟩ := hasBit_after_unknown hi hrefused hafter
        · exact .inr ⟨c, List.mem_cons_self .., hbrings⟩
        · exact .inl hs
    · exact .inr ⟨d, List.mem_cons_of_mem c hd, hbrings⟩

/-- **Unknown bits never reach what is rendered.** Two sets that have the same modifiers have the
same ones after every step of every run of changes, and so show the same keywords, however they
differ in the bits that stand for none. An unknown bit after a step was in the set at the start, or
was brought by a change up to that step. A change is refused for what it is, and leaves the set as
it was; one that drops unknown bits leaves none if it is not refused. -/
theorem run_hides_unknown (h : s.known = t.known) (changes : List Change) (n : Nat) :
    let current := s.run (changes.take n)
    let other := t.run (changes.take n)
    (current.known = other.known ∧ current.render = other.render ∧
        current.keywords = other.keywords) ∧
      (∀ i, 12 ≤ i → current.HasBit i → s.HasBit i ∨ ∃ c ∈ changes.take n, c.Brings i) ∧
      ∀ c ∈ changes[n]?,
        let next := s.run (changes.take (n + 1))
        ((∃ r, current.change c = .error r) ↔ c.Refused) ∧
          (c.Refused → next = current) ∧
          (c.DropsUnknown → ¬c.Refused → next.unknown = 0) := by
  intro current other
  have hknown : current.known = other.known := by
    -- bit by bit, the unknown ones left out
    refine known_eq_iff_hasBit.mpr fun i hi => ?_
    exact hasBit_run_congr (known_eq_iff_hasBit.mp h i hi) (changes.take n)
  have hkeywords : current.keywords = other.keywords := keywords_congr hknown
  refine ⟨⟨hknown, by rw [render, render, hkeywords], hkeywords⟩,
    fun i hi hbit => hasBit_run_unknown hi hbit, fun c hc => ?_⟩
  intro next
  have hnext : next = current.after c := run_take_succ hc
  refine ⟨change_eq_error_iff, fun hrefused => ?_, fun hdrops hrefused => ?_⟩
  · rw [hnext, after_of_refused hrefused]
  · rw [hnext]
    exact unknown_after hdrops hrefused

/-- Two sets with another unknown bit each; one more is flipped in, and a word with one refused. -/
theorem run_hides_unknown_refused :
    let s : ModifierSet := ⟨0x1001⟩
    let t : ModifierSet := ⟨0x8001⟩
    let changes : List Change := [.symmDiff ⟨0x2008⟩, .takeKnown 0x1000]
    s.known = t.known ∧ (s.run changes).bits = 0x3009 ∧ (t.run changes).bits = 0xa009 ∧
      (s.run changes).render = (t.run changes).render ∧
      (∃ c ∈ changes, c.Brings 13) ∧
      s.run (changes.take 2) = s.run (changes.take 1) := by
  intro s t changes
  have hknown : s.known = t.known := by decide
  have hrefused : (Change.takeKnown 0x1000).Refused := ⟨12, le_rfl, rfl⟩
  obtain ⟨⟨-, hrender, -⟩, hbits, -⟩ := run_hides_unknown hknown changes 2
  obtain ⟨-, -, hsteps⟩ := run_hides_unknown hknown changes 1
  obtain ⟨-, hstays, -⟩ := hsteps (.takeKnown 0x1000) rfl
  -- a bit of the result that was not there at the start
  have hstart : ¬s.HasBit 13 := by unfold HasBit; decide
  have hbit : (s.run (changes.take 2)).HasBit 13 := by unfold HasBit; decide
  have hbrings := (hbits 13 (by decide) hbit).resolve_left hstart
  exact ⟨hknown, by decide, by decide, hrender, hbrings, hstays hrefused⟩

end Introspect.ModifierSet
