import Introspect.Text.Hex
import Mathlib.Data.List.Forall2
import Mathlib.Data.Nat.Digits.Defs

/-!
# Hexadecimal digits are read back

* `hexValue?_toDigits` — the digits that a number is written with have that number as their value;
* `forall_mem_toDigits` — what holds of the sixteen digits holds of all characters of a number;
* `hexValue?_eq_some_iff` — digits in either case, and nothing else, stand for a number
  (`HexDenotes`), however many there are and whatever zeros they start with.
-/

namespace Introspect.Text

/-- A written digit has its own value. -/
theorem hexDigit?_digitChar {n : Nat} (h : n < 16) : hexDigit? n.digitChar = some n := by
  -- all sixteen of them
  have hall : ∀ k : Fin 16, hexDigit? (Nat.digitChar k) = some k.val := by decide
  exact hall ⟨n, h⟩

/-- One more digit at the end. -/
theorem hexValue?_append_digit {ds : List Char} {n d : Nat} (hn : hexValue? ds = some n)
    (hd : d < 16) : hexValue? (ds ++ [d.digitChar]) = some (n * 16 + d) := by
  unfold hexValue? at hn ⊢
  rw [List.foldlM_append, hn]
  simp [hexDigit?_digitChar hd]

/-- **Written digits are read back.** -/
theorem hexValue?_toDigits (n : Nat) : hexValue? (Nat.toDigits 16 n) = some n := by
  induction n using Nat.strongRecOn with
  | ind n ih =>
    by_cases hn : n < 16
    · -- a single digit
      rw [Nat.toDigits_of_lt_base hn]
      simpa [hexValue?] using hexDigit?_digitChar hn
    · -- the digits of `n / 16`, and one more
      have hlast : n % 16 < 16 := Nat.mod_lt n (by decide)
      have hvalue : n / 16 * 16 + n % 16 = n := Nat.div_add_mod' n 16
      rw [Nat.toDigits_of_base_le (by decide) (by omega),
        hexValue?_append_digit (ih (n / 16) (by omega)) hlast, hvalue]

/-- What holds of all digits holds of the digits of a number. -/
theorem forall_mem_toDigits {p : Char → Prop} (h : ∀ d : Fin 16, p (Nat.digitChar d)) (n : Nat) :
    ∀ c ∈ Nat.toDigits 16 n, p c := by
  -- by the number of digits: all but the last are those of `n / 16`
  induction n using Nat.strongRecOn with
  | ind n ih =>
    intro c hc
    by_cases hn : n < 16
    · rw [Nat.toDigits_of_lt_base hn, List.mem_singleton] at hc
      exact hc ▸ h ⟨n, hn⟩
    · rw [Nat.toDigits_of_base_le (by decide) (by omega)] at hc
      rcases List.mem_append.mp hc with hc | hc
      · exact ih (n / 16) (by omega) c hc
      · rw [List.mem_singleton] at hc
        exact hc ▸ h ⟨n % 16, Nat.mod_lt n (by decide)⟩

/-! ### What digits stand for -/

/-- **The value of a hexadecimal digit** is its place among the digits of its case. -/
def IsHexDigit (c : Char) (d : Nat) : Prop :=
  "0123456789abcdef".toList[d]? = some c ∨ "0123456789ABCDEF".toList[d]? = some c

instance (c : Char) (d : Nat) : Decidable (IsHexDigit c d) :=
  inferInstanceAs (Decidable (_ ∨ _))

/-- **Hexadecimal digits that stand for a number**, the most significant one first. -/
def HexDenotes (cs : List Char) (n : Nat) : Prop :=
  ∃ ds : List Nat, List.Forall₂ IsHexDigit cs ds ∧ Nat.ofDigits 16 ds.reverse = n

/-- Digits that follow one another, the first of which has the value `base`. -/
theorem isHexDigit_of_between {a b c : Char} (base : Nat) (hc : a ≤ c ∧ c ≤ b)
    (hall : ∀ k : Fin (b.toNat - a.toNat + 1), IsHexDigit (Char.ofNat (a.toNat + k)) (k + base)) :
    IsHexDigit c (c.toNat - a.toNat + base) := by
  -- the place of the character among the digits is its distance from the first one
  have ha : a.toNat ≤ c.toNat := Char.le_def.mp hc.1
  have hb : c.toNat ≤ b.toNat := Char.le_def.mp hc.2
  have hplace := hall ⟨c.toNat - a.toNat, by omega⟩
  rwa [Nat.add_sub_cancel' ha, Char.ofNat_toNat] at hplace

/-- A digit is read as its value, in either case. -/
theorem hexDigit?_eq_some_iff {c : Char} {d : Nat} : hexDigit? c = some d ↔ IsHexDigit c d := by
  refine ⟨fun h => ?_, ?_⟩
  · -- the three ranges of characters, one after the other
    unfold hexDigit? at h
    split at h
    · next hc =>
      obtain rfl := Option.some.inj h
      exact isHexDigit_of_between 0 hc (by decide)
    · split at h
      · next hc =>
        obtain rfl := Option.some.inj h
        exact isHexDigit_of_between 10 hc (by decide)
      · split at h
        · next hc =>
          obtain rfl := Option.some.inj h
          exact isHexDigit_of_between 10 hc (by decide)
        · exact absurd h (Option.some_ne_none d).symm
  · rintro (h | h)
    · obtain ⟨hd, rfl⟩ := List.getElem?_eq_some_iff.mp h
      have hall : ∀ k : Fin 16, hexDigit? "0123456789abcdef".toList[k] = some k.val := by decide
      exact hall ⟨d, hd⟩
    · obtain ⟨hd, rfl⟩ := List.getElem?_eq_some_iff.mp h
      have hall : ∀ k : Fin 16, hexDigit? "0123456789ABCDEF".toList[k] = some k.val := by decide
      exact hall ⟨d, hd⟩

/-- Digit by digit, the number read so far is carried on. -/
theorem foldlM_hexDigit?_eq_some_iff {cs : List Char} {m n : Nat} :
    cs.foldlM (fun n c => (hexDigit? c).map (n * 16 + ·)) m = some n ↔
      ∃ ds : List Nat, List.Forall₂ IsHexDigit cs ds ∧ ds.foldl (fun n d => d + 16 * n) m = n := by
  -- a further digit multiplies what was read by sixteen
  have hstep (m d : Nat) (ds : List Nat) : (d :: ds).foldl (fun n d => d + 16 * n) m =
      ds.foldl (fun n d => d + 16 * n) (m * 16 + d) := by
    rw [List.foldl_cons, Nat.add_comm, Nat.mul_comm]
  -- by the digits, with the number `m` read so far
  induction cs generalizing m with
  | nil => simp
  | cons c cs ih =>
    rw [List.foldlM_cons, Option.bind_eq_bind, Option.bind_eq_some_iff]
    simp only [ih, Option.map_eq_some_iff, hexDigit?_eq_some_iff]
    refine ⟨?_, ?_⟩
    · rintro ⟨_, ⟨d, hd, rfl⟩, ds, hds, rfl⟩
      exact ⟨d :: ds, .cons hd hds, hstep m d ds⟩
    · rintro ⟨_, _ | ⟨hd, hds⟩, rfl⟩
      exact ⟨_, ⟨_, hd, rfl⟩, _, hds, (hstep _ _ _).symm⟩

/-- **Digits are read as the number they stand for**, and nothing else is read. -/
theorem hexValue?_eq_some_iff {cs : List Char} {n : Nat} :
    hexValue? cs = some n ↔ HexDenotes cs n := by
  unfold hexValue? HexDenotes
  simp only [foldlM_hexDigit?_eq_some_iff, Nat.ofDigits_eq_foldr, List.foldr_reverse, Nat.cast_id]

end Introspect.Text
