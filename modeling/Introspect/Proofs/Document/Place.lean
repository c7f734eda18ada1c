import Introspect.Document.Decode
import Introspect.Proofs.Json.Tree

/-!
# Room at a place

What a place has to do with depth. A value **fits** at a place when it may be as deep as it is
there: in a stream when it is no deeper than the room that is left, anywhere else always.

* `Place.inside`, `Place.enter_eq`, `Place.fits_inside` — entering an array or object takes one
  level, and succeeds when there is one;
* `Place.keep_ofJson` — a finished tree can be collected exactly when it fits;
* `Place.limited` — the outcome of reading something that is sound all through: its value when it
  fits, and a malformed text when it does not.
-/

namespace Introspect

namespace Place

/-- **Is there room for a value of this depth?** -/
def Fits : Place → Nat → Prop
  | stream room, depth => depth ≤ room
  | tree, _ => True
  | collected, _ => True

instance (place : Place) (depth : Nat) : Decidable (place.Fits depth) :=
  match place with
  | stream room => inferInstanceAs (Decidable (depth ≤ room))
  | tree => inferInstanceAs (Decidable True)
  | collected => inferInstanceAs (Decidable True)

/-- What has no level fits everywhere. -/
@[simp] theorem fits_zero (place : Place) : place.Fits 0 := by
  cases place <;> simp [Fits]

/-- Whatever has been collected fits: its room was taken when it was collected. -/
@[simp] theorem fits_collected (depth : Nat) : collected.Fits depth := trivial

/-- What is less deep fits where something deeper does. -/
theorem Fits.mono {place : Place} {m n : Nat} (h : place.Fits n) (hmn : m ≤ n) :
    place.Fits m := by
  cases place with
  | stream room => exact Nat.le_trans hmn h
  | tree => trivial
  | collected => trivial

/-- The deeper of two fits where both do. -/
theorem fits_max {place : Place} {m n : Nat} :
    place.Fits (max m n) ↔ place.Fits m ∧ place.Fits n := by
  cases place with
  | stream room => exact Nat.max_le
  | tree => exact (and_self_iff (a := True)).symm
  | collected => exact (and_self_iff (a := True)).symm

/-! ### Entering -/

/-- The place inside an array or object, whether or not it may be entered. -/
def inside : Place → Place
  | stream room => stream (room - 1)
  | tree => tree
  | collected => collected

/-- A place may be entered when a single level fits. -/
theorem enter_eq (place : Place) :
    place.enter = if place.Fits 1 then .ok place.inside else .error (.fault .malformed) := by
  cases place with
  -- a stream without room refuses; with room it gives one level of it away
  | stream room => cases room <;> simp [enter, inside, Fits]
  | tree => rfl
  | collected => rfl

/-- Who has entered is inside, and there was a level. -/
theorem enter_eq_ok {place inner : Place} :
    place.enter = .ok inner ↔ place.Fits 1 ∧ inner = place.inside := by
  rw [enter_eq]
  split <;> simp [*, eq_comm]

/-- Where an array or object may be entered, inside there is room for one level less. -/
theorem fits_inside {place : Place} (h : place.Fits 1) {depth : Nat} :
    place.inside.Fits depth ↔ place.Fits (depth + 1) := by
  cases place with
  | stream room =>
    -- subtraction stops at zero, so the level that is given away must be there
    have h : 1 ≤ room := h
    show depth ≤ room - 1 ↔ depth + 1 ≤ room
    omega
  | tree => rfl
  | collected => rfl

/-! ### Reading what is sound -/

/-- **Reading something sound**, so deep: only room can be wanting. -/
def limited {α : Type} (place : Place) (depth : Nat) (a : α) : Decoded α :=
  if place.Fits depth then .ok a else .error (.fault .malformed)

variable {α β : Type} {place : Place}

/-- What fits is read. -/
theorem limited_of_fits {depth : Nat} (h : place.Fits depth) (a : α) :
    place.limited depth a = .ok a :=
  if_pos h

/-- What has no level is always read. -/
@[simp] theorem limited_zero (a : α) : place.limited 0 a = .ok a :=
  limited_of_fits place.fits_zero a

/-- What has been collected is always read. -/
@[simp] theorem limited_collected (depth : Nat) (a : α) : collected.limited depth a = .ok a :=
  limited_of_fits (fits_collected depth) a

/-- What is read one after the other needs room for the deeper of the two. -/
theorem limited_bind {m n : Nat} {a : α} {b : β} {f : α → Decoded β}
    (h : f a = place.limited n b) :
    (place.limited m a >>= f) = place.limited (max m n) b := by
  by_cases hm : place.Fits m
  · -- the rest decides
    rw [limited_of_fits hm, Decoded.ok_bind, h]
    simp only [limited, fits_max, hm, true_and]
  · -- the first does not fit, nor does the deeper of the two
    simp only [limited, fits_max, hm, false_and, if_false, Decoded.error_bind]

/-- What needs no room takes nothing from what is read before it. -/
theorem limited_bind_ok {m : Nat} {a : α} {b : β} {f : α → Decoded β} (h : f a = .ok b) :
    (place.limited m a >>= f) = place.limited m b := by
  rw [limited_bind (n := 0) (by rw [h, limited_zero]), Nat.max_zero]

/-- Entering adds a level. -/
theorem enter_bind {depth : Nat} {a : α} {f : Place → Decoded α}
    (h : f place.inside = place.inside.limited depth a) :
    (place.enter >>= f) = place.limited (depth + 1) a := by
  rw [enter_eq]
  by_cases hone : place.Fits 1
  · -- inside there is room for one level less
    simp only [hone, if_true, Decoded.ok_bind, h, limited, fits_inside hone]
  · -- without that level nothing inside fits either
    have hmore : ¬place.Fits (depth + 1) := fun h => hone (h.mono (Nat.le_add_left 1 depth))
    simp only [hone, hmore, if_false, Decoded.error_bind, limited]

/-! ### Collecting -/

/-- A finished tree is read in full when it is collected, which takes the room it needs. -/
theorem keep_ofJson (place : Place) (j : Json) :
    place.keep (Draft.ofJson j) = place.limited j.depth () := by
  cases place with
  -- only a stream checks what is collected
  | stream room =>
    rw [keep, Draft.check_ofJson]
    show Decoded.ofFault _ = if j.depth ≤ room then _ else _
    split <;> rfl
  | tree => rfl
  | collected => rfl

/-- **A finished tree can be collected exactly when it fits.** -/
theorem keep_ofJson_eq_ok {place : Place} {j : Json} :
    place.keep (Draft.ofJson j) = .ok () ↔ place.Fits j.depth := by
  rw [keep_ofJson, limited]
  split <;> simp [*]

/-! ### Finished places -/

/-- **The same place when the document is finished**: a stream has become a tree. -/
def finished : Place → Place
  | stream _ => tree
  | tree => tree
  | collected => collected

/-- When the document is finished there is room for everything. -/
theorem fits_finished (place : Place) (depth : Nat) : place.finished.Fits depth := by
  cases place <;> trivial

/-- A finished place stays finished inside. -/
theorem inside_finished (place : Place) : place.finished.inside = place.inside.finished := by
  cases place <;> rfl

end Place

end Introspect
