import Introspect.Modifier.Text

/-!
# Runs of changes

A set of modifiers is changed step by step. A `ModifierSet.Change` either gives a new set or
refuses, because a word has unknown bits, a name belongs to no modifier, or a text is no set of
modifiers; a set whose change was refused stays as it was (`ModifierSet.after`).
-/

namespace Introspect.ModifierSet

/-- **One step.** The first five take all sixteen bits of their argument. -/
inductive Change where
  /-- Adds the bits of another set. -/
  | union (t : ModifierSet)
  /-- Keeps the bits that another set has too. -/
  | inter (t : ModifierSet)
  /-- Takes the bits of another set away. -/
  | diff (t : ModifierSet)
  /-- Flips the bits of another set. -/
  | symmDiff (t : ModifierSet)
  /-- Adds the bits of another set or takes them away. -/
  | set (t : ModifierSet) (on : Bool)
  /-- Goes over to the modifiers that are not in the set. -/
  | complement
  /-- Goes over to the empty set. -/
  | clear
  /-- Goes over to the set of all modifiers. -/
  | fill
  /-- Goes over to access flags without their unknown bits. -/
  | takeFlags (flags : UInt16)
  /-- Goes over to a word that has no unknown bits. -/
  | takeKnown (bits : UInt16)
  /-- Goes over to the modifier of a constant name. -/
  | takeConstant (name : String)
  /-- Goes over to the set of a text. -/
  | takeText (text : String)

/-- **Why a change is refused.** -/
inductive Refusal where
  | unknownBits
  | unknownName
  | badText (cause : ModifierError)
  deriving DecidableEq, Repr

/-- **The set after a change**, or why there is none. -/
def change (s : ModifierSet) : Change → Except Refusal ModifierSet
  | .union t => .ok (s ∪ t)
  | .inter t => .ok (s ∩ t)
  | .diff t => .ok (s \ t)
  | .symmDiff t => .ok (s.symmDiff t)
  | .set t on => .ok (s.set t on)
  | .complement => .ok s.complement
  | .clear => .ok ∅
  | .fill => .ok full
  | .takeFlags flags => .ok (ofFlags flags)
  | .takeKnown bits =>
    match ofKnown? bits with
    | some t => .ok t
    | none => .error .unknownBits
  | .takeConstant name =>
    match Modifier.ofConstant? name with
    | some m => .ok (single m)
    | none => .error .unknownName
  | .takeText text =>
    match ofText text with
    | .ok t => .ok t
    | .error e => .error (.badText e)

/-- The set that is left, refused or not. -/
def after (s : ModifierSet) (c : Change) : ModifierSet :=
  match s.change c with
  | .ok t => t
  | .error _ => s

/-- **The set after a run of changes.** -/
def run (s : ModifierSet) (changes : List Change) : ModifierSet :=
  changes.foldl after s

end Introspect.ModifierSet
