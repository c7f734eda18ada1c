/-!
# Modifiers and sets of modifiers

A declaration carries up to twelve **modifiers**. A platform reports them as the bits of a 16-bit
word, its *access flags*, some of which have no modifier: the four highest bits are *unknown*.

`ModifierSet` keeps all sixteen bits. Most operations leave unknown bits alone, so that a set read
from a document is written again as it was; those that drop them say so. Whatever is rendered
(`ModifierSet.keywords`) depends on the known bits only.

* `ModifierSet.ofFlags` takes raw access flags and drops unknown bits.
* `ModifierSet.ofKnown?` refuses a word with unknown bits.
* `∪`, `∩` and `\` act on all sixteen bits; `ModifierSet.complement` gives known bits only.
-/

namespace Introspect

/-- **A modifier.** -/
inductive Modifier where
  | publicAccess
  | privateAccess
  | protectedAccess
  | static
  | final
  | synchronized
  | volatile
  | transient
  | native
  | interface
  | abstract
  | strict
  deriving DecidableEq, Repr

namespace Modifier

/-- The modifiers in the order of their bits. -/
def all : List Modifier :=
  [publicAccess, privateAccess, protectedAccess, static, final, synchronized, volatile, transient,
    native, interface, abstract, strict]

/-- The bit of a modifier. -/
def bit : Modifier → UInt16
  | publicAccess => 0x0001
  | privateAccess => 0x0002
  | protectedAccess => 0x0004
  | static => 0x0008
  | final => 0x0010
  | synchronized => 0x0020
  | volatile => 0x0040
  | transient => 0x0080
  | native => 0x0100
  | interface => 0x0200
  | abstract => 0x0400
  | strict => 0x0800

theorem mem_all (m : Modifier) : m ∈ all := by
  cases m <;> decide

end Modifier

/-- **A set of modifiers**, together with bits that stand for none. -/
structure ModifierSet where
  bits : UInt16
  deriving DecidableEq, Repr

namespace ModifierSet

/-- The bits that stand for a modifier. -/
def knownBits : UInt16 := 0x0fff

/-- The set without any bit. -/
def empty : ModifierSet := ⟨0⟩

instance : EmptyCollection ModifierSet := ⟨empty⟩

instance : Inhabited ModifierSet := ⟨empty⟩

/-- The set of all modifiers. -/
def full : ModifierSet := ⟨knownBits⟩

/-- The set of one modifier. -/
def single (m : Modifier) : ModifierSet := ⟨m.bit⟩

/-- The set of listed modifiers. -/
def ofList (ms : List Modifier) : ModifierSet :=
  ⟨ms.foldl (fun bits m => bits ||| m.bit) 0⟩

/-- **Access flags as modifiers.** Bits that stand for no modifier are dropped. -/
def ofFlags (flags : UInt16) : ModifierSet := ⟨flags &&& knownBits⟩

/-- A word whose bits all stand for modifiers. -/
def ofKnown? (bits : UInt16) : Option ModifierSet :=
  if bits &&& ~~~knownBits = 0 then some ⟨bits⟩ else none

/-- The bits that stand for a modifier. -/
def known (s : ModifierSet) : UInt16 := s.bits &&& knownBits

/-- The bits that stand for none. -/
def unknown (s : ModifierSet) : UInt16 := s.bits &&& ~~~knownBits

/-- All bits of either set. -/
def union (s t : ModifierSet) : ModifierSet := ⟨s.bits ||| t.bits⟩

/-- The bits that both sets have. -/
def inter (s t : ModifierSet) : ModifierSet := ⟨s.bits &&& t.bits⟩

/-- The bits of the first set that the second does not have. -/
def diff (s t : ModifierSet) : ModifierSet := ⟨s.bits &&& ~~~t.bits⟩

/-- The bits that exactly one of the sets has. -/
def symmDiff (s t : ModifierSet) : ModifierSet := ⟨s.bits ^^^ t.bits⟩

/-- The modifiers that are not in the set; unknown bits are dropped. -/
def complement (s : ModifierSet) : ModifierSet := ⟨~~~s.bits &&& knownBits⟩

instance : Union ModifierSet := ⟨union⟩

instance : Inter ModifierSet := ⟨inter⟩

instance : SDiff ModifierSet := ⟨diff⟩

/-- With `on` the bits of `t` are added, without it they are taken away. -/
def set (s t : ModifierSet) (on : Bool) : ModifierSet :=
  if on then s ∪ t else s \ t

/-- Has the set all bits of the other? -/
def contains (s t : ModifierSet) : Bool := s.bits &&& t.bits == t.bits

/-- Do the sets share a bit? -/
def intersects (s t : ModifierSet) : Bool := s.bits &&& t.bits != 0

/-- Is the modifier in the set? -/
def has (s : ModifierSet) (m : Modifier) : Bool := s.contains (single m)

instance : Membership Modifier ModifierSet := ⟨fun s m => s.has m = true⟩

instance (m : Modifier) (s : ModifierSet) : Decidable (m ∈ s) :=
  inferInstanceAs (Decidable (s.has m = true))

/-- Has the set no bit at all? -/
def isEmpty (s : ModifierSet) : Bool := s.bits == 0

/-- Are all modifiers in the set? -/
def isFull (s : ModifierSet) : Bool := s.contains full

/-- The modifiers in the set, in the order of their bits. -/
def toList (s : ModifierSet) : List Modifier := Modifier.all.filter s.has

/-- The set taken apart: one value for each modifier in it, in the order of their bits, and one for
the unknown bits if there are any. -/
def parts (s : ModifierSet) : List UInt16 :=
  s.toList.map Modifier.bit ++ if s.unknown = 0 then [] else [s.unknown]

@[ext] theorem ext {s t : ModifierSet} (h : s.bits = t.bits) : s = t := by
  cases s; cases t; cases h; rfl

@[simp] theorem bits_union (s t : ModifierSet) : (s ∪ t).bits = s.bits ||| t.bits := rfl

@[simp] theorem bits_inter (s t : ModifierSet) : (s ∩ t).bits = s.bits &&& t.bits := rfl

@[simp] theorem bits_sdiff (s t : ModifierSet) : (s \ t).bits = s.bits &&& ~~~t.bits := rfl

@[simp] theorem bits_single (m : Modifier) : (single m).bits = m.bit := rfl

@[simp] theorem bits_empty : (∅ : ModifierSet).bits = 0 := rfl

theorem isEmpty_iff {s : ModifierSet} : s.isEmpty = true ↔ s = ∅ := by
  rw [isEmpty, beq_iff_eq, ModifierSet.ext_iff, bits_empty]

end ModifierSet

end Introspect
