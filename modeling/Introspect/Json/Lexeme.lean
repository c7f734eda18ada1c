/-!
# Lexemes and their faults

The smallest pieces of a JSON text — numbers, strings, the words `null`, `true` and `false` — are
**lexemes**. Of a lexeme that is not sound, two questions have different answers:

* what is wrong with it when its value is wanted (`Lexeme.read`), and
* what is wrong with it when it stands where nobody looks and only its end has to be found
  (`Lexeme.skip`).

A string with half a surrogate pair, or a number too large for a double, has no value but a clear
end, so it can be skipped. A number cut off by the end of the text is *ended* to a reader, who could
go on with more text, and *malformed* to one that skips.
-/

namespace Introspect

/-- **Why a text is not a document.** Either it stops too early and some longer text could still be
one, or what stands there can never become one. -/
inductive Fault where
  | ended
  | malformed
  deriving DecidableEq, Repr

/-- A lexeme with its value, or with the faults met in reading and in skipping it; without the
latter it can be skipped. -/
inductive Lexeme (α : Type) where
  | sound (value : α)
  | faulty (onRead : Fault) (onSkip : Option Fault)
  deriving Repr

namespace Lexeme

variable {α β : Type}

/-- A lexeme that neither can be read nor be skipped. -/
def broken (f : Fault) : Lexeme α :=
  .faulty f (some f)

/-- The value of a lexeme, or its fault. -/
def read : Lexeme α → Except Fault α
  | .sound a => .ok a
  | .faulty f _ => .error f

/-- Passing over a lexeme without wanting its value. -/
def skip : Lexeme α → Except Fault Unit
  | .faulty _ (some f) => .error f
  | _ => .ok ()

/-- The same lexeme with its value changed. -/
def map (f : α → β) : Lexeme α → Lexeme β
  | .sound a => .sound (f a)
  | .faulty r s => .faulty r s

@[simp] theorem read_sound (a : α) : (Lexeme.sound a).read = .ok a := rfl

@[simp] theorem skip_sound (a : α) : (Lexeme.sound a).skip = .ok () := rfl

@[simp] theorem read_broken (f : Fault) : (broken f : Lexeme α).read = .error f := rfl

@[simp] theorem skip_broken (f : Fault) : (broken f : Lexeme α).skip = .error f := rfl

@[simp] theorem skip_map (f : α → β) (x : Lexeme α) : (x.map f).skip = x.skip := by
  cases x with
  | sound a => rfl
  | faulty r s => cases s <;> rfl

end Lexeme

end Introspect
