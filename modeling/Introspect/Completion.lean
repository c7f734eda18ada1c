/-!
# Completion

A name being typed is completed as far as all candidates agree. Two words are compared character by
character, with an account of the bytes that are passed in the first of them (`Completion.parting`);
what stands before that byte is what both begin with (`Completion.shared`). A text can only be cut
between characters, so the account comes with a proof that this is where it ends.

`Completion.steps` carries what is shared through a list of words.
-/

namespace Introspect.Completion

/-! ### Where two words part -/

/-- **Comparing characters**, those before the position having been passed: the position behind the
last one that is the same in both texts. -/
def partingFrom (pos : String.Pos.Raw) : List Char → List Char → String.Pos.Raw
  | a :: as, b :: bs => if a = b then partingFrom (pos + a) as bs else pos
  | _, _ => pos

/-- **Where two words part**, as a position in the first of them. -/
def parting (one two : String) : String.Pos.Raw :=
  partingFrom 0 one.toList two.toList

theorem rawEndPos_concat (done : List Char) (c : Char) :
    (String.ofList (done ++ [c])).rawEndPos = (String.ofList done).rawEndPos + c := by
  rw [String.ofList_append, ← String.singleton_eq_ofList]
  exact String.Pos.Raw.ext (by simp)

theorem isValid_rawEndPos_ofList (done as : List Char) :
    (String.ofList done).rawEndPos.IsValid (String.ofList (done ++ as)) := by
  rw [String.ofList_append]
  exact String.Pos.Raw.isValid_rawEndPos.append_right (String.ofList as)

/-- Behind whole characters the comparison starts, and behind whole characters it ends. -/
theorem isValid_partingFrom (done as bs : List Char) :
    (partingFrom (String.ofList done).rawEndPos as bs).IsValid (String.ofList (done ++ as)) := by
  induction as generalizing done bs with
  | nil => exact isValid_rawEndPos_ofList done []
  | cons a as ih =>
    cases bs with
    | nil => exact isValid_rawEndPos_ofList done (a :: as)
    | cons b bs =>
      rw [partingFrom]
      split
      · -- one more whole character has been passed
        have hnext := ih (done ++ [a]) bs
        rwa [rawEndPos_concat, List.append_assoc, List.singleton_append] at hnext
      · exact isValid_rawEndPos_ofList done (a :: as)

/-- The words part between characters. -/
theorem isValid_parting (one two : String) : (parting one two).IsValid one := by
  have hvalid := isValid_partingFrom [] one.toList two.toList
  rwa [List.nil_append, String.ofList_toList] at hvalid

/-- **The longest text with which both words begin**, cut from the first. -/
def shared (one two : String) : String :=
  one.extract one.startPos ⟨parting one two, isValid_parting one two⟩

/-! ### Many words -/

/-- The results of taking in one word after another, starting from `result`. -/
def stepsFrom (result : String) : List String → List String
  | [] => [result]
  | word :: words => result :: stepsFrom (shared result word) words

/-- **Completion over many words**: the first word, and after each further one what all so far have
in common. -/
def steps : List String → List String
  | [] => []
  | word :: words => stepsFrom word words

/-- What all words have in common, nothing if there are no words. -/
def sharedByAll : List String → String
  | [] => ""
  | word :: words => words.foldl shared word

end Introspect.Completion
