import Introspect.Proofs.Text.Split
import Introspect.Signature

/-!
# Signatures are taken apart again

Between the parentheses of a signature stand its parameters, and as long as none of them has a comma
followed by a space in it, they can be told from the signature alone: they are what its inside is
split into. It does not matter that a parameter may be empty, or begin with a space, or end with a
comma, for none of this makes a separator where there is none.
-/

namespace Introspect.Signature

/-- **A signature tells its parameters.** It is the name and, in parentheses, nothing at all or a
text that is split into the parameters, in their order; so there is one separator less than there
are parameters. If neither the name nor a parameter has a parenthesis, there are no others. -/
theorem render_takenApart (name : String) {params : List String}
    (h : ∀ p ∈ params, ¬", ".toList <:+: p.toList) :
    ∃ body, render name params = name ++ "(" ++ body ++ ")" ∧
      (params = [] → body = "") ∧
      (params ≠ [] → Text.split ", " body = params) ∧
      Text.places ", ".toList body.toList = params.length - 1 ∧
      ((∀ s ∈ name :: params, '(' ∉ s.toList ∧ ')' ∉ s.toList) →
        (render name params).toList.count '(' = 1 ∧
          (render name params).toList.count ')' = 1) := by
  have hseparator : ", ".toList = ',' :: [' '] := by decide
  obtain ⟨hsplit, hplaces⟩ := Text.split_intercalate hseparator (by decide) h
  refine ⟨", ".intercalate params, rfl, ?_, hsplit, hplaces, fun hparens => ?_⟩
  · rintro rfl
    exact String.intercalate_nil
  · obtain ⟨⟨hopen, hclose⟩, hparams⟩ := List.forall_mem_cons.mp hparens
    -- the parameters bring no parentheses, and neither do the separators
    have hopen' : '(' ∉ (", ".intercalate params).toList :=
      Text.notMem_joined (by decide) fun p hp => (hparams p hp).1
    have hclose' : ')' ∉ (", ".intercalate params).toList :=
      Text.notMem_joined (by decide) fun p hp => (hparams p hp).2
    have hrender : (render name params).toList =
        name.toList ++ '(' :: ((", ".intercalate params).toList ++ [')']) := by
      simp [render, separator]
    rw [hrender]
    generalize (", ".intercalate params).toList = body at hopen' hclose'
    constructor
    · simp [List.count_eq_zero.mpr hopen, List.count_eq_zero.mpr hopen']
    · simp [List.count_eq_zero.mpr hclose, List.count_eq_zero.mpr hclose']

/-- An empty parameter, one that begins with a space, and one that ends with a comma. -/
theorem render_takenApart_spaces :
    (∀ p ∈ ["", " a", "b,"], ¬", ".toList <:+: p.toList) ∧
      (∀ s ∈ ["f", "", " a", "b,"], '(' ∉ s.toList ∧ ')' ∉ s.toList) ∧
      ∃ body, "f(,  a, b,)" = "f" ++ "(" ++ body ++ ")" ∧
        Text.split ", " body = ["", " a", "b,"] ∧
        Text.places ", ".toList body.toList = 2 ∧
        "f(,  a, b,)".toList.count '(' = 1 ∧ "f(,  a, b,)".toList.count ')' = 1 := by
  have hparams : ∀ p ∈ ["", " a", "b,"], ¬", ".toList <:+: p.toList := by decide
  have hparens : ∀ s ∈ ["f", "", " a", "b,"], '(' ∉ s.toList ∧ ')' ∉ s.toList := by decide
  have hrender : render "f" ["", " a", "b,"] = "f(,  a, b,)" := by decide +kernel
  obtain ⟨body, hbody, -, hsplit, hplaces, hcount⟩ := render_takenApart "f" hparams
  rw [hrender] at hbody hcount
  exact ⟨hparams, hparens, body, hbody, hsplit (by decide), hplaces, hcount hparens⟩

end Introspect.Signature
