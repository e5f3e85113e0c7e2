import Mathlib.Data.List.Basic
import MipsMacro.Substitution

/-!
# The roles of tokens

Proved here:

* `Invocation.role_spec`: what a token of a body is taken for is settled by its text, the names of the
  parameters, the number of arguments and the labels;
* `Invocation.line_of_tokens`: a line of a body that has a text and tokens is replaced token by token.
-/

namespace MipsMacro

/-- The parameters that a call with `count` arguments gives an argument. -/
def Definition.bound (d : Definition) (count : Nat) : List String := d.parameters.take count

namespace Invocation

variable (engine : Engine) (i : Invocation)

/-- What decides about a token of the body. -/
theorem role_spec (text : String) :
    match i.role engine text with
    | .argument _ => engine.isParameter text = true ∧ text ∈ i.definition.bound i.arguments.arity
    | .missing => engine.isParameter text = true ∧ text ∈ i.definition.parameters ∧
        text ∉ i.definition.bound i.arguments.arity
    | .unknown => engine.isParameter text = true ∧ text ∉ i.definition.parameters
    | .localLabel => engine.isParameter text = false ∧ i.definition.locals.contains text = true
    | .plain => engine.isParameter text = false ∧ i.definition.locals.contains text = false := by
  unfold role
  by_cases hp : engine.isParameter text = true
  · rw [if_pos hp]
    cases hindex : i.definition.parameterIndex? text with
    | none =>
      refine ⟨hp, fun hmem => ?_⟩
      simpa using List.findIdx?_eq_none_iff.mp hindex text hmem
    | some index =>
      obtain ⟨hlt, hfirst⟩ := List.findIdx?_eq_some_iff_findIdx_eq.mp hindex
      rw [← hfirst] at hlt
      -- the first parameter of this name counts, also for what has an argument
      have hmem : text ∈ i.definition.parameters := List.idxOf_lt_length_iff.mp hlt
      have hbound : text ∈ i.definition.bound i.arguments.arity ↔ index < i.arguments.arity := by
        rw [← hfirst]
        exact List.mem_take_iff_idxOf_lt hmem
      dsimp only
      cases hargument : i.arguments.get? index with
      | none =>
        have hle := List.getElem?_eq_none_iff.mp hargument
        exact ⟨hp, hmem, fun h => Nat.not_lt.mpr hle (hbound.mp h)⟩
      | some argument =>
        obtain ⟨hlt, -⟩ := List.getElem?_eq_some_iff.mp hargument
        exact ⟨hp, hbound.mpr hlt⟩
  · rw [if_neg hp]
    have hp' : engine.isParameter text = false := Bool.eq_false_iff.mpr hp
    by_cases hl : i.definition.locals.contains text = true
    · rw [if_pos hl]
      exact ⟨hp', hl⟩
    · rw [if_neg hl]
      exact ⟨hp', Bool.eq_false_iff.mpr hl⟩

theorem line_of_tokens {n : Nat} {text : String} {tokens : List Token}
    (hrange : i.definition.range.contains n = true)
    (hline : i.definition.program.line n = ⟨some text, some tokens⟩) :
    i.line engine n = .ok (String.ofList ((rightToLeft tokens).foldl (i.apply engine) text.toList),
      (rightToLeft tokens).filterMap (i.complaint? engine)) := by
  simp only [line, hrange, hline]

end Invocation

end MipsMacro
