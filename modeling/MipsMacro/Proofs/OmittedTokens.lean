import MipsMacro.Proofs.LeftmostSplicing
import MipsMacro.Proofs.UnboundParameters

/-!
# Tokens that can be omitted

A parameter that the call gives no argument is spliced into the line like any other, with its own text.
Proved here, for every definition, whatever tokens its lines have and in both ways of splicing:

* `Invocation.apply_of_not_isReplaced`: a step with a token that is neither given an argument nor renamed
  leaves the line alone, whatever the steps before it have made of the line;
* `Invocation.rightToLeft_filter`: the other tokens keep their order when such tokens are omitted;
* `Invocation.line_omits_unbound`: so a line becomes the same without its parameters that have no
  argument, and a line that has nothing else to replace stays as it is.
-/

namespace MipsMacro

/-- The program with other tokens on line `n`. -/
def Program.withTokens (p : Program) (n : Nat) (tokens : List Token) : Program :=
  { p with line := fun m => if m = n then { p.line n with tokens := some tokens } else p.line m }

/-- The definition in a program with other tokens on line `n`. -/
def Definition.withTokens (d : Definition) (n : Nat) (tokens : List Token) : Definition :=
  { d with program := d.program.withTokens n tokens }

theorem FromRight.filter {tokens ordered : List Token} (h : FromRight tokens ordered)
    (keep : Token → Bool) : FromRight (tokens.filter keep) (ordered.filter keep) where
  descending := h.descending.filter keep
  stable offset := by
    have hcomm : ∀ ts : List Token, (ts.filter keep).filter (·.offset = offset) =
        (ts.filter (·.offset = offset)).filter keep := by
      intro ts
      rw [List.filter_filter, List.filter_filter]
      exact List.filter_congr fun t _ => Bool.and_comm ..
    rw [hcomm, hcomm, h.stable]

namespace Invocation

theorem rightToLeft_filter (keep : Token → Bool) (tokens : List Token) :
    rightToLeft (tokens.filter keep) = (rightToLeft tokens).filter keep :=
  ((FromRight.rightToLeft tokens).filter keep).eq_rightToLeft.symm

/-- The invocation with other tokens on line `n` of the body. -/
def withTokens (i : Invocation) (n : Nat) (tokens : List Token) : Invocation :=
  { i with definition := i.definition.withTokens n tokens }

variable (engine : Engine) (i : Invocation)

theorem apply_withTokens (n : Nat) (tokens : List Token) :
    (i.withTokens n tokens).apply engine = i.apply engine := rfl

theorem apply_of_not_isReplaced {t : Token} (h : i.isReplaced engine t = false) (line : List Char) :
    i.apply engine line t = line := by
  unfold apply
  cases hsubstitute : i.substitute? engine t with
  | none => rfl
  | some text =>
    rcases substitute?_cases hsubstitute with rfl | hreplaced
    · exact SpliceStrategy.splice_self _ t line
    · rw [h] at hreplaced
      cases hreplaced

/-- Tokens that are not replaced can be passed over, at whatever stage their turn comes. -/
theorem foldl_apply_filter {keep : Token → Bool} {tokens : List Token}
    (h : ∀ t ∈ tokens, keep t = false → i.isReplaced engine t = false) (line : List Char) :
    (tokens.filter keep).foldl (i.apply engine) line = tokens.foldl (i.apply engine) line := by
  rw [List.foldl_filter]
  refine List.foldl_ext _ _ line fun line t ht => ?_
  cases hkeep : keep t with
  | true => rfl
  | false => exact (apply_of_not_isReplaced engine i (h t ht hkeep) line).symm

/-- The token is a parameter that the call gives no argument. -/
def isUnbound (t : Token) : Bool :=
  i.definition.isUnbound engine.options.acceptSpimParameters engine.registers i.arguments.arity t

theorem not_isReplaced_of_isUnbound {t : Token} (h : i.isUnbound engine t = true) :
    i.isReplaced engine t = false := by
  obtain ⟨hparameter, hbound⟩ : engine.isParameter t.text = true ∧
      (!(i.definition.bound i.arguments.arity).contains t.text) = true := Bool.and_eq_true_iff.mp h
  rw [isReplaced, if_pos hparameter]
  simpa using hbound

theorem not_isReplaced_of_plain {t : Token} (hparameter : engine.isParameter t.text = false)
    (hlabel : i.definition.locals.contains t.text = false) : i.isReplaced engine t = false := by
  simp [isReplaced, hparameter, hlabel]

/-- **Complaints do not change the text.** A line of a body becomes the same if all its parameters that
the call gives no argument are omitted from its tokens, and then nothing is complained about. If its
tokens are such parameters and others that are neither parameters nor labels of the body, then the line
stays as it is. -/
theorem line_omits_unbound (n : Nat) (text : String) (tokens : List Token)
    (hrange : i.definition.range.contains n = true)
    (hline : i.definition.program.line n = ⟨some text, some tokens⟩) :
    ∃ result complaints,
      i.line engine n = .ok (result, complaints) ∧
        (i.withTokens n (tokens.filter fun t => !i.isUnbound engine t)).line engine n =
          .ok (result, []) ∧
        ((∀ t ∈ tokens, i.isUnbound engine t = true ∨
            engine.isParameter t.text = false ∧ i.definition.locals.contains t.text = false) →
          result = text) := by
  let rest := tokens.filter fun t => !i.isUnbound engine t
  have hrest : (i.withTokens n rest).definition.program.line n = ⟨some text, some rest⟩ := by
    simp [withTokens, Definition.withTokens, Program.withTokens, hline]
  refine ⟨_, _, line_of_tokens engine i hrange hline, ?_, fun h => ?_⟩
  · have htext : (rightToLeft rest).foldl (i.apply engine) text.toList =
        (rightToLeft tokens).foldl (i.apply engine) text.toList := by
      rw [rightToLeft_filter]
      refine foldl_apply_filter engine i (fun t _ ht => ?_) _
      exact not_isReplaced_of_isUnbound engine i (by simpa using ht)
    have hcomplaints : (rightToLeft rest).filterMap ((i.withTokens n rest).complaint? engine) = [] := by
      refine List.filterMap_eq_nil_iff.mpr fun t ht => ?_
      rw [rightToLeft_filter] at ht
      have hbound : i.isUnbound engine t = false := by simpa using (List.mem_filter.mp ht).2
      rw [complaint?_eq]
      exact if_neg (Bool.eq_false_iff.mp hbound)
    rw [line_of_tokens engine (i.withTokens n rest) hrange hrest, apply_withTokens, htext, hcomplaints]
  · -- no token is replaced, so all of them can be omitted
    have hnone : ∀ t ∈ rightToLeft tokens, i.isReplaced engine t = false := by
      intro t ht
      rcases h t ((sortBy_perm _ tokens).mem_iff.mp ht) with hunbound | ⟨hparameter, hlabel⟩
      · exact not_isReplaced_of_isUnbound engine i hunbound
      · exact not_isReplaced_of_plain engine i hparameter hlabel
    have hempty : (rightToLeft tokens).filter (i.isReplaced engine) = [] := by
      simpa using hnone
    rw [← foldl_apply_filter engine i fun t _ ht => ht, hempty, List.foldl_nil, String.ofList_toList]

/-- The only token of the moved macro that a call with one argument replaces. -/
def boundTokens : List Token := [⟨.parameter, "%a", 12, 1, 0⟩]

theorem line_omits_unbound_movedMacro :
    (∃ complaints,
      line { options := { splice := .firstOccurrence } } ⟨movedMacro, .ofCall "m" ["%b %c"], 7⟩ 12 =
        .ok ("%b %c %b %c %c", complaints)) ∧
    line { options := { splice := .firstOccurrence } }
        (withTokens ⟨movedMacro, .ofCall "m" ["%b %c"], 7⟩ 12 boundTokens) 12 =
      .ok ("%b %c %b %c %c", []) ∧
    ∃ complaints, line {} ⟨movedMacro, .ofCall "m" [], 7⟩ 12 = .ok ("%a %b %c %c", complaints) := by
  obtain ⟨result, complaints, hline, homitted, -⟩ := line_omits_unbound
    { options := { splice := .firstOccurrence } } ⟨movedMacro, .ofCall "m" ["%b %c"], 7⟩ 12
    "%a %b %c %c" unboundTokens rfl rfl
  obtain ⟨result', complaints', hline', -, hsame⟩ := line_omits_unbound {}
    ⟨movedMacro, .ofCall "m" [], 7⟩ 12 "%a %b %c %c" unboundTokens rfl rfl
  have hresult : result = "%b %c %b %c %c" := by
    have hrun : (line { options := { splice := .firstOccurrence } }
        ⟨movedMacro, .ofCall "m" ["%b %c"], 7⟩ 12).toOption.map Prod.fst =
          some "%b %c %b %c %c" := by decide +kernel
    rw [hline] at hrun
    exact Option.some.inj hrun
  have hsame' : result' = "%a %b %c %c" := hsame (by decide +kernel)
  subst hresult hsame'
  exact ⟨⟨complaints, hline⟩, homitted, complaints', hline'⟩

end Invocation

end MipsMacro
