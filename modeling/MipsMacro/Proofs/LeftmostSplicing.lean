import MipsMacro.Proofs.Splicing
import MipsMacro.Proofs.Substitution

/-!
# Where the two ways of splicing agree

Looking for the leftmost occurrence of a token goes wrong if its text also stands in front of it. Proved
here, for lines whose tokens fit them:

* `Invocation.apply_leftmost`: if it does not, a step at the leftmost occurrence replaces the token in
  its place, whatever the steps before have put behind it;
* `Invocation.line_eq_of_leftmost`: so if this holds of all tokens that are replaced by something else,
  a line of a body is the same with both ways of splicing.
-/

namespace MipsMacro

open Text

/-- The engine with another way of splicing. -/
def Engine.withSplice (engine : Engine) (strategy : SpliceStrategy) : Engine :=
  { engine with options := { engine.options with splice := strategy } }

namespace Invocation

/-- The token is a parameter with an argument, or else a label of the body. -/
def isReplaced (engine : Engine) (i : Invocation) (t : Token) : Bool :=
  if engine.isParameter t.text then (i.definition.bound i.arguments.arity).contains t.text
  else i.definition.locals.contains t.text

theorem substitute?_cases {engine : Engine} {i : Invocation} {t : Token} {text : String}
    (h : i.substitute? engine t = some text) : text = t.text ∨ i.isReplaced engine t = true := by
  have hspec := role_spec engine i t.text
  unfold substitute? at h
  unfold isReplaced
  cases hrole : i.role engine t.text with
  | argument argument =>
    rw [hrole] at hspec
    simp [hspec]
  | missing =>
    rw [hrole] at h
    exact Or.inl (Option.some.inj h).symm
  | unknown =>
    rw [hrole] at h
    exact Or.inl (Option.some.inj h).symm
  | localLabel =>
    rw [hrole] at hspec
    simp [hspec]
  | plain =>
    rw [hrole] at h
    cases h

theorem apply_leftmost (engine : Engine) (i : Invocation)
    (hsplice : engine.options.splice = .firstOccurrence) {text before : List Char} {t : Token}
    (hleftmost : i.isReplaced engine t = true → t.Leftmost text)
    (hbegins : before ++ t.text.toList <+: text) (hsize : byteSize before = t.offset)
    (after : List Char) :
    i.apply engine (before ++ t.text.toList ++ after) t =
      before ++ (i.replacement engine t).toList ++ after := by
  rw [← substitute?_getD, apply, hsplice]
  cases hsubstitute : i.substitute? engine t with
  | none => rfl
  | some substitute =>
    rcases substitute?_cases hsubstitute with rfl | hreplaced
    · exact SpliceStrategy.splice_self _ t _
    · obtain ⟨rest, rfl⟩ := hbegins
      exact SpliceStrategy.splice_leftmost t before substitute.toList after hsize
        ((hleftmost hreplaced).congr hsize)

/-- **The two ways of splicing agree** on a line whose tokens fit it, if no token that is replaced by an
argument or by a renamed label has its text in front of itself: both give the same text and the same
complaints. -/
theorem line_eq_of_leftmost (engine : Engine) (i : Invocation) (n : Nat) (text : String)
    (tokens : List Token) (hrange : i.definition.range.contains n = true)
    (hline : i.definition.program.line n = ⟨some text, some tokens⟩)
    (hfit : Fitting text.toList tokens)
    (hleftmost : ∀ t ∈ tokens, i.isReplaced engine t = true → t.Leftmost text.toList) :
    ∃ result diagnostics,
      i.line (engine.withSplice .firstOccurrence) n = .ok (result, diagnostics) ∧
        i.line (engine.withSplice .trackOffsets) n = .ok (result, diagnostics) := by
  obtain ⟨layout⟩ := hfit.exists_layout
  let leftmost := engine.withSplice .firstOccurrence
  let tracked := engine.withSplice .trackOffsets
  have hleft : String.ofList ((rightToLeft tokens).foldl (i.apply leftmost) text.toList) =
      layout.replace (i.replacement leftmost) := by
    refine foldl_of_step leftmost i layout fun t ht before after hbegins hsize => ?_
    exact apply_leftmost leftmost i rfl (hleftmost t ht) hbegins hsize after
  have htrack : String.ofList ((rightToLeft tokens).foldl (i.apply tracked) text.toList) =
      layout.replace (i.replacement tracked) := foldl_apply tracked i rfl layout
  refine ⟨_, _, line_of_tokens leftmost i hrange hline, ?_⟩
  rw [line_of_tokens tracked i hrange hline, hleft, htrack]
  -- what a token is replaced by does not depend on the way of splicing, nor do complaints
  rfl

theorem line_eq_of_leftmost_crossed :
    (∀ t ∈ crossedTokens, crossed.isReplaced {} t = true → t.Leftmost "é %a %b l # %a".toList) ∧
      ∃ result diagnostics,
        crossed.line { options := { splice := .firstOccurrence } } 2 = .ok (result, diagnostics) ∧
          crossed.line {} 2 = .ok (result, diagnostics) := by
  have hfit : Fitting "é %a %b l # %a".toList crossedTokens :=
    ⟨by decide +kernel, by decide +kernel, by decide +kernel⟩
  have hleftmost : ∀ t ∈ crossedTokens, crossed.isReplaced {} t = true →
      t.Leftmost "é %a %b l # %a".toList := by decide +kernel
  exact ⟨hleftmost, line_eq_of_leftmost {} crossed 2 "é %a %b l # %a" crossedTokens rfl rfl hfit
    hleftmost⟩

end Invocation

end MipsMacro
