import MipsMacro.Proofs.Layout
import MipsMacro.Proofs.TokenRoles

/-!
# Substitution at tracked offsets is simultaneous

The tokens of a body line are replaced one after the other in a text that changes under the hands.
Proved here, for lines whose tokens fit them:

* `Invocation.foldr_apply`: if each step replaces its token in place, a whole pass leaves the text in
  front of it alone and replaces every token behind it;
* `Invocation.apply_middle`: as long as nothing in front of a token has changed, one step replaces
  this token and nothing else;
* `Invocation.line_of_layout`, `Invocation.line_eq_replace`: so a line of the body is its source with
  every token replaced in place.
-/

namespace MipsMacro

open Text

namespace Invocation

/-- What a token of the body turns into: a parameter into its argument, if the call has one for the
first parameter of this name, and a label of the body into its renamed form. -/
def replacement (engine : Engine) (i : Invocation) (t : Token) : String :=
  if engine.isParameter t.text then
    ((i.definition.parameters.zip i.arguments.toList).lookup t.text).getD t.text
  else if i.definition.locals.contains t.text then
    t.text ++ engine.options.labelSuffix ++ decimal i.id.toNat
  else
    t.text

/-- Looking a name up among paired parameters and arguments finds the argument at the position of the
first parameter of that name. -/
theorem lookup_zip (name : String) (parameters arguments : List String) :
    (parameters.zip arguments).lookup name =
      (parameters.findIdx? (· == name)).bind fun index => arguments[index]? := by
  induction parameters generalizing arguments with
  | nil => rfl
  | cons p parameters ih =>
    cases arguments with
    | nil => simp
    | cons a arguments =>
      by_cases h : p = name
      · subst h
        simp [List.findIdx?_cons]
      · have hne : (name == p) = false := by simpa using Ne.symm h
        have hne' : (p == name) = false := by simpa using h
        rw [List.zip_cons_cons, List.lookup_cons, hne, ih, List.findIdx?_cons, hne']
        cases parameters.findIdx? (· == name) <;> simp

theorem substitute?_getD (engine : Engine) (i : Invocation) (t : Token) :
    (i.substitute? engine t).getD t.text = i.replacement engine t := by
  simp only [substitute?, role, replacement, Definition.parameterIndex?, Arguments.get?, lookup_zip]
  by_cases hp : engine.isParameter t.text
  · simp only [hp, if_true]
    cases i.definition.parameters.findIdx? (· == t.text) with
    | none => rfl
    | some index =>
      simp only [Option.bind_some]
      cases i.arguments.toList[index]? <;> rfl
  · simp only [hp, Bool.false_eq_true, if_false]
    by_cases hl : i.definition.locals.contains t.text
    · simp only [hl, if_true]
      rfl
    · simp only [hl, Bool.false_eq_true, if_false]
      rfl

/-- Only labels that the macro declares are renamed. -/
theorem contains_of_role {engine : Engine} {i : Invocation} {text : String}
    (h : i.role engine text = .localLabel) : i.definition.locals.contains text = true := by
  have hspec := role_spec engine i text
  rw [h] at hspec
  exact hspec.2

/-- A token stays, or an argument or its own renamed form takes its place. -/
theorem replacement_cases (engine : Engine) (i : Invocation) (t : Token) :
    i.replacement engine t = t.text ∨ i.replacement engine t ∈ i.arguments.toList ∨
      i.replacement engine t = rename engine.options.labelSuffix i.id t.text := by
  unfold replacement
  split
  · rw [lookup_zip]
    cases hlookup : (i.definition.parameters.findIdx? (· == t.text)).bind
        fun index => i.arguments.toList[index]? with
    | none => exact Or.inl rfl
    | some argument =>
      obtain ⟨index, -, hargument⟩ := Option.bind_eq_some_iff.mp hlookup
      exact Or.inr (Or.inl (List.mem_of_getElem? hargument))
  · split
    · exact Or.inr (Or.inr rfl)
    · exact Or.inl rfl

/-- A token that stands at its offset is replaced there. -/
theorem splice_middle (t : Token) (pre substitute post : List Char)
    (h : byteSize pre = t.offset) :
    SpliceStrategy.trackOffsets.splice t substitute (pre ++ t.text.toList ++ post) =
      pre ++ substitute ++ post := by
  have hcut : cutAt? t.text.toList t.offset (pre ++ t.text.toList ++ post) = some (pre, post) := by
    have hbehind : behind? t.text.toList (t.text.toList ++ post) = some post :=
      behind?_eq_some_iff.mpr rfl
    simp [cutAt?, ← h, splitAt?_byteSize, hbehind]
  simp only [SpliceStrategy.splice, SpliceStrategy.cut?, hcut, Option.some_or]

variable (engine : Engine) (i : Invocation)

/-- The invariant of the pass: when the tokens behind `pre` are done, `pre` is still what it was. A
step only has to replace its token where the text up to the end of the token is that of the source. -/
theorem foldr_apply (spans : List Span) (pre : List Char) (h : Span.Placed (byteSize pre) spans)
    (hstep : ∀ t ∈ Span.tokens spans, ∀ before after,
      before ++ t.text.toList <+: pre ++ Span.render (·.text.toList) spans →
      byteSize before = t.offset →
      i.apply engine (before ++ t.text.toList ++ after) t =
        before ++ (i.replacement engine t).toList ++ after) :
    (Span.tokens spans).foldr (fun t line => i.apply engine line t)
        (pre ++ Span.render (·.text.toList) spans) =
      pre ++ Span.render (fun t => (i.replacement engine t).toList) spans := by
  induction spans generalizing pre with
  | nil => rfl
  | cons s spans ih =>
    cases s with
    | gap cs =>
      have hrest := ih (pre ++ cs) (by rw [byteSize_append]; exact h) (by simpa using hstep)
      simpa only [Span.tokens_gap, Span.render_gap, List.append_assoc] using hrest
    | token t =>
      obtain ⟨hoff, -, hplaced⟩ := h
      simp only [Span.tokens_token, Span.render_token, List.forall_mem_cons,
        ← List.append_assoc] at hstep
      have hrest := ih (pre ++ t.text.toList) (by rw [byteSize_append]; exact hplaced) hstep.2
      rw [Span.tokens_token, List.foldr_cons, Span.render_token, ← List.append_assoc, hrest,
        hstep.1 pre _ (List.prefix_append ..) hoff.symm, Span.render_token, List.append_assoc]

theorem foldl_of_step {text : List Char} {tokens : List Token} (layout : Layout text tokens)
    (hstep : ∀ t ∈ tokens, ∀ before after, before ++ t.text.toList <+: text →
      byteSize before = t.offset →
      i.apply engine (before ++ t.text.toList ++ after) t =
        before ++ (i.replacement engine t).toList ++ after) :
    String.ofList ((rightToLeft tokens).foldl (i.apply engine) text) =
      layout.replace (i.replacement engine) := by
  have hpass := foldr_apply engine i layout.spans [] layout.placed
  rw [List.nil_append, List.nil_append, layout.source] at hpass
  rw [layout.tokens_reverse_eq, List.foldl_reverse,
    hpass fun t ht => hstep t (layout.perm.mem_iff.mp ht)]
  rfl

variable (htrack : engine.options.splice = .trackOffsets)

include htrack in
theorem apply_middle (t : Token) (pre post : List Char) (h : byteSize pre = t.offset) :
    i.apply engine (pre ++ t.text.toList ++ post) t =
      pre ++ (i.replacement engine t).toList ++ post := by
  rw [← substitute?_getD, apply, htrack]
  cases i.substitute? engine t with
  | none => rfl
  | some text => exact splice_middle t pre text.toList post h

include htrack in
theorem foldl_apply {text : List Char} {tokens : List Token} (layout : Layout text tokens) :
    String.ofList ((rightToLeft tokens).foldl (i.apply engine) text) =
      layout.replace (i.replacement engine) :=
  foldl_of_step engine i layout fun t _ before after _ hsize =>
    apply_middle engine i htrack t before after hsize

include htrack in
theorem line_of_layout {n : Nat} {text : String} {tokens : List Token}
    (hrange : i.definition.range.contains n = true)
    (hline : i.definition.program.line n = ⟨some text, some tokens⟩)
    (layout : Layout text.toList tokens) :
    i.line engine n = .ok (layout.replace (i.replacement engine),
      (rightToLeft tokens).filterMap (i.complaint? engine)) := by
  rw [line_of_tokens engine i hrange hline, foldl_apply engine i htrack layout]

/-- **Simultaneous substitution.** A line whose tokens fit it has a layout, and in every layout of it
each token is replaced in its place and nothing else changes. -/
theorem line_eq_replace (n : Nat) (text : String) (tokens : List Token)
    (htrack : engine.options.splice = .trackOffsets)
    (hrange : i.definition.range.contains n = true)
    (hline : i.definition.program.line n = ⟨some text, some tokens⟩)
    (hfit : Fitting text.toList tokens) :
    Nonempty (Layout text.toList tokens) ∧
      ∀ layout : Layout text.toList tokens, ∃ diagnostics,
        i.line engine n = .ok (layout.replace (i.replacement engine), diagnostics) :=
  ⟨hfit.exists_layout, fun layout => ⟨_, line_of_layout engine i htrack hrange hline layout⟩⟩

/-- A line behind a character of two bytes, with its tokens listed out of order. -/
def crossedTokens : List Token :=
  [⟨.identifier, "l", 2, 9, 9⟩, ⟨.parameter, "%a", 2, 3, 3⟩, ⟨.parameter, "%b", 2, 6, 6⟩]

/-- A use of a macro whose arguments are named like its parameter and its label. -/
def crossed : Invocation where
  definition :=
    { name := "m"
      program := ⟨"m.asm", 3, fun _ => ⟨some "é %a %b l # %a", some crossedTokens⟩⟩
      parameters := ["%a", "%b"]
      locals := .ofList ["l"]
      range := ⟨1, 3, 1, 3⟩ }
  arguments := .ofCall "m" ["%b", "l"]
  id := 7

def crossedLayout : Layout "é %a %b l # %a".toList crossedTokens where
  spans :=
    [.gap ['é', ' '], .token ⟨.parameter, "%a", 2, 3, 3⟩, .gap [' '],
     .token ⟨.parameter, "%b", 2, 6, 6⟩, .gap [' '], .token ⟨.identifier, "l", 2, 9, 9⟩,
     .gap " # %a".toList]
  source := by decide +kernel
  perm := by decide +kernel
  placed := by simp [Span.Placed]; decide +kernel

theorem line_crossed :
    ∃ diagnostics, crossed.line {} 2 = .ok ("é %b l l_M7 # %a", diagnostics) := by
  have hfit : Fitting "é %a %b l # %a".toList crossedTokens :=
    ⟨by decide +kernel, by decide +kernel, by decide +kernel⟩
  obtain ⟨-, h⟩ := line_eq_replace {} crossed 2 "é %a %b l # %a" crossedTokens rfl rfl rfl hfit
  obtain ⟨diagnostics, h⟩ := h crossedLayout
  have hreplace : crossedLayout.replace (crossed.replacement {}) = "é %b l l_M7 # %a" := by
    decide +kernel
  exact ⟨diagnostics, hreplace ▸ h⟩

end Invocation

end MipsMacro
