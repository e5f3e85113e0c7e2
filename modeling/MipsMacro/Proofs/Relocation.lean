import MipsMacro.Proofs.Call
import MipsMacro.Proofs.ScannedProgram

/-!
# Lines that move

A text keeps its tokens on whatever line of whatever file it stands, up to the line number that each
of them carries, and no expansion looks at this number. Proved here:

* `tokenize_onLine`: the tokens of a text on another line;
* `splitLabels_onLine`, `Call.parse?_onLine`: the labels of a line and the call on it are the same;
* `Invocation.body_eq`: macros with the same parameters, labels and body texts expand to the same
  lines.
-/

namespace MipsMacro

/-- The token as it would be on line `n`. -/
def Token.onLine (n : Nat) (t : Token) : Token := { t with line := n }

@[simp] theorem Token.onLine_kind (n : Nat) (t : Token) : (t.onLine n).kind = t.kind := rfl

@[simp] theorem Token.onLine_text (n : Nat) (t : Token) : (t.onLine n).text = t.text := rfl

@[simp] theorem Token.onLine_offset (n : Nat) (t : Token) : (t.onLine n).offset = t.offset := rfl

@[simp] theorem Token.onLine_stop (n : Nat) (t : Token) : (t.onLine n).stop = t.stop := rfl

/-! ## Reading a line -/

theorem Lexer.place_onLine (line line' column offset : Nat) (ps : List Piece) :
    place line' column offset ps = (place line column offset ps).map (Token.onLine line') := by
  induction ps generalizing column offset with
  | nil => rfl
  | cons p ps ih =>
    obtain ⟨kind, chars⟩ := p
    cases kind with
    | none => exact ih ..
    | some kind =>
      simp only [place, List.map_cons]
      rw [ih]
      rfl

theorem tokenize_onLine {file : String} {n : Nat} {text : String} {tokens : List Token}
    (h : tokenize file n text = .ok tokens) (file' : String) (n' : Nat) :
    tokenize file' n' text = .ok (tokens.map (Token.onLine n')) := by
  obtain ⟨hnone, rfl⟩ := tokenize_eq_ok_iff.mp h
  exact tokenize_eq_ok_iff.mpr ⟨hnone, (Lexer.place_onLine ..).symm⟩

theorem Program.Reads.tokens_eq {p p' : Program} {n n' : Nat} (h : p.Reads n) (h' : p'.Reads n')
    (htext : p.text n = p'.text n') : p'.tokens n' = (p.tokens n).map (Token.onLine n') := by
  have hmoved := tokenize_onLine h.lexed p'.name n'
  rw [htext, h'.lexed] at hmoved
  exact Except.ok.inj hmoved

theorem splitLabels_onLine (n : Nat) (tokens : List Token) :
    splitLabels (tokens.map (Token.onLine n)) =
      ((splitLabels tokens).1, (splitLabels tokens).2.map (Token.onLine n)) := by
  fun_induction splitLabels tokens with
  | case1 name colon rest hlabel labels body hsplit ih =>
    rw [hsplit] at ih
    simp [splitLabels, hlabel, ih]
  | case2 name colon rest hlabel => simp [splitLabels, hlabel]
  | case3 tokens hshort =>
    match tokens with
    | [] => rfl
    | [t] => rfl
    | a :: b :: rest => exact absurd rfl (hshort a b rest)

theorem Program.Reads.leadingLabels_eq {p p' : Program} {n n' : Nat} (h : p.Reads n)
    (h' : p'.Reads n') (htext : p.text n = p'.text n') : p.leadingLabels n = p'.leadingLabels n' := by
  rw [leadingLabels, leadingLabels, h.tokens_eq h' htext, ← splitLabels_fst, ← splitLabels_fst,
    splitLabels_onLine]

namespace Call

@[simp] theorem depthAfter_onLine (n depth : Nat) (t : Token) :
    depthAfter depth (t.onLine n) = depthAfter depth t := rfl

theorem closesEarly_onLine (n depth : Nat) (tokens : List Token) :
    closesEarly depth (tokens.map (Token.onLine n)) = closesEarly depth tokens := by
  induction tokens generalizing depth with
  | nil => rfl
  | cons t rest ih =>
    cases rest with
    | nil => rfl
    | cons u rest =>
      have hrest := ih (depthAfter depth t)
      simp only [List.map_cons] at hrest
      simp only [List.map_cons, closesEarly, Token.onLine_kind, depthAfter_onLine, hrest]
      rfl

theorem stripParens_onLine (n : Nat) (tokens : List Token) :
    stripParens (tokens.map (Token.onLine n)) = (stripParens tokens).map (Token.onLine n) := by
  have hhead : (tokens.map (Token.onLine n)).head?.any (·.kind = .leftParen) =
      tokens.head?.any (·.kind = .leftParen) := by
    cases tokens <;> rfl
  have hlast : (tokens.map (Token.onLine n)).getLast?.any (·.kind = .rightParen) =
      tokens.getLast?.any (·.kind = .rightParen) := by
    rw [List.getLast?_map]
    cases tokens.getLast? <;> rfl
  rw [stripParens, stripParens, hhead, hlast, closesEarly_onLine]
  split
  · rw [← List.map_tail, ← List.map_dropLast]
  · rfl

theorem splitTopLevel_onLine (n depth : Nat) (tokens : List Token) :
    splitTopLevel depth (tokens.map (Token.onLine n)) =
      (splitTopLevel depth tokens).map (List.map (Token.onLine n)) := by
  fun_induction splitTopLevel depth tokens with
  | case1 => rfl
  | case2 depth t rest hcomma ih =>
    obtain ⟨hkind, rfl⟩ := hcomma
    simp [splitTopLevel, hkind, ih]
  | case3 depth t rest hcomma hgroups ih =>
    rw [hgroups] at ih
    simp [splitTopLevel, hcomma, ih]
  | case4 depth t rest hcomma group groups hgroups ih =>
    rw [hgroups] at ih
    simp [splitTopLevel, hcomma, ih]

theorem groupText_onLine (n : Nat) (source : List Char) (group : List Token) :
    groupText source (group.map (Token.onLine n)) = groupText source group := by
  have htexts : (group.map (Token.onLine n)).map Token.text = group.map Token.text := by
    rw [List.map_map]
    rfl
  unfold groupText
  rw [List.head?_map, List.getLast?_map, htexts]
  cases group.head? with
  | none => rfl
  | some first => cases group.getLast? <;> rfl

theorem argumentTexts_onLine (n : Nat) (source : List Char) (tokens : List Token) :
    argumentTexts source (tokens.map (Token.onLine n)) = argumentTexts source tokens := by
  have hgroups : ∀ groups : List (List Token),
      (groups.map (List.map (Token.onLine n))).map (groupText source) =
        groups.map (groupText source) := by
    intro groups
    rw [List.map_map]
    exact List.map_congr_left fun group _ => groupText_onLine n source group
  unfold argumentTexts
  rw [stripParens_onLine]
  cases hstrip : stripParens tokens with
  | nil => rfl
  | cons t rest =>
    change (splitTopLevel 0 ((t :: rest).map (Token.onLine n))).map (groupText source) =
      (splitTopLevel 0 (t :: rest)).map (groupText source)
    rw [splitTopLevel_onLine, hgroups]

/-- What a call says, wherever it stands. -/
def content (c : Call) : List String × String × Arguments := (c.labels, c.name, c.arguments)

theorem parse?_onLine (file file' source : String) (n : Nat) (tokens : List Token) :
    (parse? file' source (tokens.map (Token.onLine n))).map content =
      (parse? file source tokens).map content := by
  unfold parse?
  rw [splitLabels_onLine]
  obtain ⟨labels, body⟩ := splitLabels tokens
  cases body with
  | nil => rfl
  | cons head rest =>
    simp only [List.map_cons, Token.onLine_kind, Token.onLine_text, argumentTexts_onLine]
    split <;> rfl

end Call

/-! ## Expanding a macro -/

section sorting

variable {α β : Type} {le : α → α → Bool} {le' : β → β → Bool} {f : α → β}
  (h : ∀ a b, le' (f a) (f b) = le a b)

include h

theorem insertBy_map (a : α) (as : List α) :
    insertBy le' (f a) (as.map f) = (insertBy le a as).map f := by
  induction as with
  | nil => rfl
  | cons b as ih =>
    simp only [List.map_cons, insertBy, h, ih]
    split <;> rfl

theorem sortBy_map (as : List α) : sortBy le' (as.map f) = (sortBy le as).map f := by
  induction as with
  | nil => rfl
  | cons a as ih => rw [List.map_cons, sortBy, ih, insertBy_map h, sortBy]

end sorting

/-- What holds of any two elements that look alike holds place by place of lists that do. -/
theorem map_eq_of_map_eq {α β γ δ : Type} {as : List α} {bs : List β} {f : α → γ} {g : β → γ}
    {f' : α → δ} {g' : β → δ} (h : as.map f = bs.map g)
    (hstep : ∀ a ∈ as, ∀ b ∈ bs, f a = g b → f' a = g' b) : as.map f' = bs.map g' := by
  induction as generalizing bs with
  | nil =>
    obtain rfl := List.map_eq_nil_iff.mp h.symm
    rfl
  | cons a as ih =>
    obtain ⟨b, bs, rfl, hb, hbs⟩ := List.map_eq_cons_iff.mp h.symm
    rw [List.map_cons, List.map_cons, hstep a (List.mem_cons_self ..) b (List.mem_cons_self ..) hb.symm,
      ih hbs.symm fun a ha b hb => hstep a (List.mem_cons_of_mem _ ha) b (List.mem_cons_of_mem _ hb)]

/-- Definitions that have the same parameters, labels and body texts. -/
structure Definition.Alike (d d' : Definition) : Prop where
  parameters : d.parameters = d'.parameters
  locals : d.locals = d'.locals
  body : d.range.body.map d.program.text = d'.range.body.map d'.program.text

namespace Invocation

theorem rightToLeft_onLine (n : Nat) (tokens : List Token) :
    rightToLeft (tokens.map (Token.onLine n)) = (rightToLeft tokens).map (Token.onLine n) :=
  sortBy_map (fun _ _ => rfl) tokens

variable (engine : Engine) {d d' : Definition} (a : Arguments) (id : UInt64)

theorem apply_congr (h : d.Alike d') :
    apply engine ⟨d, a, id⟩ = apply engine ⟨d', a, id⟩ := by
  have hrole : ∀ text, role engine ⟨d, a, id⟩ text = role engine ⟨d', a, id⟩ text := by
    intro text
    simp only [role, Definition.parameterIndex?, h.parameters, h.locals]
  funext line t
  simp only [apply, substitute?, hrole]

theorem lineText_onLine (h : d.Alike d') {n n' : Nat}
    (htext : d.program.text n = d'.program.text n')
    (htokens : d'.program.tokens n' = (d.program.tokens n).map (Token.onLine n')) :
    lineText engine ⟨d, a, id⟩ n = lineText engine ⟨d', a, id⟩ n' := by
  simp only [lineText, htext, htokens, rightToLeft_onLine, List.foldl_map, apply_congr engine a id h]
  rfl

theorem body_eq (h : d.Alike d') (hd : d.Readable) (hd' : d'.Readable) :
    d.range.body.map (lineText engine ⟨d, a, id⟩) =
      d'.range.body.map (lineText engine ⟨d', a, id⟩) := by
  refine map_eq_of_map_eq h.body fun n hn n' hn' htext => ?_
  exact lineText_onLine engine a id h htext ((hd.reads n hn).tokens_eq (hd'.reads n' hn') htext)

end Invocation

end MipsMacro
