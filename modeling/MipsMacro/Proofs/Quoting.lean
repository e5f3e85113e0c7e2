import MipsMacro.Token.Lexer

/-!
# Quotes, escapes and comments

What the lexer makes of literals and comments depends on four situations in which a character can
stand. Proved here:

* `Lexer.opening_cases`: the first characters of each kind of piece;
* `Lexer.piece_cases`, `Lexer.run_of_piece_error`: a piece leaves no literal open, and what cannot
  be cut into pieces does;
* `Lexer.pieces_eq_none_iff`: so a line is cut into pieces exactly if it leaves no literal open.
-/

namespace MipsMacro

/-- Where a character of a line stands. -/
inductive Quoting where
  | top
  | literal (quote : Quote)
  /-- Behind a backslash in a literal. -/
  | escaped (quote : Quote)
  | comment
  deriving DecidableEq

namespace Quoting

def step : Quoting → Char → Quoting
  | top, c =>
    if c = '\x22' then literal .double
    else if c = '\x27' then literal .single
    else if c = '#' then comment
    else top
  | literal q, c => if c = '\x5c' then escaped q else if c = q.char then top else literal q
  | escaped q, _ => literal q
  | comment, _ => comment

/-- Where the character behind a text stands. -/
def run (s : Quoting) (cs : List Char) : Quoting := cs.foldl step s

def isOpen : Quoting → Bool
  | literal _ => true
  | escaped _ => true
  | _ => false

@[simp] theorem run_nil (s : Quoting) : s.run [] = s := rfl

@[simp] theorem run_cons (s : Quoting) (c : Char) (cs : List Char) :
    s.run (c :: cs) = (s.step c).run cs := rfl

theorem run_append (s : Quoting) (as bs : List Char) : s.run (as ++ bs) = (s.run as).run bs :=
  List.foldl_append

theorem run_comment (cs : List Char) : comment.run cs = comment := by
  induction cs with
  | nil => rfl
  | cons c cs ih => exact ih

end Quoting

/-- A character that opens neither a literal nor a comment. -/
def isInert (c : Char) : Bool := c != '\x22' && c != '\x27' && c != '#'

open Quoting

theorem Quoting.step_top {c : Char} (h : isInert c = true) : top.step c = top := by
  simp only [isInert, Bool.and_eq_true, bne_iff_ne, ne_eq] at h
  simp [step, h]

theorem Quoting.run_top {cs : List Char} (h : ∀ c ∈ cs, isInert c = true) : top.run cs = top := by
  induction cs with
  | nil => rfl
  | cons c cs ih =>
    rw [run_cons, step_top (h c (List.mem_cons_self ..))]
    exact ih fun d hd => h d (List.mem_cons_of_mem _ hd)

namespace Lexer

/-! ## Literals -/

theorem quote_ne_backslash (q : Quote) : q.char ≠ '\x5c' := by
  cases q <;> decide

/-- A literal ends outside. -/
theorem literal_run (q : Quote) {cs body rest : List Char}
    (h : literal q.char cs = some (body, rest)) : (Quoting.literal q).run body = top := by
  have hq := quote_ne_backslash q
  fun_induction literal q.char cs generalizing body rest with
  | case1 => cases h
  | case2 cs =>
    cases h
    simp [step, hq]
  | case3 => cases h
  | case4 d ds _ ih =>
    obtain ⟨⟨tail, rest'⟩, htail, heq⟩ := Option.map_eq_some_iff.mp h
    cases heq
    simpa [step] using ih htail
  | case5 c cs hne hback ih =>
    obtain ⟨⟨tail, rest'⟩, htail, heq⟩ := Option.map_eq_some_iff.mp h
    cases heq
    simpa [step, hne, hback] using ih htail

/-- A literal that does not end is open at every place of the text. -/
theorem isOpen_of_literal_eq_none (q : Quote) {cs part : List Char} (h : literal q.char cs = none)
    (hpart : part <+: cs) : ((Quoting.literal q).run part).isOpen = true := by
  fun_induction literal q.char cs generalizing part with
  | case1 =>
    rw [List.prefix_nil.mp hpart]
    rfl
  | case2 => cases h
  | case3 =>
    rcases List.prefix_cons_iff.mp hpart with rfl | ⟨tail, rfl, htail⟩
    · rfl
    · rw [List.prefix_nil.mp htail]
      rfl
  | case4 d ds _ ih =>
    rcases List.prefix_cons_iff.mp hpart with rfl | ⟨tail, rfl, htail⟩
    · rfl
    · rcases List.prefix_cons_iff.mp htail with rfl | ⟨tail', rfl, htail'⟩
      · rfl
      · simpa [step] using ih (Option.map_eq_none_iff.mp h) htail'
  | case5 c cs hne hback ih =>
    rcases List.prefix_cons_iff.mp hpart with rfl | ⟨tail, rfl, htail⟩
    · rfl
    · simpa [step, hne, hback] using ih (Option.map_eq_none_iff.mp h) htail

/-! ## Pieces -/

theorem isInert_of_isIdentChar {c : Char} (h : isIdentChar c = true) : isInert c = true := by
  rcases Decidable.em (c = '\x22') with rfl | h₁
  · exact absurd h (by decide)
  · rcases Decidable.em (c = '\x27') with rfl | h₂
    · exact absurd h (by decide)
    · rcases Decidable.em (c = '#') with rfl | h₃
      · exact absurd h (by decide)
      · simp [isInert, h₁, h₂, h₃]

theorem isInert_of_isBlank {c : Char} (h : isBlank c = true) : isInert c = true := by
  simp only [isBlank, Bool.or_eq_true, beq_iff_eq] at h
  rcases h with ((rfl | rfl) | rfl) | rfl <;> decide

/-- A piece is opened in one of nine ways, each by characters of its own. -/
theorem opening_cases {motive : Opening → Prop} (c : Char) (next : Option Char)
    (blank : isBlank c = true → motive .blank) (comment : c = '#' → motive .comment)
    (quote : ∀ q : Quote, c = q.char → motive (.quote q))
    (directive : c = '.' → next.any isIdentStart = true → motive (.word .directive))
    (register : c = '$' → next.any isIdentChar = true → motive (.word .register))
    (parameter : c = '%' → next.any isIdentChar = true → motive (.word .parameter))
    (integer : isInert c = true → c.isDigit = true → motive (.word .integer))
    (identifier : isInert c = true → isIdentStart c = true → motive (.word .identifier))
    (sign : isInert c = true → motive (.sign (punctuation c))) : motive (opening c next) := by
  have hsigned : ∀ {sigil : Char} {b : Bool} {o : Opening}, (c = sigil → b = true → motive o) →
      (decide (c = sigil) && b) = true → motive o := by
    intro sigil b o ho hboth
    rw [Bool.and_eq_true, decide_eq_true_iff] at hboth
    exact ho hboth.1 hboth.2
  unfold opening
  refine iteInduction blank fun _ => ?_
  refine iteInduction comment fun hcomment => ?_
  refine iteInduction (quote .double) fun hdouble => ?_
  refine iteInduction (quote .single) fun hsingle => ?_
  have hinert : isInert c = true := by simp [isInert, hcomment, hdouble, hsingle]
  refine iteInduction (hsigned directive) fun _ => ?_
  refine iteInduction (hsigned register) fun _ => ?_
  refine iteInduction (hsigned parameter) fun _ => ?_
  refine iteInduction (integer hinert) fun _ => ?_
  exact iteInduction (identifier hinert) fun _ => sign hinert

/-- What a character must be to open a piece in this way. -/
def Opening.Admits (c : Char) : Opening → Prop
  | blank => isBlank c = true
  | comment => c = '#'
  | quote q => c = q.char
  | word _ => isInert c = true
  | sign _ => isInert c = true

theorem opening_admits (c : Char) (next : Option Char) : (opening c next).Admits c := by
  refine opening_cases c next id id (fun _ => id) ?_ ?_ ?_ (fun h _ => h) (fun h _ => h) id
  all_goals
    rintro rfl -
    rfl

theorem step_quote (q : Quote) : top.step q.char = .literal q := by
  cases q <;> rfl

/-- A piece is a token that leaves nothing open, a blank, or the comment at the end. -/
theorem piece_cases {c : Char} {cs tail rest : List Char} {kind : Option TokenKind}
    (h : piece c cs = .ok (kind, tail, rest)) :
    (∃ k, kind = some k ∧ top.run (c :: tail) = top) ∨
      (kind = none ∧ tail = [] ∧ isBlank c = true) ∨ (kind = none ∧ c = '#' ∧ rest = []) := by
  have hadmits := opening_admits c cs.head?
  unfold piece at h
  cases ho : opening c cs.head? with
  | blank =>
    rw [ho] at h hadmits
    cases h
    exact Or.inr (Or.inl ⟨rfl, rfl, hadmits⟩)
  | comment =>
    rw [ho] at h hadmits
    cases h
    exact Or.inr (Or.inr ⟨rfl, hadmits, rfl⟩)
  | quote q =>
    rw [ho] at h hadmits
    simp only [Opening.take] at h
    split at h
    · next hliteral =>
      cases h
      refine Or.inl ⟨q.kind, rfl, ?_⟩
      rw [run_cons, hadmits, step_quote]
      exact literal_run q hliteral
    · cases h
  | word k =>
    rw [ho] at h hadmits
    cases h
    refine Or.inl ⟨k, rfl, run_top fun d hd => ?_⟩
    rcases List.mem_cons.mp hd with rfl | hd
    · exact hadmits
    · exact isInert_of_isIdentChar (List.all_eq_true.mp List.all_takeWhile d hd)
  | sign k =>
    rw [ho] at h hadmits
    cases h
    refine Or.inl ⟨k, rfl, ?_⟩
    rw [run_cons, step_top hadmits]
    rfl

/-- What cannot be cut is a literal that does not end. -/
theorem literal_of_piece_error {c : Char} {cs : List Char} {q : Quote} (h : piece c cs = .error q) :
    c = q.char ∧ literal q.char cs = none := by
  have hadmits := opening_admits c cs.head?
  unfold piece at h
  cases ho : opening c cs.head? with
  | quote q' =>
    rw [ho] at h hadmits
    simp only [Opening.take] at h
    split at h
    · cases h
    · next hliteral =>
      cases h
      exact ⟨hadmits, hliteral⟩
  | blank =>
    rw [ho] at h
    cases h
  | comment =>
    rw [ho] at h
    cases h
  | word k =>
    rw [ho] at h
    cases h
  | sign k =>
    rw [ho] at h
    cases h

theorem run_of_piece_error {c : Char} {cs : List Char} {q : Quote} (h : piece c cs = .error q) :
    (top.run (c :: cs)).isOpen = true := by
  obtain ⟨rfl, hliteral⟩ := literal_of_piece_error h
  rw [run_cons, step_quote]
  exact isOpen_of_literal_eq_none q hliteral List.prefix_rfl

theorem pieces_eq_none_iff (cs : List Char) :
    (pieces cs).2 = none ↔ (top.run cs).isOpen = false := by
  fun_induction pieces cs with
  | case1 => simp [isOpen]
  | case2 c cs q h =>
    rw [run_of_piece_error h]
    simp
  | case3 c cs kind tail rest h more ih =>
    have happ := piece_append h
    rw [show c :: cs = (c :: tail) ++ rest by rw [← happ]; rfl, run_append]
    rcases piece_cases h with ⟨k, -, hrun⟩ | ⟨-, rfl, hblank⟩ | ⟨-, rfl, rfl⟩
    · rw [hrun]
      exact ih
    · rw [run_cons, step_top (isInert_of_isBlank hblank)]
      exact ih
    · have hcomment : top.run ('#' :: tail) = .comment := run_comment tail
      have hnil : more.2 = none := by simp [more, pieces]
      simp [hcomment, hnil, isOpen]

end Lexer

end MipsMacro
