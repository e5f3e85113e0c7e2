import MipsMacro.Proofs.CutLines
import MipsMacro.Proofs.Parentheses
import MipsMacro.Proofs.TokenShapes

/-!
# What a call is made of

Proved here:

* `splitLabels_lexemes`: the labels, each with its colon, and what is behind them are the whole line;
* `Call.spelledBy_argumentTexts`: the arguments, cut into tokens each by itself, give the tokens behind the
  name, up to the commas between them and one pair of parentheses around them;
* `Call.parse?_keeps_tokens`: so a line that is read as a call is spelled by its labels, its name and its
  arguments.
-/

namespace MipsMacro

/-- The kinds and texts of labels in front of a line. -/
def labelLexemes (labels : List String) : List (TokenKind × String) :=
  labels.flatMap fun label => [(.identifier, label), (.colon, ":")]

theorem splitLabels_lexemes {tokens : List Token}
    (hcolon : ∀ t ∈ tokens, t.kind = .colon → t.lexeme = (.colon, ":")) :
    tokens.map Token.lexeme =
      labelLexemes (labelsOf tokens) ++ (behindLabels tokens).map Token.lexeme := by
  rw [← splitLabels_fst, ← splitLabels_snd]
  fun_induction splitLabels tokens with
  | case1 name colon rest hkinds labels body hsplit ih =>
    rw [hsplit] at ih
    simp only [List.forall_mem_cons] at hcolon
    have hname : name.lexeme = (.identifier, name.text) := by rw [Token.lexeme, hkinds.1]
    rw [List.map_cons, List.map_cons, hname, hcolon.2.1 hkinds.2, ih hcolon.2.2]
    rfl
  | case2 => rfl
  | case3 => rfl

/-- The text of all tokens of the kind, if they have only one. -/
def TokenKind.sign? : TokenKind → Option String
  | comma => some ","
  | colon => some ":"
  | leftParen => some "("
  | rightParen => some ")"
  | plus => some "+"
  | minus => some "-"
  | _ => none

theorem lexeme_of_mem_tokens {file : String} {n : Nat} {text : String} {tokens : List Token}
    (h : tokenize file n text = .ok tokens) {t : Token} (ht : t ∈ tokens) {kind : TokenKind}
    (hkind : t.kind = kind) {sign : String} (hsign : kind.sign? = some sign) :
    t.lexeme = (kind, sign) := by
  have hshape := shape_of_mem_tokens h ht
  rw [hkind] at hshape
  have htext : t.text = sign := by
    cases kind <;> cases hsign <;> exact String.toList_injective hshape
  rw [Token.lexeme, hkind, htext]

namespace Call

theorem argumentTexts_eq {source : List Char} {tokens : List Token} (h : stripParens tokens ≠ []) :
    argumentTexts source tokens = (splitTopLevel 0 (stripParens tokens)).map (groupText source) := by
  unfold argumentTexts
  split
  · next hnil => exact absurd hnil h
  · rfl

/-- The tokens are those of the arguments, each cut into tokens by itself, with commas between them; and
there are as many arguments as the commas outside of parentheses make. -/
structure SpelledBy (file : String) (n : Nat) (arguments : Arguments) (part : List Token) : Prop where
  lexed : ∃ lexed : List (List Token), arguments.toList.map (tokenize file n) = lexed.map .ok ∧
    part.map Token.lexeme = [(.comma, ",")].intercalate (lexed.map (List.map Token.lexeme))
  arity_eq_zero_iff : arguments.arity = 0 ↔ part = []
  arity_eq : part ≠ [] → arguments.arity = 1 + topCommas 0 part

theorem spelledBy_argumentTexts {file : String} {n : Nat} {text : String} {tokens rest : List Token}
    (h : tokenize file n text = .ok tokens) (hrest : rest <:+: tokens) (name : String) :
    SpelledBy file n (.ofCall name (argumentTexts text.toList rest)) (stripParens rest) := by
  by_cases hnil : stripParens rest = []
  · have hnone : argumentTexts text.toList rest = [] := by
      unfold argumentTexts
      rw [hnil]
    rw [hnone, hnil]
    exact ⟨⟨[], rfl, rfl⟩, iff_of_true rfl rfl, fun hne => absurd rfl hne⟩
  · have hrun : stripParens rest <:+: tokens := (stripParens_run rest).trans hrest
    have hcomma : ∀ t ∈ stripParens rest, t.kind = .comma → t.lexeme = (.comma, ",") :=
      fun t ht hkind => lexeme_of_mem_tokens h (hrun.subset ht) hkind rfl
    have hlength := length_splitTopLevel 0 (stripParens rest)
    -- what a group is cut into when it stands alone
    let alone : List Token → List Token := fun group =>
      Lexer.place n 1 0 (Lexer.pieces (groupText text.toList group).toList).1
    have hgroup : ∀ group ∈ splitTopLevel 0 (stripParens rest),
        tokenize file n (groupText text.toList group) = .ok (alone group) ∧
          (alone group).map Token.lexeme = group.map Token.lexeme := by
      intro group hmem
      obtain ⟨ts, hts, hlexemes⟩ :=
        tokenize_groupText h (((splitTopLevel_runs _ _).2 group hmem).trans hrun)
      obtain ⟨-, rfl⟩ := tokenize_eq_ok_iff.mp hts
      exact ⟨hts, hlexemes⟩
    rw [argumentTexts_eq hnil]
    refine ⟨⟨(splitTopLevel 0 (stripParens rest)).map alone, ?_, ?_⟩, ?_, fun _ => ?_⟩
    · simp only [Arguments.ofCall, Arguments.toList, List.tail_cons, List.map_map]
      exact List.map_congr_left fun group hmem => (hgroup group hmem).1
    · rw [← intercalate_splitTopLevel 0 hcomma, List.map_map]
      congr 1
      exact List.map_congr_left fun group hmem => (hgroup group hmem).2.symm
    · refine iff_of_false ?_ hnil
      simp only [Arguments.arity, Arguments.ofCall, Arguments.toList, List.tail_cons, List.length_map]
      omega
    · simpa [Arguments.arity, Arguments.ofCall, Arguments.toList] using hlength

/-- **A call keeps all tokens of its line.** The line is spelled by the labels with their colons, the name
and the arguments with commas between them, perhaps with one pair of parentheses around them all. -/
theorem parse?_keeps_tokens (file : String) (n : Nat) (text : String) (tokens : List Token)
    (call : Call) (h : tokenize file n text = .ok tokens)
    (hcall : parse? file text tokens = some call) :
    ∃ part, SpelledBy file n call.arguments part ∧
      (tokens.map Token.lexeme =
          labelLexemes call.labels ++ (.identifier, call.name) :: part.map Token.lexeme ∨
        tokens.map Token.lexeme =
          labelLexemes call.labels ++ (.identifier, call.name) :: (.leftParen, "(") ::
            (part.map Token.lexeme ++ [(.rightParen, ")")])) := by
  obtain ⟨head, rest, hbody, hkind, rfl⟩ := exists_of_parse? hcall
  have hsuffix : head :: rest <:+ tokens := hbody ▸ behindLabels_suffix tokens
  have hrest : rest <:+: tokens := ((List.suffix_cons head rest).trans hsuffix).isInfix
  have hline : tokens.map Token.lexeme = labelLexemes (labelsOf tokens) ++
      (.identifier, head.text) :: rest.map Token.lexeme := by
    rw [splitLabels_lexemes fun t ht hcolon => lexeme_of_mem_tokens h ht hcolon rfl, hbody,
      List.map_cons, Token.lexeme, hkind]
  refine ⟨stripParens rest, spelledBy_argumentTexts h hrest head.text, ?_⟩
  rcases stripParens_cases rest with hsame | ⟨left, inner, right, hwrapped, hleft, hright, -, hinner⟩
  · left
    rw [hsame]
    exact hline
  · right
    have hmem : ∀ t ∈ left :: (inner ++ [right]), t ∈ tokens := fun t ht =>
      hrest.subset (hwrapped ▸ ht)
    have hopen : left.lexeme = (.leftParen, "(") :=
      lexeme_of_mem_tokens h (hmem left (by simp)) hleft rfl
    have hclose : right.lexeme = (.rightParen, ")") :=
      lexeme_of_mem_tokens h (hmem right (by simp)) hright rfl
    rw [hline, hinner, hwrapped]
    simp [hopen, hclose]

/-- A parenthesis that closes nothing, one that nothing closes, and a comment. -/
def strayText : String := "l: m ),(é, 'b,' # c"

def strayTokens : List Token :=
  [⟨.identifier, "l", 1, 1, 0⟩, ⟨.colon, ":", 1, 2, 1⟩, ⟨.identifier, "m", 1, 4, 3⟩,
    ⟨.rightParen, ")", 1, 6, 5⟩, ⟨.comma, ",", 1, 7, 6⟩, ⟨.leftParen, "(", 1, 8, 7⟩,
    ⟨.operator, "é", 1, 9, 8⟩, ⟨.comma, ",", 1, 10, 10⟩, ⟨.character, "'b,'", 1, 12, 12⟩]

def strayCall : Call :=
  ⟨["l"], "m", .ofCall "m" [")", "(é, 'b,'"], .ofNat "m.asm" 1 4⟩

theorem parse?_keeps_tokens_stray :
    tokenize "m.asm" 1 strayText = .ok strayTokens ∧
      parse? "m.asm" strayText strayTokens = some strayCall ∧
      ∃ part, SpelledBy "m.asm" 1 strayCall.arguments part ∧
        (strayTokens.map Token.lexeme =
            labelLexemes ["l"] ++ (.identifier, "m") :: part.map Token.lexeme ∨
          strayTokens.map Token.lexeme =
            labelLexemes ["l"] ++ (.identifier, "m") :: (.leftParen, "(") ::
              (part.map Token.lexeme ++ [(.rightParen, ")")])) := by
  have htokens : tokenize "m.asm" 1 strayText = .ok strayTokens :=
    tokenize_eq_ok_iff.mpr ⟨by decide +kernel, by decide +kernel⟩
  have hcall : parse? "m.asm" strayText strayTokens = some strayCall := by decide +kernel
  exact ⟨htokens, hcall,
    parse?_keeps_tokens "m.asm" 1 strayText strayTokens strayCall htokens hcall⟩

end Call

end MipsMacro
