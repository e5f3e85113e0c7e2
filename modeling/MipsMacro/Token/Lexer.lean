import MipsMacro.Error
import MipsMacro.Token

/-!
Cutting a line into tokens. The line is first cut into pieces, which are tokens, blanks and the
comment; no character is lost between them (`pieces_flatten`). The tokens are then the pieces with a
kind, placed by what stands before them. Only a literal without its closing quote fails.
-/

namespace MipsMacro

/-- The two kinds of quotes. -/
inductive Quote where
  | double
  | single
  deriving DecidableEq

namespace Quote

def char : Quote → Char
  | double => '\x22'
  | single => '\x27'

def kind : Quote → TokenKind
  | double => .string
  | single => .character

/-- The complaint about a literal that this quote opens and nothing closes. -/
def message : Quote → String
  | double => "Unterminated string literal"
  | single => "Unterminated character literal"

end Quote

namespace Lexer

def isBlank (c : Char) : Bool := c == ' ' || c == '\t' || c == '\r' || c == '\n'

def isIdentStart (c : Char) : Bool := c.isAlpha || c == '_'

def isIdentChar (c : Char) : Bool := c.isAlphanum || c == '_' || c == '.'

/-- The kind of a character that is a token by itself. -/
def punctuation (c : Char) : TokenKind :=
  if c = ',' then .comma
  else if c = ':' then .colon
  else if c = '(' then .leftParen
  else if c = ')' then .rightParen
  else if c = '+' then .plus
  else if c = '-' then .minus
  else .operator

/-- The rest of a literal with its closing quote, and what follows it. A backslash makes the next
character an ordinary one. -/
def literal (quote : Char) : List Char → Option (List Char × List Char)
  | [] => none
  | c :: cs =>
    if c = quote then
      some ([c], cs)
    else if c = '\x5c' then
      match cs with
      | [] => none
      | d :: ds => (literal quote ds).map fun (body, rest) => (c :: d :: body, rest)
    else
      (literal quote cs).map fun (body, rest) => (c :: body, rest)

/-- How a piece goes on behind its first character. -/
inductive Opening where
  /-- Not at all, and it is no token. -/
  | blank
  /-- To the end of the line, and it is no token. -/
  | comment
  /-- To the closing quote. -/
  | quote (quote : Quote)
  /-- As far as there are characters of names. -/
  | word (kind : TokenKind)
  /-- Not at all. -/
  | sign (kind : TokenKind)
  deriving DecidableEq

/-- What the first character of a piece, and in part the next one, make of it. A dot must be followed
by the start of a name, a dollar or percent sign by a character of one. -/
def opening (c : Char) (next : Option Char) : Opening :=
  if isBlank c then .blank
  else if c = '#' then .comment
  else if c = '\x22' then .quote .double
  else if c = '\x27' then .quote .single
  else if c = '.' && next.any isIdentStart then .word .directive
  else if c = '$' && next.any isIdentChar then .word .register
  else if c = '%' && next.any isIdentChar then .word .parameter
  else if c.isDigit then .word .integer
  else if isIdentStart c then .word .identifier
  else .sign (punctuation c)

/-- The kind of a piece, what it takes of the characters behind its first, and what it leaves. -/
def Opening.take : Opening → List Char → Except Quote (Option TokenKind × List Char × List Char)
  | blank, cs => .ok (none, [], cs)
  | comment, cs => .ok (none, cs, [])
  | quote q, cs =>
    match literal q.char cs with
    | some (body, rest) => .ok (some q.kind, body, rest)
    | none => .error q
  | word kind, cs => .ok (some kind, cs.takeWhile isIdentChar, cs.dropWhile isIdentChar)
  | sign kind, cs => .ok (some kind, [], cs)

/-- The piece that starts with `c`. -/
def piece (c : Char) (cs : List Char) : Except Quote (Option TokenKind × List Char × List Char) :=
  (opening c cs.head?).take cs

theorem literal_append {quote : Char} {cs body rest : List Char}
    (h : literal quote cs = some (body, rest)) : body ++ rest = cs := by
  fun_induction literal quote cs generalizing body rest with
  | case1 => simp at h
  | case2 => grind
  | case3 => simp at h
  | case4 _ _ _ ih =>
    obtain ⟨⟨b, r⟩, hb, he⟩ := Option.map_eq_some_iff.1 h
    simp only [Prod.mk.injEq] at he
    simp [← he.1, ← he.2, ih hb]
  | case5 _ _ _ _ ih =>
    obtain ⟨⟨b, r⟩, hb, he⟩ := Option.map_eq_some_iff.1 h
    simp only [Prod.mk.injEq] at he
    simp [← he.1, ← he.2, ih hb]

theorem Opening.take_append {o : Opening} {cs tail rest : List Char} {kind : Option TokenKind}
    (h : o.take cs = .ok (kind, tail, rest)) : tail ++ rest = cs := by
  cases o with
  | blank => simp [take] at h; simp [h]
  | comment => simp [take] at h; simp [h]
  | quote q =>
    simp only [take] at h
    split at h
    · next hl =>
      simp only [Except.ok.injEq, Prod.mk.injEq] at h
      rw [← h.2.1, ← h.2.2, literal_append hl]
    · simp at h
  | word k =>
    simp only [take, Except.ok.injEq, Prod.mk.injEq] at h
    rw [← h.2.1, ← h.2.2, List.takeWhile_append_dropWhile]
  | sign k => simp [take] at h; simp [h]

theorem piece_append {c : Char} {cs tail rest : List Char} {kind : Option TokenKind}
    (h : piece c cs = .ok (kind, tail, rest)) : tail ++ rest = cs :=
  Opening.take_append h

/-- A run of characters of the line, with its kind if it is a token. -/
structure Piece where
  kind : Option TokenKind
  chars : List Char
  deriving DecidableEq

/-- The pieces of a line up to its end, or up to a quote that nothing closes. -/
def pieces : List Char → List Piece × Option Quote
  | [] => ([], none)
  | c :: cs =>
    match _h : piece c cs with
    | .error quote => ([], some quote)
    | .ok (kind, tail, rest) =>
      let more := pieces rest
      (⟨kind, c :: tail⟩ :: more.1, more.2)
termination_by cs => cs.length
decreasing_by
  have := congrArg List.length (piece_append _h)
  simp at this ⊢
  omega

/-- The characters that a list of pieces covers. -/
def covered (ps : List Piece) : List Char := ps.flatMap Piece.chars

theorem pieces_cons (c : Char) (cs : List Char) :
    pieces (c :: cs) = match piece c cs with
      | .error quote => ([], some quote)
      | .ok (kind, tail, rest) => (⟨kind, c :: tail⟩ :: (pieces rest).1, (pieces rest).2) := by
  rw [pieces]
  split <;> simp [*]

/-- Pieces without an open quote cover the line, character by character. -/
theorem pieces_flatten {cs : List Char} (h : (pieces cs).2 = none) : covered (pieces cs).1 = cs := by
  match cs with
  | [] => simp [pieces, covered]
  | c :: cs =>
    rw [pieces_cons] at h ⊢
    match hp : piece c cs with
    | .error q => simp [hp] at h
    | .ok (kind, tail, rest) =>
      have happ := piece_append hp
      simp only [hp] at h
      have ih := pieces_flatten h
      simp only [covered] at ih
      simp [covered, ih, happ]
termination_by cs.length
decreasing_by
  have := congrArg List.length happ
  simp at this ⊢
  omega

/-- The tokens among pieces, of which the first starts at the given column and offset. -/
def place (line column offset : Nat) : List Piece → List Token
  | [] => []
  | p :: ps =>
    let rest := place line (column + p.chars.length) (offset + Text.byteSize p.chars) ps
    match p.kind with
    | some kind => ⟨kind, String.ofList p.chars, line, column, offset⟩ :: rest
    | none => rest

end Lexer

/-- The tokens of one line. An open literal is reported at its quote. -/
def tokenize (file : String) (line : Nat) (text : String) : Except Error (List Token) :=
  match Lexer.pieces text.toList with
  | (ps, none) => .ok (Lexer.place line 1 0 ps)
  | (ps, some quote) =>
    .error (.lexical (.ofNat file line (1 + (Lexer.covered ps).length)) quote.message)

end MipsMacro
