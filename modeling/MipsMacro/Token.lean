import MipsMacro.Text.Bytes

/-!
The tokens of a line of assembly.
-/

namespace MipsMacro

inductive TokenKind where
  | identifier
  /-- A dot and a name: `.word`. -/
  | directive
  /-- A dollar sign and a name: `$t0`, and also the `$x` of a macro in SPIM style. -/
  | register
  /-- A percent sign and a name: `%a`. -/
  | parameter
  | integer
  | string
  | character
  | comma
  | colon
  | leftParen
  | rightParen
  | plus
  | minus
  /-- Any other character. -/
  | operator
  deriving DecidableEq

/-- A token with the line it stands on, its column counted in characters from one and its offset
counted in bytes from zero. -/
structure Token where
  kind : TokenKind
  text : String
  line : Nat
  column : Nat
  offset : Nat
  deriving DecidableEq

namespace Token

def size (t : Token) : Nat := Text.byteSize t.text.toList

/-- The byte offset just behind the token, also where a 64-bit word does not hold it. -/
def stop (t : Token) : Nat := t.offset + t.size

end Token

end MipsMacro
