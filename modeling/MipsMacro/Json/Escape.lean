/-!
Characters inside JSON strings. Writing escapes the quote, the backslash and the control characters
below the space, and nothing else. Reading accepts every escape of the format; two escapes in a row
may spell one character as a pair of surrogates, and a surrogate alone spells none.
-/

namespace MipsMacro.Json

/-- The value of a hexadecimal digit. -/
def hexValue? (c : Char) : Option Nat :=
  if c.isDigit then some (c.toNat - 0x30)
  else if 0x61 ≤ c.toNat ∧ c.toNat ≤ 0x66 then some (c.toNat - 0x61 + 10)
  else if 0x41 ≤ c.toNat ∧ c.toNat ≤ 0x46 then some (c.toNat - 0x41 + 10)
  else none

/-- The value of four hexadecimal digits. -/
def hex4? (a b c d : Char) : Option Nat := do
  let a ← hexValue? a
  let b ← hexValue? b
  let c ← hexValue? c
  let d ← hexValue? d
  return ((a * 16 + b) * 16 + c) * 16 + d

/-- The character that a backslash and a letter spell. -/
def shortEscape? (c : Char) : Option Char :=
  if c = '\x22' ∨ c = '\x5c' ∨ c = '/' then some c
  else if c = 'b' then some '\x08'
  else if c = 'f' then some '\x0c'
  else if c = 'n' then some '\n'
  else if c = 'r' then some '\r'
  else if c = 't' then some '\t'
  else none

def isHighSurrogate (n : Nat) : Bool := Nat.ble 0xd800 n && Nat.ble n 0xdbff

def isLowSurrogate (n : Nat) : Bool := Nat.ble 0xdc00 n && Nat.ble n 0xdfff

/-- The character beyond the basic plane that two surrogates spell. -/
def surrogatePair (high low : Nat) : Char :=
  Char.ofNat (0x10000 + (high - 0xd800) * 0x400 + (low - 0xdc00))

/-- The text that the inside of a string spells. -/
def unescape : List Char → Option (List Char)
  | [] => some []
  | c :: cs =>
    if c = '\x5c' then
      match cs with
      | [] => none
      | d :: ds =>
        if d = 'u' then
          match ds with
          | h1 :: h2 :: h3 :: h4 :: rest => do
            let n ← hex4? h1 h2 h3 h4
            if isHighSurrogate n then
              match rest with
              | s1 :: s2 :: l1 :: l2 :: l3 :: l4 :: rest =>
                if s1 = '\x5c' ∧ s2 = 'u' then do
                  let m ← hex4? l1 l2 l3 l4
                  if isLowSurrogate m then
                    let text ← unescape rest
                    return surrogatePair n m :: text
                  else
                    none
                else
                  none
              | _ => none
            else if isLowSurrogate n then
              none
            else do
              let text ← unescape rest
              return Char.ofNat n :: text
          | _ => none
        else do
          let e ← shortEscape? d
          let text ← unescape ds
          return e :: text
    else do
      let text ← unescape cs
      return c :: text

/-- A character as it is written inside a string. -/
def escapeChar (c : Char) : List Char :=
  if c = '\x22' then ['\x5c', '\x22']
  else if c = '\x5c' then ['\x5c', '\x5c']
  else if c = '\x08' then ['\x5c', 'b']
  else if c = '\t' then ['\x5c', 't']
  else if c = '\n' then ['\x5c', 'n']
  else if c = '\x0c' then ['\x5c', 'f']
  else if c = '\r' then ['\x5c', 'r']
  else if c.toNat < 0x20 then
    ['\x5c', 'u', '0', '0', Nat.digitChar (c.toNat / 16), Nat.digitChar (c.toNat % 16)]
  else [c]

/-- A text as it is written inside a string. -/
def escape (cs : List Char) : List Char := cs.flatMap escapeChar

end MipsMacro.Json
