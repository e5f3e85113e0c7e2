/-!
The lines of a macro block, from its opening to its closing directive. The block may have been moved:
it stands at `first` to `last` in the program that holds it, and it was written at `fileFirst` to
`fileLast` of its own file.
-/

namespace MipsMacro

structure LineRange where
  first : Nat := 0
  last : Nat := 0
  fileFirst : Nat := 0
  fileLast : Nat := 0
  deriving DecidableEq

namespace LineRange

def contains (r : LineRange) (line : Nat) : Bool := Nat.ble r.first line && Nat.ble line r.last

/-- The first line of the body. Line numbers are 64-bit words, so what comes behind the largest of them
is line zero; a line with another one behind it is not the largest. -/
def bodyStart (r : LineRange) : Nat :=
  if r.first < r.last then r.first + 1 else (r.first + 1) % UInt64.size

/-- The number of lines in the body. -/
def bodySize (r : LineRange) : Nat := r.last - r.bodyStart

/-- The first line behind the body. -/
def bodyStop (r : LineRange) : Nat := r.bodyStart + r.bodySize

/-- The line of the block's own file that a line of the block was written on. Locations are made of it
and keep its low 32 bits, so it does not show that the sum is one of 64-bit words. -/
def fileLine? (r : LineRange) (line : Nat) : Option Nat :=
  if r.contains line then some (line - r.first + r.fileFirst) else none

theorem bodyStart_eq {r : LineRange} (h : r.first < r.last ∨ r.first + 1 < UInt64.size) :
    r.bodyStart = r.first + 1 := by
  unfold bodyStart
  split
  · rfl
  · next hle => exact Nat.mod_eq_of_lt (h.resolve_left hle)

end LineRange

end MipsMacro
