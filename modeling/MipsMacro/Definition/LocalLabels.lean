import MipsMacro.Sorting
import MipsMacro.Text.Order

/-!
The labels that a macro body declares, kept in order so that a search can halve them.
-/

namespace MipsMacro

structure LocalLabels where
  /-- The labels in order, repetitions included. -/
  sorted : Array String

namespace LocalLabels

def ofList (labels : List String) : LocalLabels :=
  ⟨(sortBy (fun a b => (Text.order a.toList b.toList).isLE) labels).toArray⟩

def toList (l : LocalLabels) : List String := l.sorted.toList

def size (l : LocalLabels) : Nat := l.sorted.size

/-- Looks for a label among those with an index from `lo` to below `hi`, which must be in order. -/
def search (labels : Array String) (label : String) (lo hi : Nat) (bound : hi ≤ labels.size) : Bool :=
  if h : lo < hi then
    let mid := lo + (hi - lo) / 2
    have inside : mid < labels.size := by omega
    match Text.order labels[mid].toList label.toList with
    | .eq => true
    | .lt => search labels label (mid + 1) hi bound
    | .gt => search labels label lo mid (by omega)
  else
    false
termination_by hi - lo

def contains (l : LocalLabels) (label : String) : Bool :=
  search l.sorted label 0 l.sorted.size (Nat.le_refl _)

end LocalLabels

end MipsMacro
