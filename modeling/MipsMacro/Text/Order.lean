/-!
The order of texts by code points, which is also the order of their UTF-8 bytes.
-/

namespace MipsMacro.Text

/-- Compares two texts at the first character where they differ; a proper beginning comes first. -/
def order : List Char → List Char → Ordering
  | [], [] => .eq
  | [], _ :: _ => .lt
  | _ :: _, [] => .gt
  | a :: as, b :: bs =>
    if a.toNat < b.toNat then .lt else if b.toNat < a.toNat then .gt else order as bs

theorem order_eq_iff (as bs : List Char) : order as bs = .eq ↔ as = bs := by
  induction as generalizing bs with
  | nil => cases bs <;> simp [order]
  | cons a as ih =>
    cases bs with
    | nil => simp [order]
    | cons b bs =>
      have hab : a = b ↔ a.toNat = b.toNat := ⟨congrArg _, Char.ext ∘ UInt32.toNat.inj⟩
      rw [order, List.cons.injEq, hab, ← ih]
      split
      · simp; omega
      · split
        · simp; omega
        · simp; omega

end MipsMacro.Text
