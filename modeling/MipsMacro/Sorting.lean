/-!
Sorting by insertion. Elements that the order does not tell apart keep their places
(`sortBy_filter`), the result has the same elements (`sortBy_perm`), and it is in order if the order
is total and transitive (`sortBy_pairwise`).
-/

namespace MipsMacro

variable {α : Type} (le : α → α → Bool)

/-- Puts an element in front of the first one that it may precede. -/
def insertBy (a : α) : List α → List α
  | [] => [a]
  | b :: bs => if le a b then a :: b :: bs else b :: insertBy a bs

def sortBy : List α → List α
  | [] => []
  | a :: as => insertBy le a (sortBy as)

theorem insertBy_perm (a : α) (bs : List α) : (insertBy le a bs).Perm (a :: bs) := by
  induction bs with
  | nil => exact .refl _
  | cons b bs ih =>
    rw [insertBy]
    split
    · exact .refl _
    · exact (ih.cons b).trans (.swap a b bs)

theorem sortBy_perm (as : List α) : (sortBy le as).Perm as := by
  induction as with
  | nil => exact .refl _
  | cons a as ih => exact (insertBy_perm le a _).trans (ih.cons a)

theorem insertBy_pairwise (trans : ∀ a b c, le a b → le b c → le a c)
    (total : ∀ a b, le a b || le b a) (a : α) {bs : List α} (h : bs.Pairwise (le · ·)) :
    (insertBy le a bs).Pairwise (le · ·) := by
  induction bs with
  | nil => simp [insertBy]
  | cons b bs ih =>
    rw [insertBy]
    obtain ⟨hb, hbs⟩ := List.pairwise_cons.1 h
    split
    · next hab =>
      refine List.pairwise_cons.2 ⟨fun c hc => ?_, h⟩
      rcases List.mem_cons.1 hc with rfl | hc
      · exact hab
      · exact trans _ _ _ hab (hb c hc)
    · next hab =>
      refine List.pairwise_cons.2 ⟨fun c hc => ?_, ih hbs⟩
      rcases List.mem_cons.1 ((insertBy_perm le a bs).mem_iff.1 hc) with rfl | hc
      · simpa [hab] using total c b
      · exact hb c hc

theorem sortBy_pairwise (trans : ∀ a b c, le a b → le b c → le a c)
    (total : ∀ a b, le a b || le b a) (as : List α) : (sortBy le as).Pairwise (le · ·) := by
  induction as with
  | nil => exact .nil
  | cons a as ih => exact insertBy_pairwise le trans total a ih

theorem insertBy_filter {p : α → Bool} {a : α} (h : p a = true → ∀ b, p b = true → le a b = true)
    (bs : List α) : (insertBy le a bs).filter p = (a :: bs).filter p := by
  induction bs with
  | nil => rfl
  | cons b bs ih =>
    rw [insertBy]
    split
    · rfl
    · next hab =>
      rw [List.filter_cons, ih]
      simp only [List.filter_cons]
      by_cases ha : p a = true
      · -- the new element goes behind `b`, so `b` is not among those asked for
        have hb : ¬ p b = true := fun hb => hab (h ha b hb)
        simp [ha, hb]
      · simp [ha]

/-- Elements that may stand in any order among themselves stay in the order they are in. -/
theorem sortBy_filter {p : α → Bool} (h : ∀ a b, p a = true → p b = true → le a b = true)
    (as : List α) : (sortBy le as).filter p = as.filter p := by
  induction as with
  | nil => rfl
  | cons a as ih =>
    rw [sortBy, insertBy_filter le fun ha b hb => h a b ha hb, List.filter_cons, ih,
      ← List.filter_cons]

end MipsMacro
