import MipsMacro.Definition.LocalLabels

/-!
# Finding local labels

Labels are kept in order and looked for by halving. Proved here:

* `Text.order_swap`, `Text.order_trans`: the order of texts is a total order;
* `LocalLabels.search_eq_true_iff`: in labels that are in order, the search finds what is there;
* `LocalLabels.contains_ofList`, `LocalLabels.mem_ofList`: so a label is found exactly if it is one of
  those that were given.
-/

namespace MipsMacro

namespace Text

theorem order_swap (as bs : List Char) : order bs as = (order as bs).swap := by
  induction as generalizing bs with
  | nil => cases bs <;> rfl
  | cons a as ih =>
    cases bs with
    | nil => rfl
    | cons b bs =>
      rw [order, order, ih]
      by_cases hab : a.toNat < b.toNat
      · have hba : ¬ b.toNat < a.toNat := by omega
        simp [hab, hba]
      · by_cases hba : b.toNat < a.toNat <;> simp [hab, hba]

theorem order_cons_isLE_iff (a b : Char) (as bs : List Char) :
    (order (a :: as) (b :: bs)).isLE ↔
      a.toNat < b.toNat ∨ a.toNat = b.toNat ∧ (order as bs).isLE := by
  rw [order]
  by_cases hab : a.toNat < b.toNat
  · simp [hab]
  · by_cases hba : b.toNat < a.toNat
    · have hne : a.toNat ≠ b.toNat := by omega
      simp [hab, hba, hne]
    · have heq : a.toNat = b.toNat := by omega
      simp [heq]

theorem order_trans {as bs cs : List Char} (hab : (order as bs).isLE) (hbc : (order bs cs).isLE) :
    (order as cs).isLE := by
  induction as generalizing bs cs with
  | nil => cases cs <;> rfl
  | cons a as ih =>
    cases bs with
    | nil => cases hab
    | cons b bs =>
      cases cs with
      | nil => cases hbc
      | cons c cs =>
        rw [order_cons_isLE_iff] at hab hbc ⊢
        -- the first characters decide, unless all three are the same
        rcases hab with hab | ⟨hab, hrest⟩
        · exact Or.inl (by omega)
        · rcases hbc with hbc | ⟨hbc, hrest'⟩
          · exact Or.inl (by omega)
          · exact Or.inr ⟨by omega, ih hrest hrest'⟩

theorem order_total (as bs : List Char) : ((order as bs).isLE || (order bs as).isLE) = true := by
  rw [order_swap as bs]
  cases order as bs <;> rfl

end Text

namespace LocalLabels

open Text

/-- Labels of which none comes before an earlier one. -/
def Sorted (labels : Array String) : Prop :=
  labels.toList.Pairwise fun a b => (order a.toList b.toList).isLE = true

theorem sorted_ofList (labels : List String) : Sorted (ofList labels).sorted := by
  refine sortBy_pairwise (fun a b : String => (order a.toList b.toList).isLE) ?_ ?_ labels
  · intro a b c
    exact order_trans
  · intro a b
    exact order_total a.toList b.toList

/-- A label is not before one with a smaller index. -/
theorem Sorted.not_lt {labels : Array String} (h : Sorted labels) {i j : Nat} (hij : i ≤ j)
    (hj : j < labels.size) : order labels[j].toList labels[i].toList ≠ .lt := by
  rcases Nat.lt_or_eq_of_le hij with hlt | rfl
  · have hle := List.pairwise_iff_getElem.mp h i j (by simp; omega) (by simpa using hj) hlt
    simp only [Array.getElem_toList] at hle
    rw [order_swap]
    cases hcase : order labels[i].toList labels[j].toList with
    | lt => simp
    | eq => simp
    | gt => simp [hcase] at hle
  · simp [(order_eq_iff _ _).mpr rfl]

theorem search_eq_true_iff {labels : Array String} (hsorted : Sorted labels) (label : String)
    (lo hi : Nat) (bound : hi ≤ labels.size) :
    search labels label lo hi bound = true ↔
      ∃ i, ∃ h : i < labels.size, lo ≤ i ∧ i < hi ∧ labels[i] = label := by
  fun_induction search labels label lo hi bound with
  | case1 lo hi bound hlt mid inside horder =>
    have hfound : labels[mid] = label := String.toList_inj.mp ((order_eq_iff _ _).mp horder)
    simp only [true_iff]
    exact ⟨mid, inside, by omega, by omega, hfound⟩
  | case2 lo hi bound hlt mid inside horder ih =>
    rw [ih]
    refine exists_congr fun i => exists_congr fun h => and_congr_left fun ⟨_, hlabel⟩ => ?_
    constructor
    · omega
    · -- the label comes behind the middle, so it is not at the middle or before it
      intro _
      refine Nat.lt_of_not_le fun hle => hsorted.not_lt hle inside ?_
      rw [hlabel]
      exact horder
  | case3 lo hi bound hlt mid inside horder ih =>
    rw [ih]
    refine exists_congr fun i => exists_congr fun h => and_congr_right fun hlo => ?_
    refine and_congr_left fun hlabel => ?_
    constructor
    · omega
    · intro _
      refine Nat.lt_of_not_le fun hle => hsorted.not_lt hle h ?_
      rw [hlabel, order_swap, horder]
      rfl
  | case4 lo hi bound hlt =>
    simp only [Bool.false_eq_true, false_iff]
    rintro ⟨i, -, hlo, hhi, -⟩
    omega

theorem contains_ofList (labels : List String) (label : String) :
    (ofList labels).contains label = true ↔ label ∈ (ofList labels).toList := by
  rw [contains, search_eq_true_iff (sorted_ofList labels), toList, Array.mem_toList_iff,
    Array.mem_iff_getElem]
  refine exists_congr fun i => exists_congr fun h => ?_
  simp [h]

theorem mem_ofList (labels : List String) (label : String) :
    label ∈ (ofList labels).toList ↔ label ∈ labels :=
  (sortBy_perm (fun a b : String => (order a.toList b.toList).isLE) labels).mem_iff

end LocalLabels

end MipsMacro
