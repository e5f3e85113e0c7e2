import MipsMacro.Definition
import MipsMacro.Proofs.LocalLabels

/-!
# Labels in the order of their bytes

Texts are compared by code points. Proved here:

* `Text.utf8EncodeChar_lt`: the UTF-8 bytes of a greater character are greater, whatever follows them;
* `Text.order_isLE_iff`: so the order by code points is the lexicographic order of the bytes;
* `LocalLabels.ofList_eq_of_perm`: the labels of a body are the same in whatever order they are collected;
* `LocalLabels.ofList_ordered`: they are the collected ones in the order of their bytes, and a label is
  found exactly if it is one of them.
-/

namespace MipsMacro

namespace Text

/-- The UTF-8 bytes of a text. -/
def bytes (s : String) : List UInt8 := s.toUTF8.data.toList

theorem bytes_eq (s : String) : bytes s = s.toList.flatMap String.utf8EncodeChar := by
  rw [bytes, String.toUTF8_eq_toByteArray, ← String.utf8Encode_toList, List.utf8Encode,
    List.data_toByteArray]

theorem ofNat_lt_iff {m n : Nat} (hm : m < 256) (hn : n < 256) : UInt8.ofNat m < UInt8.ofNat n ↔ m < n := by
  rw [UInt8.lt_iff_toNat_lt, UInt8.toNat_ofNat', UInt8.toNat_ofNat', Nat.mod_eq_of_lt hm,
    Nat.mod_eq_of_lt hn]

theorem ofNat_inj {m n : Nat} (hm : m < 256) (hn : n < 256) : UInt8.ofNat m = UInt8.ofNat n ↔ m = n := by
  rw [← UInt8.toNat_inj, UInt8.toNat_ofNat', UInt8.toNat_ofNat', Nat.mod_eq_of_lt hm,
    Nat.mod_eq_of_lt hn]

/-- The bytes of a character by the size of its code point. -/
theorem utf8EncodeChar_cases (c : Char) :
    c.toNat < 0x80 ∧ String.utf8EncodeChar c = [UInt8.ofNat c.toNat] ∨
    (0x80 ≤ c.toNat ∧ c.toNat < 0x800) ∧ String.utf8EncodeChar c =
      [UInt8.ofNat (c.toNat / 0x40 + 0xc0), UInt8.ofNat (c.toNat % 0x40 + 0x80)] ∨
    (0x800 ≤ c.toNat ∧ c.toNat < 0x10000) ∧ String.utf8EncodeChar c =
      [UInt8.ofNat (c.toNat / 0x1000 + 0xe0), UInt8.ofNat (c.toNat / 0x40 % 0x40 + 0x80),
        UInt8.ofNat (c.toNat % 0x40 + 0x80)] ∨
    (0x10000 ≤ c.toNat ∧ c.toNat < 0x110000) ∧ String.utf8EncodeChar c =
      [UInt8.ofNat (c.toNat / 0x40000 + 0xf0), UInt8.ofNat (c.toNat / 0x1000 % 0x40 + 0x80),
        UInt8.ofNat (c.toNat / 0x40 % 0x40 + 0x80), UInt8.ofNat (c.toNat % 0x40 + 0x80)] := by
  have hvalid : c.toNat < 0xd800 ∨ 0xdfff < c.toNat ∧ c.toNat < 0x110000 := c.valid
  have hval : c.val.toNat = c.toNat := rfl
  simp only [String.utf8EncodeChar, hval]
  rcases Nat.lt_or_ge c.toNat 0x80 with hone | hone
  · exact Or.inl ⟨hone, if_pos (by omega)⟩
  rcases Nat.lt_or_ge c.toNat 0x800 with htwo | htwo
  · refine Or.inr (Or.inl ⟨⟨hone, htwo⟩, ?_⟩)
    rw [if_neg (by omega), if_pos (by omega), Nat.mod_eq_of_lt (show c.toNat / 64 < 32 by omega)]
  rcases Nat.lt_or_ge c.toNat 0x10000 with hthree | hthree
  · refine Or.inr (Or.inr (Or.inl ⟨⟨htwo, hthree⟩, ?_⟩))
    rw [if_neg (by omega), if_neg (by omega), if_pos (by omega),
      Nat.mod_eq_of_lt (show c.toNat / 4096 < 16 by omega)]
  · refine Or.inr (Or.inr (Or.inr ⟨⟨hthree, by omega⟩, ?_⟩))
    rw [if_neg (by omega), if_neg (by omega), if_neg (by omega),
      Nat.mod_eq_of_lt (show c.toNat / 262144 < 8 by omega)]

/-- The bytes of a greater character are greater, whatever follows them. -/
theorem utf8EncodeChar_lt {a b : Char} (h : a.toNat < b.toNat) (as bs : List UInt8) :
    String.utf8EncodeChar a ++ as < String.utf8EncodeChar b ++ bs := by
  -- at the first byte where the two differ the greater character has the greater byte
  rcases utf8EncodeChar_cases a with ⟨ha, hencode⟩ | ⟨ha, hencode⟩ | ⟨ha, hencode⟩ | ⟨ha, hencode⟩ <;>
  rcases utf8EncodeChar_cases b with ⟨hb, hencode'⟩ | ⟨hb, hencode'⟩ | ⟨hb, hencode'⟩ | ⟨hb, hencode'⟩ <;>
  · rw [hencode, hencode']
    simp (disch := omega) only [List.cons_append, List.cons_lt_cons_iff, ofNat_lt_iff, ofNat_inj]
    omega

theorem utf8EncodeChar_ne_nil (c : Char) : String.utf8EncodeChar c ≠ [] := by
  rw [← List.length_pos_iff, String.length_utf8EncodeChar]
  exact c.utf8Size_pos

theorem flatMap_lt_of_order {as bs : List Char} (h : order as bs = .lt) :
    as.flatMap String.utf8EncodeChar < bs.flatMap String.utf8EncodeChar := by
  induction as generalizing bs with
  | nil =>
    cases bs with
    | nil => cases h
    | cons b bs =>
      obtain ⟨byte, rest, hbytes⟩ := List.exists_cons_of_ne_nil (utf8EncodeChar_ne_nil b)
      rw [List.flatMap_cons, hbytes]
      exact List.nil_lt_cons _ _
  | cons a as ih =>
    cases bs with
    | nil => cases h
    | cons b bs =>
      rw [List.flatMap_cons, List.flatMap_cons]
      rw [order] at h
      split at h
      · next hlt => exact utf8EncodeChar_lt hlt _ _
      · split at h
        · cases h
        · next hab hba =>
          have heq : a = b := Char.ext (UInt32.toNat.inj (show a.toNat = b.toNat by omega))
          rw [heq]
          exact List.append_left_lt (ih h)

/-- The order by code points is the lexicographic order of the UTF-8 bytes. -/
theorem order_isLE_iff (a b : String) : (order a.toList b.toList).isLE = true ↔ bytes a ≤ bytes b := by
  rw [bytes_eq, bytes_eq, ← List.not_lt]
  cases horder : order a.toList b.toList with
  | lt => simpa using List.lt_asymm (flatMap_lt_of_order horder)
  | eq =>
    rw [(order_eq_iff _ _).mp horder]
    simp
  | gt =>
    have hswap : order b.toList a.toList = .lt := by rw [order_swap, horder, Ordering.swap_gt]
    simpa using flatMap_lt_of_order hswap

theorem eq_of_order_isLE {a b : String} (hab : (order a.toList b.toList).isLE = true)
    (hba : (order b.toList a.toList).isLE = true) : a = b := by
  rw [order_swap] at hba
  refine String.toList_inj.mp ((order_eq_iff _ _).mp ?_)
  cases horder : order a.toList b.toList with
  | lt => simp [horder] at hba
  | eq => rfl
  | gt => simp [horder] at hab

end Text

namespace LocalLabels

open Text

theorem perm_ofList (labels : List String) : (ofList labels).toList.Perm labels :=
  sortBy_perm (fun a b : String => (order a.toList b.toList).isLE) labels

theorem pairwise_ofList (labels : List String) :
    (ofList labels).toList.Pairwise fun a b => bytes a ≤ bytes b :=
  (sorted_ofList labels).imp fun h => (order_isLE_iff _ _).mp h

/-- The order in which labels are collected leaves no trace. -/
theorem ofList_eq_of_perm {labels labels' : List String} (h : labels.Perm labels') :
    ofList labels = ofList labels' := by
  have hperm : (ofList labels).toList.Perm (ofList labels').toList :=
    (perm_ofList labels).trans (h.trans (perm_ofList labels').symm)
  -- two labels of which neither comes first are one text, so there is one way to put them in order
  have hlist : (ofList labels).toList = (ofList labels').toList :=
    hperm.eq_of_pairwise (fun _ _ _ _ => eq_of_order_isLE) (sorted_ofList labels) (sorted_ofList labels')
  exact congrArg mk (Array.toList_inj.mp hlist)

end LocalLabels

/-- Labels that are added one list after the other. -/
theorem Draft.foldl_addLabels (d : Draft) (added : List (List String)) :
    added.foldl addLabels d = { d with labels := d.labels ++ added.flatten } := by
  induction added generalizing d with
  | nil => simp
  | cons labels added ih => simp [ih, addLabels]

/-- The labels of a body are those collected, in the order of their bytes; a label is found exactly if
it is one of them; and neither depends on the order in which they are collected or added to a draft. -/
theorem LocalLabels.ofList_ordered (labels : List String) :
    (ofList labels).toList.Perm labels ∧
    (ofList labels).toList.Pairwise (fun a b => Text.bytes a ≤ Text.bytes b) ∧
    (∀ label, (ofList labels).contains label = true ↔ label ∈ labels) ∧
    (∀ labels' : List String, labels'.Perm labels →
      (ofList labels').toList = (ofList labels).toList ∧
      ∀ label, (ofList labels').contains label = (ofList labels).contains label) ∧
    (∀ (d : Draft) (added added' : List (List String)), added.flatten = labels →
      added'.flatten.Perm labels →
      (added'.foldl Draft.addLabels d).finish = (added.foldl Draft.addLabels d).finish) := by
  refine ⟨perm_ofList labels, pairwise_ofList labels, fun label => ?_, fun labels' hperm => ?_,
    fun d added added' hadded hadded' => ?_⟩
  · rw [contains_ofList, mem_ofList]
  · rw [ofList_eq_of_perm hperm]
    exact ⟨rfl, fun _ => rfl⟩
  · subst hadded
    rw [Draft.foldl_addLabels, Draft.foldl_addLabels, Draft.finish, Draft.finish,
      ofList_eq_of_perm (hadded'.append_left d.labels)]

/-- A draft without labels, of a program without lines. -/
def emptyDraft : Draft := { name := "m", program := .ofRows "m.asm" [] }

theorem LocalLabels.ofList_ordered_loops :
    (ofList ["loop1", "loop", "é", "loo", "loop"]).toList = ["loo", "loop", "loop", "loop1", "é"] ∧
    (ofList ["loop1", "loop", "é", "loo", "loop"]).contains "loop" = true ∧
    (ofList ["loop1", "loop", "é", "loo", "loop"]).contains "loop2" = false ∧
    ([["loop", "loop"], ["é"], ["loo", "loop1"]].foldl Draft.addLabels emptyDraft).finish =
      ([["loop1", "loop"], ["é", "loo", "loop"]].foldl Draft.addLabels emptyDraft).finish := by
  obtain ⟨-, -, hmem, horder, hfinish⟩ := ofList_ordered ["loop1", "loop", "é", "loo", "loop"]
  have hsorted := (horder ["loo", "loop", "loop", "loop1", "é"] (by decide)).1
  refine ⟨hsorted.symm.trans (by decide), ?_, ?_, hfinish emptyDraft _ _ rfl (by decide)⟩
  · exact (hmem "loop").mpr (by decide)
  · exact Bool.eq_false_iff.mpr fun hfound => absurd ((hmem "loop2").mp hfound) (by decide)

end MipsMacro
