import Mathlib.Data.Finset.Card
import Mathlib.Data.List.Induction
import MipsMacro.Proofs.MacroTable

/-!
# Tables after any history of commits

Proved here, for every sequence of commits to an empty table:

* `MacroTable.nodup_put`, `MacroTable.nodup_afterAll`: no two definitions in the table have one
  signature;
* `MacroTable.lookup_afterAll`, `MacroTable.size_afterAll`: what is found under a signature is what was
  committed last, and there are as many definitions as signatures;
* `MacroTable.pairwise_arities`, `MacroTable.mem_arities`, `MacroTable.containsName_iff_arities`: the
  queries by name agree with the look-ups;
* `MacroTable.afterAll_spec`: so a table is settled by the last commit of each signature.
-/

namespace MipsMacro

namespace MacroTable

/-- The table after a history of commits, the earliest of which comes first. -/
def afterAll (history : List Definition) : MacroTable :=
  history.foldl (fun table d => (table.commit d).2) {}

theorem nodup_put (d : Definition) {es : List Definition} (h : (es.map Definition.signature).Nodup) :
    ((put d es).2.map Definition.signature).Nodup := by
  induction es with
  | nil => simp [put]
  | cons e es ih =>
    rw [List.map_cons, List.nodup_cons] at h
    by_cases hs : e.signature = d.signature
    · simpa only [put, hs, if_true, List.map_cons, List.nodup_cons] using hs ▸ h
    · rw [put, if_neg hs, List.map_cons, List.nodup_cons, mem_signatures_put, not_or]
      exact ⟨⟨hs, h.1⟩, ih h.2⟩

theorem afterAll_concat (history : List Definition) (d : Definition) :
    afterAll (history ++ [d]) = ((afterAll history).commit d).2 := by
  simp [afterAll]

theorem lookup_afterAll (history : List Definition) (name : String) (arity : Nat) :
    (afterAll history).lookup name arity =
      (history.filter fun d => d.name = name ∧ d.arity = arity).getLast? := by
  induction history using List.reverseRecOn with
  | nil => rfl
  | append_singleton history d ih =>
    rw [afterAll_concat, lookup_commit, ih, List.filter_append, List.getLast?_append]
    by_cases h : d.name = name ∧ d.arity = arity
    · simp [Definition.fits, h]
    · simp [Definition.fits, h]

theorem nodup_afterAll (history : List Definition) :
    ((afterAll history).definitions.map Definition.signature).Nodup := by
  induction history using List.reverseRecOn with
  | nil => exact List.nodup_nil
  | append_singleton history d ih =>
    rw [afterAll_concat]
    exact nodup_put d ih

theorem mem_signatures_afterAll (history : List Definition) (s : Signature) :
    s ∈ (afterAll history).definitions.map Definition.signature ↔
      s ∈ history.map Definition.signature := by
  induction history using List.reverseRecOn with
  | nil => rfl
  | append_singleton history d ih =>
    have hput : s ∈ ((afterAll history).commit d).2.definitions.map Definition.signature ↔
        s = d.signature ∨ s ∈ (afterAll history).definitions.map Definition.signature :=
      mem_signatures_put d (afterAll history).definitions s
    rw [afterAll_concat, hput, ih, List.map_append, List.mem_append, List.map_singleton,
      List.mem_singleton]
    exact or_comm

theorem size_afterAll (history : List Definition) :
    (afterAll history).size = (history.map Definition.signature).toFinset.card := by
  have hsame : (history.map Definition.signature).toFinset =
      ((afterAll history).definitions.map Definition.signature).toFinset := by
    ext s
    rw [List.mem_toFinset, List.mem_toFinset, mem_signatures_afterAll]
  rw [hsame, List.toFinset_card_of_nodup (nodup_afterAll history), List.length_map, size]

/-! ## Queries by name -/

/-- The numbers of parameters are those under which the name can be looked up. -/
theorem mem_arities (table : MacroTable) (name : String) (arity : Nat) :
    arity ∈ table.arities name ↔ (table.lookup name arity).isSome = true := by
  rw [arities, (sortBy_perm Nat.ble _).mem_iff, lookup, List.find?_isSome]
  simp only [List.mem_map, List.mem_filter, beq_iff_eq, Definition.fits, Bool.and_eq_true]
  simp only [and_assoc]

theorem containsName_iff_arities (table : MacroTable) (name : String) :
    table.containsName name = true ↔ table.arities name ≠ [] := by
  rw [containsName_iff, Ne, List.eq_nil_iff_forall_not_mem, not_forall_not]
  simp only [mem_arities, Option.isSome_iff_exists]

/-- Without two definitions of one signature, no number of parameters is listed twice. -/
theorem pairwise_arities {table : MacroTable} (h : (table.definitions.map Definition.signature).Nodup)
    (name : String) : (table.arities name).Pairwise (· < ·) := by
  have hsorted : (table.arities name).Pairwise (Nat.ble · ·) := by
    refine sortBy_pairwise Nat.ble (fun a b c hab hbc => ?_) (fun a b => ?_) _
    · rw [Nat.ble_eq] at hab hbc ⊢
      exact Nat.le_trans hab hbc
    · rw [Bool.or_eq_true, Nat.ble_eq, Nat.ble_eq]
      exact Nat.le_total a b
  have hnodup : (table.arities name).Nodup := by
    refine (sortBy_perm Nat.ble _).nodup_iff.mpr ?_
    have hsignatures : ((table.definitions.filter (·.name == name)).map Definition.signature).Nodup :=
      (List.filter_sublist.map Definition.signature).nodup h
    -- among macros of one name the signature is settled by the number of parameters
    have hmap : ((table.definitions.filter (·.name == name)).map Definition.arity).map
          (Signature.mk name) =
        (table.definitions.filter (·.name == name)).map Definition.signature := by
      rw [List.map_map]
      refine List.map_congr_left fun d hd => ?_
      have hname : d.name = name := by simpa using (List.mem_filter.mp hd).2
      simp [Definition.signature, hname]
    exact List.Nodup.of_map _ (hmap ▸ hsignatures)
  exact (hsorted.and hnodup).imp fun h => Nat.lt_of_le_of_ne (Nat.le_of_ble_eq_true h.1) h.2

/-- **A table after any history of commits.** What is looked up is the definition with this name and this
number of parameters that was committed last, if there is one. A further commit gives back what its own
signature was looked up as, is found under this signature from then on, and changes no other look-up. The
numbers of parameters of a name are listed in ascending order, none twice, and are those under which
something is found; the name is in the table exactly if there are any; and the table is as large as there
are signatures in the history. -/
theorem afterAll_spec (history : List Definition) :
    let table := afterAll history
    (∀ name arity,
      table.lookup name arity =
          (history.filter fun d => d.name = name ∧ d.parameters.length = arity).getLast? ∧
        (table.lookup name arity).all (·.fits name arity) = true) ∧
    (∀ d, (table.commit d).1 = table.lookup d.name d.parameters.length ∧
      ∀ name arity, (table.commit d).2.lookup name arity =
        if d.name = name ∧ d.parameters.length = arity then some d else table.lookup name arity) ∧
    (∀ name, (table.arities name).Pairwise (· < ·) ∧
      (∀ arity, arity ∈ table.arities name ↔ (table.lookup name arity).isSome = true) ∧
      (table.containsName name = true ↔ table.arities name ≠ [])) ∧
    table.size = (history.map Definition.signature).toFinset.card := by
  intro table
  refine ⟨fun name arity => ⟨lookup_afterAll history name arity, ?_⟩, fun d => ⟨?_, ?_⟩,
    fun name => ⟨?_, ?_, ?_⟩, size_afterAll history⟩
  · cases h : table.lookup name arity with
    | none => rfl
    | some d =>
      have hfits := List.find?_some h
      exact hfits
  · exact put_fst d table.definitions
  · intro name arity
    have hcommit := lookup_commit table d name arity
    simpa only [Definition.fits, Definition.arity, Bool.and_eq_true, beq_iff_eq] using hcommit
  · exact pairwise_arities (nodup_afterAll history) name
  · exact mem_arities table name
  · exact containsName_iff_arities table name

end MacroTable

end MipsMacro
