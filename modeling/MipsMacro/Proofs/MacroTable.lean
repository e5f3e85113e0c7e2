import MipsMacro.Proofs.Blocks

/-!
# Committing definitions

Proved here:

* `MacroTable.put_fst`, `MacroTable.mem_signatures_put`: a definition replaces what was found under its
  signature, and takes no signature but its own;
* `Scan.mem_commitAll`, `Scan.program_of_lookup`: a table holds nothing but what was committed;
* `MacroTable.lookup_commit`, `Scan.lookup_commitAll`: of the definitions with one signature the one that
  was committed last is found;
* `Scan.length_commitAll`: every commit makes the table longer or warns;
* `Scan.commitAll_warnings`: a sequence of commits warns exactly about the definitions whose
  signature an earlier one had.
-/

namespace MipsMacro

namespace MacroTable

theorem fits_iff (d : Definition) (name : String) (arity : Nat) :
    d.fits name arity = true ↔ d.signature = ⟨name, arity⟩ := by
  simp [Definition.fits, Definition.signature]

/-- What a definition replaces is what was found under its signature. -/
theorem put_fst (d : Definition) (es : List Definition) :
    (put d es).1 = es.find? (·.fits d.name d.arity) := by
  induction es with
  | nil => rfl
  | cons e es ih =>
    have hfits : e.fits d.name d.arity = true ↔ e.signature = d.signature := fits_iff e d.name d.arity
    by_cases h : e.signature = d.signature
    · simp [put, h, hfits.mpr h]
    · simp [put, h, mt hfits.mp h, ih]

theorem put_isSome_iff (d : Definition) (es : List Definition) :
    (put d es).1.isSome ↔ d.signature ∈ es.map Definition.signature := by
  simp only [put_fst, List.find?_isSome, fits_iff, List.mem_map]
  rfl

theorem mem_signatures_put (d : Definition) (es : List Definition) (s : Signature) :
    s ∈ (put d es).2.map Definition.signature ↔
      s = d.signature ∨ s ∈ es.map Definition.signature := by
  induction es with
  | nil => simp [put]
  | cons e es ih =>
    by_cases h : e.signature = d.signature
    · simp [put, h]
    · simp only [put, h, if_false, List.map_cons, List.mem_cons, ih]
      exact or_left_comm

/-- A definition makes the table longer, or it replaces another. -/
theorem length_put (d : Definition) (es : List Definition) :
    (put d es).2.length + (put d es).1.toList.length = es.length + 1 := by
  induction es with
  | nil => rfl
  | cons e es ih =>
    by_cases h : e.signature = d.signature
    · simp [put, h]
    · simp only [put, h, if_false, List.length_cons]
      omega

theorem mem_put {d e : Definition} {es : List Definition} (h : e ∈ (put d es).2) : e = d ∨ e ∈ es := by
  induction es with
  | nil => exact Or.inl (List.mem_singleton.mp h)
  | cons first es ih =>
    rw [put] at h
    by_cases hs : first.signature = d.signature
    · rw [if_pos hs] at h
      rcases List.mem_cons.mp h with rfl | h
      · exact Or.inl rfl
      · exact Or.inr (List.mem_cons_of_mem _ h)
    · rw [if_neg hs] at h
      rcases List.mem_cons.mp h with rfl | h
      · exact Or.inr (List.mem_cons_self ..)
      · exact (ih h).imp id (List.mem_cons_of_mem _)

theorem fits_of_lookup {table : MacroTable} {name : String} {arity : Nat} {d : Definition}
    (h : table.lookup name arity = some d) : d.name = name ∧ d.arity = arity := by
  have hfits := List.find?_some h
  simpa [Definition.fits] using hfits

/-- A new definition is found under its own signature, and hides nothing else. -/
theorem find?_put (d : Definition) (es : List Definition) (name : String) (arity : Nat) :
    (put d es).2.find? (·.fits name arity) =
      if d.fits name arity then some d else es.find? (·.fits name arity) := by
  induction es with
  | nil => simp only [put, List.find?_singleton, List.find?_nil]
  | cons e es ih =>
    by_cases hs : e.signature = d.signature
    · have hsame : e.fits name arity = d.fits name arity := by
        rw [Bool.eq_iff_iff, fits_iff, fits_iff, hs]
      simp only [put, hs, if_true, List.find?_cons, hsame]
      cases d.fits name arity <;> rfl
    · simp only [put, hs, if_false, List.find?_cons, ih]
      by_cases he : e.fits name arity = true
      · -- what fits here has this signature, and `d` has another
        have hd : d.fits name arity = false := by
          rw [Bool.eq_false_iff, Ne, fits_iff]
          rw [fits_iff] at he
          exact fun hd => hs (he.trans hd.symm)
        simp [he, hd]
      · simp [he]

theorem lookup_commit (table : MacroTable) (d : Definition) (name : String) (arity : Nat) :
    (table.commit d).2.lookup name arity =
      if d.fits name arity then some d else table.lookup name arity :=
  find?_put d table.definitions name arity

/-- A name is that of some macro exactly if it can be looked up with some number of parameters. -/
theorem containsName_iff (table : MacroTable) (name : String) :
    table.containsName name = true ↔ ∃ arity d, table.lookup name arity = some d := by
  simp only [containsName, List.any_eq_true, beq_iff_eq]
  constructor
  · rintro ⟨d, hd, rfl⟩
    have hsome : (table.lookup d.name d.arity).isSome = true :=
      List.find?_isSome.mpr ⟨d, hd, by simp [Definition.fits]⟩
    obtain ⟨e, he⟩ := Option.isSome_iff_exists.mp hsome
    exact ⟨d.arity, e, he⟩
  · rintro ⟨arity, d, hd⟩
    exact ⟨d, List.mem_of_find?_eq_some hd, (fits_of_lookup hd).1⟩

end MacroTable

namespace Scan

/-- The last of the committed definitions that fits is found, or else what the table held before. -/
theorem lookup_commitAll (table : MacroTable) (ds : List Definition) (name : String) (arity : Nat) :
    (commitAll table ds).1.lookup name arity =
      (ds.reverse.find? (·.fits name arity)).or (table.lookup name arity) := by
  induction ds generalizing table with
  | nil => rfl
  | cons d ds ih =>
    have hrest : (commitAll table (d :: ds)).1 = (commitAll (table.commit d).2 ds).1 := rfl
    rw [hrest, ih, MacroTable.lookup_commit, List.reverse_cons, List.find?_append, Option.or_assoc,
      List.find?_singleton]
    cases d.fits name arity <;> rfl

/-- Every commit makes the table longer or warns. -/
theorem length_commitAll (table : MacroTable) (ds : List Definition) :
    (commitAll table ds).1.size + (commitAll table ds).2.length = table.size + ds.length := by
  induction ds generalizing table with
  | nil => rfl
  | cons d ds ih =>
    have hput : (table.commit d).2.size + (table.commit d).1.toList.length = table.size + 1 :=
      MacroTable.length_put d table.definitions
    have hrest := ih (table.commit d).2
    simp only [commitAll, List.length_cons]
    cases hold : (table.commit d).1 with
    | none =>
      simp only [hold, Option.toList_none, List.length_nil] at hput
      simp only [Option.isSome_none, Bool.false_eq_true, if_false]
      omega
    | some old =>
      simp only [hold, Option.toList_some, List.length_singleton] at hput
      simp only [Option.isSome_some, if_true, List.length_cons]
      omega

/-- A table holds nothing but what was committed. -/
theorem mem_commitAll {table : MacroTable} {ds : List Definition} {d : Definition}
    (h : d ∈ (commitAll table ds).1.definitions) : d ∈ table.definitions ∨ d ∈ ds := by
  induction ds generalizing table with
  | nil => exact Or.inl h
  | cons first ds ih =>
    have hrest : d ∈ (table.commit first).2.definitions ∨ d ∈ ds := ih h
    rcases hrest with h | h
    · rcases MacroTable.mem_put h with rfl | h
      · exact Or.inr (List.mem_cons_self ..)
      · exact Or.inl h
    · exact Or.inr (List.mem_cons_of_mem _ h)

/-- The warning about a block that ends on the given line. -/
def redefined (file : String) (s : Signature) (line : Nat) : Diagnostic where
  severity := .warning
  message := "Macro '" ++ (s.name ++ "/" ++ toString s.arity) ++ "' redefined"
  location := ⟨file, line.toUInt32, 1⟩
  notes := []

/-- A warning for each of the blocks, given by signature and last line, whose signature was seen
before it. -/
def redefinitions (file : String) (seen : List Signature) :
    List (Signature × Nat) → List Diagnostic
  | [] => []
  | (s, line) :: rest =>
    (if s ∈ seen then [redefined file s line] else []) ++ redefinitions file (s :: seen) rest

/-- Only what was seen matters, not how often or in which order. -/
theorem redefinitions_congr (file : String) (blocks : List (Signature × Nat))
    {seen seen' : List Signature} (h : ∀ s, s ∈ seen ↔ s ∈ seen') :
    redefinitions file seen blocks = redefinitions file seen' blocks := by
  induction blocks generalizing seen seen' with
  | nil => rfl
  | cons b blocks ih =>
    obtain ⟨s, line⟩ := b
    have hrest := @ih (s :: seen) (s :: seen') (fun u => by simp [h])
    simp only [redefinitions, h s, hrest]

theorem commitAll_warnings (file : String) (table : MacroTable) (ds : List Definition)
    (hfile : ∀ d ∈ ds, d.program.name = file) :
    (commitAll table ds).2 =
      redefinitions file (table.definitions.map Definition.signature)
        (ds.map fun d => (d.signature, d.range.last)) := by
  induction ds generalizing table with
  | nil => rfl
  | cons d ds ih =>
    have hd : d.program.name = file := hfile d (List.mem_cons_self ..)
    have hrest := ih (table.commit d).2 fun e he => hfile e (List.mem_cons_of_mem _ he)
    have hseen : ∀ s, s ∈ (table.commit d).2.definitions.map Definition.signature ↔
        s ∈ d.signature :: table.definitions.map Definition.signature := by
      intro s
      rw [List.mem_cons]
      exact MacroTable.mem_signatures_put d table.definitions s
    rw [redefinitions_congr file _ hseen] at hrest
    have hold := MacroTable.put_isSome_iff d table.definitions
    simp only [commitAll, List.map_cons, redefinitions, hrest, redefined, hd]
    change (if (MacroTable.put d table.definitions).1.isSome then _ else _) = _
    by_cases h : d.signature ∈ table.definitions.map Definition.signature
    · rw [if_pos (hold.mpr h), if_pos h]
      rfl
    · rw [if_neg (mt hold.mp h), if_neg h]
      rfl

end Scan

/-- The signature that a header declares. -/
def Program.headerSignature (p : Program) (n : Nat) : Signature :=
  ⟨p.headerName n, (p.headerParameters n).length⟩

/-- The macros that a scan finds have their bodies in the program that was scanned. -/
theorem Scan.program_of_lookup {engine : Engine} {p : Program} {s : Scan}
    (h : (ofProgram engine p).result = .ok s) {name : String} {arity : Nat} {d : Definition}
    (hd : s.table.lookup name arity = some d) : d.program = p := by
  rw [ofProgram_result] at h
  split at h
  · cases h
  · cases h
    rcases mem_commitAll (List.mem_of_find?_eq_some hd) with hmem | hmem
    · cases hmem
    · obtain ⟨b, -, rfl⟩ := List.mem_map.mp hmem
      rfl

/-- The complaints of a scan are about the closed blocks that repeat a signature. -/
theorem Scan.ofProgram_warnings (engine : Engine) (p : Program) :
    (ofProgram engine p).diagnostics =
      redefinitions p.name []
        ((Block.closedBlocks engine p p.lineNumbers).map fun b => (p.headerSignature b.1, b.2)) := by
  rw [ofProgram_diagnostics, commitAll_warnings p.name]
  · rw [Block.definitions, List.map_map]
    rfl
  · intro d hd
    obtain ⟨b, -, rfl⟩ := List.mem_map.mp hd
    rfl

end MipsMacro
