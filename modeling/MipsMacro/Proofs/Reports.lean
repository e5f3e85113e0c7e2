import MipsMacro.Diagnostic.Json
import MipsMacro.Proofs.JsonRecords
import MipsMacro.Proofs.JsonText

/-!
# Reports and their JSON form

Proved here, for every list of diagnostics:

* `Report.errors_eq`, `Report.warnings_eq`: the counters that are kept up while diagnostics are reported
  are the numbers of errors and warnings among them;
* `Diagnostic.ofJson?_toJson`, `Diagnostic.wellFormed_toJson`: each diagnostic is found again in its JSON
  value, which has the form of JSON;
* `Report.ofJsonText_jsonText`: so the text that a report is written as is read as the same report.
-/

namespace MipsMacro

/-! ## Counters -/

/-- One more diagnostic raises the counter of its severity. -/
theorem Tally.count_eq (t : Tally) (d : Diagnostic) :
    t.count d = ⟨t.errors + [d].countP (·.severity = .error),
      t.warnings + [d].countP (·.severity = .warning)⟩ := by
  rw [Tally.count]
  cases hseverity : d.severity <;> simp [hseverity]

theorem Tally.foldl_count (t : Tally) (ds : List Diagnostic) :
    ds.foldl Tally.count t = ⟨t.errors + ds.countP (·.severity = .error),
      t.warnings + ds.countP (·.severity = .warning)⟩ := by
  induction ds generalizing t with
  | nil => rfl
  | cons d ds ih =>
    have hsplit : ∀ s : Severity, (d :: ds).countP (·.severity = s) =
        [d].countP (·.severity = s) + ds.countP (·.severity = s) := fun _ =>
      List.singleton_append ▸ List.countP_append
    simp only [List.foldl_cons, ih, Tally.count_eq, hsplit, Nat.add_assoc]

theorem Report.tally_eq (r : Report) :
    r.tallied.tally = ⟨r.diagnostics.countP (·.severity = .error),
      r.diagnostics.countP (·.severity = .warning)⟩ := by
  rw [r.tallied.tally_eq, Tally.foldl_count, Nat.zero_add, Nat.zero_add]

theorem Report.errors_eq (r : Report) : r.errors = r.diagnostics.countP (·.severity = .error) :=
  congrArg Tally.errors r.tally_eq

theorem Report.warnings_eq (r : Report) : r.warnings = r.diagnostics.countP (·.severity = .warning) :=
  congrArg Tally.warnings r.tally_eq

theorem Report.hasErrors_iff (r : Report) :
    r.hasErrors = true ↔ ∃ d ∈ r.diagnostics, d.severity = .error := by
  rw [hasErrors, bne_iff_ne, errors_eq, ← Nat.pos_iff_ne_zero, List.countP_pos_iff]
  simp only [decide_eq_true_eq]

/-! ## Values -/

open Json

theorem Json.asString?_ofText (s : String) : (ofText s).asString? = some s := text?_escape s

theorem Json.asNat?_ofNat {n bound : Nat} (h : n < bound) : (ofNat n).asNat? bound = some n :=
  asNat?_of_ofDecimal? (Text.ofDecimal?_decimal n) h

theorem Severity.ofName?_name (s : Severity) : ofName? s.name = some s := by
  cases s <;> decide

theorem Location.ofJson?_toJson (l : Location) : ofJson? l.toJson = some l := by
  have hrecord : l.toJson.asRecord? ["filename", "line", "column"] = some _ :=
    asRecord?_plain rfl (by decide +kernel) (by decide)
  have hline : (Json.ofNat l.line.toNat).asNat? UInt32.size = some _ := asNat?_ofNat l.line.toNat_lt
  have hcolumn : (Json.ofNat l.column.toNat).asNat? UInt32.size = some _ := asNat?_ofNat l.column.toNat_lt
  simp [ofJson?, hrecord, required?, List.lookup_cons, asString?_ofText, hline, hcolumn]

theorem Diagnostic.notesOfJson?_array (notes : List String) :
    notesOfJson? (.array (notes.map ofText)) = some notes := by
  have hall : (notes.map ofText).mapM asString? = some notes := by
    induction notes with
    | nil => rfl
    | cons note notes ih => simp [asString?_ofText, ih]
  simp [notesOfJson?, asArray?, hall]

theorem Diagnostic.ofJson?_toJson (d : Diagnostic) : ofJson? d.toJson = some d := by
  have hrecord : d.toJson.asRecord? ["severity", "message", "location", "notes"] = some _ :=
    asRecord?_plain rfl (by decide +kernel) (by decide)
  have hseverity : Severity.ofJson? (ofText d.severity.name) = some d.severity := by
    rw [Severity.ofJson?, ofText, asChoice?, text?_escape]
    exact d.severity.ofName?_name
  simp [ofJson?, hrecord, required?, List.lookup_cons, asString?_ofText, hseverity, Location.ofJson?_toJson,
    notesOfJson?_array]

/-! ## Texts -/

theorem Location.wellFormed_toJson (l : Location) : l.toJson.WellFormed := by
  have hplain : ∀ name ∈ ["filename", "line", "column"], Plain name := by decide +kernel
  simp only [List.forall_mem_cons] at hplain
  obtain ⟨hfile, hline, hcolumn, -⟩ := hplain
  rw [toJson, wellFormed_object_iff]
  simp only [List.forall_mem_cons]
  exact ⟨⟨hfile.isBody, wellFormed_ofText _⟩, ⟨hline.isBody, wellFormed_ofNat _⟩,
    ⟨hcolumn.isBody, wellFormed_ofNat _⟩, nofun⟩

theorem Diagnostic.wellFormed_toJson (d : Diagnostic) : d.toJson.WellFormed := by
  have hplain : ∀ name ∈ ["severity", "message", "location", "notes"], Plain name := by decide +kernel
  simp only [List.forall_mem_cons] at hplain
  obtain ⟨hseverity, hmessage, hlocation, hnotes, -⟩ := hplain
  have harray : (Json.array (d.notes.map ofText)).WellFormed := by
    rw [wellFormed_array_iff, List.forall_mem_map]
    exact fun note _ => wellFormed_ofText note
  rw [toJson, wellFormed_object_iff]
  simp only [List.forall_mem_cons]
  exact ⟨⟨hseverity.isBody, wellFormed_ofText _⟩, ⟨hmessage.isBody, wellFormed_ofText _⟩,
    ⟨hlocation.isBody, d.location.wellFormed_toJson⟩, ⟨hnotes.isBody, harray⟩, nofun⟩

namespace Report

theorem parse?_jsonText (r : Report) :
    parse? r.jsonText = some (.array (r.diagnostics.map Diagnostic.toJson)) := by
  refine parse?_of_writes (writes_render ?_)
  rw [wellFormed_array_iff, List.forall_mem_map]
  exact fun d _ => d.wellFormed_toJson

theorem mapM_ofJson?_toJson (ds : List Diagnostic) :
    (ds.map Diagnostic.toJson).mapM Diagnostic.ofJson? = some ds := by
  induction ds with
  | nil => rfl
  | cons d ds ih => simp [Diagnostic.ofJson?_toJson, ih]

/-- **Reports in JSON.** Diagnostics that are reported to an empty report are counted by their severity,
and the JSON text of the report is read as these diagnostics again. Reported once more, they give the same
counts, summary and text. -/
theorem ofJsonText_jsonText (ds : List Diagnostic) :
    let report := ({} : Report).add ds
    report.errors = ds.countP (·.severity = .error) ∧
    report.warnings = ds.countP (·.severity = .warning) ∧
    ∃ reread, ofJsonText report.jsonText = .ok reread ∧ reread.diagnostics = ds ∧
      let again := ({} : Report).add reread.diagnostics
      again.errors = report.errors ∧ again.warnings = report.warnings ∧
      again.summary = report.summary ∧ again.jsonText = report.jsonText := by
  intro report
  have hread : ofJsonText report.jsonText = .ok report := by
    have hds : (ds.map Diagnostic.toJson).mapM Diagnostic.ofJson? = some ds := mapM_ofJson?_toJson ds
    have hparse : parse? report.jsonText = some (.array (ds.map Diagnostic.toJson)) :=
      report.parse?_jsonText
    simp only [ofJsonText, hparse, asArray?, bind, Option.bind_some, hds, report]
  exact ⟨report.errors_eq, report.warnings_eq, report, hread, rfl, rfl, rfl, rfl, rfl⟩

end Report

end MipsMacro
