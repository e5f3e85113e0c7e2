import MipsMacro.Proofs.BlockGrammar
import MipsMacro.Proofs.SourceText
import MipsMacro.Proofs.Steps

/-!
# Programs and their own scans

What a scan has found in a program that was read from a source can always be expanded. Proved here:

* `Program.reads_of_ofSource`: every line of such a program has a text and its tokens;
* `Scan.exists_block_of_lookup`, `Scan.readable_of_ok`: every macro in the table is a block of the
  program, and all lines of its body can be read;
* `Invocation.expand_spec`: a macro is expanded line by line, up to a line that cannot be read;
* `Expansion.outcome_of_canExpand`: a line is replaced if the macro that it calls can be read;
* `Expansion.ofLines_eq`, `expandSource_of_scan`: so an expansion goes through all lines.
-/

namespace MipsMacro

/-! ## Lines of a program -/

/-- Line `n` is in the program, with the tokens of its text. -/
structure Program.Reads (p : Program) (n : Nat) : Prop where
  line_eq : p.line n = ⟨some (p.text n), some (p.tokens n)⟩
  lexed : tokenize p.name n (p.text n) = .ok (p.tokens n)

theorem Program.reads_of_ofSource {name source : String} {p : Program}
    (h : ofSource name source = .ok p) {n : Nat} (hn : n ∈ p.lineNumbers) : p.Reads n := by
  rw [ofSource, bind_eq_ok_iff] at h
  obtain ⟨rows, hrows, h⟩ := h
  cases h
  rw [mem_lineNumbers] at hn
  obtain ⟨hpos, hle⟩ := hn
  have hlt : n - 1 < rows.length := by
    simp only [ofRows, List.size_toArray] at hle
    omega
  obtain ⟨text, tokens, hrow, -, hlexed⟩ := rows_getElem? hrows (List.getElem?_eq_getElem hlt)
  have hnumber : 1 + (n - 1) = n := by omega
  rw [hnumber] at hlexed
  have hline : (ofRows name rows).line n = ⟨some text, some tokens⟩ := by
    simp [ofRows, Nat.ne_of_gt hpos, hlt, hrow]
  constructor
  · simp only [Program.text, Program.tokens, hline, Option.getD_some]
  · simp only [Program.text, Program.tokens, hline, Option.getD_some]
    exact hlexed

/-- Whether a line has a text and tokens. -/
def Program.holds (p : Program) (n : Nat) : Bool :=
  (p.line n).text.isSome && (p.line n).tokens.isSome

theorem Program.Reads.holds {p : Program} {n : Nat} (h : p.Reads n) : p.holds n = true := by
  simp [Program.holds, h.line_eq]

/-- The lines between the directives. -/
def LineRange.body (r : LineRange) : List Nat := List.range' (r.first + 1) (r.last - r.first - 1)

theorem LineRange.mem_body {r : LineRange} {n : Nat} : n ∈ r.body ↔ r.first < n ∧ n < r.last := by
  rw [body, List.mem_range'_1]
  omega

/-- The body begins on the line behind the opening directive. -/
def LineRange.Unwrapped (r : LineRange) : Prop := r.bodyStart = r.first + 1

theorem LineRange.Unwrapped.bodySize_eq {r : LineRange} (h : r.Unwrapped) :
    r.bodySize = r.last - r.first - 1 := by
  rw [bodySize, h, Nat.sub_sub]

theorem LineRange.contains_of_mem_body {r : LineRange} {n : Nat} (h : n ∈ r.body) :
    r.contains n = true := by
  rw [mem_body] at h
  simp only [contains, Bool.and_eq_true, Nat.ble_eq]
  omega

/-- Every line of the body is in the program that holds it, with the tokens of its text. -/
structure Definition.Readable (d : Definition) : Prop where
  unwrapped : d.range.Unwrapped
  reads : ∀ n ∈ d.range.body, d.program.Reads n

/-- The first line of the body that lacks a text or tokens. -/
def Definition.lacking? (d : Definition) : Option Nat :=
  d.range.body.find? fun n => !d.program.holds n

/-- The error about a line that cannot be read. -/
def Definition.outOfRange (d : Definition) (n : Nat) : Error :=
  .lineOutOfRange d.name n d.range.first d.range.last

/-! ## Expanding a macro -/

namespace Invocation

variable (engine : Engine) (i : Invocation)

/-- A line of the body with every token replaced. -/
def lineText (n : Nat) : String :=
  String.ofList ((rightToLeft (i.definition.program.tokens n)).foldl (i.apply engine)
    (i.definition.program.text n).toList)

/-- What is complained about on a line of the body. -/
def complaints (n : Nat) : List Diagnostic :=
  (rightToLeft (i.definition.program.tokens n)).filterMap (i.complaint? engine)

theorem line_of_holds {n : Nat} (hrange : i.definition.range.contains n = true)
    (h : i.definition.program.holds n = true) :
    i.line engine n = .ok (i.lineText engine n, i.complaints engine n) := by
  obtain ⟨htext, htokens⟩ := Bool.and_eq_true_iff.mp h
  obtain ⟨text, htext⟩ := Option.isSome_iff_exists.mp htext
  obtain ⟨tokens, htokens⟩ := Option.isSome_iff_exists.mp htokens
  simp only [line, hrange, htext, htokens, lineText, complaints, Program.text, Program.tokens,
    Option.getD_some]

theorem line_of_not_holds {n : Nat} (h : ¬ i.definition.program.holds n = true) :
    i.line engine n = .error (i.definition.outOfRange n) := by
  simp only [line]
  split
  · next text tokens _ htext htokens =>
    refine absurd ?_ h
    simp [Program.holds, htext, htokens]
  · rfl

/-- Lines are replaced one after the other, up to the first that cannot be read. -/
theorem linesFrom_eq {n count : Nat}
    (hrange : ∀ m ∈ List.range' n count, i.definition.range.contains m = true) :
    i.linesFrom engine n count =
      ⟨match (List.range' n count).find? fun m => !i.definition.program.holds m with
        | some m => .error (i.definition.outOfRange m)
        | none => .ok ((List.range' n count).map (i.lineText engine)),
        ((List.range' n count).takeWhile i.definition.program.holds).flatMap
          (i.complaints engine)⟩ := by
  induction count generalizing n with
  | zero => rfl
  | succ count ih =>
    rw [List.range'_succ] at hrange ⊢
    rw [List.forall_mem_cons] at hrange
    rw [linesFrom, List.find?_cons, List.takeWhile_cons]
    by_cases h : i.definition.program.holds n = true
    · simp only [line_of_holds engine i hrange.1 h, ih hrange.2, h, Bool.not_true, if_true,
        List.map_cons, List.flatMap_cons]
      cases (List.range' (n + 1) count).find? fun m => !i.definition.program.holds m <;> rfl
    · simp only [line_of_not_holds engine i h, h]
      rfl

theorem expand_spec (hstart : i.definition.range.Unwrapped) :
    i.expand engine =
      ⟨match i.definition.lacking? with
        | some m => .error (i.definition.outOfRange m)
        | none => .ok (i.definition.range.body.map (i.lineText engine)),
        (i.definition.range.body.takeWhile i.definition.program.holds).flatMap
          (i.complaints engine)⟩ := by
  simp only [expand, hstart.bodySize_eq]
  rw [hstart]
  exact linesFrom_eq engine i fun _ hm => LineRange.contains_of_mem_body hm

theorem expand_of_holds (hstart : i.definition.range.Unwrapped)
    (h : ∀ n ∈ i.definition.range.body, i.definition.program.holds n = true) :
    i.expand engine =
      ⟨.ok (i.definition.range.body.map (i.lineText engine)),
        i.definition.range.body.flatMap (i.complaints engine)⟩ := by
  have hlacking : i.definition.lacking? = none := by
    simpa [Definition.lacking?] using h
  rw [expand_spec engine i hstart, hlacking, List.takeWhile_eq_self_iff.mpr h]

theorem expand_eq (hread : i.definition.Readable) :
    i.expand engine =
      ⟨.ok (i.definition.range.body.map (i.lineText engine)),
        i.definition.range.body.flatMap (i.complaints engine)⟩ :=
  expand_of_holds engine i hread.unwrapped fun n hn => (hread.reads n hn).holds

end Invocation

/-! ## Lines and macros that a scan finds -/

namespace Scan

theorem isDefinitionLine_iff (s : Scan) (n : Nat) :
    s.isDefinitionLine n = true ↔ ∃ b ∈ s.blocks, b.1 ≤ n ∧ n ≤ b.2 := by
  simp [isDefinitionLine]

theorem isDefinitionLine_eq_false_iff (s : Scan) (n : Nat) :
    s.isDefinitionLine n = false ↔ ∀ b ∈ s.blocks, n < b.1 ∨ b.2 < n := by
  rw [Bool.eq_false_iff, Ne, isDefinitionLine_iff]
  constructor
  · intro h b hb
    by_cases hline : b.1 ≤ n ∧ n ≤ b.2
    · exact absurd ⟨b, hb, hline⟩ h
    · omega
  · rintro h ⟨b, hb, hfirst, hlast⟩
    have := h b hb
    omega

theorem isHeader_iff (s : Scan) (n : Nat) : s.isHeader n = true ↔ ∃ b ∈ s.blocks, b.1 = n := by
  simp [isHeader]

variable {engine : Engine} {p : Program} {s : Scan} (h : (ofProgram engine p).result = .ok s)

include h

theorem marks_eq : p.marks = alternate s.blocks := by
  rw [blocks_of_ok h]
  exact Block.marks_eq_of_verdict engine p ((result_eq_ok_iff engine p).mp ⟨s, h⟩)

/-- The table holds what the blocks of the program commit, one after the other. -/
theorem table_eq : s.table = (commitAll {} (Block.definitions p s.blocks)).1 := by
  have hnone := (result_eq_ok_iff engine p).mp ⟨s, h⟩
  rw [ofProgram_result, hnone] at h
  cases h
  rfl

theorem exists_block_of_lookup {name : String} {arity : Nat} {d : Definition}
    (hd : s.table.lookup name arity = some d) :
    ∃ b ∈ s.blocks, d = Block.definitionAt p b.1 b.2 := by
  rw [table_eq h] at hd
  rcases mem_commitAll (List.mem_of_find?_eq_some hd) with hmem | hmem
  · cases hmem
  · obtain ⟨b, hb, rfl⟩ := List.mem_map.mp hmem
    exact ⟨b, hb, rfl⟩

end Scan

/-- The bodies of all macros in the table begin on the line behind their opening directive. -/
def Scan.Unwrapped (s : Scan) : Prop :=
  ∀ name arity d, s.table.lookup name arity = some d → d.range.Unwrapped

/-- The bodies of all macros in the table can be read. -/
def Scan.Readable (s : Scan) : Prop :=
  ∀ name arity d, s.table.lookup name arity = some d → d.Readable

theorem Scan.Readable.unwrapped {s : Scan} (h : s.Readable) : s.Unwrapped :=
  fun name arity d hd => (h name arity d hd).unwrapped

theorem Scan.readable_of_ok {engine : Engine} {name source : String} {p : Program} {s : Scan}
    (hsource : Program.ofSource name source = .ok p)
    (h : (Scan.ofProgram engine p).result = .ok s) : s.Readable := by
  intro name arity d hd
  obtain ⟨b, hb, rfl⟩ := exists_block_of_lookup h hd
  obtain ⟨hpos, hlt, hle⟩ := p.blocks_within (marks_eq h) hb
  refine ⟨LineRange.bodyStart_eq (Or.inl hlt), fun n hn => ?_⟩
  -- the block from `b.1` to `b.2` lies in the program, and line `n` in the block
  have hline : n ∈ p.lineNumbers := by
    rw [LineRange.mem_body] at hn
    change b.1 < n ∧ n < b.2 at hn
    rw [p.mem_lineNumbers]
    omega
  exact Program.reads_of_ofSource hsource hline

/-! ## Expanding a program -/

namespace LineRole

/-- What a line with the text `text` is replaced by, if its macro can be read. -/
def lines (engine : Engine) (id : UInt64) (text : String) : LineRole → List String
  | header labels => Expansion.labelLines labels
  | hidden => []
  | unresolved _ => [text]
  | call c d =>
    Expansion.labelLines c.labels ++
      d.range.body.map (Invocation.lineText engine ⟨d, c.arguments, id⟩)
  | plain => [text]

/-- What is complained about, if the macro of the line can be read. -/
def complaints (engine : Engine) (table : MacroTable) (id : UInt64) : LineRole → List Diagnostic
  | unresolved c => [Expansion.mismatch table c]
  | call c d => d.range.body.flatMap (Invocation.complaints engine ⟨d, c.arguments, id⟩)
  | _ => []

end LineRole

namespace Expansion

variable (engine : Engine) {scan : Scan} (program : Program)

def Step.lines (s : Step) : List String := s.role.lines engine s.id (program.text s.line)

def Step.complaints (table : MacroTable) (s : Step) : List Diagnostic :=
  s.role.complaints engine table s.id

/-- Every line of the body of a macro that is called on line `n` has a text and tokens. -/
def CanExpand (scan : Scan) (program : Program) (n : Nat) : Prop :=
  ∀ c, resolved? scan program n = some c → ∀ m ∈ c.2.range.body, c.2.program.holds m = true

theorem outcome_of_canExpand (hstart : scan.Unwrapped) {n : Nat} (h : CanExpand scan program n)
    (id : UInt64) :
    Step.outcome engine scan program ⟨n, role scan program n, id⟩ =
      ⟨.ok (Step.lines engine program ⟨n, role scan program n, id⟩),
        Step.complaints engine scan.table ⟨n, role scan program n, id⟩⟩ := by
  have hresolved := resolved?_eq scan program n
  unfold Step.outcome Step.lines Step.complaints
  cases hrole : role scan program n with
  | header labels => rfl
  | hidden => rfl
  | unresolved call => rfl
  | call call d =>
    rw [hrole] at hresolved
    have hspec := role_spec scan program n
    rw [hrole] at hspec
    have hbody := Invocation.expand_of_holds engine ⟨d, call.arguments, id⟩
      (hstart _ _ d hspec.2.2.2) (h _ hresolved)
    simp only [segment, hbody, Except.map, LineRole.lines, LineRole.complaints]
  | plain => rfl

variable (hread : scan.Readable)

include hread

theorem canExpand_of_readable (n : Nat) : CanExpand scan program n := by
  rintro ⟨call, d⟩ hc m hm
  have hspec := role_spec scan program n
  rw [role_of_resolved? scan program hc] at hspec
  exact ((hread _ _ d hspec.2.2.2).reads m hm).holds

theorem outcome_eq (n : Nat) (id : UInt64) :
    Step.outcome engine scan program ⟨n, role scan program n, id⟩ =
      ⟨.ok (Step.lines engine program ⟨n, role scan program n, id⟩),
        Step.complaints engine scan.table ⟨n, role scan program n, id⟩⟩ :=
  outcome_of_canExpand engine program hread.unwrapped (canExpand_of_readable program hread n) id

theorem steps_cons (id : UInt64) (n : Nat) (ns : List Nat) :
    steps engine scan program id (n :: ns) =
      ⟨n, role scan program n, id⟩ ::
        steps engine scan program (advance id (role scan program n)) ns := by
  rw [steps, outcome_eq engine program hread n id]

theorem together_steps (id : UInt64) (ns : List Nat) :
    together ((steps engine scan program id ns).map fun s => (s.outcome engine scan program).result) =
        .ok ((steps engine scan program id ns).flatMap (Step.lines engine program)) ∧
      (steps engine scan program id ns).flatMap (fun s => (s.outcome engine scan program).diagnostics) =
        (steps engine scan program id ns).flatMap (Step.complaints engine scan.table) := by
  induction ns generalizing id with
  | nil => exact ⟨rfl, rfl⟩
  | cons n ns ih =>
    obtain ⟨hlines, hcomplaints⟩ := ih (advance id (role scan program n))
    rw [steps_cons engine program hread, List.map_cons, List.flatMap_cons, List.flatMap_cons,
      List.flatMap_cons, outcome_eq engine program hread n id]
    exact ⟨by rw [together, hlines]; rfl, by rw [hcomplaints]⟩

/-- No step fails, so the expansion gives what all its steps give. -/
theorem ofLines_eq (id : UInt64) (ns : List Nat) :
    (ofLines engine scan program id ns).result =
        .ok ((steps engine scan program id ns).flatMap (Step.lines engine program)) ∧
      (ofLines engine scan program id ns).diagnostics =
        (steps engine scan program id ns).flatMap (Step.complaints engine scan.table) := by
  rw [ofLines_eq_steps]
  obtain ⟨hlines, hcomplaints⟩ := together_steps engine program hread id ns
  simp only [List.map_map, List.flatMap_map]
  exact ⟨hlines, hcomplaints⟩

end Expansion

theorem expandSource_of_scan {options : Options} {name source : String} {program : Program}
    {scan : Scan} (hsource : Program.ofSource name source = .ok program)
    (hscan : (Scan.ofProgram { options } program).result = .ok scan) :
    let steps := Expansion.steps { options } scan program options.firstInvocation program.lineNumbers
    expandSource options name source =
      ⟨.ok (Expansion.unlines (steps.flatMap (Expansion.Step.lines { options } program))),
        (Scan.ofProgram { options } program).diagnostics ++
          steps.flatMap (Expansion.Step.complaints { options } scan.table)⟩ := by
  obtain ⟨hlines, hcomplaints⟩ := Expansion.ofLines_eq { options } program
    (Scan.readable_of_ok hsource hscan) options.firstInvocation program.lineNumbers
  simp only [expandSource, hsource, hscan, Expansion.output, Expansion.ofProgram, hlines,
    hcomplaints, Except.map]

/-- A source cannot be read, has a scan that fails, or is expanded. -/
theorem expandSource_cases (options : Options) (name source : String) :
    (∃ e, Program.ofSource name source = .error e ∧
      expandSource options name source = ⟨.error e, []⟩) ∨
    (∃ program e, Program.ofSource name source = .ok program ∧
      (Scan.ofProgram { options } program).result = .error e ∧
      expandSource options name source =
        ⟨.error e, (Scan.ofProgram { options } program).diagnostics⟩) ∨
    ∃ program scan, Program.ofSource name source = .ok program ∧
      (Scan.ofProgram { options } program).result = .ok scan := by
  cases hsource : Program.ofSource name source with
  | error e => exact Or.inl ⟨e, rfl, by simp only [expandSource, hsource]⟩
  | ok program =>
    cases hscan : (Scan.ofProgram { options } program).result with
    | error e =>
      exact Or.inr (Or.inl ⟨program, e, rfl, hscan, by simp only [expandSource, hsource, hscan]⟩)
    | ok scan => exact Or.inr (Or.inr ⟨program, scan, rfl, hscan⟩)

/-- Whether a source can be read and scanned, and its program and scan pass a test. -/
def scanPasses (engine : Engine) (name source : String) (test : Program → Scan → Bool) : Bool :=
  match Program.ofSource name source with
  | .error _ => false
  | .ok program =>
    match (Scan.ofProgram engine program).result with
    | .error _ => false
    | .ok scan => test program scan

theorem exists_of_scanPasses {engine : Engine} {name source : String} {test : Program → Scan → Bool}
    (h : scanPasses engine name source test = true) :
    ∃ program scan, Program.ofSource name source = .ok program ∧
      (Scan.ofProgram engine program).result = .ok scan ∧ test program scan = true := by
  unfold scanPasses at h
  split at h
  · cases h
  · next program hsource =>
    split at h
    · cases h
    · next scan hscan => exact ⟨program, scan, hsource, hscan, h⟩

end MipsMacro
