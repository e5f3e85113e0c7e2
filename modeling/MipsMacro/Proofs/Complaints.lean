import MipsMacro.Proofs.ScannedProgram
import MipsMacro.Proofs.TokenRoles

/-!
# Errors and complaints

Proved here:

* `Program.error_of_ofSource`, `Scan.error_of_ofProgram`: a source is refused for a literal left open
  or for a malformed block, and for nothing else;
* `Invocation.role_ne_missing`: a call that fits its macro has an argument for every parameter;
* `Expansion.complaints_filter`: a line is complained about as a whole exactly if it is a call that no
  definition of its name fits;
* `expandSource_wellFormed`: so after a successful scan the expansion gives a text, and complains only
  about such calls and about parameters that a macro does not have.
-/

namespace MipsMacro

/-! ## Errors -/

theorem error_of_tokenize {file : String} {n : Nat} {text : String} {e : Error}
    (h : tokenize file n text = .error e) : ∃ location message, e = .lexical location message := by
  unfold tokenize at h
  split at h
  · cases h
  · cases h
    exact ⟨_, _, rfl⟩

namespace Program

theorem error_of_rows {name : String} {n : Nat} {texts : List String} {e : Error}
    (h : rows name n texts = .error e) : ∃ location message, e = .lexical location message := by
  induction texts generalizing n with
  | nil => cases h
  | cons text texts ih =>
    rw [rows] at h
    cases htokens : tokenize name n text with
    | error e' =>
      rw [htokens] at h
      cases h
      exact error_of_tokenize htokens
    | ok tokens =>
      cases hrest : rows name (n + 1) texts with
      | error e' =>
        rw [htokens, hrest] at h
        cases h
        exact ih hrest
      | ok rest =>
        rw [htokens, hrest] at h
        cases h

theorem error_of_ofSource {name source : String} {e : Error} (h : ofSource name source = .error e) :
    ∃ location message, e = .lexical location message := by
  rw [ofSource] at h
  cases hrows : rows name 1 ((Text.lines source.toList).map String.ofList) with
  | error e' =>
    rw [hrows] at h
    cases h
    exact error_of_rows hrows
  | ok rows =>
    rw [hrows] at h
    cases h

end Program

theorem Scan.error_of_ofProgram {engine : Engine} {p : Program} {e : Error}
    (h : (ofProgram engine p).result = .error e) :
    ∃ location message, e = .malformed location message := by
  have hstops : ∃ n, Stops engine p n e := by
    rw [← Block.verdict_eq_some_iff]
    rw [ofProgram_result] at h
    cases hverdict : Block.verdict engine p p.lineNumbers p.lineCount with
    | none =>
      rw [hverdict] at h
      cases h
    | some e' =>
      rw [hverdict] at h
      cases h
      rfl
  obtain ⟨n, hstop⟩ := hstops
  cases hstop with
  | offence => exact ⟨_, _, rfl⟩
  | unclosed => exact ⟨_, _, rfl⟩

/-! ## Complaints about tokens -/

namespace Invocation

variable (engine : Engine) (i : Invocation)

theorem role_ne_missing (h : i.definition.arity = i.arguments.arity) (text : String) :
    i.role engine text ≠ .missing := by
  intro hrole
  have hspec := role_spec engine i text
  rw [hrole] at hspec
  obtain ⟨-, hmem, hunbound⟩ := hspec
  -- with as many arguments as parameters every parameter has one
  have hbound : i.definition.bound i.arguments.arity = i.definition.parameters := by
    rw [← h]
    exact List.take_length
  rw [hbound] at hunbound
  exact hunbound hmem

/-- What is complained about in the body of a macro are parameters that it does not have. -/
theorem exists_of_mem_complaints (h : i.definition.arity = i.arguments.arity) {n : Nat}
    {d : Diagnostic} (hd : d ∈ i.complaints engine n) :
    ∃ t ∈ i.definition.program.tokens n,
      d = (Diagnostic.error "Unknown macro parameter" (i.location t)).withNote
        ("'" ++ t.text ++ "' is not a parameter of macro '" ++ i.definition.name ++ "'") := by
  obtain ⟨t, hmem, ht⟩ := List.mem_filterMap.mp hd
  have hmissing := role_ne_missing engine i h t.text
  unfold complaint? at ht
  cases hrole : i.role engine t.text with
  | missing => exact absurd hrole hmissing
  | unknown =>
    rw [hrole] at ht
    exact ⟨t, (sortBy_perm _ _).mem_iff.mp hmem, (Option.some.inj ht).symm⟩
  | argument text => simp [hrole] at ht
  | localLabel => simp [hrole] at ht
  | plain => simp [hrole] at ht

end Invocation

/-! ## Complaints about lines -/

namespace Expansion

/-- The call on a line outside of all blocks, if its name is that of a macro but no definition fits
it. -/
def unresolved? (scan : Scan) (program : Program) (n : Nat) : Option Call :=
  if scan.isDefinitionLine n then
    none
  else
    (Call.parse? program.name (program.text n) (program.tokens n)).filter fun call =>
      scan.table.containsName call.name &&
        (scan.table.lookup call.name call.arguments.arity).isNone

theorem mismatch_message (table : MacroTable) (call : Call) :
    (mismatch table call).message = "No macro '" ++ call.name ++ "' takes " ++
      Text.decimal call.arguments.arity ++ " argument(s)" := rfl

theorem mismatch_ne_unknown (table : MacroTable) (call : Call) :
    (mismatch table call).message ≠ "Unknown macro parameter" := by
  intro h
  have hchars := congrArg (fun s => s.toList.head?) h
  simp [mismatch_message] at hchars

variable (engine : Engine) (scan : Scan) (program : Program)

theorem unresolved?_eq (n : Nat) :
    unresolved? scan program n =
      match role scan program n with
      | .unresolved call => some call
      | _ => none := by
  unfold unresolved? role
  cases scan.isDefinitionLine n with
  | true => cases scan.isHeader n <;> rfl
  | false =>
    cases Call.parse? program.name (program.text n) (program.tokens n) with
    | none => rfl
    | some call =>
      simp only [Option.filter_some, Bool.false_eq_true, if_false]
      cases scan.table.containsName call.name with
      | false => rfl
      | true => cases scan.table.lookup call.name call.arguments.arity <;> rfl

theorem unknown_of_mem_call {n : Nat} {id : UInt64} {call : Call} {d : Definition}
    (hrole : role scan program n = .call call d) {c : Diagnostic}
    (hc : c ∈ (LineRole.call call d).complaints engine scan.table id) :
    c.severity = .error ∧ c.message = "Unknown macro parameter" := by
  have hspec := role_spec scan program n
  rw [hrole] at hspec
  obtain ⟨m, -, hc⟩ := List.mem_flatMap.mp hc
  obtain ⟨t, -, rfl⟩ := Invocation.exists_of_mem_complaints engine ⟨d, call.arguments, id⟩
    (MacroTable.fits_of_lookup hspec.2.2.2).2 hc
  exact ⟨rfl, rfl⟩

/-- What is complained about on a line besides unknown parameters. -/
theorem complaints_filter (n : Nat) (id : UInt64) :
    ((role scan program n).complaints engine scan.table id).filter
        (fun d => d.message ≠ "Unknown macro parameter") =
      ((unresolved? scan program n).map (mismatch scan.table)).toList := by
  rw [unresolved?_eq]
  cases hrole : role scan program n with
  | unresolved call => simp [LineRole.complaints, mismatch_ne_unknown]
  | call call d =>
    simp only [Option.map_none, Option.toList_none, List.filter_eq_nil_iff]
    intro c hc
    simp [(unknown_of_mem_call engine scan program hrole hc).2]
  | header labels => rfl
  | hidden => rfl
  | plain => rfl

/-- Every complaint about a line is an error with one of two messages. -/
theorem complaint_cases {n : Nat} {id : UInt64} {c : Diagnostic}
    (hc : c ∈ (role scan program n).complaints engine scan.table id) :
    c.severity = .error ∧ (c.message = "Unknown macro parameter" ∨
      ∃ call, c = mismatch scan.table call) := by
  cases hrole : role scan program n with
  | unresolved call =>
    rw [hrole] at hc
    obtain rfl := List.mem_singleton.mp hc
    exact ⟨rfl, Or.inr ⟨call, rfl⟩⟩
  | call call d =>
    rw [hrole] at hc
    obtain ⟨hseverity, hmessage⟩ := unknown_of_mem_call engine scan program hrole hc
    exact ⟨hseverity, Or.inl hmessage⟩
  | header labels =>
    rw [hrole] at hc
    cases hc
  | hidden =>
    rw [hrole] at hc
    cases hc
  | plain =>
    rw [hrole] at hc
    cases hc

/-! ## Complaints of a run -/

variable (hread : scan.Readable)

include hread

theorem ofLines_complaints_filter (id : UInt64) (ns : List Nat) :
    (ofLines engine scan program id ns).diagnostics.filter
        (fun d => d.message ≠ "Unknown macro parameter") =
      (ns.filterMap (unresolved? scan program)).map (mismatch scan.table) := by
  rw [(ofLines_eq engine program hread id ns).2]
  induction ns generalizing id with
  | nil => rfl
  | cons n ns ih =>
    rw [steps_cons engine program hread, List.flatMap_cons, List.filter_append, ih,
      Step.complaints, complaints_filter, List.filterMap_cons]
    cases unresolved? scan program n <;> rfl

theorem ofLines_complaint_cases {id : UInt64} {ns : List Nat} {c : Diagnostic}
    (hc : c ∈ (ofLines engine scan program id ns).diagnostics) :
    c.severity = .error ∧ (c.message = "Unknown macro parameter" ∨
      ∃ call, c = mismatch scan.table call) := by
  rw [(ofLines_eq engine program hread id ns).2] at hc
  obtain ⟨s, hs, hc⟩ := List.mem_flatMap.mp hc
  have hrole := role_of_mem_steps engine scan program hs
  rw [Step.complaints, hrole] at hc
  exact complaint_cases engine scan program hc

end Expansion

theorem expandSource_error {options : Options} {name source : String} {e : Error}
    (h : (expandSource options name source).result = .error e) :
    (∃ location message, e = .lexical location message ∧
        (expandSource options name source).diagnostics = []) ∨
      ∃ location message, e = .malformed location message := by
  rcases expandSource_cases options name source with
    ⟨e', hsource, heq⟩ | ⟨program, e', -, hscan, heq⟩ | ⟨program, scan, hsource, hscan⟩
  · rw [heq] at h
    cases h
    obtain ⟨location, message, rfl⟩ := Program.error_of_ofSource hsource
    exact Or.inl ⟨location, message, rfl, by rw [heq]⟩
  · rw [heq] at h
    cases h
    exact Or.inr (Scan.error_of_ofProgram hscan)
  · rw [expandSource_of_scan hsource hscan] at h
    cases h

/-- **Resolved calls are well formed.** A source is refused only for a literal left open, and then
nothing is reported, or for a malformed block. A program that was scanned is always expanded. What is
reported on the way are parameters that a macro does not have and, once for each, the calls by the
name of a macro that no definition fits; arguments are never missing. -/
theorem expandSource_wellFormed (options : Options) (name source : String) :
    (∀ e, (expandSource options name source).result = .error e →
      (∃ location message, e = .lexical location message ∧
          (expandSource options name source).diagnostics = []) ∨
        ∃ location message, e = .malformed location message) ∧
    ∀ (scanner engine : Engine) (program : Program) (scan : Scan) (id : UInt64),
      Program.ofSource name source = .ok program →
      (Scan.ofProgram scanner program).result = .ok scan →
      (∃ lines, (Expansion.ofProgram engine scan program id).result = .ok lines) ∧
      (∀ d ∈ (Expansion.ofProgram engine scan program id).diagnostics,
        d.severity = .error ∧ ¬ "Missing argument".toList <+: d.message.toList ∧
          (d.message = "Unknown macro parameter" ∨
            ∃ call : Call, d.message = "No macro '" ++ call.name ++ "' takes " ++
              Text.decimal call.arguments.arity ++ " argument(s)")) ∧
      (Expansion.ofProgram engine scan program id).diagnostics.filter
          (fun d => d.message ≠ "Unknown macro parameter") =
        (program.lineNumbers.filterMap (Expansion.unresolved? scan program)).map
          (Expansion.mismatch scan.table) := by
  refine ⟨fun e he => expandSource_error he, ?_⟩
  intro scanner engine program scan id hsource hscan
  have hread := Scan.readable_of_ok hsource hscan
  refine ⟨⟨_, (Expansion.ofLines_eq engine program hread id program.lineNumbers).1⟩, ?_,
    Expansion.ofLines_complaints_filter engine scan program hread id program.lineNumbers⟩
  intro d hd
  obtain ⟨hseverity, hmessage | ⟨call, rfl⟩⟩ :=
    Expansion.ofLines_complaint_cases engine scan program hread hd
  · refine ⟨hseverity, ?_, Or.inl hmessage⟩
    rw [hmessage]
    decide
  · refine ⟨hseverity, ?_, Or.inr ⟨call, Expansion.mismatch_message scan.table call⟩⟩
    rw [Expansion.mismatch_message]
    simp

/-- A macro that has two parameters of one name and uses another that it does not have, and a call of
it with one argument too few. -/
def shortCallSource : String := ".macro m %a, %a\nadd %a, %b\n.end_macro\nm 1\nl: m 1, 2\n"

theorem expandSource_wellFormed_shortCall :
    ∃ program scan, Program.ofSource "m.asm" shortCallSource = .ok program ∧
      (Scan.ofProgram {} program).result = .ok scan ∧
      (∃ lines, (Expansion.ofProgram {} scan program 7).result = .ok lines) ∧
      ((Expansion.ofProgram {} scan program 7).diagnostics.filter
          fun d => d.message ≠ "Unknown macro parameter").map Diagnostic.message =
        ["No macro 'm' takes 1 argument(s)"] := by
  have hcheck : scanPasses {} "m.asm" shortCallSource (fun program scan =>
      decide ((program.lineNumbers.filterMap (Expansion.unresolved? scan program)).map
        (fun call => (Expansion.mismatch scan.table call).message) =
          ["No macro 'm' takes 1 argument(s)"])) = true := by decide +kernel
  obtain ⟨program, scan, hsource, hscan, hcalls⟩ := exists_of_scanPasses hcheck
  obtain ⟨hok, -, hfilter⟩ := (expandSource_wellFormed {} "m.asm" shortCallSource).2 {} {}
    program scan 7 hsource hscan
  refine ⟨program, scan, hsource, hscan, hok, ?_⟩
  rw [hfilter, List.map_map]
  exact of_decide_eq_true hcalls

end MipsMacro
