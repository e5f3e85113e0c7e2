import Mathlib.Data.List.Basic
import MipsMacro.Proofs.ScannedProgram
import MipsMacro.Proofs.Substitution

/-!
# What the first number changes

The number of the first call shows in the suffixes of local labels and nowhere else. Proved here, for
tracked offsets:

* `Invocation.lineText_eq_render`: a line of a body is a row of fragments, which are texts that no
  number changes and labels that wait for one;
* `Expansion.lines_eq_render`: so is a whole expansion, and each label belongs to a macro that is
  called (`Expansion.mem_template`);
* `expandSource_eq_render`: so the first number changes neither success nor complaints, and the text
  only where such a label stands.
-/

namespace MipsMacro

open Text

/-! ## Fragments -/

/-- A part of an expanded text. -/
inductive Fragment where
  | text (s : String)
  /-- A label of the macro that is called at a place among all calls, counted from zero. -/
  | label (name : String) (call : Nat)
  deriving DecidableEq

namespace Fragment

/-- A fragment as it reads when the first call has the number `first`. Numbers are those below
`UInt64.size`, which is `2 ^ 64`, and start again at zero behind the largest. -/
def render (suffix : String) (first : UInt64) : Fragment → String
  | text s => s
  | label name call => name ++ suffix ++ decimal ((first.toNat + call) % UInt64.size)

def renderAll (suffix : String) (first : UInt64) (fragments : List Fragment) : String :=
  String.join (fragments.map (render suffix first))

theorem toList_renderAll (suffix : String) (first : UInt64) (fragments : List Fragment) :
    (renderAll suffix first fragments).toList =
      fragments.flatMap fun f => (f.render suffix first).toList := by
  rw [renderAll, String.toList_join, List.flatMap_map]

/-- Lines of fragments as one row, in which each line is ended. -/
def unlines (lines : List (List Fragment)) : List Fragment :=
  lines.flatMap (· ++ [.text "\n"])

theorem renderAll_unlines (suffix : String) (first : UInt64) (lines : List (List Fragment)) :
    renderAll suffix first (unlines lines) =
      Expansion.unlines (lines.map (renderAll suffix first)) := by
  rw [← String.toList_inj, toList_renderAll, Expansion.unlines, String.toList_join]
  simp only [unlines, List.flatMap_assoc, List.flatMap_append, List.flatMap_map, List.map_map,
    String.toList_append, toList_renderAll, Function.comp_apply, List.flatMap_cons,
    List.flatMap_nil, List.append_nil, render]

/-- Lines that no number changes. -/
def fixed (lines : List String) : List (List Fragment) := lines.map fun line => [.text line]

theorem map_renderAll_fixed (suffix : String) (first : UInt64) (lines : List String) :
    (fixed lines).map (renderAll suffix first) = lines := by
  rw [fixed, List.map_map]
  refine (List.map_congr_left fun line _ => ?_).trans (List.map_id _)
  simp [renderAll, render, String.join]

theorem label_not_mem_fixed {lines : List String} {line : List Fragment} (h : line ∈ fixed lines)
    (name : String) (call : Nat) : label name call ∉ line := by
  obtain ⟨s, -, rfl⟩ := List.mem_map.mp h
  simp

end Fragment

/-! ## Lines of a body -/

namespace Invocation

variable (engine : Engine) (i : Invocation)

/-- What a span of a body line turns into, if its macro is called at place `call`. -/
def fragment (call : Nat) : Span → Fragment
  | .gap cs => .text (String.ofList cs)
  | .token t =>
    match i.role engine t.text with
    | .argument text => .text text
    | .localLabel => .label t.text call
    | _ => .text t.text

/-- A line of the body, if the macro is called at place `call`. -/
def lineFragments (call n : Nat) : List Fragment :=
  (Lexer.spans n 1 0 (Lexer.pieces (i.definition.program.text n).toList).1).map
    (i.fragment engine call)

theorem label_of_fragment {call place : Nat} {s : Span} {name : String}
    (h : i.fragment engine place s = .label name call) :
    call = place ∧ i.definition.locals.contains name = true := by
  cases s with
  | gap cs => cases h
  | token t =>
    cases hrole : i.role engine t.text with
    | localLabel =>
      simp only [fragment, hrole, Fragment.label.injEq] at h
      obtain ⟨rfl, rfl⟩ := h
      exact ⟨rfl, contains_of_role hrole⟩
    | argument text => simp [fragment, hrole] at h
    | missing => simp [fragment, hrole] at h
    | unknown => simp [fragment, hrole] at h
    | plain => simp [fragment, hrole] at h

theorem decimal_add (first : UInt64) (call : Nat) :
    decimal (first + UInt64.ofNat call).toNat = decimal ((first.toNat + call) % UInt64.size) := by
  rw [UInt64.toNat_add, UInt64.toNat_ofNat', Nat.add_mod_mod]

/-- The number of the call is read only where a label is renamed. -/
theorem replacement_eq_render (first : UInt64) (call : Nat) (t : Token) :
    ({ i with id := first + UInt64.ofNat call } : Invocation).replacement engine t =
      (i.fragment engine call (.token t)).render engine.options.labelSuffix first := by
  rw [← substitute?_getD]
  have hrole : ({ i with id := first + UInt64.ofNat call } : Invocation).role engine t.text =
      i.role engine t.text := rfl
  simp only [substitute?, hrole, fragment]
  cases i.role engine t.text with
  | argument text => rfl
  | missing => rfl
  | unknown => rfl
  | localLabel => simp only [Option.getD_some, rename, decimal_add, Fragment.render]
  | plain => rfl

variable (htrack : engine.options.splice = .trackOffsets)

include htrack

theorem lineText_eq_render {n : Nat} (hread : i.definition.Readable)
    (hn : n ∈ i.definition.range.body) (first : UInt64) (call : Nat) :
    ({ i with id := first + UInt64.ofNat call } : Invocation).lineText engine n =
      Fragment.renderAll engine.options.labelSuffix first (i.lineFragments engine call n) := by
  rw [lineText, foldl_apply engine _ htrack (Lexer.layout (hread.reads n hn).lexed),
    ← String.toList_inj, Fragment.toList_renderAll, lineFragments, List.flatMap_map,
    Layout.replace, String.toList_ofList]
  refine List.flatMap_congr fun s _ => ?_
  cases s with
  | gap cs => simp [Span.chars, fragment, Fragment.render]
  | token t => rw [← replacement_eq_render]; rfl

end Invocation

/-! ## Expansions -/

/-- The macro that is called on a line, if one is. -/
def LineRole.called : LineRole → List Definition
  | call _ d => [d]
  | _ => []

/-- The lines that a line with the text `text` is replaced by, as rows of fragments. -/
def LineRole.fragments (engine : Engine) (place : Nat) (text : String) :
    LineRole → List (List Fragment)
  | header labels => Fragment.fixed (Expansion.labelLines labels)
  | hidden => []
  | unresolved _ => Fragment.fixed [text]
  | call c d =>
    Fragment.fixed (Expansion.labelLines c.labels) ++
      d.range.body.map (Invocation.lineFragments engine ⟨d, c.arguments, 0⟩ place)
  | plain => Fragment.fixed [text]

theorem LineRole.label_of_mem_fragments {engine : Engine} {place : Nat} {text : String}
    {r : LineRole} {line : List Fragment} (hline : line ∈ r.fragments engine place text)
    {name : String} {call : Nat} (h : .label name call ∈ line) :
    call = place ∧ ∃ d, r.called = [d] ∧ d.locals.contains name = true := by
  cases r with
  | header labels => exact absurd h (Fragment.label_not_mem_fixed hline name call)
  | hidden => cases hline
  | unresolved c => exact absurd h (Fragment.label_not_mem_fixed hline name call)
  | call c d =>
    rcases List.mem_append.mp hline with hline | hline
    · exact absurd h (Fragment.label_not_mem_fixed hline name call)
    · obtain ⟨n, -, rfl⟩ := List.mem_map.mp hline
      obtain ⟨s, -, hs⟩ := List.mem_map.mp h
      obtain ⟨hplace, hlocal⟩ := Invocation.label_of_fragment engine _ hs
      exact ⟨hplace, d, rfl, hlocal⟩
  | plain => exact absurd h (Fragment.label_not_mem_fixed hline name call)

namespace Expansion

variable (engine : Engine) (scan : Scan) (program : Program)

/-- The macros that are called on the given lines, in order. -/
def called (ns : List Nat) : List Definition := ns.flatMap fun n => (role scan program n).called

/-- What the given lines are replaced by, if the first call among them is the one at `place`. -/
def template (place : Nat) : List Nat → List (List Fragment)
  | [] => []
  | n :: ns =>
    (role scan program n).fragments engine place (program.text n) ++
      template (place + (role scan program n).called.length) ns

theorem advance_add (first : UInt64) (place : Nat) (r : LineRole) :
    advance (first + UInt64.ofNat place) r = first + UInt64.ofNat (place + r.called.length) := by
  cases r with
  | call c d => rw [advance, LineRole.called, List.length_singleton, UInt64.ofNat_add, UInt64.add_assoc]; rfl
  | header labels => rfl
  | hidden => rfl
  | unresolved c => rfl
  | plain => rfl

/-- A label in the template belongs to the macro that is called at its place. -/
theorem mem_template {place : Nat} {ns : List Nat} {line : List Fragment}
    (hline : line ∈ template engine scan program place ns) {name : String} {call : Nat}
    (h : .label name call ∈ line) :
    place ≤ call ∧ ∃ d, (called scan program ns)[call - place]? = some d ∧
      d.locals.contains name = true := by
  induction ns generalizing place with
  | nil => cases hline
  | cons n ns ih =>
    have hcalled : called scan program (n :: ns) =
        (role scan program n).called ++ called scan program ns := rfl
    rcases List.mem_append.mp hline with hline | hline
    · obtain ⟨rfl, d, hd, hlocal⟩ := LineRole.label_of_mem_fragments hline h
      exact ⟨Nat.le_refl _, d, by simp [hcalled, hd], hlocal⟩
    · obtain ⟨hle, d, hd, hlocal⟩ := ih hline
      refine ⟨by omega, d, ?_, hlocal⟩
      rw [hcalled, List.getElem?_append_right (by omega), Nat.sub_sub]
      exact hd

/-- The complaints about a line do not depend on the number of the call. -/
theorem complaints_eq (table : MacroTable) (id id' : UInt64) (r : LineRole) :
    r.complaints engine table id = r.complaints engine table id' := by
  cases r <;> rfl

variable {scan} (hread : scan.Readable)

include hread

theorem steps_complaints_eq (id id' : UInt64) (ns : List Nat) :
    (steps engine scan program id ns).flatMap (Step.complaints engine scan.table) =
      (steps engine scan program id' ns).flatMap (Step.complaints engine scan.table) := by
  induction ns generalizing id id' with
  | nil => rfl
  | cons n ns ih =>
    rw [steps_cons engine program hread, steps_cons engine program hread, List.flatMap_cons,
      List.flatMap_cons, ih _ (advance id' (role scan program n))]
    simp only [Step.complaints, complaints_eq engine scan.table id id']

/-- Which steps are made does not depend on the engine. -/
theorem steps_congr (engine' : Engine) (id : UInt64) (ns : List Nat) :
    steps engine scan program id ns = steps engine' scan program id ns := by
  induction ns generalizing id with
  | nil => rfl
  | cons n ns ih =>
    rw [steps_cons engine program hread, steps_cons engine' program hread, ih]

variable (htrack : engine.options.splice = .trackOffsets)

include htrack

theorem lines_eq_map_fragments (n : Nat) (first : UInt64) (place : Nat) :
    (role scan program n).lines engine (first + UInt64.ofNat place) (program.text n) =
      ((role scan program n).fragments engine place (program.text n)).map
        (Fragment.renderAll engine.options.labelSuffix first) := by
  have hspec := role_spec scan program n
  cases hrole : role scan program n with
  | header labels => exact (Fragment.map_renderAll_fixed ..).symm
  | hidden => rfl
  | unresolved c => exact (Fragment.map_renderAll_fixed ..).symm
  | call c d =>
    rw [hrole] at hspec
    have hd : d.Readable := hread _ _ d hspec.2.2.2
    rw [LineRole.lines, LineRole.fragments, List.map_append, Fragment.map_renderAll_fixed,
      List.map_map]
    congr 1
    refine List.map_congr_left fun m hm => ?_
    exact Invocation.lineText_eq_render engine ⟨d, c.arguments, 0⟩ htrack hd hm first place
  | plain => exact (Fragment.map_renderAll_fixed ..).symm

theorem lines_eq_render (first : UInt64) (place : Nat) (ns : List Nat) :
    (steps engine scan program (first + UInt64.ofNat place) ns).flatMap (Step.lines engine program) =
      (template engine scan program place ns).map
        (Fragment.renderAll engine.options.labelSuffix first) := by
  induction ns generalizing place with
  | nil => rfl
  | cons n ns ih =>
    rw [steps_cons engine program hread, List.flatMap_cons, advance_add, ih, template,
      List.map_append, Step.lines, lines_eq_map_fragments engine program hread htrack]

end Expansion

/-! ## Sources -/

/-- An expansion reads its options without the first number in them. -/
theorem Expansion.ofProgram_eq_render {options : Options} {scan : Scan} (program : Program)
    (hread : scan.Readable) (htrack : options.splice = .trackOffsets) (first : UInt64) :
    (ofProgram { options := { options with firstInvocation := first } } scan program first).output =
        .ok (Fragment.renderAll options.labelSuffix first
          (Fragment.unlines (template { options } scan program 0 program.lineNumbers))) ∧
      (ofProgram { options := { options with firstInvocation := first } } scan program
          first).diagnostics =
        (steps { options } scan program 0 program.lineNumbers).flatMap
          (Step.complaints { options } scan.table) := by
  let engine : Engine := { options := { options with firstInvocation := first } }
  obtain ⟨hlines, hcomplaints⟩ := ofLines_eq engine program hread first program.lineNumbers
  have hsteps := steps_congr engine program hread { options } first program.lineNumbers
  have hline : ∀ s, Step.lines engine program s = Step.lines { options } program s := by
    rintro ⟨n, r, id⟩
    cases r <;> rfl
  have hcomplaint : ∀ s, Step.complaints engine scan.table s =
      Step.complaints { options } scan.table s := by
    rintro ⟨n, r, id⟩
    cases r <;> rfl
  have hrender := lines_eq_render { options } program hread htrack first 0 program.lineNumbers
  have hfirst : first + UInt64.ofNat 0 = first := UInt64.add_zero first
  rw [hfirst] at hrender
  constructor
  · rw [output, ofProgram, hlines, hsteps, funext hline, hrender, Fragment.renderAll_unlines]
    rfl
  · rw [ofProgram, hcomplaints, hsteps, funext hcomplaint, steps_complaints_eq _ _ hread]

/-- **The counter shows in label suffixes only.** Whatever number the first call gets, a source is
refused or expanded alike, with the same complaints, and the text differs only in the labels that
bodies declare: each stands for its name, the suffix and the number of its call, which is the place
of this call among all calls added to the first number. -/
theorem expandSource_eq_render (options : Options) (name source : String)
    (htrack : options.splice = .trackOffsets) :
    ∃ template : Outcome (List Fragment),
      (∀ first : UInt64, expandSource { options with firstInvocation := first } name source =
        ⟨template.result.map (Fragment.renderAll options.labelSuffix first),
          template.diagnostics⟩) ∧
      ∀ fragments, template.result = .ok fragments →
        ∃ program scan, Program.ofSource name source = .ok program ∧
          (Scan.ofProgram { options } program).result = .ok scan ∧
          ∀ label call, .label label call ∈ fragments →
            ∃ d, (Expansion.called scan program program.lineNumbers)[call]? = some d ∧
              d.locals.contains label = true := by
  cases hsource : Program.ofSource name source with
  | error e =>
    refine ⟨⟨.error e, []⟩, fun first => ?_, fun fragments h => by cases h⟩
    simp only [expandSource, hsource, Except.map]
  | ok program =>
    have hsame : ∀ first : UInt64,
        Scan.ofProgram { options := { options with firstInvocation := first } } program =
          Scan.ofProgram { options } program := fun first => Scan.ofProgram_congr rfl
    cases hscan : (Scan.ofProgram { options } program).result with
    | error e =>
      refine ⟨⟨.error e, (Scan.ofProgram { options } program).diagnostics⟩, fun first => ?_,
        fun fragments h => by cases h⟩
      simp only [expandSource, hsource, hsame, hscan, Except.map]
    | ok scan =>
      have hread := Scan.readable_of_ok hsource hscan
      refine ⟨⟨.ok (Fragment.unlines (Expansion.template { options } scan program 0
          program.lineNumbers)), (Scan.ofProgram { options } program).diagnostics ++
        (Expansion.steps { options } scan program 0 program.lineNumbers).flatMap
          (Expansion.Step.complaints { options } scan.table)⟩, fun first => ?_, ?_⟩
      · obtain ⟨hresult, hcomplaints⟩ := Expansion.ofProgram_eq_render program hread htrack first
        simp only [expandSource, hsource, hsame, hscan, hresult, hcomplaints, Except.map]
      · intro fragments hfragments
        cases hfragments
        refine ⟨program, scan, rfl, hscan, fun label call hlabel => ?_⟩
        obtain ⟨line, hline, hlabel⟩ := List.mem_flatMap.mp hlabel
        have hmem : .label label call ∈ line := by simpa using hlabel
        exact (Expansion.mem_template { options } scan program hline hmem).2

/-- Two calls of a macro with a label, the second with the label of the first as its argument. -/
def calledTwice : String := ".macro m %a\nl: j %a # l\n.end_macro\nm l\nk: m l_M0\n"

theorem expandSource_calledTwice :
    ∃ fragments, ∀ first : UInt64,
      (expandSource { firstInvocation := first } "m.asm" calledTwice).result =
        .ok (Fragment.renderAll "_M" first fragments) := by
  obtain ⟨template, htemplate, -⟩ := expandSource_eq_render {} "m.asm" calledTwice rfl
  have hsome : (expandSource {} "m.asm" calledTwice).result.toOption.isSome = true := by
    decide +kernel
  cases hresult : template.result with
  | error e =>
    have hzero : (expandSource {} "m.asm" calledTwice).result = .error e := by
      have h := congrArg Outcome.result (htemplate 0)
      rw [hresult] at h
      exact h
    rw [hzero] at hsome
    cases hsome
  | ok fragments =>
    refine ⟨fragments, fun first => ?_⟩
    have h := congrArg Outcome.result (htemplate first)
    rw [hresult] at h
    exact h

end MipsMacro
