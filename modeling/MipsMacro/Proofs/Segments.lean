import Mathlib.Data.List.Sort
import MipsMacro.Proofs.LineByLine
import MipsMacro.Proofs.LineEnds
import MipsMacro.Proofs.MovedBlocks

/-!
# Nothing is lost or duplicated

Every line of a source has a segment of the output for itself. Whether a line lies in a block, whether
it opens one and whether its call finds a macro are separate tests, and together they leave one rule
for each line. Proved here:

* `Scan.isHeader_eq_false`, `Scan.filter_isHeader`: the headers are the first lines of the blocks, and
  none of them lies inside another block;
* `Expansion.isSegment_linesAt`: what a line is replaced by, rule by rule;
* `Expansion.length_flatMap_linesAt`: how many lines that makes, counted rule by rule;
* `expandSource_segments`: so the output is the segments of the lines in order, and has as many line
  ends as they have lines.
-/

namespace MipsMacro

/-! ## Lines of blocks -/

namespace Scan

variable {engine : Engine} {p : Program} {s : Scan} (h : (ofProgram engine p).result = .ok s)

include h

/-- No block opens inside another one. -/
theorem isHeader_eq_false {b : Nat × Nat} (hb : b ∈ s.blocks) {n : Nat} (hn : b.1 < n ∧ n ≤ b.2) :
    s.isHeader n = false := by
  have hwithin : ∀ a ∈ s.blocks, a.1 < a.2 := fun a ha => (p.blocks_within (marks_eq h) ha).2.1
  have hapart := p.blocks_apart (marks_eq h)
  have hoff : ∀ a ∈ s.blocks, ∀ c ∈ s.blocks, ¬ (a.1 < c.1 ∧ c.1 ≤ a.2) := by
    refine List.Pairwise.forall_of_forall_of_flip ?_ ?_ ?_
    · intro a _
      omega
    · refine hapart.imp fun {a c} hac => ?_
      omega
    · refine hapart.imp_of_mem fun {a c} ha hc hac => ?_
      have := hwithin a ha
      have := hwithin c hc
      unfold flip
      omega
  rw [Bool.eq_false_iff, Ne, isHeader_iff]
  rintro ⟨c, hc, rfl⟩
  exact hoff b hb c hc hn

theorem filter_isHeader : p.lineNumbers.filter s.isHeader = s.blocks.map Prod.fst := by
  have hlines : (p.lineNumbers.filter s.isHeader).Pairwise (· < ·) := by
    refine List.Pairwise.filter _ ?_
    exact List.pairwise_lt_range'
  have hfirsts : (s.blocks.map Prod.fst).Pairwise (· < ·) := by
    rw [List.pairwise_map]
    refine (p.blocks_apart (marks_eq h)).imp_of_mem fun {a c} ha _ hac => ?_
    have := (p.blocks_within (marks_eq h) ha).2.1
    omega
  refine hlines.eq_of_mem_iff hfirsts fun n => ?_
  rw [List.mem_filter, isHeader_iff, List.mem_map]
  constructor
  · rintro ⟨-, hn⟩
    exact hn
  · rintro ⟨b, hb, rfl⟩
    have := p.blocks_within (marks_eq h) hb
    refine ⟨p.mem_lineNumbers.mpr ?_, b, hb, rfl⟩
    omega

end Scan

/-- A call keeps the labels in front of its line. -/
theorem Call.labels_eq {p : Program} {n : Nat} {call : Call}
    (h : parse? p.name (p.text n) (p.tokens n) = some call) : call.labels = p.leadingLabels n := by
  obtain ⟨head, rest, -, -, rfl⟩ := exists_of_parse? h
  rfl

namespace Expansion

/-! ## Segments -/

variable (engine : Engine) (scan : Scan) (program : Program) (first : UInt64)

/-- The lines `segment` take the place of line `n`. -/
structure IsSegment (n : Nat) (segment : List String) : Prop where
  /-- Inside a block or at its end nothing does. -/
  hidden : ∀ b ∈ scan.blocks, b.1 < n → n ≤ b.2 → segment = []
  /-- The labels of a header stay. -/
  header : ∀ b ∈ scan.blocks, n = b.1 → segment = (program.leadingLabels n).map (· ++ ":")
  /-- Outside of blocks a line stays that is no call, or none that finds a macro. -/
  kept : (∀ b ∈ scan.blocks, n < b.1 ∨ b.2 < n) → resolved? scan program n = none →
    segment = [program.text n]
  /-- The labels of a call stay, and the lines between the directives of its macro follow. -/
  called : ∀ call d, resolved? scan program n = some (call, d) →
    (∀ b ∈ scan.blocks, n < b.1 ∨ b.2 < n) ∧ call.labels = program.leadingLabels n ∧
      ∃ body, segment = (program.leadingLabels n).map (· ++ ":") ++ body ∧
        body.length = d.range.last - d.range.first - 1 ∧
        (Invocation.expand engine ⟨d, call.arguments, idAt scan program first n⟩).result = .ok body

variable {scan program} (hscan : (Scan.ofProgram engine program).result = .ok scan)
  (hread : scan.Readable)

include hscan hread in
theorem isSegment_linesAt (n : Nat) :
    IsSegment engine scan program first n (linesAt engine scan program first n) where
  hidden := by
    intro b hb hfirst hlast
    have hline := (scan.isDefinitionLine_iff n).mpr ⟨b, hb, Nat.le_of_lt hfirst, hlast⟩
    have hheader := Scan.isHeader_eq_false hscan hb ⟨hfirst, hlast⟩
    simp [linesAt, role, hline, hheader, LineRole.lines]
  header := by
    rintro b hb rfl
    have hlt := (program.blocks_within (Scan.marks_eq hscan) hb).2.1
    have hline := (scan.isDefinitionLine_iff b.1).mpr ⟨b, hb, Nat.le_refl _, Nat.le_of_lt hlt⟩
    have hheader := (scan.isHeader_iff b.1).mpr ⟨b, hb, rfl⟩
    simp [linesAt, role, hline, hheader, LineRole.lines, labelLines, Program.leadingLabels,
      splitLabels_fst]
  kept := by
    intro hout hnone
    have hline := (scan.isDefinitionLine_eq_false_iff n).mpr hout
    have hspec := role_spec scan program n
    rw [resolved?_eq] at hnone
    unfold linesAt
    cases hrole : role scan program n with
    | header labels => simp [hrole, hline] at hspec
    | hidden => simp [hrole, hline] at hspec
    | unresolved call => rfl
    | call call d => simp [hrole] at hnone
    | plain => rfl
  called := by
    intro call d hsome
    have hrole := role_of_resolved? scan program hsome
    have hspec := role_spec scan program n
    rw [hrole] at hspec
    obtain ⟨hline, hparse, -, hlookup⟩ := hspec
    have hexpand := Invocation.expand_eq engine ⟨d, call.arguments, idAt scan program first n⟩
      (hread _ _ d hlookup)
    refine ⟨(scan.isDefinitionLine_eq_false_iff n).mp hline, Call.labels_eq hparse,
      d.range.body.map (Invocation.lineText engine ⟨d, call.arguments, idAt scan program first n⟩),
      ?_, ?_, by rw [hexpand]⟩
    · rw [linesAt, hrole, ← Call.labels_eq hparse]
      rfl
    · rw [List.length_map, LineRange.body, List.length_range']

/-! ## Counting -/

/-- The calls that find a macro, in order. -/
def calls (scan : Scan) (program : Program) : List (Call × Definition) :=
  program.lineNumbers.filterMap (resolved? scan program)

include hscan in
theorem length_linesAt (n : Nat) :
    (linesAt engine scan program first n).length =
      (if !scan.isDefinitionLine n && (resolved? scan program n).isNone then 1 else 0) +
        (if scan.isHeader n then (program.leadingLabels n).length else 0) +
        ((resolved? scan program n).toList.map fun c => c.1.labels.length).sum +
        ((resolved? scan program n).toList.map fun c => c.2.range.last - c.2.range.first - 1).sum := by
  have hspec := role_spec scan program n
  -- a line outside of blocks is no header
  have hheader : scan.isDefinitionLine n = false → scan.isHeader n = false := by
    intro hline
    rw [Bool.eq_false_iff, Ne, Scan.isHeader_iff]
    rintro ⟨b, hb, rfl⟩
    have := (program.blocks_within (Scan.marks_eq hscan) hb).2.1
    have := (scan.isDefinitionLine_eq_false_iff b.1).mp hline b hb
    omega
  rw [resolved?_eq, linesAt]
  cases hrole : role scan program n with
  | header labels =>
    rw [hrole] at hspec
    simp [LineRole.lines, labelLines, Program.leadingLabels, hspec.1.1, hspec.1.2, hspec.2]
  | hidden =>
    rw [hrole] at hspec
    simp [LineRole.lines, hspec.1, hspec.2]
  | unresolved call =>
    rw [hrole] at hspec
    simp [LineRole.lines, hspec.1, hheader hspec.1]
  | call call d =>
    rw [hrole] at hspec
    simp [LineRole.lines, labelLines, LineRange.body, hspec.1, hheader hspec.1]
  | plain =>
    rw [hrole] at hspec
    simp [LineRole.lines, hspec.1, hheader hspec.1]

include hscan in
theorem length_flatMap_linesAt (ns : List Nat) :
    (ns.flatMap (linesAt engine scan program first)).length =
      ns.countP (fun n => !scan.isDefinitionLine n && (resolved? scan program n).isNone) +
        ((ns.filter scan.isHeader).map fun n => (program.leadingLabels n).length).sum +
        ((ns.filterMap (resolved? scan program)).map fun c => c.1.labels.length).sum +
        ((ns.filterMap (resolved? scan program)).map fun c =>
          c.2.range.last - c.2.range.first - 1).sum := by
  induction ns with
  | nil => rfl
  | cons n ns ih =>
    rw [List.flatMap_cons, List.length_append, ih, length_linesAt engine first hscan,
      List.countP_cons, List.filter_cons, List.filterMap_cons]
    cases resolved? scan program n <;> cases scan.isHeader n <;> simp <;> omega

theorem unlines_flatMap (ns : List Nat) (segment : Nat → List String) :
    unlines (ns.flatMap segment) = String.join (ns.map fun n => unlines (segment n)) := by
  simp only [unlines, ← String.toList_inj, String.toList_join, List.map_flatMap, List.flatMap_assoc,
    List.flatMap_map]

end Expansion

/-- **Nothing is lost or duplicated.** If a source is expanded with a suffix that has no line end, the
output is one segment of whole lines for each line of the source, in order. So it has a line end for
each line outside of blocks whose call, if it is one, finds no macro, for each label in front of a
header or of a call that finds one, and for each line between the directives of a macro that is
called. -/
theorem expandSource_segments (options : Options) (name source output : String)
    (hsuffix : '\n' ∉ options.labelSuffix.toList)
    (h : (expandSource options name source).result = .ok output) :
    ∃ program scan,
      (Program.ofSource name source = .ok program ∧
        (Scan.ofProgram { options } program).result = .ok scan) ∧
      (program.lineNumbers.map program.text = (Text.lines source.toList).map String.ofList ∧
        program.marks = alternate scan.blocks) ∧
      (∃ segment : Nat → List String,
        output = String.join (program.lineNumbers.map fun n => Expansion.unlines (segment n)) ∧
        ∀ n ∈ program.lineNumbers,
          Expansion.IsSegment { options } scan program options.firstInvocation n (segment n) ∧
            ∀ line ∈ segment n, '\n' ∉ line.toList) ∧
      output.toList.count '\n' =
        (scan.outside program).countP (fun n => (Expansion.resolved? scan program n).isNone) +
          ((scan.blocks.map fun b => (program.leadingLabels b.1).length).sum +
            ((Expansion.calls scan program).map fun c => c.1.labels.length).sum) +
          ((Expansion.calls scan program).map fun c => c.2.range.last - c.2.range.first - 1).sum := by
  rcases expandSource_cases options name source with
    ⟨e, -, hfail⟩ | ⟨program, e, -, -, hfail⟩ | ⟨program, scan, hsource, hscan⟩
  · rw [hfail] at h
    cases h
  · rw [hfail] at h
    cases h
  · rw [expandSource_of_lines hsource hscan] at h
    cases h
    have hread := Scan.readable_of_ok hsource hscan
    let segment := Expansion.linesAt { options } scan program options.firstInvocation
    have hnewline : ∀ n, ∀ line ∈ segment n, '\n' ∉ line.toList := fun n line hline =>
      Expansion.newline_not_mem_lines hsuffix (Program.lexed_ofSource hsource) hscan hline
    refine ⟨program, scan, ⟨hsource, hscan⟩,
      ⟨(Program.ofSource_eq_ok hsource).2, Scan.marks_eq hscan⟩,
      ⟨segment, Expansion.unlines_flatMap _ segment, ?_⟩, ?_⟩
    · intro n _
      exact ⟨Expansion.isSegment_linesAt { options } options.firstInvocation hscan hread n,
        hnewline n⟩
    · rw [Expansion.count_newline_unlines]
      · rw [Expansion.length_flatMap_linesAt { options } options.firstInvocation hscan,
          Scan.filter_isHeader hscan, List.map_map, Scan.outside, List.countP_filter]
        simp only [Bool.and_comm, Nat.add_assoc]
        rfl
      · intro line hline
        obtain ⟨n, -, hline⟩ := List.mem_flatMap.mp hline
        exact hnewline n line hline

/-- A label in front of a header, a call that finds no macro and a call with two labels. -/
def mixedSource : String :=
  "k: .macro m %a\r\nl: b %a, l\nnop\n.end_macro\nnop # m\nm\nx: y: m l\n"

def mixedOutput : String := "k:\nnop # m\nm\nx:\ny:\nl_M0: b l, l_M0\nnop\n"

theorem expandSource_mixed :
    (expandSource {} "m.asm" mixedSource).result = .ok mixedOutput ∧
      mixedOutput.toList.count '\n' = 2 + (1 + 2) + 2 ∧
      ∃ program scan, scan.blocks = [(1, 4)] ∧ ∃ segment : Nat → List String,
        mixedOutput = String.join (program.lineNumbers.map fun n => Expansion.unlines (segment n)) ∧
        ∀ n ∈ program.lineNumbers, Expansion.IsSegment {} scan program 0 n (segment n) := by
  have hok : (expandSource {} "m.asm" mixedSource).result = .ok mixedOutput := by
    rw [← toOption_eq_some_iff]
    decide +kernel
  obtain ⟨program, scan, ⟨hsource, hscan⟩, -, ⟨segment, hsegments, hrules⟩, hcount⟩ :=
    expandSource_segments {} "m.asm" mixedSource mixedOutput (by decide) hok
  have hcheck : scanPasses {} "m.asm" mixedSource (fun program scan =>
      decide (scan.blocks = [(1, 4)] ∧
        (scan.outside program).countP (fun n => (Expansion.resolved? scan program n).isNone) = 2 ∧
        program.leadingLabels 1 = ["k"] ∧
        (Expansion.calls scan program).map (fun c => (c.1.labels.length, c.2.range.last,
          c.2.range.first)) = [(2, 4, 1)])) = true := by decide +kernel
  simp only [scanPasses, hsource, hscan, decide_eq_true_eq] at hcheck
  obtain ⟨hblocks, hkept, hlabels, hcalls⟩ := hcheck
  obtain ⟨c, hcalls, hc⟩ := List.map_eq_singleton_iff.mp hcalls
  simp only [Prod.mk.injEq] at hc
  obtain ⟨hcallLabels, hlast, hfirst⟩ := hc
  refine ⟨hok, ?_, program, scan, hblocks, segment, hsegments, fun n hn => (hrules n hn).1⟩
  simpa [hkept, hblocks, hlabels, hcalls, hcallLabels, hlast, hfirst] using hcount

end MipsMacro
