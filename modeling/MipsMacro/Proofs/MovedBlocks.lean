import MipsMacro.Proofs.Relocation

/-!
# Blocks count through the table only

Where a block stands, and what a later block with its signature has replaced, shows nowhere in an
expansion. Proved here, for programs that were read from sources:

* `Scan.lookup_eq`: a call gets the last block with its signature;
* `Block.alike_of_content`: blocks with the same parameters, body texts and labels in front of their
  closing directive define the same macro;
* `Expansion.lines_filter`: blocks whose headers have no labels leave no trace among the lines;
* `Expansion.lines_eq_of_alike`: lines with the same texts, read with tables that hold the same macros,
  are replaced by the same lines;
* `expandSource_eq_of_blocks`: so two sources with the same lines outside of blocks and the same last
  blocks give the same text.
-/

namespace MipsMacro

/-! ## What a block says -/

/-- What a block says besides its name. -/
structure BlockContent where
  parameters : List String
  /-- The texts between the directives. -/
  body : List String
  /-- The labels in front of the closing directive. -/
  closingLabels : List String
  deriving DecidableEq

namespace Block

def content (p : Program) (b : Nat × Nat) : BlockContent where
  parameters := p.headerParameters b.1
  body := (List.range' (b.1 + 1) (b.2 - b.1 - 1)).map p.text
  closingLabels := p.leadingLabels b.2

/-- The last of the blocks with a signature. -/
def last? (p : Program) (blocks : List (Nat × Nat)) (s : Signature) : Option (Nat × Nat) :=
  blocks.reverse.find? fun b => p.headerSignature b.1 = s

theorem fits_definitionAt (p : Program) (b : Nat × Nat) (name : String) (arity : Nat) :
    (definitionAt p b.1 b.2).fits name arity = decide (p.headerSignature b.1 = ⟨name, arity⟩) := by
  rw [Bool.eq_iff_iff, MacroTable.fits_iff, decide_eq_true_iff]
  rfl

/-- The labels of a macro are those of its body and those in front of its closing directive. -/
theorem labels_draftAt (p : Program) {b : Nat × Nat} (hb : b.1 < b.2) :
    (draftAt p b.1 (b.2 + 1)).labels =
      (definitionAt p b.1 b.2).range.body.flatMap p.leadingLabels ++ p.leadingLabels b.2 := by
  rw [draftAt_succ p b.2 hb]
  have hsize : b.2 - (b.1 + 1) = b.2 - b.1 - 1 := by omega
  simp only [Draft.addLabels, draftAt, hsize]
  rfl

theorem alike_of_content {p p' : Program} {b b' : Nat × Nat} (hb : b.1 < b.2) (hb' : b'.1 < b'.2)
    (hread : (definitionAt p b.1 b.2).Readable) (hread' : (definitionAt p' b'.1 b'.2).Readable)
    (h : content p b = content p' b') :
    (definitionAt p b.1 b.2).Alike (definitionAt p' b'.1 b'.2) := by
  have hbody : (definitionAt p b.1 b.2).range.body.map p.text =
      (definitionAt p' b'.1 b'.2).range.body.map p'.text := congrArg BlockContent.body h
  have hlabels : (definitionAt p b.1 b.2).range.body.map p.leadingLabels =
      (definitionAt p' b'.1 b'.2).range.body.map p'.leadingLabels :=
    map_eq_of_map_eq hbody fun n hn n' hn' htext =>
      (hread.reads n hn).leadingLabels_eq (hread'.reads n' hn') htext
  refine ⟨congrArg BlockContent.parameters h, ?_, hbody⟩
  change LocalLabels.ofList (draftAt p b.1 (b.2 + 1)).labels =
    LocalLabels.ofList (draftAt p' b'.1 (b'.2 + 1)).labels
  have hclosing : p.leadingLabels b.2 = p'.leadingLabels b'.2 := congrArg BlockContent.closingLabels h
  rw [labels_draftAt p hb, labels_draftAt p' hb', List.flatMap_def, List.flatMap_def, hlabels,
    hclosing]

end Block

/-! ## Tables -/

/-- Tables in which every call finds the same macro, or in both none. -/
def MacroTable.Alike (t t' : MacroTable) : Prop :=
  ∀ name arity, Option.Rel Definition.Alike (t.lookup name arity) (t'.lookup name arity)

theorem MacroTable.Alike.containsName_eq {t t' : MacroTable} (h : t.Alike t') (name : String) :
    t.containsName name = t'.containsName name := by
  rw [Bool.eq_iff_iff, containsName_iff, containsName_iff]
  refine exists_congr fun arity => ?_
  have hrel := h name arity
  generalize t.lookup name arity = found at hrel ⊢
  generalize t'.lookup name arity = found' at hrel ⊢
  cases hrel <;> simp

theorem Scan.lookup_eq {engine : Engine} {p : Program} {s : Scan}
    (h : (ofProgram engine p).result = .ok s) (name : String) (arity : Nat) :
    s.table.lookup name arity =
      (Block.last? p s.blocks ⟨name, arity⟩).map fun b => Block.definitionAt p b.1 b.2 := by
  have hempty : ({} : MacroTable).lookup name arity = none := rfl
  rw [table_eq h, lookup_commitAll, hempty, Option.or_none, Block.definitions, ← List.map_reverse,
    List.find?_map, Block.last?]
  simp only [Function.comp_def, Block.fits_definitionAt]

/-- Tables hold the same macros if the last blocks with each signature say the same. -/
theorem Scan.alike_of_content {engine : Engine} {p p' : Program} {s s' : Scan}
    (hs : (ofProgram engine p).result = .ok s) (hs' : (ofProgram engine p').result = .ok s')
    (hread : s.Readable) (hread' : s'.Readable)
    (h : ∀ signature, (Block.last? p s.blocks signature).map (Block.content p) =
      (Block.last? p' s'.blocks signature).map (Block.content p')) :
    s.table.Alike s'.table := by
  intro name arity
  have hd := lookup_eq hs name arity
  have hd' := lookup_eq hs' name arity
  have hsame := h ⟨name, arity⟩
  rw [hd, hd']
  cases hb : Block.last? p s.blocks ⟨name, arity⟩ with
  | none =>
    rw [hb, Option.map_none, eq_comm, Option.map_eq_none_iff] at hsame
    rw [hsame]
    exact .none
  | some b =>
    rw [hb, Option.map_some, eq_comm, Option.map_eq_some_iff] at hsame
    obtain ⟨b', hb', hcontent⟩ := hsame
    rw [hb, Option.map_some] at hd
    rw [hb', Option.map_some] at hd'
    have hmem : b ∈ s.blocks := List.mem_reverse.mp (List.mem_of_find?_eq_some hb)
    have hmem' : b' ∈ s'.blocks := List.mem_reverse.mp (List.mem_of_find?_eq_some hb')
    have hlt := (p.blocks_within (marks_eq hs) hmem).2.1
    have hlt' := (p'.blocks_within (marks_eq hs') hmem').2.1
    rw [hb']
    exact .some (Block.alike_of_content hlt hlt' (hread _ _ _ hd) (hread' _ _ _ hd') hcontent.symm)

/-! ## Lines -/

/-- The lines outside of all blocks. -/
def Scan.outside (s : Scan) (p : Program) : List Nat :=
  p.lineNumbers.filter fun n => !s.isDefinitionLine n

theorem Scan.mem_outside {s : Scan} {p : Program} {n : Nat} :
    n ∈ s.outside p ↔ n ∈ p.lineNumbers ∧ s.isDefinitionLine n = false := by
  simp [outside]

theorem Scan.leadingLabels_of_isHeader {s : Scan} {p : Program}
    (h : ∀ b ∈ s.blocks, p.leadingLabels b.1 = []) (n : Nat) (hn : s.isHeader n = true) :
    p.leadingLabels n = [] := by
  obtain ⟨b, hb, hfirst⟩ := List.any_eq_true.mp hn
  rw [← beq_iff_eq.mp hfirst]
  exact h b hb

namespace Expansion

variable (engine : Engine)

/-- A line of a block whose header has no labels is replaced by nothing. -/
theorem role_of_isDefinitionLine {scan : Scan} {program : Program} {n : Nat}
    (hline : scan.isDefinitionLine n = true)
    (hheader : scan.isHeader n = true → program.leadingLabels n = []) :
    role scan program n = .header [] ∨ role scan program n = .hidden := by
  unfold role
  cases h : scan.isHeader n with
  | true =>
    have hlabels : labelsOf (program.tokens n) = [] := hheader h
    simp [hline, splitLabels_fst, hlabels]
  | false => simp [hline]

theorem lines_filter {scan : Scan} (program : Program) (hread : scan.Readable)
    (hheader : ∀ n, scan.isHeader n = true → program.leadingLabels n = []) (id : UInt64)
    (ns : List Nat) :
    (steps engine scan program id ns).flatMap (Step.lines engine program) =
      (steps engine scan program id (ns.filter fun n => !scan.isDefinitionLine n)).flatMap
        (Step.lines engine program) := by
  induction ns generalizing id with
  | nil => rfl
  | cons n ns ih =>
    rw [steps_cons engine program hread, List.flatMap_cons, ih, List.filter_cons]
    cases hline : scan.isDefinitionLine n with
    | true =>
      rcases role_of_isDefinitionLine hline (hheader n) with hrole | hrole <;>
        simp [hrole, Step.lines, LineRole.lines, labelLines, advance]
    | false => simp [steps_cons engine program hread]

variable {scan scan' : Scan} {program program' : Program} (hread : scan.Readable)
  (hread' : scan'.Readable) (halike : scan.table.Alike scan'.table)

include hread hread' halike

/-- Lines with one text have the same part in both programs. -/
theorem role_lines_eq {n n' : Nat} (hn : program.Reads n) (hn' : program'.Reads n')
    (hout : scan.isDefinitionLine n = false) (hout' : scan'.isDefinitionLine n' = false)
    (htext : program.text n = program'.text n') (id : UInt64) :
    (role scan program n).lines engine id (program.text n) =
        (role scan' program' n').lines engine id (program'.text n') ∧
      advance id (role scan program n) = advance id (role scan' program' n') := by
  have hcalls := Call.parse?_onLine program.name program'.name (program.text n) n' (program.tokens n)
  rw [← hn.tokens_eq hn' htext, htext] at hcalls
  simp only [role, hout, hout', Bool.false_eq_true, if_false, htext]
  cases hc : Call.parse? program.name (program'.text n') (program.tokens n) with
  | none =>
    rw [hc, Option.map_none, Option.map_eq_none_iff] at hcalls
    rw [hcalls]
    exact ⟨rfl, rfl⟩
  | some c =>
    rw [hc, Option.map_some, Option.map_eq_some_iff] at hcalls
    obtain ⟨c', hc', hcontent⟩ := hcalls
    simp only [Call.content, Prod.mk.injEq] at hcontent
    obtain ⟨hlabels, hname, harguments⟩ := hcontent
    simp only [hc', hname, harguments, halike.containsName_eq]
    cases scan'.table.containsName c.name with
    | false => exact ⟨rfl, rfl⟩
    | true =>
      have hrel := halike c.name c.arguments.arity
      have hd := hread c.name c.arguments.arity
      have hd' := hread' c.name c.arguments.arity
      generalize scan.table.lookup c.name c.arguments.arity = found at hrel hd ⊢
      generalize scan'.table.lookup c.name c.arguments.arity = found' at hrel hd' ⊢
      cases hrel with
      | none => exact ⟨rfl, rfl⟩
      | some h =>
        refine ⟨?_, rfl⟩
        simp only [if_true, LineRole.lines, hlabels, harguments]
        rw [Invocation.body_eq engine c.arguments id h (hd _ rfl) (hd' _ rfl)]

theorem lines_eq_of_alike {ns ns' : List Nat} (hns : ∀ n ∈ ns, program.Reads n)
    (hns' : ∀ n ∈ ns', program'.Reads n) (hout : ∀ n ∈ ns, scan.isDefinitionLine n = false)
    (hout' : ∀ n ∈ ns', scan'.isDefinitionLine n = false)
    (htexts : ns.map program.text = ns'.map program'.text) (id : UInt64) :
    (steps engine scan program id ns).flatMap (Step.lines engine program) =
      (steps engine scan' program' id ns').flatMap (Step.lines engine program') := by
  induction ns generalizing ns' id with
  | nil =>
    obtain rfl := List.map_eq_nil_iff.mp htexts.symm
    rfl
  | cons n ns ih =>
    obtain ⟨n', ns', rfl, htext, htexts⟩ := List.map_eq_cons_iff.mp htexts.symm
    rw [List.forall_mem_cons] at hns hns' hout hout'
    obtain ⟨hlines, hnext⟩ := role_lines_eq engine hread hread' halike hns.1 hns'.1 hout.1 hout'.1
      htext.symm id
    have hrest := ih hns.2 hns'.2 hout.2 hout'.2 htexts.symm (advance id (role scan program n))
    rw [steps_cons engine program hread, steps_cons engine program' hread', List.flatMap_cons,
      List.flatMap_cons, hrest, ← hnext]
    simp only [Step.lines, hlines]

end Expansion

/-- **Blocks count through the table only.** Take two sources whose lines outside of blocks have the
same texts, whose headers carry no labels, and in which the last block with each signature, if there
is one, has the same parameters, the same texts between its directives and the same labels in front of
the closing one. Both are expanded to the same text. -/
theorem expandSource_eq_of_blocks (options : Options) (name name' source source' : String)
    (p p' : Program) (s s' : Scan)
    (hsource : Program.ofSource name source = .ok p)
    (hsource' : Program.ofSource name' source' = .ok p')
    (hscan : (Scan.ofProgram { options } p).result = .ok s)
    (hscan' : (Scan.ofProgram { options } p').result = .ok s')
    (houtside : (s.outside p).map p.text = (s'.outside p').map p'.text)
    (hheaders : ∀ b ∈ s.blocks, p.leadingLabels b.1 = [])
    (hheaders' : ∀ b ∈ s'.blocks, p'.leadingLabels b.1 = [])
    (hblocks : ∀ signature, (Block.last? p s.blocks signature).map (Block.content p) =
      (Block.last? p' s'.blocks signature).map (Block.content p')) :
    ∃ output, (expandSource options name source).result = .ok output ∧
      (expandSource options name' source').result = .ok output := by
  have hread := Scan.readable_of_ok hsource hscan
  have hread' := Scan.readable_of_ok hsource' hscan'
  have halike := Scan.alike_of_content hscan hscan' hread hread' hblocks
  have hsame := Expansion.lines_eq_of_alike { options } hread hread' halike
    (fun n hn => Program.reads_of_ofSource hsource (Scan.mem_outside.mp hn).1)
    (fun n hn => Program.reads_of_ofSource hsource' (Scan.mem_outside.mp hn).1)
    (fun n hn => (Scan.mem_outside.mp hn).2) (fun n hn => (Scan.mem_outside.mp hn).2) houtside
    options.firstInvocation
  rw [expandSource_of_scan hsource hscan, expandSource_of_scan hsource' hscan']
  refine ⟨_, rfl, ?_⟩
  rw [Expansion.lines_filter { options } p hread (Scan.leadingLabels_of_isHeader hheaders),
    Expansion.lines_filter { options } p' hread' (Scan.leadingLabels_of_isHeader hheaders')]
  exact congrArg (fun lines => Except.ok (Expansion.unlines lines)) hsame.symm

/-- A macro that is called before its block, which replaces an earlier one. -/
def calledFirst : String :=
  "m 1\n.macro m %a\nx %a\n.end_macro\n.macro m %b\nl: y %b, l\nz: .end_macro\nk: m 2\n"

/-- The same calls behind the block that counts. -/
def calledLast : String := ".macro m %b\nl: y %b, l\nz: .end_macro\nm 1\nk: m 2\n"

theorem expandSource_calledFirst :
    ∃ p p' s s', Program.ofSource "a.asm" calledFirst = .ok p ∧
      Program.ofSource "b.asm" calledLast = .ok p' ∧
      (Scan.ofProgram {} p).result = .ok s ∧ (Scan.ofProgram {} p').result = .ok s' ∧
      s.blocks = [(2, 4), (5, 7)] ∧ s'.blocks = [(1, 3)] ∧
      ∃ output, (expandSource {} "a.asm" calledFirst).result = .ok output ∧
        (expandSource {} "b.asm" calledLast).result = .ok output := by
  have hcheck : scanPasses {} "a.asm" calledFirst (fun p s =>
      scanPasses {} "b.asm" calledLast fun p' s' =>
        decide ((s.blocks = [(2, 4), (5, 7)] ∧ s'.blocks = [(1, 3)]) ∧
          (s.outside p).map p.text = (s'.outside p').map p'.text ∧
          (∀ b ∈ s.blocks, p.leadingLabels b.1 = []) ∧
          (∀ b ∈ s'.blocks, p'.leadingLabels b.1 = []) ∧
          (p.headerSignature 2 = ⟨"m", 1⟩ ∧ p.headerSignature 5 = ⟨"m", 1⟩ ∧
            p'.headerSignature 1 = ⟨"m", 1⟩) ∧
          Block.content p (5, 7) = Block.content p' (1, 3))) = true := by decide +kernel
  obtain ⟨p, s, hsource, hscan, hcheck⟩ := exists_of_scanPasses hcheck
  obtain ⟨p', s', hsource', hscan', hcheck⟩ := exists_of_scanPasses hcheck
  obtain ⟨⟨hs, hs'⟩, houtside, hheaders, hheaders', ⟨h₂, h₅, h₁⟩, hcontent⟩ :=
    of_decide_eq_true hcheck
  refine ⟨p, p', s, s', hsource, hsource', hscan, hscan', hs, hs', ?_⟩
  refine expandSource_eq_of_blocks {} "a.asm" "b.asm" calledFirst calledLast p p' s s' hsource
    hsource' hscan hscan' houtside hheaders hheaders' fun signature => ?_
  by_cases hsignature : Signature.mk "m" 1 = signature
  · simp [Block.last?, hs, hs', h₅, h₁, hsignature, hcontent]
  · simp [Block.last?, hs, hs', h₂, h₅, h₁, hsignature]

end MipsMacro
