import MipsMacro.Proofs.LocalLabels
import MipsMacro.Proofs.MovedBlocks

/-!
# What a scan commits

Proved here, for scans of any program:

* `Block.madeFrom_definitionAt`: what a block makes of its header, its labels and its lines;
* `Block.closedBlocks_apart`, `Scan.warnings_eq_filter`: closed blocks follow each other, and the
  warnings are about those that repeat the signature of one before them;
* `Scan.length_commitAll`: every commit makes the table longer or warns;
* `Scan.commits_blocks`: so a call finds the last block with its signature, and there are as many
  blocks as definitions and warnings together.
-/

namespace MipsMacro

open Text

theorem Program.headerSignature_eq_iff (p : Program) (n : Nat) (name : String) (arity : Nat) :
    p.headerSignature n = ⟨name, arity⟩ ↔
      p.headerName n = name ∧ (p.headerParameters n).length = arity := by
  simp [headerSignature]

/-! ## The definition in a block -/

/-- The definition `d` is what the block from line `b.1` to line `b.2` says. -/
structure Definition.MadeFrom (d : Definition) (p : Program) (b : Nat × Nat) : Prop where
  program : d.program = p
  name : d.name = p.headerName b.1
  parameters : d.parameters = p.headerParameters b.1
  /-- The labels of all lines behind the header, up to the closing directive. -/
  locals : d.locals.toList.Perm ((List.range' (b.1 + 1) (b.2 - b.1)).flatMap p.leadingLabels)
  sorted : LocalLabels.Sorted d.locals.sorted
  range : d.range = { first := b.1, last := b.2, fileFirst := b.1, fileLast := b.2 }

namespace Block

theorem madeFrom_definitionAt (p : Program) (b : Nat × Nat) :
    (definitionAt p b.1 b.2).MadeFrom p b where
  program := rfl
  name := rfl
  parameters := rfl
  locals := by
    have hcount : b.2 + 1 - (b.1 + 1) = b.2 - b.1 := by omega
    rw [← hcount]
    exact sortBy_perm _ _
  sorted := LocalLabels.sorted_ofList _
  range := rfl

theorem last?_eq_some {p : Program} {blocks : List (Nat × Nat)} {s : Signature} {b : Nat × Nat}
    (h : last? p blocks s = some b) :
    ∃ before after, blocks = before ++ b :: after ∧ p.headerSignature b.1 = s ∧
      ∀ later ∈ after, p.headerSignature later.1 ≠ s := by
  obtain ⟨hb, after, before, hsplit, hlater⟩ := List.find?_eq_some_iff_append.mp h
  refine ⟨before.reverse, after.reverse, ?_, of_decide_eq_true hb, ?_⟩
  · rw [← List.reverse_reverse blocks, hsplit]
    simp
  · intro later hmem
    have hne := hlater later (List.mem_reverse.mp hmem)
    simpa using hne

theorem last?_eq_none_iff (p : Program) (blocks : List (Nat × Nat)) (s : Signature) :
    last? p blocks s = none ↔ ∀ b ∈ blocks, p.headerSignature b.1 ≠ s := by
  simp [last?]

/-! ## Blocks that repeat a signature -/

variable (engine : Engine) (p : Program)

/-- Whether one of the blocks lies before `b` and has its signature. -/
def repeats (blocks : List (Nat × Nat)) (b : Nat × Nat) : Bool :=
  blocks.any fun e => e.2 < b.1 && p.headerSignature e.1 = p.headerSignature b.1

theorem repeats_iff (blocks : List (Nat × Nat)) (b : Nat × Nat) :
    repeats p blocks b = true ↔
      ∃ e ∈ blocks, e.2 < b.1 ∧ p.headerSignature e.1 = p.headerSignature b.1 := by
  simp [repeats]

/-- Closed blocks follow each other, also when the scan stops before the end. -/
theorem closedBlocks_apart :
    (closedBlocks engine p p.lineNumbers).Pairwise (fun a b => a.2 < b.1) ∧
      ∀ b ∈ closedBlocks engine p p.lineNumbers, b.1 < b.2 := by
  apply pairwise_of_alternate
  cases h : verdict engine p p.lineNumbers p.lineCount with
  | none =>
    rw [← marks_eq_of_verdict engine p h]
    exact p.marks_pairwise
  | some e =>
    obtain ⟨n, hstop⟩ := (verdict_eq_some_iff engine p e).mp h
    have hmarks := p.marksBefore_pairwise n
    rw [marksBefore_of_stops engine p hstop] at hmarks
    exact (List.pairwise_append.mp hmarks).1

/-- Among blocks that follow each other, those before `b` are the ones listed in front of it. -/
theorem repeats_middle {before after : List (Nat × Nat)} {b : Nat × Nat}
    (hapart : (before ++ b :: after).Pairwise fun a b => a.2 < b.1)
    (hlt : ∀ a ∈ before ++ b :: after, a.1 < a.2) :
    repeats p (before ++ b :: after) b = true ↔
      p.headerSignature b.1 ∈ before.map fun e => p.headerSignature e.1 := by
  obtain ⟨-, hrest, hbefore⟩ := List.pairwise_append.mp hapart
  have hafter := (List.pairwise_cons.mp hrest).1
  rw [repeats_iff, List.mem_map]
  constructor
  · rintro ⟨e, he, hline, hsame⟩
    rcases List.mem_append.mp he with he | he
    · exact ⟨e, he, hsame⟩
    · have hself := hlt b (by simp)
      rcases List.mem_cons.mp he with rfl | he
      · omega
      · have := hafter e he
        have := hlt e (by simp [he])
        omega
  · rintro ⟨e, he, hsame⟩
    exact ⟨e, by simp [he], hbefore e he b (by simp), hsame⟩

end Block

namespace Scan

theorem redefinitions_eq_filter (p : Program) {before blocks : List (Nat × Nat)}
    (hapart : (before ++ blocks).Pairwise fun a b => a.2 < b.1)
    (hlt : ∀ a ∈ before ++ blocks, a.1 < a.2) :
    redefinitions p.name (before.map fun e => p.headerSignature e.1)
        (blocks.map fun b => (p.headerSignature b.1, b.2)) =
      (blocks.filter (Block.repeats p (before ++ blocks))).map fun b =>
        redefined p.name (p.headerSignature b.1) b.2 := by
  induction blocks generalizing before with
  | nil => rfl
  | cons b blocks ih =>
    -- the block joins those before it; as signatures seen, they may stand in another order
    have hassoc : before ++ [b] ++ blocks = before ++ b :: blocks := by simp
    have hrest := @ih (before ++ [b]) (hassoc ▸ hapart) (hassoc ▸ hlt)
    have hseen : ∀ s, s ∈ p.headerSignature b.1 :: before.map (fun e => p.headerSignature e.1) ↔
        s ∈ (before ++ [b]).map fun e => p.headerSignature e.1 := by
      intro s
      simp [or_comm]
    have hmiddle := Block.repeats_middle p hapart hlt
    rw [List.map_cons, redefinitions, redefinitions_congr p.name _ hseen, hrest, hassoc,
      List.filter_cons]
    by_cases h : Block.repeats p (before ++ b :: blocks) b = true
    · rw [if_pos (hmiddle.mp h), if_pos h]
      rfl
    · rw [if_neg (mt hmiddle.mpr h), if_neg h]
      rfl

/-- A scan warns about the closed blocks that repeat the signature of one before them. -/
theorem warnings_eq_filter (engine : Engine) (p : Program) :
    (ofProgram engine p).diagnostics =
      ((Block.closedBlocks engine p p.lineNumbers).filter
        (Block.repeats p (Block.closedBlocks engine p p.lineNumbers))).map fun b =>
          redefined p.name (p.headerSignature b.1) b.2 := by
  obtain ⟨hapart, hlt⟩ := Block.closedBlocks_apart engine p
  rw [ofProgram_warnings]
  exact @redefinitions_eq_filter p [] _ hapart hlt

section

variable {engine : Engine} {p : Program} {s : Scan} (h : (ofProgram engine p).result = .ok s)

include h

theorem headerFits_of_mem_blocks {b : Nat × Nat} (hb : b ∈ s.blocks) :
    HeaderFits engine (p.headerTokens b.1) := by
  have hgrammar := (Block.verdict_eq_none_iff_grammar engine p).mp
    ((result_eq_ok_iff engine p).mp ⟨s, h⟩)
  have hmark : (b.1, Side.opening) ∈ p.marks := by
    rw [marks_eq h]
    exact List.mem_flatMap.mpr ⟨b, hb, by simp⟩
  obtain ⟨n, hn, hside⟩ := List.mem_filterMap.mp hmark
  obtain ⟨side, hside, heq⟩ := Option.map_eq_some_iff.mp hside
  cases heq
  exact hgrammar.2 b.1 hn hside

theorem size_add_warnings :
    s.blocks.length = s.table.size + (ofProgram engine p).diagnostics.length := by
  have hlength := length_commitAll {} (Block.definitions p s.blocks)
  have hempty : ({} : MacroTable).size = 0 := rfl
  rw [hempty, Block.definitions, List.length_map] at hlength
  rw [table_eq h, ofProgram_diagnostics, ← blocks_of_ok h]
  rw [Block.definitions]
  omega

end

/-- **What a scan commits.** The blocks of a scan that succeeds are the pairs of directives in order.
A call finds the definition made from the last block with its signature, or nothing if there is no
such block. The scan reports one warning for each block with the signature of an earlier one, in
order, and nothing else, so there are as many blocks as definitions and warnings. -/
theorem commits_blocks (engine : Engine) (p : Program) (s : Scan)
    (h : (ofProgram engine p).result = .ok s) :
    (p.marks = alternate s.blocks ∧ ∀ b ∈ s.blocks, HeaderFits engine (p.headerTokens b.1)) ∧
    (∀ name arity d, s.table.lookup name arity = some d →
      ∃ before b after, s.blocks = before ++ b :: after ∧
        (p.headerName b.1 = name ∧ (p.headerParameters b.1).length = arity) ∧
        (∀ later ∈ after,
          ¬ (p.headerName later.1 = name ∧ (p.headerParameters later.1).length = arity)) ∧
        d.MadeFrom p b) ∧
    (∀ name arity, s.table.lookup name arity = none ↔
      ∀ b ∈ s.blocks, ¬ (p.headerName b.1 = name ∧ (p.headerParameters b.1).length = arity)) ∧
    (ofProgram engine p).diagnostics =
      (s.blocks.filter fun b => ∃ e ∈ s.blocks, e.2 < b.1 ∧
          p.headerSignature e.1 = p.headerSignature b.1).map
        (fun b =>
          { severity := .warning
            message := "Macro '" ++ (p.headerName b.1 ++ "/" ++
              toString (p.headerParameters b.1).length) ++ "' redefined"
            location := ⟨p.name, b.2.toUInt32, 1⟩
            notes := [] }) ∧
    s.blocks.length = s.table.size + (ofProgram engine p).diagnostics.length := by
  refine ⟨⟨marks_eq h, fun b hb => headerFits_of_mem_blocks h hb⟩, ?_, ?_, ?_, size_add_warnings h⟩
  · intro name arity d hd
    rw [lookup_eq h, Option.map_eq_some_iff] at hd
    obtain ⟨b, hb, rfl⟩ := hd
    obtain ⟨before, after, hsplit, hb, hlater⟩ := Block.last?_eq_some hb
    refine ⟨before, b, after, hsplit, (p.headerSignature_eq_iff ..).mp hb, ?_,
      Block.madeFrom_definitionAt p b⟩
    intro later hmem hsame
    exact hlater later hmem ((p.headerSignature_eq_iff ..).mpr hsame)
  · intro name arity
    rw [lookup_eq h, Option.map_eq_none_iff, Block.last?_eq_none_iff]
    simp only [Ne, Program.headerSignature_eq_iff]
  · rw [warnings_eq_filter, ← blocks_of_ok h]
    refine congrArg₂ List.map rfl (List.filter_congr fun b _ => ?_)
    rw [Bool.eq_iff_iff, Block.repeats_iff, decide_eq_true_iff]

/-- A macro that is defined again with as many parameters, and in between with none. -/
def redefinedSource : String :=
  ".macro m(%a, %b)\nl: .end_macro\n.macro m\n.end_macro\nk: .MACRO m %a %a\nz: b: nop\ne: .end_macro\n"

theorem commits_redefined :
    ∃ p s, Program.ofSource "m.asm" redefinedSource = .ok p ∧
      (ofProgram {} p).result = .ok s ∧ s.blocks = [(1, 2), (3, 4), (5, 7)] ∧
      (∃ d, s.table.lookup "m" 2 = some d ∧ d.MadeFrom p (5, 7)) ∧
      s.table.lookup "m" 1 = none ∧
      (ofProgram {} p).diagnostics =
        [⟨.warning, "Macro 'm/2' redefined", ⟨"m.asm", 7, 1⟩, []⟩] ∧ s.table.size = 2 := by
  have hcheck : scanPasses {} "m.asm" redefinedSource (fun p s =>
      decide ((s.blocks = [(1, 2), (3, 4), (5, 7)] ∧ p.name = "m.asm") ∧
        p.headerSignature 1 = ⟨"m", 2⟩ ∧ p.headerSignature 3 = ⟨"m", 0⟩ ∧
        p.headerSignature 5 = ⟨"m", 2⟩)) = true := by decide +kernel
  obtain ⟨p, s, hsource, hscan, hcheck⟩ := exists_of_scanPasses hcheck
  obtain ⟨⟨hblocks, hname⟩, h₁, h₃, h₅⟩ := of_decide_eq_true hcheck
  obtain ⟨-, hsome, hnone, hwarnings, hsize⟩ := commits_blocks {} p s hscan
  simp only [← Program.headerSignature_eq_iff] at hsome hnone
  have hreported : (ofProgram {} p).diagnostics =
      [⟨.warning, "Macro 'm/2' redefined", ⟨"m.asm", 7, 1⟩, []⟩] := by
    obtain ⟨hm, hcount⟩ := (p.headerSignature_eq_iff ..).mp h₅
    rw [hwarnings, hblocks, hname]
    simp [h₁, h₃, h₅, hm, hcount]
    decide +kernel
  refine ⟨p, s, hsource, hscan, hblocks, ?_, ?_, hreported, ?_⟩
  · cases hlookup : s.table.lookup "m" 2 with
    | none =>
      exact absurd h₅ ((hnone "m" 2).mp hlookup (5, 7) (by simp [hblocks]))
    | some d =>
      obtain ⟨before, b, after, hsplit, hb, hlater, hmade⟩ := hsome "m" 2 d hlookup
      -- the last block has this signature, so none behind it was passed over
      have hlast : (5, 7) = after.getLast?.getD b := by
        have := congrArg List.getLast? (hblocks.symm.trans hsplit)
        simpa [List.getLast?_cons] using this
      cases hafter : after.getLast? with
      | none =>
        rw [hafter] at hlast
        cases hlast
        exact ⟨d, rfl, hmade⟩
      | some last =>
        rw [hafter] at hlast
        cases hlast
        exact absurd h₅ (hlater (5, 7) (List.mem_of_getLast? hafter))
  · rw [hnone, hblocks]
    simp [h₁, h₃, h₅]
  · rw [hreported, hblocks] at hsize
    simpa using hsize.symm

end Scan

end MipsMacro
