import MipsMacro.Proofs.Layout
import MipsMacro.Proofs.TokenRoles

/-!
# Parameters without an argument

A parameter in a body that the call gives no argument is complained about and stays as it is. Proved
here, for every definition and whatever tokens its lines have:

* `FromRight.eq_rightToLeft`: going through tokens from right to left, those at one offset in the order
  in which they are listed, can be done in one way only;
* `Invocation.complaint?_eq`: whether a token is complained about, and how, is settled by its text, the
  parameters and the number of arguments;
* `Invocation.line_complains`: so the complaints about a line are one for each such parameter, in this
  order, and neither the texts of the arguments nor the number of the call change them.
-/

namespace MipsMacro

/-! ## Order -/

/-- The tokens of a line from right to left, those at one offset in the order in which they are
listed. -/
structure FromRight (tokens ordered : List Token) : Prop where
  descending : ordered.Pairwise fun a b => b.offset ≤ a.offset
  stable : ∀ offset, ordered.filter (·.offset = offset) = tokens.filter (·.offset = offset)

namespace FromRight

theorem rightToLeft (tokens : List Token) : FromRight tokens (Invocation.rightToLeft tokens) := by
  refine ⟨Invocation.rightToLeft_pairwise tokens, fun offset => sortBy_filter _ ?_ tokens⟩
  intro a b ha hb
  simp only [decide_eq_true_eq] at ha hb
  simp [ha, hb]

theorem mem_iff_of_filter_eq {as bs : List Token}
    (h : ∀ offset, as.filter (·.offset = offset) = bs.filter (·.offset = offset)) (t : Token) :
    t ∈ as ↔ t ∈ bs := by
  have ht := congrArg (t ∈ ·) (h t.offset)
  simpa using ht

/-- Lists in descending order that agree at each offset are equal. -/
theorem eq_of_filter_eq {as bs : List Token} (has : as.Pairwise fun a b => b.offset ≤ a.offset)
    (hbs : bs.Pairwise fun a b => b.offset ≤ a.offset)
    (h : ∀ offset, as.filter (·.offset = offset) = bs.filter (·.offset = offset)) : as = bs := by
  have hmem := mem_iff_of_filter_eq h
  induction as generalizing bs with
  | nil =>
    have hnone : ∀ t, t ∉ bs := fun t ht => by simpa using (hmem t).mpr ht
    exact (List.eq_nil_iff_forall_not_mem.mpr hnone).symm
  | cons a as ih =>
    cases bs with
    | nil => simpa using (hmem a).mp (List.mem_cons_self ..)
    | cons b bs =>
      obtain ⟨ha, has'⟩ := List.pairwise_cons.mp has
      obtain ⟨hb, hbs'⟩ := List.pairwise_cons.mp hbs
      -- each of the two first tokens is in the other list, so they stand at one offset
      have hab : b.offset ≤ a.offset := by
        rcases List.mem_cons.mp ((hmem b).mpr (List.mem_cons_self ..)) with rfl | hmem
        · exact Nat.le_refl _
        · exact ha b hmem
      have hba : a.offset ≤ b.offset := by
        rcases List.mem_cons.mp ((hmem a).mp (List.mem_cons_self ..)) with rfl | hmem
        · exact Nat.le_refl _
        · exact hb a hmem
      have hfirst := h a.offset
      simp only [List.filter_cons, Nat.le_antisymm hab hba, decide_true, if_true,
        List.cons.injEq] at hfirst
      obtain ⟨rfl, -⟩ := hfirst
      have hrest : ∀ offset, as.filter (·.offset = offset) = bs.filter (·.offset = offset) := by
        intro offset
        have htail := h offset
        simp only [List.filter_cons] at htail
        split at htail
        · exact (List.cons.inj htail).2
        · exact htail
      rw [ih has' hbs' hrest (mem_iff_of_filter_eq hrest)]

theorem eq_rightToLeft {tokens ordered : List Token} (h : FromRight tokens ordered) :
    ordered = Invocation.rightToLeft tokens :=
  eq_of_filter_eq h.descending (rightToLeft tokens).descending fun offset =>
    (h.stable offset).trans ((rightToLeft tokens).stable offset).symm

end FromRight

/-! ## Complaints -/

namespace Definition

variable (d : Definition)

/-- The token is a parameter that a call with `count` arguments gives none. -/
def isUnbound (spim : Bool) (registers : RegisterTable) (count : Nat) (t : Token) : Bool :=
  isParameter spim registers t.text && !(d.bound count).contains t.text

/-- The number that a line of the block has in the macro's own file; other lines keep theirs. -/
def writtenOn (line : Nat) : Nat :=
  if d.range.first ≤ line ∧ line ≤ d.range.last then line - d.range.first + d.range.fileFirst
  else line

/-- The complaint about a parameter that a call with `count` arguments gives none. -/
def unboundError (count : Nat) (t : Token) : Diagnostic where
  severity := .error
  message :=
    if t.text ∈ d.parameters then "Missing argument for macro parameter '" ++ t.text ++ "'"
    else "Unknown macro parameter"
  location := ⟨d.program.name, (d.writtenOn t.line).toUInt32, t.column.toUInt32⟩
  notes :=
    if t.text ∈ d.parameters then
      ["macro '" ++ d.name ++ "' was called with " ++ Text.decimal count ++ " argument(s)"]
    else
      ["'" ++ t.text ++ "' is not a parameter of macro '" ++ d.name ++ "'"]

end Definition

namespace Invocation

theorem location_eq (i : Invocation) (t : Token) :
    i.location t = ⟨i.definition.program.name, (i.definition.writtenOn t.line).toUInt32,
      t.column.toUInt32⟩ := by
  have hline : (i.definition.range.fileLine? t.line).getD t.line = i.definition.writtenOn t.line := by
    simp only [LineRange.fileLine?, LineRange.contains, Definition.writtenOn, Bool.and_eq_true,
      Nat.ble_eq]
    split <;> rfl
  rw [location, hline]
  rfl

theorem complaint?_eq (engine : Engine) (i : Invocation) (t : Token) :
    i.complaint? engine t =
      if i.definition.isUnbound engine.options.acceptSpimParameters engine.registers
          i.arguments.arity t then
        some (i.definition.unboundError i.arguments.arity t)
      else none := by
  have hspec := role_spec engine i t.text
  have hunbound : i.definition.isUnbound engine.options.acceptSpimParameters engine.registers
      i.arguments.arity t = (engine.isParameter t.text &&
        !(i.definition.bound i.arguments.arity).contains t.text) := rfl
  rw [hunbound]
  unfold complaint?
  cases hrole : i.role engine t.text with
  | argument text =>
    rw [hrole] at hspec
    simp [hspec]
  | missing =>
    rw [hrole] at hspec
    simp [hspec, Definition.unboundError, location_eq, Diagnostic.error, Diagnostic.withNote]
  | unknown =>
    rw [hrole] at hspec
    have hbound : t.text ∉ i.definition.bound i.arguments.arity :=
      fun h => hspec.2 (List.mem_of_mem_take h)
    simp [hspec, hbound, Definition.unboundError, location_eq, Diagnostic.error,
      Diagnostic.withNote]
  | localLabel =>
    rw [hrole] at hspec
    simp [hspec]
  | plain =>
    rw [hrole] at hspec
    simp [hspec]

/-- **What is complained about on a line.** The complaints about a line of a body are reported behind
those that the report holds. There is one for each parameter that the call gives no argument, from
right to left and at one offset in the order of the tokens, at the place where the macro was written.
They are settled by the definition, the kinds of parameters that are accepted, the registers and the
number of arguments. -/
theorem line_complains (d : Definition) (n : Nat) (text : String) (tokens : List Token)
    (hrange : d.range.contains n = true) (hline : d.program.line n = ⟨some text, some tokens⟩)
    (spim : Bool) (registers : RegisterTable) (count : Nat) :
    ∃ ordered, FromRight tokens ordered ∧ (∀ other, FromRight tokens other → other = ordered) ∧
      ∀ (strategy : SpliceStrategy) (suffix : String) (first id : UInt64) (arguments : Arguments)
        (report : Report), arguments.arity = count →
        ∃ result added,
          line ⟨⟨spim, strategy, suffix, first⟩, registers⟩ ⟨d, arguments, id⟩ n =
            .ok (result, added) ∧
          (report.add added).diagnostics = report.diagnostics ++
            (ordered.filter (d.isUnbound spim registers count)).map (d.unboundError count) := by
  refine ⟨rightToLeft tokens, .rightToLeft tokens, fun other h => h.eq_rightToLeft, ?_⟩
  rintro strategy suffix first id arguments report rfl
  refine ⟨_, _, line_of_tokens _ ⟨d, arguments, id⟩ hrange hline, ?_⟩
  rw [Report.add, ← List.filterMap_eq_map, List.filterMap_filter]
  refine congrArg (report.diagnostics ++ ·) (List.filterMap_congr fun t _ => ?_)
  exact complaint?_eq _ ⟨d, arguments, id⟩ t

/-- Parameters without an argument, one of them at the offset of another, and the last on a line outside
of the block. -/
def unboundTokens : List Token :=
  [⟨.parameter, "%b", 12, 4, 3⟩, ⟨.parameter, "%c", 12, 7, 6⟩, ⟨.parameter, "%a", 12, 1, 0⟩,
   ⟨.register, "$x", 12, 5, 3⟩, ⟨.parameter, "%c", 40, 10, 9⟩]

/-- A macro that was moved from line 1 of its file to line 11. -/
def movedMacro : Definition where
  name := "m"
  program := ⟨"m.asm", 13, fun _ => ⟨some "%a %b %c %c", some unboundTokens⟩⟩
  parameters := ["%a", "%b", "%a"]
  locals := .ofList ["%c"]
  range := ⟨11, 13, 1, 3⟩

theorem line_complains_movedMacro :
    ∃ result added, line {} ⟨movedMacro, .ofCall "m" ["%b"], 7⟩ 12 = .ok (result, added) ∧
      added.map (fun e => (e.message, e.location.line, e.location.column)) =
        [("Unknown macro parameter", 40, 10), ("Unknown macro parameter", 2, 7),
          ("Missing argument for macro parameter '%b'", 2, 4), ("Unknown macro parameter", 2, 5)] := by
  obtain ⟨ordered, -, honly, hcomplains⟩ := line_complains movedMacro 12 "%a %b %c %c" unboundTokens
    rfl rfl true Mips.registers 1
  obtain ⟨result, added, hline, hadded⟩ := hcomplains .trackOffsets "_M" 0 7 (.ofCall "m" ["%b"]) {} rfl
  obtain rfl := honly _ (.rightToLeft unboundTokens)
  refine ⟨result, added, hline, ?_⟩
  have hadded' : added = _ := hadded
  rw [hadded']
  decide +kernel

end Invocation

end MipsMacro
