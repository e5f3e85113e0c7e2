import Mathlib.Data.List.Basic
import Mathlib.Data.List.Find
import MipsMacro.Proofs.Call
import MipsMacro.Proofs.ScannedProgram

/-!
# What SPIM style is about

Whether parameters in SPIM style are accepted is asked for the texts of tokens only. Proved here:

* `isParameter_eq_of_register`: SPIM style makes no difference for a text unless it begins with a
  dollar sign and names no register;
* `Block.offence?_congr`: engines that agree about the tokens of a program take offence at the same
  places, so that they find the same blocks in it;
* `Invocation.expand_congr`, `Expansion.ofProgram_congr`: they also expand its macros and its lines to
  the same text with the same complaints;
* `expandSource_eq_of_registers`: so a source in which every dollar sign belongs to the name of a
  register is expanded alike in both styles.
-/

namespace MipsMacro

namespace Program

/-- The tokens of all lines. -/
def allTokens (p : Program) : List Token := p.lineNumbers.flatMap p.tokens

theorem line_ofRows_of_not_mem {name : String} {rows : List SourceLine} {n : Nat}
    (h : n ∉ (ofRows name rows).lineNumbers) : (ofRows name rows).line n = {} := by
  rw [mem_lineNumbers] at h
  simp only [ofRows, List.size_toArray] at h ⊢
  split
  · rfl
  · next hpos =>
    have hout : rows.toArray[n - 1]? = none := by
      rw [List.getElem?_toArray, List.getElem?_eq_none_iff]
      omega
    rw [hout, Option.getD_none]

/-- A program that was read from a source has no tokens besides those of its lines. -/
theorem mem_allTokens {name source : String} {p : Program} (h : ofSource name source = .ok p)
    {n : Nat} {t : Token} (ht : t ∈ p.tokens n) : t ∈ p.allTokens := by
  refine List.mem_flatMap.mpr ⟨n, ?_, ht⟩
  rw [ofSource, bind_eq_ok_iff] at h
  obtain ⟨rows, -, h⟩ := h
  cases h
  by_contra hline
  rw [tokens, line_ofRows_of_not_mem hline] at ht
  cases ht

end Program

/-! ## Engines that agree -/

theorem isParameter_eq_of_register {registers : RegisterTable} {text : String}
    (h : text.toList.head? = some '$' → registers.isRegister text = true) (spim spim' : Bool) :
    isParameter spim registers text = isParameter spim' registers text := by
  unfold isParameter
  by_cases hdollar : text.toList.head? = some '$'
  · simp [h hdollar]
  · have hbeq : (text.toList.head? == some '$') = false := beq_eq_false_iff_ne.mpr hdollar
    simp [hbeq]

/-- Two engines write alike and take the same tokens of a program for parameters. -/
structure Engine.Agree (e e' : Engine) (p : Program) : Prop where
  splice : e.options.splice = e'.options.splice
  labelSuffix : e.options.labelSuffix = e'.options.labelSuffix
  isParameter : ∀ n, ∀ t ∈ p.tokens n, e.isParameter t.text = e'.isParameter t.text

variable {e e' : Engine}

/-! ## Blocks -/

namespace Block

theorem headerFault?_congr {directive : Token} {rest : List Token}
    (h : ∀ t ∈ rest, e.isParameter t.text = e'.isParameter t.text) :
    headerFault? e directive rest = headerFault? e' directive rest := by
  cases rest with
  | nil => rfl
  | cons name rest =>
    have hfind : (rest.find? fun t => !isSeparator t && !e.isParameter t.text) =
        rest.find? fun t => !isSeparator t && !e'.isParameter t.text :=
      List.find?_congr fun t ht => by rw [h t (List.mem_cons_of_mem _ ht)]
    rw [headerFault?, headerFault?, hfind]

theorem offence?_congr {p : Program} (h : e.Agree e' p) : offence? e p = offence? e' p := by
  funext n
  unfold offence?
  cases hbody : p.unlabelled n with
  | nil => rfl
  | cons directive rest =>
    have hfault : headerFault? e directive rest = headerFault? e' directive rest := by
      refine headerFault?_congr fun t ht => h.isParameter n t ?_
      refine (behindLabels_suffix (p.tokens n)).subset ?_
      rw [← Program.unlabelled, hbody]
      exact List.mem_cons_of_mem _ ht
    simp only [hfault]

end Block

/-! ## Bodies -/

namespace Invocation

variable {i : Invocation}

theorem role_congr {text : String} (h : e.isParameter text = e'.isParameter text) :
    i.role e text = i.role e' text := by
  simp only [role, h]

theorem complaint?_congr {t : Token} (h : e.isParameter t.text = e'.isParameter t.text) :
    i.complaint? e t = i.complaint? e' t := by
  simp only [complaint?, role_congr h]

variable (h : e.Agree e' i.definition.program)

include h

theorem apply_eq_of_agree {n : Nat} {t : Token} (ht : t ∈ i.definition.program.tokens n)
    (line : List Char) : i.apply e line t = i.apply e' line t := by
  simp only [apply, substitute?, role_congr (h.isParameter n t ht), h.labelSuffix, h.splice]

theorem line_congr (n : Nat) : i.line e n = i.line e' n := by
  simp only [line]
  split
  · next text tokens _ _ htokens =>
    have hmem : ∀ t ∈ rightToLeft tokens, t ∈ i.definition.program.tokens n := by
      intro t ht
      rw [Program.tokens, htokens, Option.getD_some]
      exact (sortBy_perm _ tokens).mem_iff.mp ht
    have htext : (rightToLeft tokens).foldl (i.apply e) text.toList =
        (rightToLeft tokens).foldl (i.apply e') text.toList :=
      List.foldl_ext _ _ _ fun line t ht => apply_eq_of_agree h (hmem t ht) line
    have hcomplaints : (rightToLeft tokens).filterMap (i.complaint? e) =
        (rightToLeft tokens).filterMap (i.complaint? e') :=
      List.filterMap_congr fun t ht => complaint?_congr (h.isParameter n t (hmem t ht))
    rw [htext, hcomplaints]
  · rfl

theorem expand_congr : i.expand e = i.expand e' := by
  have hlines : ∀ n count, i.linesFrom e n count = i.linesFrom e' n count := by
    intro n count
    induction count generalizing n with
    | zero => rfl
    | succ count ih => simp only [linesFrom, line_congr h, ih]
  exact hlines ..

end Invocation

/-! ## Programs -/

namespace Expansion

variable {scan : Scan} {program : Program}
  (h : ∀ name arity d, scan.table.lookup name arity = some d → e.Agree e' d.program)

include h

/-- A line is replaced alike by both engines, as what it calls is a macro of the table. -/
theorem segment_congr (id : UInt64) (n : Nat) :
    segment e scan.table id (program.text n) (role scan program n) =
      segment e' scan.table id (program.text n) (role scan program n) := by
  have hspec := role_spec scan program n
  cases hrole : role scan program n with
  | header labels => rfl
  | hidden => rfl
  | unresolved call => rfl
  | call call d =>
    rw [hrole] at hspec
    have hbody : Invocation.expand e ⟨d, call.arguments, id⟩ =
        Invocation.expand e' ⟨d, call.arguments, id⟩ :=
      Invocation.expand_congr (h _ _ d hspec.2.2.2)
    simp only [segment, hbody]
  | plain => rfl

theorem ofLines_congr (id : UInt64) (lines : List Nat) :
    ofLines e scan program id lines = ofLines e' scan program id lines := by
  induction lines generalizing id with
  | nil => rfl
  | cons n ns ih => simp only [ofLines, segment_congr h, ih]

theorem ofProgram_congr (id : UInt64) :
    ofProgram e scan program id = ofProgram e' scan program id :=
  ofLines_congr h id program.lineNumbers

end Expansion

/-- Options under which engines agree about a program give the same result and the same complaints. -/
theorem expandSource_congr {options options' : Options} {name source : String}
    (hfirst : options.firstInvocation = options'.firstInvocation)
    (h : ∀ p, Program.ofSource name source = .ok p →
      Engine.Agree { options } { options := options' } p) :
    expandSource options name source = expandSource options' name source := by
  unfold expandSource
  cases hsource : Program.ofSource name source with
  | error e => rfl
  | ok p =>
    have hscan := Scan.ofProgram_congr (Block.offence?_congr (h p hsource))
    simp only [hscan]
    cases hresult : (Scan.ofProgram { options := options' } p).result with
    | error e => rfl
    | ok scan =>
      -- the macros in the table are those of the program itself
      have hexpansion : Expansion.ofProgram { options } scan p options.firstInvocation =
          Expansion.ofProgram { options := options' } scan p options.firstInvocation :=
        Expansion.ofProgram_congr
          (fun name arity d hd => (Scan.program_of_lookup hresult hd).symm ▸ h p hsource) _
      simp only [hexpansion, ← hfirst]

/-- **SPIM style is about SPIM parameters.** If every token of a source that begins with a dollar sign
names a register, then accepting parameters in SPIM style or not gives the same text or the same error
and the same complaints. -/
theorem expandSource_eq_of_registers (options : Options) (name source : String)
    (h : ∀ p, Program.ofSource name source = .ok p → ∀ t ∈ p.allTokens,
      t.text.toList.head? = some '$' → Mips.registers.isRegister t.text = true) :
    expandSource { options with acceptSpimParameters := true } name source =
      expandSource { options with acceptSpimParameters := false } name source := by
  refine expandSource_congr rfl fun p hp => ⟨rfl, rfl, fun n t ht => ?_⟩
  exact isParameter_eq_of_register (h p hp t (Program.mem_allTokens hp ht)) true false

/-- Registers by name and by number, and names that are none in a literal and a comment. -/
def registersSource : String :=
  ".macro m(%a)\nl: add $t0, %a, $031 # $x\nmul %c, $f2\n.end_macro\nm \"$x\"\n"

theorem expandSource_eq_of_registers_quoted :
    (∀ p, Program.ofSource "m.asm" registersSource = .ok p → ∀ t ∈ p.allTokens,
      t.text.toList.head? = some '$' → Mips.registers.isRegister t.text = true) ∧
    expandSource {} "m.asm" registersSource =
      expandSource { acceptSpimParameters := false } "m.asm" registersSource ∧
    (expandSource {} "m.asm" registersSource).result =
      .ok "l_M0: add $t0, \"$x\", $031 # $x\nmul %c, $f2\n" ∧
    (expandSource {} "m.asm" registersSource).diagnostics.length = 1 := by
  have hcheck : scanPasses {} "m.asm" registersSource (fun p _ => decide (∀ t ∈ p.allTokens,
      t.text.toList.head? = some '$' → Mips.registers.isRegister t.text = true)) = true := by
    decide +kernel
  obtain ⟨program, -, hsource, -, hcheck⟩ := exists_of_scanPasses hcheck
  have h : ∀ p, Program.ofSource "m.asm" registersSource = .ok p → ∀ t ∈ p.allTokens,
      t.text.toList.head? = some '$' → Mips.registers.isRegister t.text = true := by
    intro p hp
    cases hsource.symm.trans hp
    exact of_decide_eq_true hcheck
  refine ⟨h, expandSource_eq_of_registers {} "m.asm" registersSource h, ?_⟩
  decide +kernel

-- a name that is no register is a parameter in one style only
example : (expandSource {} "m.asm" ".macro m $x\n$x\n.end_macro\nm 1\n").result.toOption = some "1\n" ∧
    (expandSource { acceptSpimParameters := false } "m.asm"
      ".macro m $x\n$x\n.end_macro\nm 1\n").result.toOption = none := by decide +kernel

end MipsMacro
