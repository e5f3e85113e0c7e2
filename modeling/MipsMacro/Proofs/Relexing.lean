import MipsMacro.Proofs.Call
import MipsMacro.Proofs.Hygiene
import MipsMacro.Proofs.MacroTable
import MipsMacro.Proofs.NeutralText
import MipsMacro.Proofs.Substitution

/-!
# Expanded text can be read again

Arguments come from one line and stand in another, next to whatever is there. Proved here, for tracked
offsets and a suffix that opens neither a literal nor a comment:

* `Invocation.closes_of_mem_expand`: the lines that a macro gives leave nothing open if its arguments
  are neutral;
* `Expansion.closes_of_mem_step`: so no step of an expansion gives a line that does;
* `expandSource_reads_back`: so the whole output can be read as a program.
-/

namespace MipsMacro

open Text Quoting

theorem Lexer.isIdentChar_of_isDigit {c : Char} (h : c.isDigit = true) : isIdentChar c = true := by
  simp [isIdentChar, Char.isAlphanum, h]

theorem isInert_of_isDigit {c : Char} (h : c.isDigit = true) : isInert c = true :=
  Lexer.isInert_of_isIdentChar (Lexer.isIdentChar_of_isDigit h)

theorem Program.Lexed.lexedLine {p : Program} (h : p.Lexed) (n : Nat) :
    '\n' ∉ (p.text n).toList ∧ Nonempty (LexedLine (p.text n).toList (p.tokens n)) := by
  rcases h n with hline | ⟨text, tokens, hline, hnewline, hlexed⟩
  · have htext : p.text n = "" := by rw [Program.text, hline]; rfl
    have htokens : p.tokens n = [] := by rw [Program.tokens, hline]; rfl
    rw [htext, htokens]
    exact ⟨by simp, ⟨⟨[], [], rfl, rfl, trivial, by simp, by simp, Or.inl rfl⟩⟩⟩
  · rw [Program.text, Program.tokens, hline]
    exact ⟨hnewline, hlexed⟩

/-! ## Lines of a body -/

namespace Invocation

variable (engine : Engine) (i : Invocation)
  (hsuffix : ∀ c ∈ engine.options.labelSuffix.toList, isInert c = true)
  (harguments : ∀ argument ∈ i.arguments.toList, Neutral argument.toList)

include hsuffix in
theorem neutral_rename {label : String} (h : Neutral label.toList) :
    Neutral (rename engine.options.labelSuffix i.id label).toList := by
  rw [rename, String.toList_append, String.toList_append]
  exact (h.append (neutral_of_isInert hsuffix)).append
    (neutral_of_isInert fun c hc => isInert_of_isDigit (isDigit_of_mem_decimal hc))

include hsuffix harguments in
theorem neutral_replacement {t : Token} (h : Neutral t.text.toList) :
    Neutral (i.replacement engine t).toList := by
  rcases replacement_cases engine i t with heq | hmem | heq
  · rw [heq]
    exact h
  · exact harguments _ hmem
  · rw [heq]
    exact neutral_rename engine i hsuffix h

variable (htrack : engine.options.splice = .trackOffsets) (hlexed : i.definition.program.Lexed)

include hsuffix harguments htrack hlexed

theorem closes_line {n : Nat} {text : String} {diagnostics : List Diagnostic}
    (h : i.line engine n = .ok (text, diagnostics)) : Closes text.toList := by
  rcases hlexed n with hline | ⟨source, tokens, hline, hnewline, ⟨l⟩⟩
  · simp [line, hline] at h
  · cases hrange : i.definition.range.contains n with
    | false => simp [line, hrange] at h
    | true =>
      rw [line_of_layout engine i htrack hrange hline l.layout] at h
      cases h
      exact l.closes_replace hnewline fun t ht =>
        neutral_replacement engine i hsuffix harguments (l.neutral_token hnewline ht)

theorem closes_of_mem_linesFrom {n count : Nat} {lines : List String}
    (h : (i.linesFrom engine n count).result = .ok lines) {line : String} (hline : line ∈ lines) :
    Closes line.toList := by
  induction count generalizing n lines with
  | zero =>
    cases h
    cases hline
  | succ count ih =>
    rw [linesFrom] at h
    cases hfirst : i.line engine n with
    | error e => simp [hfirst] at h
    | ok first =>
      obtain ⟨text, diagnostics⟩ := first
      simp only [hfirst, map_eq_ok_iff] at h
      obtain ⟨rest, hrest, rfl⟩ := h
      rcases List.mem_cons.mp hline with rfl | hline
      · exact closes_line engine i hsuffix harguments htrack hlexed hfirst
      · exact ih hrest hline

theorem closes_of_mem_expand {lines : List String} (h : (i.expand engine).result = .ok lines)
    {line : String} (hline : line ∈ lines) : Closes line.toList :=
  closes_of_mem_linesFrom engine i hsuffix harguments htrack hlexed h hline

end Invocation

/-! ## Lines of an expansion -/

namespace Expansion

theorem closes_of_mem_labelLines {labels : List String}
    (h : ∀ label ∈ labels, Neutral label.toList) {line : String} (hline : line ∈ labelLines labels) :
    Closes line.toList := by
  obtain ⟨label, hlabel, rfl⟩ := List.mem_map.mp hline
  rw [String.toList_append]
  exact (h label hlabel).closes ⟨top, rfl, rfl⟩

variable {engine : Engine} {scan : Scan} {program : Program}
  (htrack : engine.options.splice = .trackOffsets)
  (hsuffix : ∀ c ∈ engine.options.labelSuffix.toList, isInert c = true)
  (hlexed : program.Lexed)
  (hscan : (Scan.ofProgram engine program).result = .ok scan)

include htrack hsuffix hlexed hscan

theorem closes_of_mem_step {s : Step} (hrole : s.role = role scan program s.line)
    {lines : List String} (h : (s.outcome engine scan program).result = .ok lines) {line : String}
    (hline : line ∈ lines) : Closes line.toList := by
  obtain ⟨hnewline, ⟨l⟩⟩ := hlexed.lexedLine s.line
  have htext : Closes (program.text s.line).toList := l.closes_text hnewline
  have hspec := role_spec scan program s.line
  rw [← hrole] at hspec
  unfold Step.outcome at h
  cases hcase : s.role with
  | header labels =>
    rw [hcase] at h hspec
    cases h
    refine closes_of_mem_labelLines (fun label hlabel => ?_) hline
    rw [hspec.2] at hlabel
    obtain ⟨t, ht, -, rfl⟩ := exists_of_mem_labels hlabel
    exact l.neutral_token hnewline ht
  | hidden =>
    rw [hcase] at h
    cases h
    cases hline
  | unresolved call =>
    rw [hcase] at h
    cases h
    rw [List.mem_singleton] at hline
    exact hline ▸ htext
  | call call d =>
    rw [hcase] at h hspec
    obtain ⟨-, hparse, -, hlookup⟩ := hspec
    obtain ⟨hlabels, harguments⟩ := Call.parse?_parts hparse
    have hprogram : d.program = program := Scan.program_of_lookup hscan hlookup
    simp only [segment, map_eq_ok_iff] at h
    obtain ⟨body, hbody, rfl⟩ := h
    rcases List.mem_append.mp hline with hline | hline
    · refine closes_of_mem_labelLines (fun label hlabel => ?_) hline
      obtain ⟨t, ht, rfl⟩ := hlabels label hlabel
      exact l.neutral_token hnewline ht
    · refine Invocation.closes_of_mem_expand engine ⟨d, call.arguments, s.id⟩ hsuffix ?_ htrack
        (hprogram ▸ hlexed) hbody hline
      intro argument hargument
      obtain ⟨group, hgroup, rfl⟩ := harguments argument hargument
      exact l.neutral_groupText hnewline hgroup
  | plain =>
    rw [hcase] at h
    cases h
    rw [List.mem_singleton] at hline
    exact hline ▸ htext

theorem closes_of_mem_ofLines {id : UInt64} {ns : List Nat} {lines : List String}
    (h : (ofLines engine scan program id ns).result = .ok lines) {line : String}
    (hline : line ∈ lines) : Closes line.toList := by
  rw [ofLines_eq_steps] at h
  obtain ⟨part, hpart, hline⟩ := exists_of_mem_together h hline
  rw [List.map_map] at hpart
  obtain ⟨s, hs, hresult⟩ := List.mem_map.mp hpart
  exact closes_of_mem_step htrack hsuffix hlexed hscan (role_of_mem_steps _ _ _ hs) hresult hline

omit htrack hsuffix hlexed hscan in
theorem neutral_unlines {lines : List String} (h : ∀ line ∈ lines, Closes line.toList) :
    Neutral (unlines lines).toList := by
  refine Neutral.join fun ended hended => ?_
  obtain ⟨line, hline, rfl⟩ := List.mem_map.mp hended
  rw [String.toList_append]
  exact (h line hline).newline

end Expansion

/-- **Expanded text can be read again.** If an expansion at tracked offsets succeeds and the suffix of
local labels holds no quote and no `#`, then no line of the output leaves a literal open. -/
theorem expandSource_reads_back (options : Options) (name source output : String)
    (htrack : options.splice = .trackOffsets)
    (hsuffix : ∀ c ∈ options.labelSuffix.toList, c ≠ '\x22' ∧ c ≠ '\x27' ∧ c ≠ '#')
    (h : (expandSource options name source).result = .ok output) (name' : String) :
    ∃ p, Program.ofSource name' output = .ok p := by
  have hinert : ∀ c ∈ options.labelSuffix.toList, isInert c = true := by
    intro c hc
    simp [isInert, hsuffix c hc]
  rw [Program.ofSource_ok_iff]
  unfold expandSource at h
  cases hprogram : Program.ofSource name source with
  | error e => simp [hprogram] at h
  | ok program =>
    simp only [hprogram] at h
    cases hscan : (Scan.ofProgram { options } program).result with
    | error e => simp [hscan] at h
    | ok scan =>
      simp only [hscan, Expansion.output, map_eq_ok_iff] at h
      obtain ⟨lines, hlines, rfl⟩ := h
      have hcloses : ∀ line ∈ lines, Closes line.toList := fun line hline =>
        Expansion.closes_of_mem_ofLines htrack hinert (Program.lexed_ofSource hprogram) hscan hlines
          hline
      exact ⟨top, Expansion.neutral_unlines hcloses, rfl⟩

/-- A macro with a label and an apostrophe in a comment, and a call with quotes in quotes. -/
def quotedSource : String :=
  ".macro say %s\nl: .asciiz %s # it's said\n.end_macro\nm: say \"' \\\"#\"\n"

def quotedOutput : String := "m:\nl_M0: .asciiz \"' \\\"#\" # it's said\n"

theorem expandSource_quoted_reads_back :
    (expandSource {} "say.asm" quotedSource).result = .ok quotedOutput ∧
      ∃ p, Program.ofSource "said.asm" quotedOutput = .ok p := by
  have hsome : (expandSource {} "say.asm" quotedSource).result.toOption = some quotedOutput := by
    decide +kernel
  have hok : (expandSource {} "say.asm" quotedSource).result = .ok quotedOutput := by
    cases hresult : (expandSource {} "say.asm" quotedSource).result with
    | error e =>
      rw [hresult] at hsome
      cases hsome
    | ok output =>
      rw [hresult] at hsome
      exact congrArg Except.ok (Option.some.inj hsome)
  have hsuffix : ∀ c ∈ ({} : Options).labelSuffix.toList, c ≠ '\x22' ∧ c ≠ '\x27' ∧ c ≠ '#' := by
    simp
  exact ⟨hok, expandSource_reads_back {} "say.asm" quotedSource quotedOutput rfl hsuffix hok
    "said.asm"⟩

end MipsMacro
