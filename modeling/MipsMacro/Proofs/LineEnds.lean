import MipsMacro.Proofs.Relexing
import MipsMacro.Proofs.ScannedProgram
import MipsMacro.Proofs.Splicing

/-!
# Line ends

What a line is replaced by is put together from texts of tokens, arguments, the suffix and numbers.
Proved here, for both ways of splicing and a suffix without line ends:

* `Invocation.newline_not_mem_lineText`: splicing adds no characters but those of the substitutes, so no
  line of a body is broken in two;
* `Expansion.newline_not_mem_lines`: nor is any other line of an expansion;
* `Expansion.count_newline_unlines`: and a text that is made of such lines has one line end for each.
-/

namespace MipsMacro

open Text

/-! ## Calls -/

/-- The text of a group of tokens has no character that its line does not have. -/
theorem LexedLine.mem_of_mem_groupText {text : List Char} {tokens : List Token}
    (l : LexedLine text tokens) {group : List Token} (h : group ⊆ tokens) {c : Char}
    (hc : c ∈ (Call.groupText text group).toList) : c ∈ text := by
  unfold Call.groupText at hc
  split at hc
  · split at hc
    · next part hslice =>
      rw [String.toList_ofList] at hc
      obtain ⟨pre, post, htext, -⟩ := eq_append_of_slice? hslice
      rw [htext]
      simp [hc]
    · rw [String.toList_join] at hc
      obtain ⟨s, hs, hc⟩ := List.mem_flatMap.mp hc
      obtain ⟨t, ht, rfl⟩ := List.mem_map.mp hs
      exact l.mem_of_mem_token (h ht) hc
  · cases hc

theorem Program.Lexed.newline_not_mem_token {p : Program} (h : p.Lexed) {n : Nat} {t : Token}
    (ht : t ∈ p.tokens n) : '\n' ∉ t.text.toList := by
  obtain ⟨hnewline, ⟨l⟩⟩ := h.lexedLine n
  intro hmem
  exact hnewline (l.mem_of_mem_token ht hmem)

theorem Call.newline_not_mem_arguments {p : Program} (hlexed : p.Lexed) {n : Nat} {call : Call}
    (h : parse? p.name (p.text n) (p.tokens n) = some call) :
    ∀ argument ∈ call.arguments.toList, '\n' ∉ argument.toList := by
  intro argument hargument hmem
  obtain ⟨hnewline, ⟨l⟩⟩ := hlexed.lexedLine n
  obtain ⟨group, hgroup, rfl⟩ := (parse?_parts h).2 argument hargument
  exact hnewline (l.mem_of_mem_groupText hgroup hmem)

/-! ## Lines of a body -/

namespace Invocation

variable {engine : Engine} {i : Invocation}
  (hsuffix : '\n' ∉ engine.options.labelSuffix.toList)
  (harguments : ∀ argument ∈ i.arguments.toList, '\n' ∉ argument.toList)

include hsuffix harguments

theorem newline_not_mem_replacement {t : Token} (ht : '\n' ∉ t.text.toList) :
    '\n' ∉ (i.replacement engine t).toList := by
  rcases replacement_cases engine i t with heq | hmem | heq
  · rw [heq]
    exact ht
  · exact harguments _ hmem
  · rw [heq, rename, String.toList_append, String.toList_append]
    intro hmem
    rcases List.mem_append.mp hmem with hmem | hdigit
    · rcases List.mem_append.mp hmem with hmem | hmem
      · exact ht hmem
      · exact hsuffix hmem
    · exact absurd (isDigit_of_mem_decimal hdigit) (by decide)

theorem newline_not_mem_apply {t : Token} (ht : '\n' ∉ t.text.toList) {line : List Char}
    (hline : '\n' ∉ line) : '\n' ∉ i.apply engine line t := by
  have hreplacement := newline_not_mem_replacement hsuffix harguments ht
  rw [← substitute?_getD] at hreplacement
  unfold apply
  cases hsubstitute : i.substitute? engine t with
  | none => exact hline
  | some text =>
    rw [hsubstitute] at hreplacement
    intro hmem
    rcases SpliceStrategy.mem_of_mem_splice hmem with hmem | hmem
    · exact hreplacement hmem
    · exact hline hmem

theorem newline_not_mem_foldl {tokens : List Token} (htokens : ∀ t ∈ tokens, '\n' ∉ t.text.toList)
    {line : List Char} (hline : '\n' ∉ line) : '\n' ∉ tokens.foldl (i.apply engine) line := by
  induction tokens generalizing line with
  | nil => exact hline
  | cons t tokens ih =>
    rw [List.forall_mem_cons] at htokens
    exact ih htokens.2 (newline_not_mem_apply hsuffix harguments htokens.1 hline)

theorem newline_not_mem_lineText (hlexed : i.definition.program.Lexed) (n : Nat) :
    '\n' ∉ (i.lineText engine n).toList := by
  rw [lineText, String.toList_ofList]
  apply newline_not_mem_foldl hsuffix harguments
  · intro t ht
    exact hlexed.newline_not_mem_token ((sortBy_perm _ _).mem_iff.mp ht)
  · exact (hlexed.lexedLine n).1

end Invocation

/-! ## Lines of an expansion -/

namespace Expansion

theorem newline_not_mem_labelLines {labels : List String}
    (h : ∀ label ∈ labels, '\n' ∉ label.toList) {line : String} (hline : line ∈ labelLines labels) :
    '\n' ∉ line.toList := by
  obtain ⟨label, hlabel, rfl⟩ := List.mem_map.mp hline
  rw [String.toList_append]
  simpa using h label hlabel

theorem newline_not_mem_lines {engine : Engine} {scan : Scan} {program : Program}
    (hsuffix : '\n' ∉ engine.options.labelSuffix.toList) (hlexed : program.Lexed)
    (hscan : (Scan.ofProgram engine program).result = .ok scan) {n : Nat} {id : UInt64}
    {line : String} (hline : line ∈ (role scan program n).lines engine id (program.text n)) :
    '\n' ∉ line.toList := by
  have htext : '\n' ∉ (program.text n).toList := (hlexed.lexedLine n).1
  have hspec := role_spec scan program n
  cases hrole : role scan program n with
  | header labels =>
    rw [hrole] at hline hspec
    refine newline_not_mem_labelLines ?_ hline
    rw [hspec.2]
    intro label hlabel
    obtain ⟨t, ht, -, rfl⟩ := exists_of_mem_labels hlabel
    exact hlexed.newline_not_mem_token ht
  | hidden =>
    rw [hrole] at hline
    cases hline
  | unresolved call =>
    rw [hrole] at hline
    rw [List.mem_singleton.mp hline]
    exact htext
  | call call d =>
    rw [hrole] at hline hspec
    obtain ⟨-, hparse, -, hlookup⟩ := hspec
    obtain rfl : d.program = program := Scan.program_of_lookup hscan hlookup
    rcases List.mem_append.mp hline with hline | hline
    · refine newline_not_mem_labelLines ?_ hline
      intro label hlabel
      obtain ⟨t, ht, rfl⟩ := (Call.parse?_parts hparse).1 label hlabel
      exact hlexed.newline_not_mem_token ht
    · obtain ⟨m, -, rfl⟩ := List.mem_map.mp hline
      exact Invocation.newline_not_mem_lineText hsuffix
        (Call.newline_not_mem_arguments hlexed hparse) hlexed m
  | plain =>
    rw [hrole] at hline
    rw [List.mem_singleton.mp hline]
    exact htext

theorem count_newline_unlines {lines : List String} (h : ∀ line ∈ lines, '\n' ∉ line.toList) :
    (unlines lines).toList.count '\n' = lines.length := by
  induction lines with
  | nil => rfl
  | cons line lines ih =>
    rw [List.forall_mem_cons] at h
    have hcons : unlines (line :: lines) = line ++ "\n" ++ unlines lines := by
      simp [unlines]
    rw [hcons, String.toList_append, String.toList_append, List.count_append, List.count_append,
      List.count_eq_zero_of_not_mem h.1, ih h.2, List.length_cons]
    have hend : "\n".toList.count '\n' = 1 := rfl
    omega

end Expansion

end MipsMacro
