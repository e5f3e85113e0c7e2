import MipsMacro.Proofs.LineEnds
import MipsMacro.Proofs.LocalLabels
import MipsMacro.Proofs.MovedBlocks
import MipsMacro.Proofs.RenamedLines

/-!
# Labels of a body are defined by every expansion of it

The labels of a macro are collected from all lines of its block behind the header, but only the lines
between the directives are put in the place of a call. Proved here, for tracked offsets and a suffix
that names may have:

* `Scan.collected_of_ok`: where the labels of a macro come from;
* `Invocation.labels_lineText`: a line of the body keeps its leading labels under their new names;
* `Invocation.labels_lineText_of_parameters_nil`: and gets no others if the macro has no parameters;
* `expandSource_defines_labels`: so every expansion of a macro defines the labels that lead lines
  between its directives, and of the labels in front of the closing one it may define none
  (`expandSource_dangling`).
-/

namespace MipsMacro

open Text Quoting

/-! ## Lines that can be read again -/

/-- Read as a line of any program, `line` has `label` among its leading labels. -/
def DefinesLabel (line label : String) : Prop :=
  ∀ file n, ∃ tokens, tokenize file n line = .ok tokens ∧ label ∈ labelsOf tokens

theorem Quoting.Closes.exists_tokens {line : String} (h : Closes line.toList)
    (hnewline : '\n' ∉ line.toList) (file : String) (n : Nat) :
    ∃ tokens, tokenize file n line = .ok tokens := by
  obtain ⟨s, hs, hopen⟩ := h
  rw [read_eq_run _ hnewline] at hs
  rw [tokenize_ok_iff, Option.some.inj hs]
  exact hopen

/-! ## Words -/

theorem isParameter_of_isWord (engine : Engine) {text : String} (h : Lexer.IsWord text.toList) :
    engine.isParameter text = false := by
  unfold Engine.isParameter isParameter
  cases hchars : text.toList with
  | nil =>
    rw [hchars] at h
    cases h
  | cons c cs =>
    rw [hchars] at h
    have hdollar : c ≠ '$' := by
      rintro rfl
      exact absurd h.1 (by decide)
    have hpercent : c ≠ '%' := by
      rintro rfl
      exact absurd h.1 (by decide)
    simp [hdollar, hpercent]

/-- What a name gets behind it. -/
theorem Invocation.rename_toList (suffix label : String) (id : UInt64) :
    (rename suffix id label).toList = label.toList ++ (suffix.toList ++ (decimal id.toNat).toList) := by
  simp [rename]

theorem Invocation.isIdentChar_of_mem_rename {suffix : String} (id : UInt64)
    (hsuffix : ∀ c ∈ suffix.toList, Lexer.isIdentChar c = true) :
    ∀ c ∈ suffix.toList ++ (decimal id.toNat).toList, Lexer.isIdentChar c = true := by
  intro c hc
  rcases List.mem_append.mp hc with hc | hc
  · exact hsuffix c hc
  · exact Lexer.isIdentChar_of_isDigit (isDigit_of_mem_decimal hc)

/-! ## Labels of a macro -/

theorem Program.Reads.isWord_of_mem_leadingLabels {p : Program} {n : Nat} (h : p.Reads n)
    {label : String} (hlabel : label ∈ p.leadingLabels n) : Lexer.IsWord label.toList := by
  obtain ⟨t, ht, hkind, rfl⟩ := exists_of_mem_labels hlabel
  exact (fits_of_mem_tokens h.lexed ht).identifier_iff.mp hkind

/-- The labels of a macro are those that lead its lines, its header apart. They are words, and each of
them is found. -/
structure Definition.Collected (d : Definition) : Prop where
  mem_iff : ∀ label, label ∈ d.locals.toList ↔
    (∃ n ∈ d.range.body, label ∈ d.program.leadingLabels n) ∨
      label ∈ d.program.leadingLabels d.range.last
  isWord : ∀ label ∈ d.locals.toList, Lexer.IsWord label.toList
  contains_iff : ∀ label, d.locals.contains label = true ↔ label ∈ d.locals.toList

theorem Scan.collected_of_ok {engine : Engine} {name source : String} {p : Program} {s : Scan}
    (hsource : Program.ofSource name source = .ok p)
    (hscan : (Scan.ofProgram engine p).result = .ok s) {macroName : String} {arity : Nat}
    {d : Definition} (hd : s.table.lookup macroName arity = some d) : d.Collected := by
  obtain ⟨b, hb, rfl⟩ := exists_block_of_lookup hscan hd
  obtain ⟨hpos, hlt, hle⟩ := p.blocks_within (marks_eq hscan) hb
  have hmem : ∀ label, label ∈ (Block.definitionAt p b.1 b.2).locals.toList ↔
      (∃ n ∈ (Block.definitionAt p b.1 b.2).range.body, label ∈ p.leadingLabels n) ∨
        label ∈ p.leadingLabels b.2 := by
    intro label
    rw [← List.mem_flatMap, ← List.mem_append, ← Block.labels_draftAt p hlt]
    exact LocalLabels.mem_ofList _ label
  have hreads : ∀ n, b.1 < n → n ≤ b.2 → p.Reads n := by
    intro n hfirst hlast
    refine Program.reads_of_ofSource hsource ?_
    rw [p.mem_lineNumbers]
    omega
  refine ⟨hmem, ?_, LocalLabels.contains_ofList _⟩
  intro label hlabel
  rcases (hmem label).mp hlabel with ⟨n, hn, hlabel⟩ | hlabel
  · rw [LineRange.mem_body] at hn
    exact (hreads n hn.1 (Nat.le_of_lt hn.2)).isWord_of_mem_leadingLabels hlabel
  · exact (hreads b.2 hlt (Nat.le_refl _)).isWord_of_mem_leadingLabels hlabel

theorem Definition.Collected.contains_of_mem_leadingLabels {d : Definition} (h : d.Collected) {n : Nat}
    (hn : n ∈ d.range.body) {label : String} (hlabel : label ∈ d.program.leadingLabels n) :
    d.locals.contains label = true := by
  rw [h.contains_iff, h.mem_iff]
  exact Or.inl ⟨n, hn, hlabel⟩

theorem Definition.Collected.contains_colon {d : Definition} (h : d.Collected) :
    d.locals.contains ":" = false := by
  rw [Bool.eq_false_iff]
  intro hcolon
  have hword := h.isWord ":" ((h.contains_iff ":").mp hcolon)
  exact absurd hword.1 (by decide)

/-! ## Lines of a body -/

namespace Invocation

variable {engine : Engine} {i : Invocation}

theorem replacement_of_isWord {t : Token} (hword : Lexer.IsWord t.text.toList)
    (hlocal : i.definition.locals.contains t.text = true) :
    i.replacement engine t = rename engine.options.labelSuffix i.id t.text := by
  simp [replacement, isParameter_of_isWord engine hword, hlocal, rename]

theorem replacement_colon {t : Token} (htext : t.text = ":")
    (hlocal : i.definition.locals.contains ":" = false) : i.replacement engine t = ":" := by
  have hparameter : engine.isParameter ":" = false := by
    simp [Engine.isParameter, isParameter]
  simp [replacement, htext, hparameter, hlocal]

/-- A word as this invocation writes it if it is an identifier. -/
def lengthen (engine : Engine) (i : Invocation) (w : List Char) : List Char :=
  if i.definition.locals.contains (String.ofList w) then
    (rename engine.options.labelSuffix i.id (String.ofList w)).toList
  else w

theorem exists_lengthen
    (hsuffix : ∀ c ∈ engine.options.labelSuffix.toList, Lexer.isIdentChar c = true) (w : List Char) :
    ∃ more, i.lengthen engine w = w ++ more ∧ ∀ c ∈ more, Lexer.isIdentChar c = true := by
  unfold lengthen
  split
  · refine ⟨_, ?_, isIdentChar_of_mem_rename i.id hsuffix⟩
    rw [rename_toList, String.toList_ofList]
  · exact ⟨[], by simp, by simp⟩

variable (htrack : engine.options.splice = .trackOffsets)
  (hsuffix : ∀ c ∈ engine.options.labelSuffix.toList, Lexer.isIdentChar c = true)
  (hread : i.definition.Readable) (hcollected : i.definition.Collected) {n : Nat}
  (hn : n ∈ i.definition.range.body)

include htrack in
theorem lineText_toList (l : LexedLine (i.definition.program.text n).toList
      (i.definition.program.tokens n)) :
    (i.lineText engine n).toList =
      Span.render (fun t => (i.replacement engine t).toList) l.spans ++ l.comment := by
  rw [← l.replace_layout, ← foldl_apply engine i htrack l.layout]
  rfl

include htrack hsuffix hread hcollected hn

/-- The labels of a line of the body, renamed, lead the line that takes its place. -/
theorem labels_lineText {file : String} {m : Nat} {tokens : List Token}
    (h : tokenize file m (i.lineText engine n) = .ok tokens) :
    (i.definition.program.leadingLabels n).map (rename engine.options.labelSuffix i.id) <+:
      labelsOf tokens := by
  have hlexed := (hread.reads n hn).lexed
  obtain ⟨l⟩ := LexedLine.ofTokenize hlexed
  have hlabels : i.definition.program.leadingLabels n = (splitLabels (Span.tokens l.spans)).1 := by
    rw [l.tokens_eq, splitLabels_fst]
    rfl
  have hlocal : ∀ label ∈ (splitLabels (Span.tokens l.spans)).1,
      i.definition.locals.contains label = true := by
    intro label hlabel
    exact hcollected.contains_of_mem_leadingLabels hn (hlabels ▸ hlabel)
  rw [(tokenize_eq_ok_iff.mp h).2, lineText_toList htrack l, hlabels, ← splitLabels_fst]
  refine Lexer.labels_isPrefix l.blank hlocal ?_ ?_ l.comment m 1 0
  · intro t ht hkind htext
    rw [l.tokens_eq] at ht
    have hword := (fits_of_mem_tokens hlexed ht).identifier_iff.mp hkind
    rw [replacement_of_isWord hword htext, rename_toList]
    exact ⟨rfl, hword.append (isIdentChar_of_mem_rename i.id hsuffix)⟩
  · intro t ht hkind
    rw [l.tokens_eq] at ht
    have htext : t.text = ":" := String.toList_inj.mp ((fits_of_mem_tokens hlexed ht).colon hkind)
    rw [replacement_colon htext hcollected.contains_colon]
    rfl

omit htrack hsuffix hread hn in
/-- Without parameters nothing but identifiers is replaced. -/
theorem replacement_of_parameters_nil (hparameters : i.definition.parameters = []) {t : Token}
    (hfits : t.kind.Fits t.text.toList) :
    (i.replacement engine t).toList =
      if t.kind = .identifier then i.lengthen engine t.text.toList else t.text.toList := by
  by_cases hkind : t.kind = .identifier
  · have hparameter := isParameter_of_isWord engine (hfits.identifier_iff.mp hkind)
    by_cases hlocal : i.definition.locals.contains t.text = true
    · simp [replacement, lengthen, hkind, hparameter, hlocal, rename]
    · simp [replacement, lengthen, hkind, hparameter, hlocal]
  · have hlocal : ¬ i.definition.locals.contains t.text = true := by
      intro hlocal
      exact hkind (hfits.identifier_iff.mpr
        (hcollected.isWord _ ((hcollected.contains_iff _).mp hlocal)))
    simp [replacement, hparameters, hkind, hlocal]

/-- So the labels of a line are renamed, and it gets no others. -/
theorem labels_lineText_of_parameters_nil (hparameters : i.definition.parameters = [])
    {file : String} {m : Nat} {tokens : List Token}
    (h : tokenize file m (i.lineText engine n) = .ok tokens) :
    labelsOf tokens =
      (i.definition.program.leadingLabels n).map (rename engine.options.labelSuffix i.id) := by
  have hlexed := (hread.reads n hn).lexed
  have htext : (i.lineText engine n).toList =
      Lexer.covered ((Lexer.pieces (i.definition.program.text n).toList).1.map
        (Lexer.Piece.rename (i.lengthen engine))) := by
    rw [lineText, foldl_apply engine i htrack (Lexer.layout hlexed), Layout.replace,
      String.toList_ofList]
    refine Lexer.render_spans_rename ?_ n 1 0
    intro p hp kind hkind line column offset
    have hfits := Lexer.fits_of_mem_pieces hp hkind
    rw [replacement_of_parameters_nil hcollected hparameters (by simpa using hfits)]
    by_cases hidentifier : kind = .identifier <;> simp [Lexer.Piece.rename, hkind, hidentifier]
  rw [Lexer.labels_rename (exists_lengthen hsuffix) hlexed h htext]
  refine List.map_congr_left fun label hlabel => ?_
  simp [lengthen, hcollected.contains_of_mem_leadingLabels hn hlabel]

/-- So each of these labels is defined, if the line can be read. -/
theorem definesLabel_lineText (hlexed : i.definition.program.Lexed)
    (harguments : ∀ argument ∈ i.arguments.toList,
      Neutral argument.toList ∧ '\n' ∉ argument.toList)
    {label : String} (hlabel : label ∈ i.definition.program.leadingLabels n) :
    DefinesLabel (i.lineText engine n) (rename engine.options.labelSuffix i.id label) := by
  intro file m
  have hinert : ∀ c ∈ engine.options.labelSuffix.toList, isInert c = true :=
    fun c hc => Lexer.isInert_of_isIdentChar (hsuffix c hc)
  have hexpand : (i.expand engine).result =
      .ok (i.definition.range.body.map (i.lineText engine)) := by
    rw [expand_eq engine i hread]
  have hcloses : Closes (i.lineText engine n).toList :=
    closes_of_mem_expand engine i hinert (fun a ha => (harguments a ha).1) htrack hlexed hexpand
      (List.mem_map_of_mem hn)
  have hnewline : '\n' ∉ engine.options.labelSuffix.toList :=
    fun hmem => absurd (hsuffix '\n' hmem) (by decide)
  obtain ⟨tokens, htokens⟩ := hcloses.exists_tokens
    (newline_not_mem_lineText hnewline (fun a ha => (harguments a ha).2) hlexed n) file m
  have hleading := labels_lineText htrack hsuffix hread hcollected hn htokens
  exact ⟨tokens, htokens, hleading.subset (List.mem_map_of_mem hlabel)⟩

/-- Without parameters no other labels are defined. -/
theorem not_definesLabel_lineText (hparameters : i.definition.parameters = []) {label : String}
    (hlabel : label ∉ i.definition.program.leadingLabels n) :
    ¬ DefinesLabel (i.lineText engine n) (rename engine.options.labelSuffix i.id label) := by
  intro hdefines
  obtain ⟨tokens, htokens, hmem⟩ := hdefines "" 1
  rw [labels_lineText_of_parameters_nil htrack hsuffix hread hcollected hn hparameters htokens] at hmem
  obtain ⟨other, hother, heq⟩ := List.mem_map.mp hmem
  have hsame : other = label := by
    have hchars := congrArg String.toList heq
    rw [rename_toList, rename_toList] at hchars
    exact String.toList_inj.mp (List.append_cancel_right hchars)
  exact hlabel (hsame ▸ hother)

end Invocation

/-! ## Whole sources -/

theorem Call.plain_arguments {p : Program} (hlexed : p.Lexed) {n : Nat} {call : Call}
    (h : parse? p.name (p.text n) (p.tokens n) = some call) :
    ∀ argument ∈ call.arguments.toList, Neutral argument.toList ∧ '\n' ∉ argument.toList := by
  intro argument hargument
  obtain ⟨hnewline, ⟨l⟩⟩ := hlexed.lexedLine n
  obtain ⟨group, hgroup, rfl⟩ := (parse?_parts h).2 argument hargument
  exact ⟨l.neutral_groupText hnewline hgroup,
    newline_not_mem_arguments hlexed h _ hargument⟩

/-- **Labels of a body are defined.** An expansion at tracked offsets, with a suffix of characters that
names may have, has succeeded. Whatever it has renamed for a call is a label of the macro. If such a
label leads a line between the directives, then one of the lines for this call, read again, defines it
under its new name. The labels that lead no such line are those in front of the closing directive only,
and if the macro has no parameters, no line defines them. -/
theorem expandSource_defines_labels (options : Options) (name source output : String)
    (htrack : options.splice = .trackOffsets)
    (hsuffix : ∀ c ∈ options.labelSuffix.toList, Lexer.isIdentChar c = true)
    (h : (expandSource options name source).result = .ok output) :
    ∃ program scan, Program.ofSource name source = .ok program ∧
      (Scan.ofProgram { options } program).result = .ok scan ∧
      ∀ i ∈ Expansion.invocations { options } scan program options.firstInvocation
          program.lineNumbers,
        ∃ before body after, output = Expansion.unlines (before ++ body ++ after) ∧
          (i.expand { options }).result = .ok body ∧
          (∀ n ∈ i.definition.range.body, ∀ t ∈ program.tokens n,
            i.role { options } t.text = .localLabel → t.text ∈ i.definition.locals.toList) ∧
          ∀ label ∈ i.definition.locals.toList,
            ((∃ n ∈ i.definition.range.body, label ∈ program.leadingLabels n) →
              ∃ line ∈ body, DefinesLabel line (Invocation.rename options.labelSuffix i.id label)) ∧
            ((∀ n ∈ i.definition.range.body, label ∉ program.leadingLabels n) →
              label ∈ program.leadingLabels i.definition.range.last ∧
                (i.definition.parameters = [] →
                  ∀ line ∈ body, ¬ DefinesLabel line (Invocation.rename options.labelSuffix i.id label))) := by
  rcases expandSource_cases options name source with
    ⟨e, -, hfail⟩ | ⟨program, e, -, -, hfail⟩ | ⟨program, scan, hsource, hscan⟩
  · rw [hfail] at h
    cases h
  · rw [hfail] at h
    cases h
  · simp only [expandSource, hsource, hscan] at h
    obtain ⟨lines, hlines, rfl⟩ := map_eq_ok_iff.mp h
    refine ⟨program, scan, hsource, hscan, fun i hi => ?_⟩
    obtain ⟨⟨n, -, call, hresolved, hcall⟩, hbody⟩ :=
      Expansion.uses_of_mem_invocations { options } scan program hi
    obtain ⟨before, body, after, hexpand, rfl⟩ := hbody lines hlines
    have hrole := Expansion.role_spec scan program n
    rw [Expansion.role_of_resolved? scan program hresolved] at hrole
    obtain ⟨-, hparse, -, hlookup⟩ := hrole
    have hread := Scan.readable_of_ok hsource hscan _ _ _ hlookup
    have hcollected := Scan.collected_of_ok hsource hscan hlookup
    have hlexed := Program.lexed_ofSource hsource
    have harguments := Call.plain_arguments hlexed hparse
    rw [← hcall] at harguments
    obtain rfl : i.definition.program = program := Scan.program_of_lookup hscan hlookup
    refine ⟨before, body, after, rfl, hexpand, ?_⟩
    rw [Invocation.expand_eq { options } i hread] at hexpand
    cases hexpand
    constructor
    · intro n _ t _ hrole
      exact (hcollected.contains_iff t.text).mp (Invocation.contains_of_role hrole)
    · intro label hlabel
      constructor
      · rintro ⟨n, hn, hleads⟩
        exact ⟨_, List.mem_map_of_mem hn, Invocation.definesLabel_lineText htrack hsuffix hread
          hcollected hn hlexed harguments hleads⟩
      · intro hbody
        constructor
        · rcases (hcollected.mem_iff label).mp hlabel with ⟨n, hn, hleads⟩ | hlast
          · exact absurd hleads (hbody n hn)
          · exact hlast
        · intro hparameters line hline
          obtain ⟨n, hn, rfl⟩ := List.mem_map.mp hline
          exact Invocation.not_definesLabel_lineText htrack hsuffix hread hcollected hn hparameters
            (hbody n hn)

/-- A macro with two labels on one line, called with the name of one of them. -/
def labelledSource : String := ".macro m %a\n l :k: b %a, l # l\n.end_macro\nx: m k\n"

theorem expandSource_defines_labelled :
    (expandSource {} "m.asm" labelledSource).result =
        .ok "x:\n l_M0 :k_M0: b k, l_M0 # l\n" ∧
      DefinesLabel " l_M0 :k_M0: b k, l_M0 # l" "l_M0" ∧
      DefinesLabel " l_M0 :k_M0: b k, l_M0 # l" "k_M0" := by
  have hok : (expandSource {} "m.asm" labelledSource).result =
      .ok "x:\n l_M0 :k_M0: b k, l_M0 # l\n" := by
    rw [← toOption_eq_some_iff]
    decide +kernel
  have hsuffix : ∀ c ∈ ({} : Options).labelSuffix.toList, Lexer.isIdentChar c = true :=
    List.all_eq_true.mp (by decide +kernel)
  obtain ⟨p, s, hsource, hscan, h⟩ :=
    expandSource_defines_labels {} "m.asm" labelledSource _ rfl hsuffix hok
  have hcheck : scanPasses {} "m.asm" labelledSource (fun p s =>
      decide ((Expansion.invocations {} s p 0 p.lineNumbers).map (fun i =>
          (i.id, i.definition.locals.toList, (i.expand {}).result.toOption,
            i.definition.range.body.map p.leadingLabels)) =
        [(0, ["k", "l"], some [" l_M0 :k_M0: b k, l_M0 # l"], [["l", "k"]])])) = true := by
    decide +kernel
  simp only [scanPasses, hsource, hscan, decide_eq_true_eq] at hcheck
  obtain ⟨i, hi, hfacts⟩ := List.map_eq_singleton_iff.mp hcheck
  simp only [Prod.mk.injEq, toOption_eq_some_iff] at hfacts
  obtain ⟨hid, hlocals, hexpand, hleading⟩ := hfacts
  obtain ⟨n, hn, hleads⟩ := List.map_eq_singleton_iff.mp hleading
  obtain ⟨before, body, after, -, hbody, -, hlabels⟩ := h i (by simp [hi])
  obtain rfl : body = [" l_M0 :k_M0: b k, l_M0 # l"] := Except.ok.inj (hbody.symm.trans hexpand)
  simp only [hlocals, hid, hn, List.mem_singleton, exists_eq_left, hleads] at hlabels
  exact ⟨hok, (hlabels "l" (by simp)).1 (by simp), (hlabels "k" (by simp)).1 (by simp)⟩

/-- A macro with a label in front of its closing directive. -/
def danglingSource : String := ".macro m\nb end\nend: .end_macro\nm\n"

/-- **A label that dangles.** The label in front of the closing directive is renamed where the body
refers to it, but the line that declares it is not part of the body. -/
theorem expandSource_dangling :
    (expandSource {} "main.asm" danglingSource).result = .ok "b end_M0\n" ∧
      ∃ p s i, Program.ofSource "main.asm" danglingSource = .ok p ∧
        (Scan.ofProgram {} p).result = .ok s ∧
        i ∈ Expansion.invocations {} s p 0 p.lineNumbers ∧ "end" ∈ i.definition.locals.toList ∧
        (i.expand {}).result = .ok ["b end_M0"] ∧
        ¬ DefinesLabel "b end_M0" (Invocation.rename "_M" i.id "end") := by
  have hok : (expandSource {} "main.asm" danglingSource).result = .ok "b end_M0\n" := by
    rw [← toOption_eq_some_iff]
    decide +kernel
  have hcheck : scanPasses {} "main.asm" danglingSource (fun p s =>
      decide ((Expansion.invocations {} s p 0 p.lineNumbers).map (fun i =>
          (i.definition.locals.toList, (i.expand {}).result.toOption)) =
        [(["end"], some ["b end_M0"])])) = true := by decide +kernel
  obtain ⟨p, s, hsource, hscan, hcheck⟩ := exists_of_scanPasses hcheck
  obtain ⟨i, hi, hfacts⟩ := List.map_eq_singleton_iff.mp (of_decide_eq_true hcheck)
  simp only [Prod.mk.injEq, toOption_eq_some_iff] at hfacts
  refine ⟨hok, p, s, i, hsource, hscan, by simp [hi], by simp [hfacts.1], hfacts.2, ?_⟩
  -- the one line that is emitted has no label in front of it
  intro hdefines
  obtain ⟨tokens, htokens, hlabel⟩ := hdefines "" 1
  have hnone : (tokenize "" 1 "b end_M0").toOption.map labelsOf = some [] := by
    decide +kernel
  rw [htokens] at hnone
  simp only [Except.toOption, Option.map_some, Option.some.injEq] at hnone
  rw [hnone] at hlabel
  cases hlabel

end MipsMacro
