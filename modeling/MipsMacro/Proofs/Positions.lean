import MipsMacro.Proofs.Commits
import MipsMacro.Proofs.Complaints
import MipsMacro.Proofs.Hygiene
import MipsMacro.Proofs.LineByLine

/-!
# Diagnostics point at what they complain about

Columns count characters, and a macro may have been called far from where it was written. Proved here,
for sources whose lines and columns fit 32 bits:

* `Program.pointsAt_token`: a place made from a token of a program points at its text in the source;
* `Diagnostic.located_unknown`, `Diagnostic.located_mismatch`, `Diagnostic.located_redefined`: each
  kind of complaint points at the parameter, at the name of the call and at the closing directive;
* `expandSource_located`: so does everything that an expansion reports.
-/

namespace MipsMacro

open Text

/-! ## Places -/

/-- The text stands in the source at this place. -/
def Location.PointsAt (l : Location) (source text : String) : Prop :=
  ∃ line, (Text.lines source.toList)[l.line.toNat - 1]? = some line ∧
    text.toList <+: line.drop (l.column.toNat - 1)

theorem Location.toNat_line {line : Nat} (h : line < 2 ^ 32) (file : String) (column : Nat) :
    (ofNat file line column).line.toNat = line :=
  UInt32.toNat_ofNat_of_lt' h

theorem Location.toNat_column {column : Nat} (h : column < 2 ^ 32) (file : String) (line : Nat) :
    (ofNat file line column).column.toNat = column :=
  UInt32.toNat_ofNat_of_lt' h

/-- Lines and columns of the source can be counted with 32 bits. -/
structure Fits32 (source : String) : Prop where
  lines : (Text.lines source.toList).length < 2 ^ 32
  columns : ∀ line ∈ Text.lines source.toList, line.length < 2 ^ 32

namespace Program

variable {name source : String} {p : Program} (hsource : ofSource name source = .ok p)

include hsource

theorem getElem?_lines {n : Nat} (hn : n ∈ p.lineNumbers) :
    (Text.lines source.toList)[n - 1]? = some (p.text n).toList := by
  have htexts := (ofSource_eq_ok hsource).2
  rw [mem_lineNumbers] at hn
  have hline := congrArg (fun texts => texts[n - 1]?.map String.toList) htexts
  have hnumber : 1 + (n - 1) = n := by omega
  have hlt : n - 1 < p.lineCount := by omega
  simpa [lineNumbers, hlt, hnumber, Option.map_map, Function.comp_def] using hline.symm

theorem lt_of_mem_lineNumbers (hfits : Fits32 source) {n : Nat} (hn : n ∈ p.lineNumbers) :
    n < 2 ^ 32 := by
  have hlength := congrArg List.length (ofSource_eq_ok hsource).2
  simp only [lineNumbers, List.length_map, List.length_range'] at hlength
  have := hfits.lines
  rw [mem_lineNumbers] at hn
  omega

/-- A place made from a token of line `n` points at the token. -/
theorem pointsAt_token (hfits : Fits32 source) {n : Nat} (hn : n ∈ p.lineNumbers) {t : Token}
    (ht : t ∈ p.tokens n) (file : String) :
    t.line = n ∧ (Location.ofNat file n t.column).line.toNat = n ∧
      1 ≤ (Location.ofNat file n t.column).column.toNat ∧
      (Location.ofNat file n t.column).PointsAt source t.text := by
  obtain ⟨hnone, htokens⟩ := tokenize_eq_ok_iff.mp (reads_of_ofSource hsource hn).lexed
  rw [htokens] at ht
  obtain ⟨hline, hne, pre, post, hcut, hcolumn, -⟩ :=
    Lexer.stands_of_mem_place (fun _ => Lexer.ne_nil_of_mem_pieces) ht
  rw [Lexer.pieces_flatten hnone] at hcut
  have htext := getElem?_lines hsource hn
  have hlength := hfits.columns _ (List.mem_of_getElem? htext)
  have hpos := List.length_pos_iff.mpr hne
  -- the token has a character, so its column is not behind the end of the line
  have hlt : t.column < 2 ^ 32 := by
    rw [hcut] at hlength
    simp only [List.length_append] at hlength
    omega
  have hnumber := Location.toNat_line (lt_of_mem_lineNumbers hsource hfits hn) file t.column
  have hcolumn32 := Location.toNat_column hlt file n
  refine ⟨hline, hnumber, by omega, (p.text n).toList, ?_, ?_⟩
  · rw [hnumber]
    exact htext
  · have hdrop : t.column - 1 = pre.length := by omega
    rw [hcolumn32, hdrop, hcut, List.append_assoc, List.drop_left]
    exact List.prefix_append ..

end Program

/-! ## Messages -/

theorem Signature.render_injective {s s' : Signature} (h : s.render = s'.render) : s = s' := by
  obtain ⟨name, arity⟩ := s
  obtain ⟨name', arity'⟩ := s'
  obtain ⟨rfl, rfl⟩ := (append_decimal_inj ⟨'/', by decide, by decide⟩ name name' arity arity').mp h
  rfl

/-- A message about a call names the call and counts its arguments in one way only. -/
theorem Expansion.mismatch_message_inj {a b : String} {m n : Nat}
    (h : "No macro '" ++ a ++ "' takes " ++ decimal m ++ " argument(s)" =
      "No macro '" ++ b ++ "' takes " ++ decimal n ++ " argument(s)") : a = b ∧ m = n := by
  have hseparator : ∃ c ∈ "' takes ".toList, c.isDigit = false := ⟨'t', by decide, by decide⟩
  obtain ⟨hname, hcount⟩ := (append_decimal_inj hseparator _ _ m n).mp ((String.append_left_inj _).mp h)
  exact ⟨(String.append_right_inj _).mp hname, hcount⟩

theorem Scan.redefined_message_inj {s s' : Signature}
    (h : "Macro '" ++ s.render ++ "' redefined" = "Macro '" ++ s'.render ++ "' redefined") :
    s = s' :=
  Signature.render_injective ((String.append_right_inj _).mp ((String.append_left_inj _).mp h))

/-! ## Diagnostics -/

/-- Where a diagnostic about the program points, and what stands there in the source. -/
structure Diagnostic.Located (engine : Engine) (name source : String) (program : Program)
    (d : Diagnostic) : Prop where
  file : d.location.file = name
  line : d.location.line.toNat ∈ program.lineNumbers
  column : 1 ≤ d.location.column.toNat
  message : d.message = "Unknown macro parameter" ∨
    (∃ callee k, d.message = "No macro '" ++ callee ++ "' takes " ++ decimal k ++ " argument(s)") ∨
    ∃ s : Signature, d.message = "Macro '" ++ s.render ++ "' redefined"
  /-- A parameter that a macro does not have, inside the block of a macro that is called. -/
  unknown : d.message = "Unknown macro parameter" →
    ∃ scan b n call parameter, (Scan.ofProgram engine program).result = .ok scan ∧
      b ∈ scan.blocks ∧ n ∈ program.lineNumbers ∧
      Expansion.resolved? scan program n = some (call, Block.definitionAt program b.1 b.2) ∧
      (b.1 < d.location.line.toNat ∧ d.location.line.toNat < b.2) ∧
      d.notes = ["'" ++ parameter ++ "' is not a parameter of macro '" ++ call.name ++ "'"] ∧
      d.location.PointsAt source parameter
  /-- The name of a call, outside of all blocks. -/
  mismatch : ∀ callee k,
    d.message = "No macro '" ++ callee ++ "' takes " ++ decimal k ++ " argument(s)" →
    ∃ scan, (Scan.ofProgram engine program).result = .ok scan ∧
      (∀ b ∈ scan.blocks, d.location.line.toNat < b.1 ∨ b.2 < d.location.line.toNat) ∧
      d.location.PointsAt source callee
  /-- The line that closes a block, when a block with its signature was closed before it. -/
  redefined : ∀ s : Signature, d.message = "Macro '" ++ s.render ++ "' redefined" →
    d.location.column = 1 ∧
      ∃ b e, Block.closedAt program d.location.line.toNat = some b ∧
        program.headerSignature b.1 = s ∧
        Block.closedAt program e.2 = some e ∧ e.2 < b.1 ∧ program.headerSignature e.1 = s

theorem Block.closedAt_of_mem_closedBlocks {engine : Engine} {p : Program} {b : Nat × Nat}
    (h : b ∈ closedBlocks engine p p.lineNumbers) :
    b.2 ∈ p.lineNumbers ∧ closedAt p b.2 = some b := by
  obtain ⟨n, hn, hclosed⟩ := List.mem_filterMap.mp h
  have hline : n ∈ p.lineNumbers := List.takeWhile_subset _ hn
  have hlast : b.2 = n := by
    unfold closedAt at hclosed
    split at hclosed
    · obtain ⟨m, -, rfl⟩ := Option.map_eq_some_iff.mp hclosed
      rfl
    · cases hclosed
  rw [hlast]
  exact ⟨hline, hclosed⟩

/-- A block that was not moved has its lines where its file has them. -/
theorem Block.fileLine?_definitionAt (p : Program) (b : Nat × Nat) {m : Nat}
    (hm : b.1 < m ∧ m < b.2) : (definitionAt p b.1 b.2).range.fileLine? m = some m := by
  have hcontains : (definitionAt p b.1 b.2).range.contains m = true :=
    LineRange.contains_of_mem_body (LineRange.mem_body.mpr hm)
  rw [LineRange.fileLine?, if_pos hcontains]
  show some (m - b.1 + b.1) = some m
  rw [Nat.sub_add_cancel (Nat.le_of_lt hm.1)]

namespace Diagnostic

variable {engine : Engine} {name source : String} {program : Program}
  (hsource : Program.ofSource name source = .ok program) (hfits : Fits32 source)

include hsource hfits

theorem located_redefined {d : Diagnostic} (hd : d ∈ (Scan.ofProgram engine program).diagnostics) :
    d.Located engine name source program := by
  rw [Scan.warnings_eq_filter] at hd
  obtain ⟨b, hb, rfl⟩ := List.mem_map.mp hd
  obtain ⟨hb, hrepeats⟩ := List.mem_filter.mp hb
  obtain ⟨e, he, hbefore, hsame⟩ := (Block.repeats_iff program _ b).mp hrepeats
  obtain ⟨hline, hclosed⟩ := Block.closedAt_of_mem_closedBlocks hb
  have hnumber : (Scan.redefined program.name (program.headerSignature b.1) b.2).location.line.toNat =
      b.2 := Location.toNat_line (Program.lt_of_mem_lineNumbers hsource hfits hline) program.name 1
  constructor
  case file => exact (Program.ofSource_eq_ok hsource).1
  case line =>
    rw [hnumber]
    exact hline
  case column => exact Nat.le_refl 1
  case message => exact Or.inr (Or.inr ⟨_, rfl⟩)
  case unknown =>
    intro h
    exact absurd h (ne_of_apply_ne (·.toList.head?) (by simp [Scan.redefined]))
  case mismatch =>
    intro callee k h
    exact absurd h (ne_of_apply_ne (·.toList.head?) (by simp [Scan.redefined]))
  case redefined =>
    intro s h
    obtain rfl := Scan.redefined_message_inj h
    refine ⟨rfl, b, e, ?_, rfl, (Block.closedAt_of_mem_closedBlocks he).2, hbefore, hsame⟩
    rw [hnumber]
    exact hclosed

variable {scan : Scan} (hscan : (Scan.ofProgram engine program).result = .ok scan) {n : Nat}
  (hn : n ∈ program.lineNumbers) {call : Call}

include hscan hn

theorem located_mismatch (hrole : Expansion.role scan program n = .unresolved call) :
    (Expansion.mismatch scan.table call).Located engine name source program := by
  have hspec := Expansion.role_spec scan program n
  rw [hrole] at hspec
  obtain ⟨hout, hparse, -⟩ := hspec
  obtain ⟨t, ht, hname, hplace⟩ := Call.parse?_head hparse
  obtain ⟨htoken, hnumber, hcolumn, hpoints⟩ :=
    Program.pointsAt_token hsource hfits hn ht program.name
  rw [htoken] at hplace
  have hlocation : (Expansion.mismatch scan.table call).location =
      .ofNat program.name n t.column := hplace
  have hmessage := Expansion.mismatch_message scan.table call
  constructor
  case file =>
    rw [hlocation]
    exact (Program.ofSource_eq_ok hsource).1
  case line =>
    rw [hlocation, hnumber]
    exact hn
  case column =>
    rw [hlocation]
    exact hcolumn
  case message => exact Or.inr (Or.inl ⟨_, _, hmessage⟩)
  case unknown =>
    intro h
    exact absurd h (Expansion.mismatch_ne_unknown scan.table call)
  case mismatch =>
    intro callee k h
    obtain ⟨rfl, -⟩ := Expansion.mismatch_message_inj (hmessage.symm.trans h)
    rw [hlocation, hnumber, hname]
    exact ⟨scan, hscan, (scan.isDefinitionLine_eq_false_iff n).mp hout, hpoints⟩
  case redefined =>
    intro s h
    rw [hmessage] at h
    exact absurd h (ne_of_apply_ne (·.toList.head?) (by simp))

theorem located_unknown {definition : Definition}
    (hresolved : Expansion.resolved? scan program n = some (call, definition)) {m : Nat}
    (hm : m ∈ definition.range.body) {id : UInt64} {d : Diagnostic}
    (hd : d ∈ Invocation.complaints engine ⟨definition, call.arguments, id⟩ m) :
    d.Located engine name source program := by
  have hspec := Expansion.role_spec scan program n
  rw [Expansion.role_of_resolved? scan program hresolved] at hspec
  obtain ⟨-, -, -, hlookup⟩ := hspec
  obtain ⟨hname, harity⟩ := MacroTable.fits_of_lookup hlookup
  obtain ⟨t, ht, rfl⟩ :=
    Invocation.exists_of_mem_complaints engine ⟨definition, call.arguments, id⟩ harity hd
  obtain ⟨b, hb, rfl⟩ := Scan.exists_block_of_lookup hscan hlookup
  have hinside : b.1 < m ∧ m < b.2 := LineRange.mem_body.mp hm
  have hline : m ∈ program.lineNumbers := by
    have := program.blocks_within (Scan.marks_eq hscan) hb
    exact program.mem_lineNumbers.mpr (by omega)
  obtain ⟨htoken, hnumber, hcolumn, hpoints⟩ :=
    Program.pointsAt_token hsource hfits hline ht program.name
  have hlocation : Invocation.location
      ⟨Block.definitionAt program b.1 b.2, call.arguments, id⟩ t = .ofNat program.name m t.column := by
    rw [Invocation.location, htoken, Block.fileLine?_definitionAt program b hinside]
    rfl
  rw [hlocation, hname]
  constructor
  case file => exact (Program.ofSource_eq_ok hsource).1
  case line =>
    show (Location.ofNat program.name m t.column).line.toNat ∈ program.lineNumbers
    rw [hnumber]
    exact hline
  case column => exact hcolumn
  case message => exact Or.inl rfl
  case unknown =>
    intro _
    refine ⟨scan, b, n, call, t.text, hscan, hb, hn, hresolved, ?_, rfl, hpoints⟩
    show b.1 < (Location.ofNat program.name m t.column).line.toNat ∧
      (Location.ofNat program.name m t.column).line.toNat < b.2
    rw [hnumber]
    exact hinside
  case mismatch =>
    intro callee k h
    exact absurd h (ne_of_apply_ne (·.toList.head?) (by simp [Diagnostic.withNote, Diagnostic.error]))
  case redefined =>
    intro s h
    exact absurd h (ne_of_apply_ne (·.toList.head?) (by simp [Diagnostic.withNote, Diagnostic.error]))

omit call in
theorem located_of_mem_complaintsAt {first : UInt64} {d : Diagnostic}
    (hd : d ∈ Expansion.complaintsAt engine scan program first n) :
    d.Located engine name source program := by
  have hresolved := Expansion.resolved?_eq scan program n
  unfold Expansion.complaintsAt at hd
  cases hrole : Expansion.role scan program n with
  | unresolved call =>
    rw [hrole] at hd
    obtain rfl := List.mem_singleton.mp hd
    exact located_mismatch hsource hfits hscan hn hrole
  | call call definition =>
    rw [hrole] at hd hresolved
    obtain ⟨m, hm, hd⟩ := List.mem_flatMap.mp hd
    exact located_unknown hsource hfits hscan hn hresolved hm hd
  | header labels =>
    rw [hrole] at hd
    cases hd
  | hidden =>
    rw [hrole] at hd
    cases hd
  | plain =>
    rw [hrole] at hd
    cases hd

end Diagnostic

/-- **Diagnostics point at what they complain about.** If the lines of a source and the characters of
each line can be counted with 32 bits, every diagnostic names the file and a line of it, and a column
from one on. A parameter that is not known stands there, inside the block of the macro that was called;
a call that no definition fits has its name there, outside of all blocks; and a redefinition is
reported at the start of the line that closes the later block. -/
theorem expandSource_located (options : Options) (name source : String)
    (hlines : (Text.lines source.toList).length < 2 ^ 32)
    (hcolumns : ∀ line ∈ Text.lines source.toList, line.length < 2 ^ 32) :
    ∀ d ∈ (expandSource options name source).diagnostics,
      ∃ program, Program.ofSource name source = .ok program ∧
        d.Located { options } name source program := by
  intro d hd
  have hfits : Fits32 source := ⟨hlines, hcolumns⟩
  rcases expandSource_cases options name source with
    ⟨e, -, hfail⟩ | ⟨program, e, hsource, -, hfail⟩ | ⟨program, scan, hsource, hscan⟩
  · rw [hfail] at hd
    cases hd
  · rw [hfail] at hd
    exact ⟨program, hsource, Diagnostic.located_redefined hsource hfits hd⟩
  · rw [expandSource_of_lines hsource hscan] at hd
    refine ⟨program, hsource, ?_⟩
    rcases List.mem_append.mp hd with hd | hd
    · exact Diagnostic.located_redefined hsource hfits hd
    · obtain ⟨n, hn, hd⟩ := List.mem_flatMap.mp hd
      exact Diagnostic.located_of_mem_complaintsAt hsource hfits hscan hn hd

/-- A macro that is defined twice and uses a parameter that it does not have, behind a character of
two bytes, and a call with an argument too many. -/
def misusedSource : String :=
  ".macro m %a\n.end_macro\n.macro m(%x)\nl: \"é\" %b\n.end_macro\nx: m 1, 2\nm 3\n"

theorem expandSource_located_misused :
    ((expandSource {} "m.asm" misusedSource).diagnostics.map fun d =>
        (d.message, d.location.line, d.location.column)) =
      [("Macro 'm/1' redefined", 5, 1), ("No macro 'm' takes 2 argument(s)", 6, 4),
        ("Unknown macro parameter", 4, 8)] ∧
      ∀ d ∈ (expandSource {} "m.asm" misusedSource).diagnostics,
        ∃ program, Program.ofSource "m.asm" misusedSource = .ok program ∧
          d.Located {} "m.asm" misusedSource program := by
  have hlines : (Text.lines misusedSource.toList).length < 2 ^ 32 := by decide +kernel
  have hcolumns : ∀ line ∈ Text.lines misusedSource.toList, line.length < 2 ^ 32 := by
    decide +kernel
  exact ⟨by decide +kernel, expandSource_located {} "m.asm" misusedSource hlines hcolumns⟩

end MipsMacro
