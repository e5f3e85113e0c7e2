import MipsMacro.Program
import MipsMacro.Proofs.LexedLine

/-!
# Texts of several lines

Proved here:

* `Quoting.closes_iff`: a text can be read through from the start, with nothing open at the end of a
  line, exactly if no line of it leaves a literal open;
* `Program.ofSource_ok_iff`: these are the texts that can be read as programs;
* `Program.ofSource_eq_ok`: such a program has the lines of its source;
* `Program.lexed_ofSource`: every line of such a program consists of its tokens, of blanks between
  them and perhaps of a comment.
-/

namespace MipsMacro

/-! ## Reading through a text -/

namespace Quoting

/-- Where the character behind a text of several lines stands, unless a literal is open at the end of
a line. -/
def read (s : Quoting) : List Char → Option Quoting
  | [] => some s
  | c :: cs =>
    if c = '\n' then
      if s.isOpen then none else read top cs
    else
      read (s.step c) cs

/-- The text can be read from the start and leaves nothing open. -/
def Closes (cs : List Char) : Prop := ∃ s, top.read cs = some s ∧ s.isOpen = false

/-- The text can be read from the start and comes back to it. -/
def Neutral (cs : List Char) : Prop := top.read cs = some top

theorem read_append (s : Quoting) (as bs : List Char) :
    s.read (as ++ bs) = (s.read as).bind (·.read bs) := by
  induction as generalizing s with
  | nil => rfl
  | cons a as ih =>
    rw [List.cons_append, read, read]
    by_cases ha : a = '\n'
    · cases hs : s.isOpen <;> simp [ha, ih]
    · simp [ha, ih]

theorem read_eq_run (s : Quoting) {cs : List Char} (h : '\n' ∉ cs) : s.read cs = some (s.run cs) := by
  induction cs generalizing s with
  | nil => rfl
  | cons c cs ih =>
    have hc : c ≠ '\n' := fun e => h (e ▸ List.mem_cons_self ..)
    rw [read, if_neg hc, run_cons]
    exact ih _ fun hmem => h (List.mem_cons_of_mem _ hmem)

theorem Neutral.append {as bs : List Char} (ha : Neutral as) (hb : Neutral bs) :
    Neutral (as ++ bs) := by
  rw [Neutral, read_append, ha]
  exact hb

/-- What is added to a neutral text is neutral itself if the whole is. -/
theorem Neutral.of_append {as bs : List Char} (ha : Neutral as) (h : Neutral (as ++ bs)) :
    Neutral bs := by
  rw [Neutral, read_append, ha] at h
  exact h

theorem Neutral.closes {as bs : List Char} (ha : Neutral as) (hb : Closes bs) :
    Closes (as ++ bs) := by
  obtain ⟨s, hs, hopen⟩ := hb
  refine ⟨s, ?_, hopen⟩
  rw [read_append, ha]
  exact hs

theorem neutral_of_isInert {cs : List Char} (h : ∀ c ∈ cs, isInert c = true) : Neutral cs := by
  induction cs with
  | nil => rfl
  | cons c cs ih =>
    have hrest := ih fun d hd => h d (List.mem_cons_of_mem _ hd)
    rw [Neutral, read, step_top (h c (List.mem_cons_self ..))]
    by_cases hc : c = '\n'
    · rw [if_pos hc]
      exact hrest
    · rw [if_neg hc]
      exact hrest

/-- A line end after a text that leaves nothing open brings back to the start. -/
theorem Closes.newline {cs : List Char} (h : Closes cs) : Neutral (cs ++ ['\n']) := by
  obtain ⟨s, hs, hopen⟩ := h
  rw [Neutral, read_append, hs]
  simp [read, hopen]

/-! ## Lines -/

/-- A carriage return opens and closes nothing. -/
theorem isOpen_step_return (s : Quoting) : (s.step '\r').isOpen = s.isOpen := by
  cases s with
  | top => rfl
  | literal q => cases q <;> rfl
  | escaped q => rfl
  | comment => rfl

/-- Reading on from `s`: the line that has been begun and all lines after it leave nothing open. -/
def ClosesLines (s : Quoting) : List (List Char) → Prop
  | [] => s.isOpen = false
  | line :: rest => (s.run line).isOpen = false ∧ ∀ l ∈ rest, (top.run l).isOpen = false

theorem closesLines_top (lines : List (List Char)) :
    ClosesLines top lines ↔ ∀ l ∈ lines, (top.run l).isOpen = false := by
  cases lines with
  | nil => simp [ClosesLines, isOpen]
  | cons line rest => simp [ClosesLines]

theorem read_iff_closesLines (s : Quoting) (cs : List Char) :
    (∃ s', s.read cs = some s' ∧ s'.isOpen = false) ↔ ClosesLines s (Text.lines cs) := by
  -- at a line end the line must be closed, and the rest is read from the start
  have hend : ∀ (s : Quoting) (cs : List Char),
      ((∃ s', top.read cs = some s' ∧ s'.isOpen = false) ↔ ClosesLines top (Text.lines cs)) →
      ((∃ s', s.read ('\n' :: cs) = some s' ∧ s'.isOpen = false) ↔
        ClosesLines s ([] :: Text.lines cs)) := by
    intro s cs ih
    rw [closesLines_top] at ih
    rw [ClosesLines, ← ih, read, run_nil]
    cases s.isOpen <;> simp
  fun_induction Text.lines cs generalizing s with
  | case1 => simp [read, ClosesLines]
  | case2 cs ih =>
    have hreturn := hend (s.step '\r') cs (ih top)
    rw [ClosesLines, run_nil, isOpen_step_return] at hreturn
    rw [read, if_neg (by decide), ClosesLines, run_nil]
    exact hreturn
  | case3 cs ih => exact hend s cs (ih top)
  | case4 c cs _ hc hlines ih =>
    rw [read, if_neg hc]
    refine (ih (s.step c)).trans ?_
    rw [hlines]
    simp [ClosesLines]
  | case5 c cs _ hc line rest hlines ih =>
    rw [read, if_neg hc]
    refine (ih (s.step c)).trans ?_
    rw [hlines]
    simp [ClosesLines]

theorem closes_iff (cs : List Char) :
    Closes cs ↔ ∀ l ∈ Text.lines cs, (top.run l).isOpen = false :=
  (read_iff_closesLines top cs).trans (closesLines_top _)

end Quoting

theorem Text.newline_not_mem_lines {cs l : List Char} (h : l ∈ lines cs) : '\n' ∉ l := by
  fun_induction lines cs generalizing l with
  | case1 => cases h
  | case2 cs ih =>
    rcases List.mem_cons.mp h with rfl | h
    · simp
    · exact ih h
  | case3 cs ih =>
    rcases List.mem_cons.mp h with rfl | h
    · simp
    · exact ih h
  | case4 c cs _ hc hlines ih =>
    rw [List.mem_singleton] at h
    subst h
    simpa using Ne.symm hc
  | case5 c cs _ hc line rest hlines ih =>
    rw [hlines] at ih
    rcases List.mem_cons.mp h with rfl | h
    · simpa [Ne.symm hc] using ih (List.mem_cons_self ..)
    · exact ih (List.mem_cons_of_mem _ h)

/-! ## Programs -/

theorem bind_eq_ok_iff {ε α β : Type} {x : Except ε α} {f : α → Except ε β} {b : β} :
    (x >>= f) = .ok b ↔ ∃ a, x = .ok a ∧ f a = .ok b := by
  cases x <;> simp [bind, Except.bind]

theorem tokenize_ok_iff (file : String) (n : Nat) (text : String) :
    (∃ tokens, tokenize file n text = .ok tokens) ↔
      (Quoting.top.run text.toList).isOpen = false := by
  simp only [tokenize_eq_ok_iff, exists_and_left, exists_eq, and_true, Lexer.pieces_eq_none_iff]

namespace Program

theorem rows_ok_iff (name : String) (n : Nat) (texts : List String) :
    (∃ rows, Program.rows name n texts = .ok rows) ↔
      ∀ text ∈ texts, (Quoting.top.run text.toList).isOpen = false := by
  induction texts generalizing n with
  | nil => simp [rows]
  | cons text texts ih =>
    rw [List.forall_mem_cons, ← tokenize_ok_iff name n, ← ih (n + 1)]
    constructor
    · rintro ⟨all, h⟩
      rw [rows, bind_eq_ok_iff] at h
      obtain ⟨tokens, htokens, h⟩ := h
      obtain ⟨rest, hrest, -⟩ := bind_eq_ok_iff.mp h
      exact ⟨⟨tokens, htokens⟩, rest, hrest⟩
    · rintro ⟨⟨tokens, htokens⟩, rest, hrest⟩
      refine ⟨⟨some text, some tokens⟩ :: rest, ?_⟩
      rw [rows, htokens, hrest]
      rfl

/-- A source can be read exactly if no line of it leaves a literal open. -/
theorem ofSource_ok_iff (name source : String) :
    (∃ p, ofSource name source = .ok p) ↔ Quoting.Closes source.toList := by
  have hrows := rows_ok_iff name 1 ((Text.lines source.toList).map String.ofList)
  have hlines : (∀ text ∈ (Text.lines source.toList).map String.ofList,
      (Quoting.top.run text.toList).isOpen = false) ↔ Quoting.Closes source.toList := by
    rw [Quoting.closes_iff, List.forall_mem_map]
    simp only [String.toList_ofList]
  rw [← hlines, ← hrows, ofSource]
  cases rows name 1 ((Text.lines source.toList).map String.ofList) <;>
    simp [bind, Except.bind, pure, Except.pure]

theorem rows_getElem? {name : String} {n : Nat} {texts : List String} {rows : List SourceLine}
    (h : Program.rows name n texts = .ok rows) {i : Nat} {row : SourceLine}
    (hrow : rows[i]? = some row) :
    ∃ text tokens, row = ⟨some text, some tokens⟩ ∧ texts[i]? = some text ∧
      tokenize name (n + i) text = .ok tokens := by
  induction texts generalizing n rows i with
  | nil =>
    cases h
    cases hrow
  | cons text texts ih =>
    rw [Program.rows, bind_eq_ok_iff] at h
    obtain ⟨tokens, htokens, h⟩ := h
    obtain ⟨rest, hrest, h⟩ := bind_eq_ok_iff.mp h
    cases h
    cases i with
    | zero =>
      cases hrow
      exact ⟨text, tokens, rfl, rfl, htokens⟩
    | succ i =>
      have hnumber : n + 1 + i = n + (i + 1) := by omega
      rw [← hnumber]
      exact ih hrest hrow

theorem map_line_ofRows (name : String) (rows : List SourceLine) :
    (ofRows name rows).lineNumbers.map (ofRows name rows).line = rows := by
  apply List.ext_getElem
  · simp [lineNumbers, ofRows]
  · intro i _ hi
    simp [lineNumbers, ofRows, Nat.add_comm 1, hi]

theorem map_text_rows {name : String} {n : Nat} {texts : List String} {rows : List SourceLine}
    (h : Program.rows name n texts = .ok rows) :
    rows.map (fun row => row.text.getD "") = texts := by
  induction texts generalizing n rows with
  | nil =>
    cases h
    rfl
  | cons text texts ih =>
    rw [Program.rows, bind_eq_ok_iff] at h
    obtain ⟨tokens, -, h⟩ := h
    obtain ⟨rest, hrest, h⟩ := bind_eq_ok_iff.mp h
    cases h
    rw [List.map_cons, ih hrest]
    rfl

/-- The lines of a program are those of its source. -/
theorem ofSource_eq_ok {name source : String} {p : Program} (h : ofSource name source = .ok p) :
    p.name = name ∧ p.lineNumbers.map p.text = (Text.lines source.toList).map String.ofList := by
  rw [ofSource, bind_eq_ok_iff] at h
  obtain ⟨rows, hrows, h⟩ := h
  cases h
  refine ⟨rfl, ?_⟩
  have htexts := congrArg (List.map fun row => row.text.getD "") (map_line_ofRows name rows)
  rw [List.map_map, map_text_rows hrows] at htexts
  exact htexts

/-- No line has a line end in it, and the tokens of each are those of its text. -/
def Lexed (p : Program) : Prop :=
  ∀ n, p.line n = {} ∨ ∃ text tokens, p.line n = ⟨some text, some tokens⟩ ∧ '\n' ∉ text.toList ∧
    Nonempty (LexedLine text.toList tokens)

theorem lexed_ofSource {name source : String} {p : Program} (h : ofSource name source = .ok p) :
    p.Lexed := by
  intro n
  rw [ofSource, bind_eq_ok_iff] at h
  obtain ⟨rows, hrows, h⟩ := h
  cases h
  by_cases hn : n = 0
  · exact Or.inl (by simp [ofRows, hn])
  · cases hrow : rows[n - 1]? with
    | none => exact Or.inl (by simp [ofRows, hn, hrow])
    | some row =>
      obtain ⟨text, tokens, rfl, htext, hlexed⟩ := rows_getElem? hrows hrow
      obtain ⟨l, hl, rfl⟩ := List.mem_map.mp (List.mem_of_getElem? htext)
      refine Or.inr ⟨_, tokens, by simp [ofRows, hn, hrow], ?_, LexedLine.ofTokenize hlexed⟩
      rw [String.toList_ofList]
      exact Text.newline_not_mem_lines hl

end Program

end MipsMacro
