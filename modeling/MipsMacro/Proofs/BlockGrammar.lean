import Mathlib.Data.List.TakeWhile
import MipsMacro.Proofs.MacroTable

/-!
# The grammar of blocks

A program is accepted if its directives alternate, opening first and closing last, and every header
has a name and then only parameters, commas and parentheses. Proved here:

* `Block.offence?_eq_none_iff`: what it takes for a line to be no offence;
* `Block.offence_iff`: and where an offence shows and what it is called;
* `Program.marksBefore_eq`: up to the first offence, the directives are those of the closed blocks
  and of the open one, if there is one;
* `Block.offence?_eq_none_of_alternate`: in a program of the grammar no line is an offence;
* `Scan.accepts_grammar`: the scan accepts exactly the programs of the grammar, finds their blocks,
  and on others reports the first offence, or else the block that is left open.
-/

namespace MipsMacro

/-- The directives of blocks that follow each other, as lines and sides. -/
def alternate (blocks : List (Nat × Nat)) : List (Nat × Side) :=
  blocks.flatMap fun b => [(b.1, .opening), (b.2, .closing)]

/-- What may stand behind the name in a header: commas, parentheses and parameters. -/
def HeaderPart (engine : Engine) (t : Token) : Prop :=
  t.kind = .comma ∨ t.kind = .leftParen ∨ t.kind = .rightParen ∨ engine.isParameter t.text = true

/-- A header has a name, and behind it only parameters, commas and parentheses. -/
def HeaderFits (engine : Engine) (tokens : List Token) : Prop :=
  ∃ name rest, tokens = name :: rest ∧ name.kind = .identifier ∧ ∀ t ∈ rest, HeaderPart engine t

/-- An offence on line `n`: the token where it shows, and the complaint about it. In a header it shows
at the first token that does not fit, or at the directive if there is nothing else. -/
inductive Offence (engine : Engine) (p : Program) (n : Nat) : Token → String → Prop
  | nested {t : Token} {rest : List Token} {m : Nat} :
      p.side? n = some .opening → p.unlabelled n = t :: rest → p.openBefore n = some m →
      Offence engine p n t
        ("Nested macro definition inside '" ++ p.headerName m ++ "' is not supported")
  | strayEnd {t : Token} {rest : List Token} :
      p.side? n = some .closing → p.unlabelled n = t :: rest → p.openBefore n = none →
      Offence engine p n t ".end_macro without matching .macro"
  | nameExpected {t : Token} :
      p.side? n = some .opening → p.unlabelled n = [t] → p.openBefore n = none →
      Offence engine p n t "Macro name expected after .macro"
  | invalidName {directive t : Token} {rest : List Token} :
      p.side? n = some .opening → p.unlabelled n = directive :: t :: rest →
      p.openBefore n = none → t.kind ≠ .identifier →
      Offence engine p n t ("Invalid macro name '" ++ t.text ++ "'")
  | invalidParameter {directive name t : Token} {before after : List Token} :
      p.side? n = some .opening → p.unlabelled n = directive :: name :: (before ++ t :: after) →
      p.openBefore n = none → name.kind = .identifier → (∀ u ∈ before, HeaderPart engine u) →
      ¬ HeaderPart engine t →
      Offence engine p n t ("Invalid macro parameter '" ++ t.text ++ "'")

/-- There is no offence on the line. -/
def Clean (engine : Engine) (p : Program) (n : Nat) : Prop := ∀ t text, ¬ Offence engine p n t text

/-- Where and why a scan fails: at the first line with an offence or, if there is none, behind the
last line because of a block left open. -/
inductive Stops (engine : Engine) (p : Program) : Nat → Error → Prop
  | offence {n : Nat} {t : Token} {text : String} :
      n ∈ p.lineNumbers → Offence engine p n t text →
      (∀ k ∈ p.lineNumbers, k < n → Clean engine p k) →
      Stops engine p n (.malformed ⟨p.name, t.line.toUInt32, t.column.toUInt32⟩ text)
  | unclosed {m : Nat} :
      (∀ k ∈ p.lineNumbers, Clean engine p k) →
      p.openBefore (p.lineCount + 1) = some m →
      Stops engine p (p.lineCount + 1)
        (.malformed ⟨p.name, m.toUInt32, 1⟩ ("Macro '" ++ p.headerName m ++ "' is missing .end_macro"))

/-! ## Offences -/

namespace Block

variable (engine : Engine) (p : Program)

variable {engine} in
theorem not_headerPart_iff {t : Token} :
    ¬ HeaderPart engine t ↔ (!isSeparator t && !engine.isParameter t.text) = true := by
  simp [HeaderPart, isSeparator, not_or, and_assoc]

variable {engine} in
theorem headerPart_iff {t : Token} :
    HeaderPart engine t ↔ (!(!isSeparator t && !engine.isParameter t.text)) = true := by
  rw [Bool.not_eq_true', Bool.eq_false_iff, Ne, ← not_headerPart_iff, not_not]

theorem headerFault?_eq_none_iff (directive : Token) (tokens : List Token) :
    headerFault? engine directive tokens = none ↔ HeaderFits engine tokens := by
  cases tokens with
  | nil => simp [headerFault?, HeaderFits]
  | cons name rest =>
    rw [headerFault?]
    by_cases hk : name.kind = .identifier
    · simp only [hk, if_true, Option.map_eq_none_iff, List.find?_eq_none]
      simp only [← not_headerPart_iff, not_not]
      constructor
      · intro h
        exact ⟨name, rest, rfl, hk, h⟩
      · rintro ⟨name', rest', htokens, -, h⟩
        cases htokens
        exact h
    · simp only [hk, if_false, reduceCtorEq, false_iff]
      rintro ⟨name', rest', htokens, hk', -⟩
      cases htokens
      exact hk hk'

theorem offence?_eq_none_iff (n : Nat) :
    offence? engine p n = none ↔
      match p.side? n with
      | some .opening => p.openBefore n = none ∧ HeaderFits engine (p.headerTokens n)
      | some .closing => (p.openBefore n).isSome
      | none => True := by
  unfold offence?
  cases hbody : p.unlabelled n with
  | nil => simp [Program.side?, hbody]
  | cons directive rest =>
    simp only [Program.headerTokens, hbody, List.tail_cons, ← headerFault?_eq_none_iff engine directive]
    cases p.side? n with
    | none => simp
    | some side => cases side <;> cases p.openBefore n <;> simp

variable {engine p}

theorem offence_of_headerFault? {n : Nat} {directive t : Token} {rest : List Token}
    {fault : BlockFault} (hside : p.side? n = some .opening)
    (hbody : p.unlabelled n = directive :: rest) (hopen : p.openBefore n = none)
    (h : headerFault? engine directive rest = some (t, fault)) :
    Offence engine p n t fault.message := by
  cases rest with
  | nil =>
    cases h
    exact .nameExpected hside hbody hopen
  | cons name rest =>
    rw [headerFault?] at h
    by_cases hkind : name.kind = .identifier
    · rw [if_pos hkind, Option.map_eq_some_iff] at h
      obtain ⟨u, hfind, heq⟩ := h
      cases heq
      obtain ⟨hu, before, after, rfl, hbefore⟩ := List.find?_eq_some_iff_append.mp hfind
      exact .invalidParameter hside hbody hopen hkind (fun v hv => headerPart_iff.mpr (hbefore v hv))
        (not_headerPart_iff.mpr hu)
    · rw [if_neg hkind] at h
      cases h
      exact .invalidName hside hbody hopen hkind

theorem offence_of_offence? {n : Nat} {t : Token} {fault : BlockFault}
    (h : offence? engine p n = some (t, fault)) : Offence engine p n t fault.message := by
  unfold offence? at h
  split at h
  · cases h
  · next directive rest hbody =>
    split at h
    · next hside hopen =>
      cases h
      exact .nested hside hbody hopen
    · next hside hopen => exact offence_of_headerFault? hside hbody hopen h
    · next hside hopen =>
      cases h
      exact .strayEnd hside hbody hopen
    · cases h
    · cases h

/-- The offence on a line and its complaint. -/
theorem offence_iff {n : Nat} {t : Token} {text : String} :
    Offence engine p n t text ↔
      ∃ fault : BlockFault, offence? engine p n = some (t, fault) ∧ fault.message = text := by
  constructor
  · intro h
    cases h with
    | @nested t rest m hside hbody hopen =>
      exact ⟨.nested (p.headerName m), by simp only [offence?, hbody, hside, hopen], rfl⟩
    | strayEnd hside hbody hopen =>
      exact ⟨.strayEnd, by simp only [offence?, hbody, hside, hopen], rfl⟩
    | nameExpected hside hbody hopen =>
      exact ⟨.nameExpected, by simp only [offence?, hbody, hside, hopen, headerFault?], rfl⟩
    | invalidName hside hbody hopen hkind =>
      exact ⟨.invalidName t.text,
        by simp only [offence?, hbody, hside, hopen, headerFault?, if_neg hkind], rfl⟩
    | @invalidParameter directive name t before after hside hbody hopen hkind hbefore ht =>
      have hfind : (before ++ t :: after).find?
          (fun u => !isSeparator u && !engine.isParameter u.text) = some t :=
        List.find?_eq_some_iff_append.mpr ⟨not_headerPart_iff.mp ht, before, after, rfl,
          fun u hu => headerPart_iff.mp (hbefore u hu)⟩
      exact ⟨.invalidParameter t.text, by simp only [offence?, hbody, hside, hopen, headerFault?,
        if_pos hkind, hfind, Option.map_some], rfl⟩
  · rintro ⟨fault, h, rfl⟩
    exact offence_of_offence? h

theorem clean_iff {n : Nat} : Clean engine p n ↔ offence? engine p n = none := by
  simp only [Clean, offence_iff]
  cases h : offence? engine p n with
  | none => simp
  | some found =>
    refine iff_of_false (fun hclean => ?_) (by simp)
    exact hclean found.1 found.2.message ⟨found.2, rfl, rfl⟩

end Block

/-! ## Alternating directives -/

theorem alternate_append (a b : List (Nat × Nat)) :
    alternate (a ++ b) = alternate a ++ alternate b := by
  simp [alternate]

/-- What precedes a directive in an alternating list alternates too, and ends with a closing one in
front of an opening one, with an opening one in front of a closing one. -/
theorem alternate_split {blocks : List (Nat × Nat)} {before after : List (Nat × Side)} {n : Nat}
    {side : Side} (h : alternate blocks = before ++ (n, side) :: after) :
    ∃ earlier, match side with
      | .opening => before = alternate earlier
      | .closing => ∃ m, before = alternate earlier ++ [(m, .opening)] := by
  induction blocks generalizing before with
  | nil => simp [alternate] at h
  | cons b blocks ih =>
    change (b.1, Side.opening) :: (b.2, Side.closing) :: alternate blocks = _ at h
    match before with
    | [] =>
      cases h
      exact ⟨[], rfl⟩
    | [x] =>
      cases h
      exact ⟨[], b.1, rfl⟩
    | x :: y :: before =>
      simp only [List.cons_append, List.cons.injEq] at h
      obtain ⟨rfl, rfl, h⟩ := h
      obtain ⟨earlier, he⟩ := ih h
      refine ⟨b :: earlier, ?_⟩
      cases side with
      | opening =>
        rw [he]
        rfl
      | closing =>
        obtain ⟨m, rfl⟩ := he
        exact ⟨m, rfl⟩

/-- The numbers before and behind one of a row of numbers. -/
theorem range'_split {start count n : Nat} (h : n ∈ List.range' start count) :
    List.range' start count =
      List.range' start (n - start) ++ n :: List.range' (n + 1) (start + count - (n + 1)) := by
  rw [List.mem_range'_1] at h
  have hn : start + (n - start) = n := by omega
  have hcount : count = (n - start) + ((start + count - (n + 1)) + 1) := by omega
  conv => lhs; rw [hcount, ← List.range'_append_1, hn, List.range'_succ]

namespace Program

variable (p : Program)

theorem openBefore_of_alternate {n : Nat} {blocks : List (Nat × Nat)}
    (h : p.marksBefore n = alternate blocks) : p.openBefore n = none := by
  rw [openBefore, h]
  rcases List.eq_nil_or_concat blocks with rfl | ⟨init, last, rfl⟩
  · rfl
  · rw [List.concat_eq_append, alternate_append]
    simp [alternate]

theorem openBefore_of_concat {n m : Nat} {marks : List (Nat × Side)}
    (h : p.marksBefore n = marks ++ [(m, .opening)]) : p.openBefore n = some m := by
  simp [openBefore, h]

theorem mem_lineNumbers {n : Nat} : n ∈ p.lineNumbers ↔ 1 ≤ n ∧ n ≤ p.lineCount := by
  rw [lineNumbers, List.mem_range'_1]
  omega

theorem lineNumbers_split {n : Nat} (h : n ∈ p.lineNumbers) :
    p.lineNumbers = List.range' 1 (n - 1) ++ n :: List.range' (n + 1) (p.lineCount - n) := by
  have hcount : 1 + p.lineCount - (n + 1) = p.lineCount - n := by omega
  rw [← hcount]
  exact range'_split h

theorem marks_split {n : Nat} {side : Side} (h : n ∈ p.lineNumbers) (hside : p.side? n = some side) :
    ∃ after, p.marks = p.marksBefore n ++ (n, side) :: after := by
  refine ⟨p.marksOf (List.range' (n + 1) (p.lineCount - n)), ?_⟩
  rw [marks, p.lineNumbers_split h, marksOf, List.filterMap_append, List.filterMap_cons, hside]
  rfl

/-- The invariant of the reading: before the first offence the directives are those of the closed
blocks, and then that of the open one. -/
theorem marksBefore_eq (engine : Engine) (n : Nat)
    (h : ∀ k, 1 ≤ k → k ≤ n → Block.offence? engine p k = none) :
    p.marksBefore (n + 1) = alternate ((List.range' 1 n).filterMap (Block.closedAt p)) ++
      ((p.openBefore (n + 1)).map (·, Side.opening)).toList := by
  induction n with
  | zero => rfl
  | succ n ih =>
    have hprev := ih fun k hk hle => h k hk (by omega)
    have hline := (Block.offence?_eq_none_iff engine p (n + 1)).mp (h (n + 1) (by omega) (by omega))
    rw [marksBefore_succ p (n + 1) (by omega), openBefore_succ p (n + 1) (by omega), hprev,
      List.range'_1_concat, Nat.add_comm 1 n, List.filterMap_append, alternate_append,
      List.filterMap_cons, List.filterMap_nil]
    cases hside : p.side? (n + 1) with
    | none => simp [Block.closedAt, hside, alternate]
    | some side =>
      rw [hside] at hline
      cases side with
      | opening => simp [Block.closedAt, hside, alternate, hline.1]
      | closing =>
        obtain ⟨m, hopen⟩ := Option.isSome_iff_exists.mp hline
        simp [Block.closedAt, hside, alternate, hopen]

theorem marksBefore_pairwise (n : Nat) : (p.marksBefore n).Pairwise fun a b => a.1 < b.1 := by
  rw [marksBefore, marksOf, List.pairwise_filterMap]
  refine (List.pairwise_lt_range' (s := 1) (n := n - 1)).imp ?_
  intro a b hab x hx y hy
  obtain ⟨_, -, rfl⟩ := Option.map_eq_some_iff.mp hx
  obtain ⟨_, -, rfl⟩ := Option.map_eq_some_iff.mp hy
  exact hab

theorem marks_pairwise : p.marks.Pairwise fun a b => a.1 < b.1 :=
  p.marksBefore_pairwise (p.lineCount + 1)

theorem mem_lineNumbers_of_mem_marks {m : Nat × Side} (h : m ∈ p.marks) : m.1 ∈ p.lineNumbers := by
  obtain ⟨n, hn, hm⟩ := List.mem_filterMap.mp h
  obtain ⟨_, -, rfl⟩ := Option.map_eq_some_iff.mp hm
  exact hn

end Program

/-- Blocks whose directives follow each other in the program do not overlap. -/
theorem pairwise_of_alternate {blocks : List (Nat × Nat)}
    (h : (alternate blocks).Pairwise fun a b => a.1 < b.1) :
    blocks.Pairwise (fun a b => a.2 < b.1) ∧ ∀ b ∈ blocks, b.1 < b.2 := by
  induction blocks with
  | nil => simp
  | cons b blocks ih =>
    change ((b.1, Side.opening) :: (b.2, Side.closing) :: alternate blocks).Pairwise _ at h
    obtain ⟨hfirst, h⟩ := List.pairwise_cons.mp h
    obtain ⟨hlast, h⟩ := List.pairwise_cons.mp h
    obtain ⟨hsorted, hlt⟩ := ih h
    constructor
    · refine List.pairwise_cons.mpr ⟨fun c hc => ?_, hsorted⟩
      exact hlast (c.1, .opening) (List.mem_flatMap.mpr ⟨c, hc, List.mem_cons_self ..⟩)
    · intro c hc
      rcases List.mem_cons.mp hc with rfl | hc
      · exact hfirst (c.2, .closing) (List.mem_cons_self ..)
      · exact hlt c hc

namespace Program

variable (p : Program) {blocks : List (Nat × Nat)} (h : p.marks = alternate blocks)

include h in
theorem blocks_apart : blocks.Pairwise fun a b => a.2 < b.1 :=
  (pairwise_of_alternate (h ▸ p.marks_pairwise)).1

include h in
theorem blocks_within {b : Nat × Nat} (hb : b ∈ blocks) :
    1 ≤ b.1 ∧ b.1 < b.2 ∧ b.2 ≤ p.lineCount := by
  have hlt := (pairwise_of_alternate (h ▸ p.marks_pairwise)).2 b hb
  have hmem : ∀ mark ∈ [(b.1, Side.opening), (b.2, Side.closing)], mark.1 ∈ p.lineNumbers :=
    fun mark hmark => p.mem_lineNumbers_of_mem_marks
      (h ▸ List.mem_flatMap.mpr ⟨b, hb, hmark⟩)
  have hfirst := p.mem_lineNumbers.mp (hmem (b.1, .opening) (by simp))
  have hlast := p.mem_lineNumbers.mp (hmem (b.2, .closing) (by simp))
  exact ⟨hfirst.1, hlt, hlast.2⟩

end Program

/-! ## The scan -/

namespace Block

variable (engine : Engine) (p : Program)

/-- In a program of the grammar every directive finds what it needs before it. -/
theorem offence?_eq_none_of_alternate {blocks : List (Nat × Nat)}
    (hmarks : p.marks = alternate blocks)
    (hheaders : ∀ n ∈ p.lineNumbers, p.side? n = some .opening →
      HeaderFits engine (p.headerTokens n)) {n : Nat} (hn : n ∈ p.lineNumbers) :
    offence? engine p n = none := by
  rw [offence?_eq_none_iff]
  cases hside : p.side? n with
  | none => trivial
  | some side =>
    obtain ⟨after, hsplit⟩ := p.marks_split hn hside
    obtain ⟨earlier, hbefore⟩ := alternate_split (hmarks.symm.trans hsplit)
    cases side with
    | opening => exact ⟨p.openBefore_of_alternate hbefore, hheaders n hn hside⟩
    | closing =>
      obtain ⟨m, hbefore⟩ := hbefore
      simp [p.openBefore_of_concat hbefore]

theorem verdict_eq_none_iff :
    verdict engine p p.lineNumbers p.lineCount = none ↔
      (∀ n ∈ p.lineNumbers, offence? engine p n = none) ∧ p.openBefore (p.lineCount + 1) = none := by
  unfold verdict
  cases h : p.lineNumbers.findSome? (offence? engine p) with
  | none =>
    rw [and_iff_right (List.findSome?_eq_none_iff.mp h)]
    exact Option.map_eq_none_iff
  | some fault =>
    obtain ⟨n, hn, hfault⟩ := List.exists_of_findSome?_eq_some h
    simp only [reduceCtorEq, false_iff]
    rintro ⟨hclean, -⟩
    rw [hclean n hn] at hfault
    cases hfault

/-- Before a line with no offence in front of it, all lines are read. -/
theorem closedBlocks_eq {n : Nat} (hn : n ∈ p.lineNumbers) (hfault : offence? engine p n ≠ none)
    (hclean : ∀ k ∈ p.lineNumbers, k < n → offence? engine p k = none) :
    closedBlocks engine p p.lineNumbers = (List.range' 1 (n - 1)).filterMap (closedAt p) := by
  rw [closedBlocks, p.lineNumbers_split hn, List.takeWhile_append_of_pos,
    List.takeWhile_cons_of_neg, List.append_nil]
  · simpa using hfault
  · intro k hk
    rw [p.mem_lineNumbers] at hn
    rw [List.mem_range'_1] at hk
    rw [hclean k (p.mem_lineNumbers.mpr (by omega)) (by omega)]
    rfl

theorem closedBlocks_of_clean (hclean : ∀ k ∈ p.lineNumbers, offence? engine p k = none) :
    closedBlocks engine p p.lineNumbers = p.lineNumbers.filterMap (closedAt p) := by
  rw [closedBlocks, List.takeWhile_eq_self_iff.mpr]
  intro k hk
  rw [hclean k hk]
  rfl

/-- The verdict is the error at which the scan stops. -/
theorem verdict_eq_some_iff (e : Error) :
    verdict engine p p.lineNumbers p.lineCount = some e ↔ ∃ n, Stops engine p n e := by
  constructor
  · intro h
    unfold verdict at h
    cases hfind : p.lineNumbers.findSome? (offence? engine p) with
    | none =>
      rw [hfind] at h
      obtain ⟨m, hopen, rfl⟩ := Option.map_eq_some_iff.mp h
      refine ⟨_, .unclosed (fun k hk => ?_) hopen⟩
      exact clean_iff.mpr (List.findSome?_eq_none_iff.mp hfind k hk)
    | some fault =>
      obtain ⟨t, fault⟩ := fault
      rw [hfind] at h
      cases h
      obtain ⟨before, n, after, hsplit, hfault, hclean⟩ := List.findSome?_eq_some_iff.mp hfind
      refine ⟨n, .offence (by simp [hsplit]) (offence_of_offence? hfault) fun k hk hlt =>
        clean_iff.mpr (hclean k ?_)⟩
      -- line numbers grow, so what comes before line `n` stands in front of it
      have hsorted : p.lineNumbers.Pairwise (· < ·) := List.pairwise_lt_range'
      rw [hsplit] at hk hsorted
      rcases List.mem_append.mp hk with hk | hk
      · exact hk
      · have hrest := (List.pairwise_append.mp hsorted).2.1
        rcases List.mem_cons.mp hk with rfl | hk
        · omega
        · have := (List.pairwise_cons.mp hrest).1 k hk
          omega
  · rintro ⟨n, hstop⟩
    cases hstop with
    | @offence n t text hn hoffence hclean =>
      obtain ⟨fault, hfault, rfl⟩ := offence_iff.mp hoffence
      have hnone : (List.range' 1 (n - 1)).findSome? (offence? engine p) = none := by
        rw [List.findSome?_eq_none_iff]
        intro k hk
        rw [p.mem_lineNumbers] at hn
        rw [List.mem_range'_1] at hk
        exact clean_iff.mp (hclean k (p.mem_lineNumbers.mpr (by omega)) (by omega))
      unfold verdict
      rw [p.lineNumbers_split hn, List.findSome?_append, hnone, Option.none_or,
        List.findSome?_cons, hfault]
      rfl
    | @unclosed m hclean hopen =>
      unfold verdict
      rw [List.findSome?_eq_none_iff.mpr fun k hk => clean_iff.mp (hclean k hk), hopen]
      rfl

/-- Where the scan stops, the closed blocks are those whose directives come before. -/
theorem marksBefore_of_stops {n : Nat} {e : Error} (h : Stops engine p n e) :
    p.marksBefore n = alternate (closedBlocks engine p p.lineNumbers) ++
      ((p.openBefore n).map (·, Side.opening)).toList := by
  cases h with
  | @offence n t text hn hoffence hclean =>
    obtain ⟨fault, hfault, -⟩ := offence_iff.mp hoffence
    have hpos := p.mem_lineNumbers.mp hn
    have hsucc : n - 1 + 1 = n := by omega
    have h := p.marksBefore_eq engine (n - 1) fun k hk hle =>
      clean_iff.mp (hclean k (p.mem_lineNumbers.mpr (by omega)) (by omega))
    rw [closedBlocks_eq engine p hn (by simp [hfault]) fun k hk hlt => clean_iff.mp (hclean k hk hlt)]
    rwa [hsucc] at h
  | @unclosed m hclean hopen =>
    rw [closedBlocks_of_clean engine p fun k hk => clean_iff.mp (hclean k hk)]
    exact p.marksBefore_eq engine p.lineCount fun k hk hle =>
      clean_iff.mp (hclean k (p.mem_lineNumbers.mpr ⟨hk, hle⟩))

/-- A program without offences and open blocks has the directives of its closed blocks. -/
theorem marks_eq_of_verdict (h : verdict engine p p.lineNumbers p.lineCount = none) :
    p.marks = alternate (closedBlocks engine p p.lineNumbers) := by
  obtain ⟨hclean, hopen⟩ := (verdict_eq_none_iff engine p).mp h
  have hmarks := p.marksBefore_eq engine p.lineCount fun k hk hle =>
    hclean k (p.mem_lineNumbers.mpr ⟨hk, hle⟩)
  rw [hopen, Option.map_none, Option.toList_none, List.append_nil] at hmarks
  rw [closedBlocks_of_clean engine p hclean]
  exact hmarks

/-- No verdict is passed on a program exactly if it is one of the grammar. -/
theorem verdict_eq_none_iff_grammar :
    verdict engine p p.lineNumbers p.lineCount = none ↔
      (∃ blocks, p.marks = alternate blocks) ∧
        ∀ n ∈ p.lineNumbers, p.side? n = some .opening → HeaderFits engine (p.headerTokens n) := by
  constructor
  · intro h
    refine ⟨⟨_, marks_eq_of_verdict engine p h⟩, fun n hn hside => ?_⟩
    have hclean := ((verdict_eq_none_iff engine p).mp h).1 n hn
    rw [offence?_eq_none_iff, hside] at hclean
    exact hclean.2
  · rintro ⟨⟨blocks, hblocks⟩, hheaders⟩
    rw [verdict_eq_none_iff]
    exact ⟨fun n hn => offence?_eq_none_of_alternate engine p hblocks hheaders hn,
      p.openBefore_of_alternate hblocks⟩

end Block

theorem Scan.result_eq_ok_iff (engine : Engine) (p : Program) :
    (∃ s, (Scan.ofProgram engine p).result = .ok s) ↔
      Block.verdict engine p p.lineNumbers p.lineCount = none := by
  rw [Scan.ofProgram_result]
  cases Block.verdict engine p p.lineNumbers p.lineCount <;> simp

theorem Scan.blocks_of_ok {engine : Engine} {p : Program} {s : Scan}
    (h : (Scan.ofProgram engine p).result = .ok s) :
    s.blocks = Block.closedBlocks engine p p.lineNumbers := by
  have hnone := (Scan.result_eq_ok_iff engine p).mp ⟨s, h⟩
  rw [Scan.ofProgram_result, hnone] at h
  cases h
  rfl

/-- **The scan accepts exactly the grammar.** It succeeds if and only if directives alternate and all
headers fit; then its blocks are the pairs of directives, in order and apart. Otherwise it stops at
the first offence or, without one, for the block left open, and has warned about those blocks closed
until then that repeat a signature. -/
theorem Scan.accepts_grammar (engine : Engine) (p : Program) :
    ((∃ s, (Scan.ofProgram engine p).result = .ok s) ↔
      (∃ blocks, p.marks = alternate blocks) ∧
        ∀ n ∈ p.lineNumbers, p.side? n = some .opening → HeaderFits engine (p.headerTokens n)) ∧
    (∀ s, (Scan.ofProgram engine p).result = .ok s →
      p.marks = alternate s.blocks ∧ s.blocks.Pairwise (fun a b => a.2 < b.1) ∧
        ∀ b ∈ s.blocks, 1 ≤ b.1 ∧ b.1 < b.2 ∧ b.2 ≤ p.lineCount) ∧
    (∀ e, (Scan.ofProgram engine p).result = .error e ↔ ∃ n, Stops engine p n e) ∧
    (∀ n e, Stops engine p n e → ∃ blocks,
      p.marksBefore n = alternate blocks ++ ((p.openBefore n).map (·, Side.opening)).toList ∧
        (Scan.ofProgram engine p).diagnostics =
          redefinitions p.name [] (blocks.map fun b => (p.headerSignature b.1, b.2))) := by
  refine ⟨?_, ?_, ?_, ?_⟩
  · rw [Scan.result_eq_ok_iff, Block.verdict_eq_none_iff_grammar]
  · intro s hs
    have hmarks := Block.marks_eq_of_verdict engine p
      ((Scan.result_eq_ok_iff engine p).mp ⟨s, hs⟩)
    rw [← Scan.blocks_of_ok hs] at hmarks
    exact ⟨hmarks, p.blocks_apart hmarks, fun b hb => p.blocks_within hmarks hb⟩
  · intro e
    rw [← Block.verdict_eq_some_iff, Scan.ofProgram_result]
    cases Block.verdict engine p p.lineNumbers p.lineCount <;> simp
  · intro n e hstop
    exact ⟨_, Block.marksBefore_of_stops engine p hstop, Scan.ofProgram_warnings engine p⟩

end MipsMacro
