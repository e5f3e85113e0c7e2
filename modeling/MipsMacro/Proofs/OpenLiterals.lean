import Mathlib.Algebra.GroupWithZero.Nat
import MipsMacro.Proofs.SourceText

/-!
# Literals that nothing closes

A text ends inside a literal or it can be cut into tokens. Proved here:

* `Quoting.LeftOpen.unique`: only one quote can open a literal that is open at the end of the text;
* `Lexer.leftOpen_of_pieces`: and the lexer stops at this quote;
* `Program.rows_eq_error_iff`: lines are refused for the first of them that ends inside a literal;
* `refused_iff_open`: so a text or a source is refused for such a literal and for nothing else.
-/

namespace MipsMacro

open Quoting

namespace Quoting

/-- The quote behind `before` opens a literal that is open from there to the end of the text. -/
def LeftOpen (text before : List Char) (quote : Quote) : Prop :=
  top.run before = top ∧ ∃ after, text = before ++ quote.char :: after ∧
    ∀ part, part <+: after → ((literal quote).run part).isOpen = true

namespace LeftOpen

variable {text before before' pre : List Char} {quote quote' : Quote}

theorem prepend (hpre : top.run pre = top) (h : LeftOpen text before quote) :
    LeftOpen (pre ++ text) (pre ++ before) quote := by
  obtain ⟨htop, after, rfl, hopen⟩ := h
  refine ⟨?_, after, by simp, hopen⟩
  rw [run_append, hpre, htop]

theorem isOpen_run (h : LeftOpen text before quote) : (top.run text).isOpen = true := by
  obtain ⟨htop, after, rfl, hopen⟩ := h
  rw [run_append, htop, run_cons, Lexer.step_quote]
  exact hopen after List.prefix_rfl

/-- Behind the quote no character is outside of literals again, so none opens another one. -/
theorem length_le (h : LeftOpen text before quote) (h' : LeftOpen text before' quote') :
    before'.length ≤ before.length := by
  obtain ⟨htop, after, rfl, hopen⟩ := h
  obtain ⟨htop', after', heq, -⟩ := h'
  rcases List.append_eq_append_iff.mp heq with ⟨mid, hbefore', hmid⟩ | ⟨mid, hbefore, -⟩
  · cases mid with
    | nil => simp [hbefore']
    | cons c part =>
      obtain ⟨rfl, hafter⟩ := List.cons.inj hmid
      have hrun := hopen part ⟨_, hafter.symm⟩
      rw [hbefore', run_append, htop, run_cons, Lexer.step_quote] at htop'
      rw [htop'] at hrun
      cases hrun
  · simp [hbefore]

theorem unique (h : LeftOpen text before quote) (h' : LeftOpen text before' quote') :
    before = before' ∧ quote = quote' := by
  have hlength : before.length = before'.length := Nat.le_antisymm (h'.length_le h) (h.length_le h')
  obtain ⟨-, after, rfl, -⟩ := h
  obtain ⟨-, after', heq, -⟩ := h'
  obtain ⟨hbefore, hrest⟩ := List.append_inj heq hlength
  have hchar : quote.char = quote'.char := (List.cons.inj hrest).1
  refine ⟨hbefore, ?_⟩
  revert hchar
  cases quote <;> cases quote' <;> decide

end LeftOpen

end Quoting

/-! ## Lines -/

theorem Lexer.leftOpen_of_pieces {cs : List Char} {quote : Quote} (h : (pieces cs).2 = some quote) :
    LeftOpen cs (covered (pieces cs).1) quote := by
  fun_induction pieces cs with
  | case1 => cases h
  | case2 c cs q hpiece =>
    cases h
    obtain ⟨rfl, hliteral⟩ := literal_of_piece_error hpiece
    exact ⟨rfl, cs, rfl, fun part hpart => isOpen_of_literal_eq_none _ hliteral hpart⟩
  | case3 c cs kind tail rest hpiece more ih =>
    have hrest := ih h
    have happ := piece_append hpiece
    have hcovered : covered (⟨kind, c :: tail⟩ :: more.1) = (c :: tail) ++ covered more.1 := rfl
    rw [hcovered, show c :: cs = (c :: tail) ++ rest by rw [← happ]; rfl]
    rcases piece_cases hpiece with ⟨k, -, hrun⟩ | ⟨-, rfl, hblank⟩ | ⟨-, rfl, rfl⟩
    · exact hrest.prepend hrun
    · exact hrest.prepend (run_top (by simpa using isInert_of_isBlank hblank))
    · -- nothing follows a comment
      simp [more, pieces] at h

theorem tokenize_eq_error_iff {file : String} {n : Nat} {text : String} {e : Error} :
    tokenize file n text = .error e ↔
      ∃ before quote, LeftOpen text.toList before quote ∧
        e = .lexical (.ofNat file n (1 + before.length)) quote.message := by
  unfold tokenize
  split
  · next ps hpieces =>
    have hnone : (Lexer.pieces text.toList).2 = none := by rw [hpieces]
    rw [Lexer.pieces_eq_none_iff] at hnone
    refine iff_of_false nofun ?_
    rintro ⟨before, quote, hopen, -⟩
    rw [hopen.isOpen_run] at hnone
    cases hnone
  · next ps quote hpieces =>
    have hstops : (Lexer.pieces text.toList).2 = some quote := by rw [hpieces]
    have hopen := Lexer.leftOpen_of_pieces hstops
    rw [hpieces] at hopen
    constructor
    · intro h
      cases h
      exact ⟨_, _, hopen, rfl⟩
    · rintro ⟨before', quote', hopen', rfl⟩
      obtain ⟨rfl, rfl⟩ := hopen.unique hopen'
      rfl

theorem tokenize_error_iff (file : String) (n : Nat) (text : String) :
    (∃ e, tokenize file n text = .error e) ↔ (top.run text.toList).isOpen = true := by
  have hok := tokenize_ok_iff file n text
  cases htokens : tokenize file n text with
  | ok tokens =>
    have hclosed := hok.mp ⟨tokens, htokens⟩
    simp [hclosed]
  | error e =>
    simp only [htokens, reduceCtorEq, exists_false, false_iff, Bool.not_eq_false] at hok
    simp [hok]

/-! ## Sources -/

namespace Program

/-- The first line that cannot be cut into tokens decides. -/
theorem rows_eq_error_iff {name : String} {n : Nat} {texts : List String} {e : Error} :
    rows name n texts = .error e ↔
      ∃ i text, texts[i]? = some text ∧ tokenize name (n + i) text = .error e ∧
        ∀ earlier ∈ texts.take i, (top.run earlier.toList).isOpen = false := by
  induction texts generalizing n with
  | nil => simp [rows]
  | cons text texts ih =>
    rw [rows]
    cases htokens : tokenize name n text with
    | error e' =>
      constructor
      · intro h
        cases h
        exact ⟨0, text, rfl, htokens, by simp⟩
      · rintro ⟨i, found, hfound, herror, hearlier⟩
        cases i with
        | zero =>
          cases hfound
          rw [Nat.add_zero, htokens] at herror
          cases herror
          rfl
        | succ i =>
          have hopen := (tokenize_error_iff name n text).mp ⟨e', htokens⟩
          rw [hearlier text (by simp)] at hopen
          cases hopen
    | ok tokens =>
      have hclosed := (tokenize_ok_iff name n text).mp ⟨tokens, htokens⟩
      have hrows : (do let rest ← rows name (n + 1) texts
                       return (⟨some text, some tokens⟩ : SourceLine) :: rest) = .error e ↔
          rows name (n + 1) texts = .error e := by
        cases rows name (n + 1) texts <;> simp [bind, Except.bind, pure, Except.pure]
      refine hrows.trans (ih.trans ?_)
      constructor
      · rintro ⟨i, found, hfound, herror, hearlier⟩
        refine ⟨i + 1, found, hfound, ?_, ?_⟩
        · rw [show n + (i + 1) = n + 1 + i by omega]
          exact herror
        · rw [List.take_succ_cons]
          exact List.forall_mem_cons.mpr ⟨hclosed, hearlier⟩
      · rintro ⟨i, found, hfound, herror, hearlier⟩
        cases i with
        | zero =>
          cases hfound
          rw [Nat.add_zero, htokens] at herror
          cases herror
        | succ i =>
          rw [List.take_succ_cons] at hearlier
          refine ⟨i, found, hfound, ?_, (List.forall_mem_cons.mp hearlier).2⟩
          rw [show n + 1 + i = n + (i + 1) by omega]
          exact herror

theorem ofSource_eq_error_iff {name source : String} {e : Error} :
    ofSource name source = .error e ↔
      ∃ i line, (Text.lines source.toList)[i]? = some line ∧
        tokenize name (i + 1) (String.ofList line) = .error e ∧
        ∀ earlier ∈ (Text.lines source.toList).take i, (top.run earlier).isOpen = false := by
  have hrows : ofSource name source = .error e ↔
      rows name 1 ((Text.lines source.toList).map String.ofList) = .error e := by
    rw [ofSource]
    cases rows name 1 ((Text.lines source.toList).map String.ofList) <;>
      simp [bind, Except.bind, pure, Except.pure]
  rw [hrows, rows_eq_error_iff]
  simp only [List.getElem?_map, Option.map_eq_some_iff, ← List.map_take, List.forall_mem_map,
    String.toList_ofList, Nat.add_comm 1]
  constructor
  · rintro ⟨i, text, ⟨line, hline, rfl⟩, herror, hearlier⟩
    exact ⟨i, line, hline, herror, hearlier⟩
  · rintro ⟨i, line, hline, herror, hearlier⟩
    exact ⟨i, String.ofList line, ⟨line, hline, rfl⟩, herror, hearlier⟩

theorem ofSource_error_iff (name source : String) :
    (∃ e, ofSource name source = .error e) ↔
      ∃ line ∈ Text.lines source.toList, (top.run line).isOpen = true := by
  have hok := ofSource_ok_iff name source
  rw [closes_iff] at hok
  cases hprogram : ofSource name source with
  | ok p =>
    have hclosed := hok.mp ⟨p, hprogram⟩
    simpa using hclosed
  | error e =>
    simpa [hprogram] using hok

end Program

/-- **Only open literals are refused.** A text cannot be cut into tokens exactly if it ends inside a
literal. The error then names the file, the line and the column of the quote that opened this literal,
both modulo 2³², and says which kind of literal it is. A source cannot be read exactly if one of its
lines ends so, and the error is that of the first of these lines. -/
theorem refused_iff_open (file : String) :
    (∀ n text,
      ((∃ e, tokenize file n text = .error e) ↔ (top.run text.toList).isOpen = true) ∧
      ∀ e, tokenize file n text = .error e ↔
        ∃ before quote location, LeftOpen text.toList before quote ∧
          location.file = file ∧ location.line.toNat = n % 2 ^ 32 ∧
          location.column.toNat = (1 + before.length) % 2 ^ 32 ∧
          e = .lexical location (match quote with
            | .double => "Unterminated string literal"
            | .single => "Unterminated character literal")) ∧
    ∀ source,
      ((∃ e, Program.ofSource file source = .error e) ↔
        ∃ line ∈ Text.lines source.toList, (top.run line).isOpen = true) ∧
      ∀ e, Program.ofSource file source = .error e ↔
        ∃ i line, (Text.lines source.toList)[i]? = some line ∧
          tokenize file (i + 1) (String.ofList line) = .error e ∧
          ∀ earlier ∈ (Text.lines source.toList).take i, (top.run earlier).isOpen = false := by
  refine ⟨fun n text => ⟨tokenize_error_iff file n text, fun e => ?_⟩, fun source =>
    ⟨Program.ofSource_error_iff file source, fun e => Program.ofSource_eq_error_iff⟩⟩
  rw [tokenize_eq_error_iff]
  constructor
  · rintro ⟨before, quote, hopen, rfl⟩
    refine ⟨before, quote, .ofNat file n (1 + before.length), hopen, rfl, rfl, rfl, ?_⟩
    cases quote <;> rfl
  · rintro ⟨before, quote, location, hopen, hfile, hline, hcolumn, rfl⟩
    have hlocation : location = .ofNat file n (1 + before.length) := by
      obtain ⟨file', line, column⟩ := location
      simp only [Location.ofNat, Location.mk.injEq]
      exact ⟨hfile, UInt32.toNat_inj.mp hline, UInt32.toNat_inj.mp hcolumn⟩
    refine ⟨before, quote, hopen, ?_⟩
    rw [hlocation]
    cases quote <;> rfl

end MipsMacro
