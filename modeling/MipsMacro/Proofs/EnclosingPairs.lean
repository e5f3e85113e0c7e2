import MipsMacro.Proofs.LexedLine
import MipsMacro.Proofs.Parentheses

/-!
# Enclosing pairs of parentheses

A parenthesis that closes belongs to the last one that is still open, and to none if none is open. The
parser of calls does not keep the open ones, it counts them. Proved here:

* `Call.mem_pairsFrom_iff`: how many parentheses are open behind the first one is all it takes to know
  where that one is closed;
* `Call.pairedEnds_iff_wrapped`: the first token and the last one are a pair exactly if the tokens
  between them are balanced;
* `Call.neverClosed_iff`: which tokens may stand behind a first parenthesis that is never closed;
* `Call.stripParens_eq_of_pairs`: so the parser drops a pair that encloses all tokens, but also a first
  parenthesis that is never closed with a last one that closes another (`stripParens_neverClosed`).
-/

namespace MipsMacro.Call

/-! ## Pairs -/

/-- The pairs of parentheses from place `n` on, each by the places of its two tokens; `opened` are the
places in front of `n` where a parenthesis is still open, the last one first. -/
def pairsFrom (n : Nat) (opened : List Nat) : List TokenKind → List (Nat × Nat)
  | [] => []
  | .leftParen :: kinds => pairsFrom (n + 1) (n :: opened) kinds
  | .rightParen :: kinds =>
    match opened with
    | [] => pairsFrom (n + 1) [] kinds
    | left :: opened => (left, n) :: pairsFrom (n + 1) opened kinds
  | _ :: kinds => pairsFrom (n + 1) opened kinds

def pairs (kinds : List TokenKind) : List (Nat × Nat) := pairsFrom 0 [] kinds

/-- The first token and the last one are a pair of parentheses. -/
def PairedEnds (kinds : List TokenKind) : Prop := (0, kinds.length - 1) ∈ pairs kinds

/-- Parentheses stand at both ends, but the first one is never closed. -/
def NeverClosed (kinds : List TokenKind) : Prop :=
  kinds.head? = some .leftParen ∧ kinds.getLast? = some .rightParen ∧ ∀ pair ∈ pairs kinds, pair.1 ≠ 0

instance (kinds : List TokenKind) : Decidable (PairedEnds kinds) :=
  inferInstanceAs (Decidable (_ ∈ _))

instance (kinds : List TokenKind) : Decidable (NeverClosed kinds) :=
  inferInstanceAs (Decidable (_ ∧ _ ∧ _))

theorem opened_or_le_of_mem_pairsFrom {n left right : Nat} {opened : List Nat}
    {kinds : List TokenKind} (h : (left, right) ∈ pairsFrom n opened kinds) :
    left ∈ opened ∨ n ≤ left := by
  fun_induction pairsFrom n opened kinds with
  | case1 => cases h
  | case2 n opened kinds ih =>
    rcases ih h with hmem | hle
    · rcases List.mem_cons.mp hmem with rfl | hmem
      · exact Or.inr (Nat.le_refl _)
      · exact Or.inl hmem
    · exact Or.inr (Nat.le_of_succ_le hle)
  | case3 n kinds ih => exact (ih h).imp_right Nat.le_of_succ_le
  | case4 n kinds last opened ih =>
    rcases List.mem_cons.mp h with heq | h
    · obtain ⟨rfl, -⟩ := Prod.mk.inj heq
      exact Or.inl (List.mem_cons_self ..)
    · exact (ih h).imp (List.mem_cons_of_mem _) Nat.le_of_succ_le
  | case5 n opened kind kinds _ _ ih => exact (ih h).imp_right Nat.le_of_succ_le

/-! ## What a pair encloses -/

/-- Behind `depth` open parentheses, the kinds close each of them and no other. -/
structure BalancedFrom (depth : Int) (kinds : List TokenKind) : Prop where
  opened : ∀ part, part <+: kinds → 0 ≤ depth + nesting part
  settled : depth + nesting kinds = 0

theorem balancedFrom_zero_iff {kinds : List TokenKind} : BalancedFrom 0 kinds ↔ Balanced kinds := by
  constructor
  · intro h
    exact ⟨fun part hpart => by simpa using h.opened part hpart, by simpa using h.settled⟩
  · intro h
    exact ⟨fun part hpart => by simpa using h.opened part hpart, by simpa using h.settled⟩

theorem balancedFrom_nil_iff {depth : Int} : BalancedFrom depth [] ↔ depth = 0 := by
  constructor
  · intro h
    simpa using h.settled
  · rintro rfl
    exact balancedFrom_zero_iff.mpr balanced_nil

theorem balancedFrom_cons_iff {depth : Int} {kind : TokenKind} {kinds : List TokenKind} :
    BalancedFrom depth (kind :: kinds) ↔ 0 ≤ depth ∧ BalancedFrom (depth + weight kind) kinds := by
  constructor
  · intro h
    have hopened := forall_prefix_cons.mp h.opened
    simp only [nesting_nil, Int.add_zero, nesting_cons, ← Int.add_assoc] at hopened
    have hsettled := h.settled
    rw [nesting_cons, ← Int.add_assoc] at hsettled
    exact ⟨hopened.1, hopened.2, hsettled⟩
  · rintro ⟨hdepth, hopened, hsettled⟩
    refine ⟨forall_prefix_cons.mpr ?_, ?_⟩
    · simp only [nesting_nil, Int.add_zero, nesting_cons, ← Int.add_assoc]
      exact ⟨hdepth, hopened⟩
    · rw [nesting_cons, ← Int.add_assoc]
      exact hsettled

/-- Of the parentheses that are open in front of place `n`, the one with `depth` others behind it is
closed at place `right`. -/
def ClosedAt (n : Nat) (depth : Int) (kinds : List TokenKind) (right : Nat) : Prop :=
  ∃ inner after, kinds = inner ++ .rightParen :: after ∧ BalancedFrom depth inner ∧
    right = n + inner.length

theorem closedAt_cons_iff {n right : Nat} {depth : Int} {kind : TokenKind} {kinds : List TokenKind} :
    ClosedAt n depth (kind :: kinds) right ↔
      kind = .rightParen ∧ depth = 0 ∧ right = n ∨
        0 ≤ depth ∧ ClosedAt (n + 1) (depth + weight kind) kinds right := by
  constructor
  · rintro ⟨inner, after, hkinds, hinner, hright⟩
    cases inner with
    | nil =>
      rw [balancedFrom_nil_iff] at hinner
      exact Or.inl ⟨(List.cons.inj hkinds).1, hinner, hright⟩
    | cons first inner =>
      obtain ⟨rfl, hrest⟩ := List.cons.inj hkinds
      rw [balancedFrom_cons_iff] at hinner
      rw [List.length_cons] at hright
      exact Or.inr ⟨hinner.1, inner, after, hrest, hinner.2, by omega⟩
  · rintro (⟨rfl, hdepth, hright⟩ | ⟨hdepth, inner, after, rfl, hinner, hright⟩)
    · exact ⟨[], kinds, rfl, balancedFrom_nil_iff.mpr hdepth, hright⟩
    · refine ⟨kind :: inner, after, rfl, balancedFrom_cons_iff.mpr ⟨hdepth, hinner⟩, ?_⟩
      rw [List.length_cons]
      omega

theorem not_closedAt_of_neg {n right : Nat} {depth : Int} {kinds : List TokenKind} (h : depth < 0) :
    ¬ ClosedAt n depth kinds right := by
  rintro ⟨inner, after, -, hinner, -⟩
  have hnonneg := hinner.opened [] List.nil_prefix
  rw [nesting_nil] at hnonneg
  omega

/-- The number of open parentheses behind the one at place zero decides where that one is closed. -/
theorem mem_pairsFrom_iff {n right : Nat} {above : List Nat} {kinds : List TokenKind} (hn : 0 < n)
    (habove : 0 ∉ above) :
    (0, right) ∈ pairsFrom n (above ++ [0]) kinds ↔ ClosedAt n above.length kinds right := by
  induction kinds generalizing n above with
  | nil => simp [pairsFrom, ClosedAt]
  | cons kind kinds ih =>
    rw [closedAt_cons_iff]
    cases kind with
    | leftParen =>
      have hrest : (0, right) ∈ pairsFrom (n + 1) (n :: above ++ [0]) kinds ↔
          ClosedAt (n + 1) (above.length + 1 : Nat) kinds right :=
        ih n.succ_pos (List.not_mem_cons_of_ne_of_not_mem (Nat.ne_of_lt hn) habove)
      rw [List.cons_append] at hrest
      simp [pairsFrom, hrest, weight]
    | rightParen =>
      cases above with
      | nil =>
        have hgone : (0, right) ∉ pairsFrom (n + 1) [] kinds := fun hmem => by
          simpa using opened_or_le_of_mem_pairsFrom hmem
        simp [pairsFrom, weight, hgone, not_closedAt_of_neg]
      | cons a above =>
        rw [List.mem_cons, not_or] at habove
        obtain ⟨hne, habove⟩ := habove
        have hrest := ih (n := n + 1) n.succ_pos habove
        have hpos : (0 : Int) ≤ above.length + 1 := by omega
        have hother : (above.length : Int) + 1 ≠ 0 := by omega
        have hback : (above.length : Int) + 1 + -1 = above.length := by omega
        simp [pairsFrom, hrest, weight, hne, hpos, hother, hback]
    | _ =>
      have hrest := ih (n := n + 1) n.succ_pos habove
      simp [pairsFrom, hrest, weight]

theorem mem_pairs_zero_iff {kind : TokenKind} {kinds : List TokenKind} {right : Nat} :
    (0, right) ∈ pairs (kind :: kinds) ↔ kind = .leftParen ∧ ClosedAt 1 0 kinds right := by
  cases kind with
  | leftParen =>
    have hclosed : (0, right) ∈ pairsFrom 1 ([] ++ [0]) kinds ↔ ClosedAt 1 (0 : Nat) kinds right :=
      mem_pairsFrom_iff Nat.one_pos List.not_mem_nil
    simpa [pairs, pairsFrom] using hclosed
  | _ =>
    have hlate : (0, right) ∉ pairsFrom 1 [] kinds := fun hmem => by
      simpa using opened_or_le_of_mem_pairsFrom hmem
    simp [pairs, pairsFrom, hlate]

/-- The first token and the last one are a pair exactly if the tokens between them are balanced. -/
theorem pairedEnds_iff_wrapped {kinds : List TokenKind} : PairedEnds kinds ↔ Wrapped kinds := by
  constructor
  · intro h
    cases kinds with
    | nil => simp [PairedEnds, pairs, pairsFrom] at h
    | cons kind kinds =>
      obtain ⟨rfl, inner, after, rfl, hinner, hlast⟩ := mem_pairs_zero_iff.mp h
      -- the closing parenthesis is the last token
      obtain rfl : after = [] := by
        simp only [List.length_cons, List.length_append, Nat.add_sub_cancel] at hlast
        exact List.eq_nil_of_length_eq_zero (by omega)
      exact ⟨inner, rfl, balancedFrom_zero_iff.mp hinner⟩
  · rintro ⟨inner, rfl, hinner⟩
    refine mem_pairs_zero_iff.mpr ⟨rfl, inner, [], rfl, balancedFrom_zero_iff.mpr hinner, ?_⟩
    simp only [List.length_cons, List.length_append, List.length_nil]
    omega

/-- The outermost of the open parentheses stays open exactly if the kinds close no more than those
behind it. -/
theorem forall_not_closedAt_iff {n : Nat} {depth : Int} (hdepth : 0 ≤ depth) (kinds : List TokenKind) :
    (∀ right, ¬ ClosedAt n depth kinds right) ↔ ∀ part, part <+: kinds → 0 ≤ depth + nesting part := by
  induction kinds generalizing n depth with
  | nil => simp [ClosedAt, hdepth]
  | cons kind kinds ih =>
    have hweight := neg_one_le_weight kind
    simp only [closedAt_cons_iff, forall_prefix_cons, nesting_nil, nesting_cons, Int.add_zero, hdepth,
      true_and, not_or, forall_and, ← Int.add_assoc]
    rcases Int.lt_or_le (depth + weight kind) 0 with hneg | hnonneg
    · -- nothing but the outermost one is open, and the token closes it
      have hright : kind = .rightParen := Decidable.byContradiction fun hne => by
        have := weight_nonneg hne
        omega
      refine iff_of_false (fun h => h.1 n ⟨hright, by omega, rfl⟩) fun h => ?_
      have hfirst := h [] List.nil_prefix
      rw [nesting_nil] at hfirst
      omega
    · have hopen : ¬ (kind = .rightParen ∧ depth = 0) := by
        rintro ⟨rfl, rfl⟩
        simp [weight] at hnonneg
      rw [← ih hnonneg]
      constructor
      · exact fun h => h.2
      · exact fun h => ⟨fun right hclosed => hopen ⟨hclosed.1, hclosed.2.1⟩, h⟩

theorem closedAt_concat_iff {n right : Nat} {depth : Int} {kinds : List TokenKind} :
    ClosedAt n depth (kinds ++ [.rightParen]) right ↔
      ClosedAt n depth kinds right ∨ BalancedFrom depth kinds ∧ right = n + kinds.length := by
  induction kinds generalizing n depth with
  | nil =>
    rw [List.nil_append, closedAt_cons_iff]
    simp [ClosedAt, balancedFrom_nil_iff]
  | cons kind kinds ih =>
    rw [List.cons_append, closedAt_cons_iff, closedAt_cons_iff, ih, balancedFrom_cons_iff,
      List.length_cons, Nat.add_right_comm n 1, ← Nat.add_assoc]
    simp only [and_or_left, or_assoc, and_assoc]

/-- The first of the parentheses at both ends is never closed exactly if those between them close only
each other and leave one open. -/
theorem forall_ne_zero_iff {inner : List TokenKind} :
    (∀ pair ∈ pairs (.leftParen :: (inner ++ [.rightParen])), pair.1 ≠ 0) ↔
      Opened inner ∧ ¬ Balanced inner := by
  have hfirst : (∀ pair ∈ pairs (.leftParen :: (inner ++ [.rightParen])), pair.1 ≠ 0) ↔
      ∀ right, (0, right) ∉ pairs (.leftParen :: (inner ++ [.rightParen])) := by
    constructor
    · exact fun h right hmem => h (0, right) hmem rfl
    · rintro h ⟨left, right⟩ hmem rfl
      exact h right hmem
  have hopened := forall_not_closedAt_iff (n := 1) (Int.le_refl 0) inner
  simp only [Int.zero_add] at hopened
  rw [hfirst, Opened, ← hopened, ← balancedFrom_zero_iff]
  simp only [mem_pairs_zero_iff, closedAt_concat_iff, true_and, not_or, not_and, forall_and]
  refine and_congr_right fun _ => ⟨fun h hbalanced => h _ hbalanced rfl, fun h _ hbalanced => ?_⟩
  exact absurd hbalanced h

theorem neverClosed_iff {kinds : List TokenKind} :
    NeverClosed kinds ↔
      ∃ inner, kinds = .leftParen :: (inner ++ [.rightParen]) ∧ Opened inner ∧ ¬ Balanced inner := by
  constructor
  · rintro ⟨hhead, hlast, h⟩
    obtain ⟨rest, rfl⟩ := List.head?_eq_some_iff.mp hhead
    rcases List.eq_nil_or_concat rest with rfl | ⟨inner, last, rfl⟩
    · cases hlast
    · rw [List.concat_eq_append] at hlast h ⊢
      rw [← List.cons_append, List.getLast?_concat, Option.some.injEq] at hlast
      subst hlast
      exact ⟨inner, rfl, forall_ne_zero_iff.mp h⟩
  · rintro ⟨inner, rfl, h⟩
    refine ⟨rfl, ?_, forall_ne_zero_iff.mpr h⟩
    rw [← List.cons_append, List.getLast?_concat]

theorem pairedEnds_or_neverClosed_iff {kinds : List TokenKind} :
    PairedEnds kinds ∨ NeverClosed kinds ↔
      ∃ inner, kinds = .leftParen :: (inner ++ [.rightParen]) ∧ Opened inner := by
  rw [pairedEnds_iff_wrapped, neverClosed_iff]
  constructor
  · rintro (⟨inner, hkinds, hinner⟩ | ⟨inner, hkinds, hinner, -⟩)
    · exact ⟨inner, hkinds, hinner.opened⟩
    · exact ⟨inner, hkinds, hinner⟩
  · rintro ⟨inner, hkinds, hinner⟩
    by_cases hbalanced : Balanced inner
    · exact Or.inl ⟨inner, hkinds, hbalanced⟩
    · exact Or.inr ⟨inner, hkinds, hinner, hbalanced⟩

/-- **The parser drops the first and the last token** if they are a pair of parentheses; but also if they
are parentheses of which the first is never closed. All other tokens it keeps. -/
theorem stripParens_eq_of_pairs (ts : List Token) :
    stripParens ts =
      if PairedEnds (ts.map Token.kind) ∨ NeverClosed (ts.map Token.kind) then ts.tail.dropLast
      else ts := by
  split
  · next h =>
    obtain ⟨kinds, hkinds, hopened⟩ := pairedEnds_or_neverClosed_iff.mp h
    obtain ⟨left, rest, rfl, hleft, hrest⟩ := List.map_eq_cons_iff.mp hkinds
    obtain ⟨inner, back, rfl, rfl, hback⟩ := List.map_eq_append_iff.mp hrest
    obtain ⟨right, rfl, hright⟩ := List.map_eq_singleton_iff.mp hback
    rw [stripParens_wrapped hleft hright hopened, List.tail_cons, List.dropLast_concat]
  · next h =>
    rcases stripParens_cases ts with hsame | ⟨left, inner, right, rfl, hleft, hright, hopened, -⟩
    · exact hsame
    · refine absurd (pairedEnds_or_neverClosed_iff.mpr ⟨inner.map Token.kind, ?_, hopened⟩) h
      simp [hleft, hright]

/-- The first parenthesis of the arguments is never closed. -/
def neverClosedTokens : List Token :=
  [⟨.identifier, "m", 1, 1, 0⟩, ⟨.leftParen, "(", 1, 3, 2⟩, ⟨.identifier, "a", 1, 4, 3⟩,
    ⟨.comma, ",", 1, 5, 4⟩, ⟨.leftParen, "(", 1, 7, 6⟩, ⟨.identifier, "b", 1, 8, 7⟩,
    ⟨.rightParen, ")", 1, 9, 8⟩]

/-- **A pair that does not enclose.** The first parenthesis of the arguments is never closed and the last
one closes another, but the parser drops both, and makes two arguments of what is one. -/
theorem stripParens_neverClosed :
    tokenize "main.asm" 1 "m (a, (b)" = .ok neverClosedTokens ∧
      ¬ PairedEnds (neverClosedTokens.tail.map Token.kind) ∧
      stripParens neverClosedTokens.tail ≠ neverClosedTokens.tail ∧
      (splitTopLevel 0 neverClosedTokens.tail).length = 1 ∧
      (parse? "main.asm" "m (a, (b)" neverClosedTokens).map (·.arguments.toList) = some ["a", "(b"] := by
  have htokens : tokenize "main.asm" 1 "m (a, (b)" = .ok neverClosedTokens :=
    tokenize_eq_ok_iff.mpr ⟨by decide +kernel, by decide +kernel⟩
  exact ⟨htokens, by decide, by decide, by decide, by decide +kernel⟩

end MipsMacro.Call
