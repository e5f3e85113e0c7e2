import MipsMacro.Call

/-!
# Parentheses and commas

The parser of calls counts open parentheses from left to right and stops counting at zero. Proved here,
with the difference of opening and closing parentheses as the measure:

* `Call.closesEarly_eq_false_iff`: a pair of parentheses is found to enclose what it does enclose;
* `Call.stripParens_cases`, `Call.stripParens_wrapped`: so exactly such a pair is dropped;
* `Call.IsGroup.splitTopLevel_append`: no comma divides a group of tokens that are balanced and hold
  commas only inside of parentheses;
* `Call.intercalate_splitTopLevel`, `Call.length_splitTopLevel`: groups with commas between them are all
  the tokens there are, and there is one group more than there are commas outside of parentheses.
-/

namespace MipsMacro

theorem forall_prefix_cons {α : Type} {P : List α → Prop} {a : α} {as : List α} :
    (∀ part, part <+: a :: as → P part) ↔ P [] ∧ ∀ part, part <+: as → P (a :: part) := by
  constructor
  · intro h
    exact ⟨h [] List.nil_prefix, fun part hpart => h _ (List.cons_prefix_cons.mpr ⟨rfl, hpart⟩)⟩
  · rintro ⟨hnil, hcons⟩ part hpart
    rcases List.prefix_cons_iff.mp hpart with rfl | ⟨tail, rfl, htail⟩
    · exact hnil
    · exact hcons tail htail

namespace Call

/-! ## Counting -/

/-- What a token of this kind adds to the number of open parentheses. -/
def weight : TokenKind → Int
  | .leftParen => 1
  | .rightParen => -1
  | _ => 0

/-- How many parentheses more are opened than closed. -/
def nesting : List TokenKind → Int
  | [] => 0
  | kind :: kinds => weight kind + nesting kinds

@[simp] theorem nesting_nil : nesting [] = 0 := rfl

@[simp] theorem nesting_cons (kind : TokenKind) (kinds : List TokenKind) :
    nesting (kind :: kinds) = weight kind + nesting kinds := rfl

@[simp] theorem nesting_append (as bs : List TokenKind) :
    nesting (as ++ bs) = nesting as + nesting bs := by
  induction as with
  | nil => simp
  | cons kind as ih => simp [ih, Int.add_assoc]

theorem neg_one_le_weight (kind : TokenKind) : -1 ≤ weight kind := by
  cases kind <;> decide

theorem weight_nonneg {kind : TokenKind} (h : kind ≠ .rightParen) : 0 ≤ weight kind := by
  cases kind with
  | rightParen => exact absurd rfl h
  | _ => decide

/-- As long as no parenthesis is closed that is not open, the parser counts right. -/
theorem depthAfter_eq {depth : Nat} {t : Token} (h : 0 ≤ depth + weight t.kind) :
    (depthAfter depth t : Int) = depth + weight t.kind := by
  obtain ⟨kind, text, line, column, offset⟩ := t
  cases kind with
  | leftParen => rfl
  | rightParen =>
    simp only [weight] at h
    simp only [depthAfter, weight, reduceCtorEq, if_false, if_true]
    omega
  | _ => simp [depthAfter, weight]

/-! ## Enclosing parentheses -/

theorem closesEarly_cons {depth : Nat} {t : Token} {rest : List Token} (h : rest ≠ []) :
    closesEarly depth (t :: rest) =
      ((t.kind = .rightParen && depthAfter depth t = 0) || closesEarly (depthAfter depth t) rest) := by
  cases rest with
  | nil => exact absurd rfl h
  | cons u rest => rfl

theorem closesEarly_eq_false_iff {depth : Nat} (hdepth : 0 < depth) (ts : List Token) (last : Token) :
    closesEarly depth (ts ++ [last]) = false ↔
      ∀ part, part <+: ts → 0 < depth + nesting (part.map Token.kind) := by
  induction ts generalizing depth with
  | nil =>
    have hnil : closesEarly depth ([] ++ [last]) = false := rfl
    simp only [hnil, List.prefix_nil, true_iff]
    rintro part rfl
    simpa using hdepth
  | cons t ts ih =>
    have hweight := neg_one_le_weight t.kind
    have hcount : (depthAfter depth t : Int) = depth + weight t.kind := depthAfter_eq (by omega)
    rw [List.cons_append, closesEarly_cons (by simp), forall_prefix_cons]
    by_cases hzero : depthAfter depth t = 0
    · -- only a closing parenthesis can leave none open
      have hright : t.kind = .rightParen := Decidable.byContradiction fun hne => by
        have := weight_nonneg hne
        omega
      refine iff_of_false (by simp [hright, hzero]) fun h => ?_
      have hfirst := h.2 [] List.nil_prefix
      simp only [List.map_cons, List.map_nil, nesting_cons, nesting_nil] at hfirst
      omega
    · have hrest := ih (Nat.pos_of_ne_zero hzero)
      simp only [hcount] at hrest
      simp only [hzero, decide_false, Bool.and_false, Bool.false_or, hrest, List.map_cons,
        nesting_cons, List.map_nil, nesting_nil, Int.add_assoc]
      constructor
      · intro h
        exact ⟨by omega, h⟩
      · exact fun h => h.2

/-- The kinds never close a parenthesis that is not open. -/
def Opened (kinds : List TokenKind) : Prop := ∀ part, part <+: kinds → 0 ≤ nesting part

instance (kinds : List TokenKind) : Decidable (Opened kinds) :=
  decidable_of_iff (∀ n ≤ kinds.length, 0 ≤ nesting (kinds.take n)) <| by
    constructor
    · intro h part hpart
      rw [List.prefix_iff_eq_take.mp hpart]
      exact h _ hpart.length_le
    · intro h n _
      exact h _ (List.take_prefix n kinds)

theorem opened_map_iff (ts : List Token) :
    Opened (ts.map Token.kind) ↔ ∀ part, part <+: ts → 0 ≤ nesting (part.map Token.kind) := by
  constructor
  · intro h part hpart
    exact h _ (hpart.map _)
  · intro h part hpart
    obtain ⟨tokens, htokens, rfl⟩ := List.prefix_map_iff.mp hpart
    exact h tokens htokens

theorem closesEarly_wrapped {left : Token} (hleft : left.kind = .leftParen) (inner : List Token)
    (last : Token) :
    closesEarly 0 (left :: (inner ++ [last])) = false ↔ Opened (inner.map Token.kind) := by
  have hdepth : depthAfter 0 left = 1 := by simp [depthAfter, hleft]
  have hearly := closesEarly_eq_false_iff Nat.one_pos inner last
  rw [closesEarly_cons (by simp), opened_map_iff, hdepth]
  simp only [hleft, reduceCtorEq, decide_false, Bool.false_and, Bool.false_or, hearly]
  refine forall₂_congr fun part _ => ?_
  omega

/-- The condition under which the parser drops a pair of parentheses. -/
theorem stripParens_wrapped_iff {left right : Token} (inner : List Token)
    (hleft : left.kind = .leftParen) (hright : right.kind = .rightParen) :
    stripParens (left :: (inner ++ [right])) =
      if closesEarly 0 (left :: (inner ++ [right])) then left :: (inner ++ [right]) else inner := by
  have hlast : (left :: (inner ++ [right])).getLast? = some right := by
    rw [← List.cons_append, List.getLast?_concat]
  cases hearly : closesEarly 0 (left :: (inner ++ [right])) <;>
    simp [stripParens, hleft, hright, hlast, hearly]

/-- A pair of parentheses around tokens that close none but their own is dropped. -/
theorem stripParens_wrapped {left right : Token} {inner : List Token}
    (hleft : left.kind = .leftParen) (hright : right.kind = .rightParen)
    (h : Opened (inner.map Token.kind)) : stripParens (left :: (inner ++ [right])) = inner := by
  have hearly := (closesEarly_wrapped hleft inner right).mpr h
  rw [stripParens_wrapped_iff inner hleft hright, hearly]
  rfl

/-- Nothing else is dropped. -/
theorem stripParens_cases (ts : List Token) :
    stripParens ts = ts ∨
      ∃ left inner right, ts = left :: (inner ++ [right]) ∧ left.kind = .leftParen ∧
        right.kind = .rightParen ∧ Opened (inner.map Token.kind) ∧ stripParens ts = inner := by
  by_cases hends : ts.head?.any (·.kind = .leftParen) = true ∧
      ts.getLast?.any (·.kind = .rightParen) = true
  · obtain ⟨left, hhead, hleft⟩ := (Option.any_eq_true _ _).mp hends.1
    obtain ⟨right, hlast, hright⟩ := (Option.any_eq_true _ _).mp hends.2
    rw [decide_eq_true_iff] at hleft hright
    obtain ⟨rest, rfl⟩ := List.head?_eq_some_iff.mp hhead
    rcases List.eq_nil_or_concat rest with rfl | ⟨inner, last, hrest⟩
    · -- one token cannot be both
      obtain rfl : left = right := Option.some.inj hlast
      rw [hleft] at hright
      cases hright
    · rw [List.concat_eq_append] at hrest
      subst hrest
      obtain rfl : last = right := by
        rw [← List.cons_append, List.getLast?_concat] at hlast
        exact Option.some.inj hlast
      have hstrip := stripParens_wrapped_iff inner hleft hright
      cases hearly : closesEarly 0 (left :: (inner ++ [last])) with
      | true =>
        rw [hearly] at hstrip
        exact Or.inl hstrip
      | false =>
        rw [hearly] at hstrip
        exact Or.inr ⟨left, inner, last, rfl, hleft, hright,
          (closesEarly_wrapped hleft inner last).mp hearly, hstrip⟩
  · left
    refine if_neg fun hdrop => hends ?_
    simp only [Bool.and_eq_true] at hdrop
    exact hdrop.1

/-! ## Groups between commas -/

/-- Parentheses of which each is closed and opened here. -/
structure Balanced (kinds : List TokenKind) : Prop where
  opened : Opened kinds
  settled : nesting kinds = 0

/-- What can stand between two commas that divide: the parentheses are balanced, and there is no comma
outside of them. -/
structure IsGroup (kinds : List TokenKind) : Prop extends Balanced kinds where
  commas : ∀ before after, kinds = before ++ .comma :: after → 0 < nesting before

instance (kinds : List TokenKind) : Decidable (Balanced kinds) :=
  decidable_of_iff (Opened kinds ∧ nesting kinds = 0)
    ⟨fun h => ⟨h.1, h.2⟩, fun h => ⟨h.opened, h.settled⟩⟩

instance (kinds : List TokenKind) : Decidable (IsGroup kinds) :=
  decidable_of_iff (Balanced kinds ∧
      ∀ n < kinds.length, kinds[n]? = some .comma → 0 < nesting (kinds.take n)) <| by
    constructor
    · rintro ⟨hbalanced, hcommas⟩
      refine ⟨hbalanced, ?_⟩
      rintro before after rfl
      have hpos := hcommas before.length (by simp) (by simp)
      rwa [List.take_left] at hpos
    · intro h
      refine ⟨h.toBalanced, fun n hn hcomma => h.commas _ (kinds.drop (n + 1)) ?_⟩
      obtain ⟨_, hget⟩ := List.getElem?_eq_some_iff.mp hcomma
      rw [← hget, ← List.drop_eq_getElem_cons, List.take_append_drop]

theorem Opened.append {as bs : List TokenKind} (ha : Balanced as) (hb : Opened bs) :
    Opened (as ++ bs) := by
  rintro part ⟨rest, heq⟩
  rcases List.append_eq_append_iff.mp heq with ⟨more, has, -⟩ | ⟨tail, rfl, hbs⟩
  · exact ha.opened part ⟨more, has.symm⟩
  · have htail := hb tail ⟨rest, hbs.symm⟩
    rw [nesting_append, ha.settled]
    omega

theorem Balanced.append {as bs : List TokenKind} (ha : Balanced as) (hb : Balanced bs) :
    Balanced (as ++ bs) := by
  refine ⟨Opened.append ha hb.opened, ?_⟩
  rw [nesting_append, ha.settled, hb.settled]
  rfl

theorem balanced_nil : Balanced [] :=
  ⟨fun part hpart => by rw [List.prefix_nil.mp hpart]; decide, rfl⟩

theorem balanced_comma : Balanced [.comma] := by
  refine ⟨?_, rfl⟩
  simp [Opened, forall_prefix_cons, weight]

/-- The first of the tokens opens a parenthesis and the last of them closes it. -/
def Wrapped (kinds : List TokenKind) : Prop :=
  ∃ inner, kinds = .leftParen :: (inner ++ [.rightParen]) ∧ Balanced inner

/-- Balanced tokens lose nothing unless a pair of parentheses encloses them. -/
theorem stripParens_eq_self {ts : List Token} (h : Balanced (ts.map Token.kind))
    (hwrapped : ¬ Wrapped (ts.map Token.kind)) : stripParens ts = ts := by
  rcases stripParens_cases ts with hsame | ⟨left, inner, right, rfl, hleft, hright, hopened, -⟩
  · exact hsame
  · have hkinds : (left :: (inner ++ [right])).map Token.kind =
        .leftParen :: (inner.map Token.kind ++ [.rightParen]) := by
      simp [hleft, hright]
    have hsettled := h.settled
    rw [hkinds] at hsettled
    refine absurd ⟨inner.map Token.kind, hkinds, hopened, ?_⟩ hwrapped
    simp only [nesting_cons, nesting_append, nesting_nil, weight] at hsettled
    omega

/-- Nor do tokens of which a balanced part comes first. -/
theorem stripParens_eq_self_of_append {ts : List Token} {first rest : List TokenKind}
    (hts : ts.map Token.kind = first ++ rest) (hbalanced : Balanced first) (hfirst : first ≠ [])
    (hrest : rest ≠ []) : stripParens ts = ts := by
  rcases stripParens_cases ts with hsame | ⟨left, inner, right, rfl, hleft, hright, hopened, -⟩
  · exact hsame
  · obtain ⟨kind, kinds, rfl⟩ := List.exists_cons_of_ne_nil hfirst
    simp only [List.map_cons, List.map_append, List.map_nil, List.cons_append, hleft] at hts
    obtain ⟨rfl, hinner⟩ := List.cons.inj hts
    -- the parenthesis that the first token opens is closed in the first part
    have hpart : kinds <+: inner.map Token.kind := by
      have hfront := congrArg List.dropLast hinner
      rw [List.dropLast_concat, List.dropLast_append_of_ne_nil hrest] at hfront
      exact ⟨_, hfront.symm⟩
    have hnonneg := hopened kinds hpart
    have hsettled := hbalanced.settled
    simp only [nesting_cons, weight] at hsettled
    omega

theorem depth_eq {ts : List Token} (depth : Nat)
    (h : ∀ part, part <+: ts → 0 ≤ depth + nesting (part.map Token.kind)) :
    ((ts.foldl depthAfter depth : Nat) : Int) = depth + nesting (ts.map Token.kind) := by
  induction ts generalizing depth with
  | nil => simp
  | cons t ts ih =>
    simp only [forall_prefix_cons, List.map_cons, nesting_cons] at h
    have hfirst := h.2 [] List.nil_prefix
    simp only [List.map_nil, nesting_nil, Int.add_zero] at hfirst
    have hcount := depthAfter_eq hfirst
    rw [List.foldl_cons, ih, hcount, List.map_cons, nesting_cons, Int.add_assoc]
    intro part hpart
    rw [hcount, Int.add_assoc]
    exact h.2 part hpart

theorem splitTopLevel_ne_nil (depth : Nat) (ts : List Token) : splitTopLevel depth ts ≠ [] := by
  fun_cases splitTopLevel depth ts <;> simp

/-- Tokens without a comma that divides stay together, whatever follows. -/
theorem splitTopLevel_append {depth : Nat} {ts : List Token}
    (h : ∀ before t after, ts = before ++ t :: after → t.kind = .comma →
      before.foldl depthAfter depth ≠ 0) (rest : List Token) :
    splitTopLevel depth (ts ++ rest) =
      (splitTopLevel (ts.foldl depthAfter depth) rest).modifyHead (ts ++ ·) := by
  induction ts generalizing depth with
  | nil =>
    rw [List.nil_append, List.foldl_nil]
    cases splitTopLevel depth rest <;> rfl
  | cons t ts ih =>
    have hkept : ¬ (t.kind = .comma ∧ depth = 0) := by
      rintro ⟨hcomma, hzero⟩
      exact h [] t ts rfl hcomma hzero
    have hlater : ∀ before u after, ts = before ++ u :: after → u.kind = .comma →
        before.foldl depthAfter (depthAfter depth t) ≠ 0 := fun before u after heq hcomma =>
      h (t :: before) u after (by rw [heq]; rfl) hcomma
    rw [List.cons_append, splitTopLevel, if_neg hkept, ih hlater, List.foldl_cons]
    cases hgroups : splitTopLevel (ts.foldl depthAfter (depthAfter depth t)) rest with
    | nil => exact absurd hgroups (splitTopLevel_ne_nil _ _)
    | cons group groups => rfl

theorem IsGroup.splitTopLevel_append {ts : List Token} (h : IsGroup (ts.map Token.kind))
    (rest : List Token) :
    splitTopLevel 0 (ts ++ rest) = (splitTopLevel 0 rest).modifyHead (ts ++ ·) := by
  have hdepth : ∀ part, part <+: ts →
      ((part.foldl depthAfter 0 : Nat) : Int) = nesting (part.map Token.kind) := by
    intro part hpart
    have hopened := (opened_map_iff ts).mp h.opened
    have hcount := depth_eq 0 fun part' hpart' => by
      have := hopened part' (hpart'.trans hpart)
      omega
    rw [hcount, Int.natCast_zero, Int.zero_add]
  have hend : ts.foldl depthAfter 0 = 0 := by
    have hcount := hdepth ts List.prefix_rfl
    rw [h.settled] at hcount
    exact Int.natCast_eq_zero.mp hcount
  rw [Call.splitTopLevel_append _ rest, hend]
  rintro before t after heq hcomma
  have hcount := hdepth before ⟨_, heq.symm⟩
  have hpos := h.commas (before.map Token.kind) (after.map Token.kind) (by simp [heq, hcomma])
  omega

/-- The commas outside of parentheses, behind `depth` open ones. A parenthesis that closes nothing
leaves none open. -/
def topCommas (depth : Nat) : List Token → Nat
  | [] => 0
  | t :: rest =>
    match t.kind with
    | .leftParen => topCommas (depth + 1) rest
    | .rightParen => topCommas (depth - 1) rest
    | .comma => (if depth = 0 then 1 else 0) + topCommas depth rest
    | _ => topCommas depth rest

/-- The parser has the same parentheses open. -/
theorem topCommas_cons (depth : Nat) (t : Token) (rest : List Token) :
    topCommas depth (t :: rest) =
      (if t.kind = .comma ∧ depth = 0 then 1 else 0) + topCommas (depthAfter depth t) rest := by
  rw [topCommas, depthAfter]
  cases t.kind <;> simp

theorem length_splitTopLevel (depth : Nat) (ts : List Token) :
    (splitTopLevel depth ts).length = 1 + topCommas depth ts := by
  fun_induction splitTopLevel depth ts with
  | case1 => rfl
  | case2 depth t rest hcomma ih =>
    have hdepth : depthAfter depth t = depth := by simp [depthAfter, hcomma.1]
    rw [List.length_cons, ih, topCommas_cons, if_pos hcomma, hdepth]
    omega
  | case3 depth t rest _ hgroups => exact absurd hgroups (splitTopLevel_ne_nil _ _)
  | case4 depth t rest hcomma group groups hgroups ih =>
    rw [hgroups] at ih
    rw [List.length_cons, ← List.length_cons, ih, topCommas_cons, if_neg hcomma, Nat.zero_add]

/-- With the commas that divide them, the groups are the tokens again. -/
theorem intercalate_splitTopLevel {α : Type} {f : Token → α} {comma : α} (depth : Nat)
    {ts : List Token} (h : ∀ t ∈ ts, t.kind = .comma → f t = comma) :
    [comma].intercalate ((splitTopLevel depth ts).map (List.map f)) = ts.map f := by
  fun_induction splitTopLevel depth ts with
  | case1 => rfl
  | case2 depth t rest hcomma ih =>
    obtain ⟨ht, hrest⟩ := List.forall_mem_cons.mp h
    obtain ⟨group, groups, hgroups⟩ := List.exists_cons_of_ne_nil (splitTopLevel_ne_nil depth rest)
    have hjoined := ih hrest
    rw [hgroups] at hjoined ⊢
    simp only [List.map_cons] at hjoined
    simp only [List.map_cons, List.intercalate_cons_cons, hjoined, ht hcomma.1]
    rfl
  | case3 depth t rest _ hgroups => exact absurd hgroups (splitTopLevel_ne_nil _ _)
  | case4 depth t rest _ group groups hgroups ih =>
    obtain ⟨-, hrest⟩ := List.forall_mem_cons.mp h
    rw [hgroups] at ih
    have hjoined := ih hrest
    cases groups with
    | nil => simpa using hjoined
    | cons next groups =>
      simp only [List.map_cons, List.intercalate_cons_cons] at hjoined ⊢
      simp [← hjoined]

end Call

end MipsMacro
