import MipsMacro.Call

/-!
# Where the parts of a call come from

Proved here:

* `splitLabels_eq`: the labels in front of a line are the names in the pairs of a name and a colon
  that it begins with;
* `exists_of_mem_labels`: the labels in front of a line are texts of its identifiers;
* `Call.parse?_head`: a call has its name and its place from one token;
* `Call.parse?_parts`: its labels are texts of identifiers too, and every argument is the text of a
  group of tokens of the line.
-/

namespace MipsMacro

/-! ## Leading labels -/

/-- Whether the pair of tokens with this number, counted from zero, is a name and a colon. -/
def isLabelPair (tokens : List Token) (i : Nat) : Bool :=
  tokens[2 * i]?.any (·.kind = .identifier) && tokens[2 * i + 1]?.any (·.kind = .colon)

/-- How many such pairs a line begins with. -/
def labelCount (tokens : List Token) : Nat :=
  ((List.range (tokens.length / 2)).takeWhile (isLabelPair tokens)).length

/-- The names in the pairs that a line begins with. -/
def labelsOf (tokens : List Token) : List String :=
  (List.range (labelCount tokens)).map fun i => (tokens[2 * i]?.map Token.text).getD ""

/-- What stands behind these pairs. -/
def behindLabels (tokens : List Token) : List Token := tokens.drop (2 * labelCount tokens)

theorem isLabelPair_cons (name colon : Token) (rest : List Token) (i : Nat) :
    isLabelPair (name :: colon :: rest) (i + 1) = isLabelPair rest i := by
  simp only [isLabelPair, Nat.mul_add, Nat.mul_one, List.getElem?_cons_succ, Nat.add_right_comm]

theorem labelCount_cons (name colon : Token) (rest : List Token) :
    labelCount (name :: colon :: rest) =
      if name.kind = .identifier ∧ colon.kind = .colon then labelCount rest + 1 else 0 := by
  have hlength : (name :: colon :: rest).length / 2 = rest.length / 2 + 1 := by
    simp only [List.length_cons]
    omega
  have hpair : isLabelPair (name :: colon :: rest) 0 =
      decide (name.kind = .identifier ∧ colon.kind = .colon) := by
    simp [isLabelPair]
  have hmore : isLabelPair (name :: colon :: rest) ∘ Nat.succ = isLabelPair rest :=
    funext (isLabelPair_cons name colon rest)
  rw [labelCount, hlength, List.range_succ_eq_map, List.takeWhile_cons, hpair, List.takeWhile_map,
    hmore]
  by_cases h : name.kind = .identifier ∧ colon.kind = .colon
  · simp [h, labelCount]
  · simp [h]

theorem labelsOf_cons {name colon : Token} (h : name.kind = .identifier ∧ colon.kind = .colon)
    (rest : List Token) : labelsOf (name :: colon :: rest) = name.text :: labelsOf rest := by
  simp [labelsOf, labelCount_cons, h, List.range_succ_eq_map, Nat.mul_add]

theorem behindLabels_cons {name colon : Token} (h : name.kind = .identifier ∧ colon.kind = .colon)
    (rest : List Token) : behindLabels (name :: colon :: rest) = behindLabels rest := by
  simp [behindLabels, labelCount_cons, h, Nat.mul_add]

theorem splitLabels_eq (tokens : List Token) :
    splitLabels tokens = (labelsOf tokens, behindLabels tokens) := by
  fun_induction splitLabels tokens with
  | case1 name colon rest h labels body hrest ih =>
    obtain ⟨hlabels, hbody⟩ := Prod.mk.inj (hrest.symm.trans ih)
    rw [labelsOf_cons h, behindLabels_cons h, hlabels, hbody]
  | case2 name colon rest h => simp [labelsOf, behindLabels, labelCount_cons, h]
  | case3 tokens h =>
    have hcount : labelCount tokens = 0 := by
      match tokens with
      | [] => rfl
      | [t] => simp [labelCount]
      | name :: colon :: rest => exact absurd rfl (h name colon rest)
    simp [labelsOf, behindLabels, hcount]

theorem splitLabels_fst (tokens : List Token) : (splitLabels tokens).1 = labelsOf tokens := by
  rw [splitLabels_eq]

theorem splitLabels_snd (tokens : List Token) : (splitLabels tokens).2 = behindLabels tokens := by
  rw [splitLabels_eq]

theorem exists_of_mem_labels {tokens : List Token} {label : String}
    (h : label ∈ labelsOf tokens) :
    ∃ t ∈ tokens, t.kind = .identifier ∧ t.text = label := by
  rw [← splitLabels_fst] at h
  fun_induction splitLabels tokens with
  | case1 name colon rest hkinds labels body hsplit ih =>
    rw [hsplit] at ih
    rcases List.mem_cons.mp h with rfl | h
    · exact ⟨name, by simp, hkinds.1, rfl⟩
    · obtain ⟨t, ht, hkind, rfl⟩ := ih h
      exact ⟨t, by simp [ht], hkind, rfl⟩
  | case2 => cases h
  | case3 => cases h

theorem behindLabels_suffix (tokens : List Token) : behindLabels tokens <:+ tokens :=
  List.drop_suffix _ tokens

/-! ## Calls -/

namespace Call

theorem stripParens_run (tokens : List Token) : stripParens tokens <:+: tokens := by
  unfold stripParens
  split
  · exact (List.dropLast_prefix _).isInfix.trans (List.tail_suffix _).isInfix
  · exact List.infix_rfl

/-- The first group begins the tokens, and every group is a run of them. -/
theorem splitTopLevel_runs (depth : Nat) (tokens : List Token) :
    (∀ group, (splitTopLevel depth tokens).head? = some group → group <+: tokens) ∧
      ∀ group ∈ splitTopLevel depth tokens, group <:+: tokens := by
  fun_induction splitTopLevel depth tokens with
  | case1 => simp
  | case2 depth t rest _ ih =>
    refine ⟨by simp, List.forall_mem_cons.mpr ⟨List.nil_infix, fun group hgroup => ?_⟩⟩
    exact (ih.2 group hgroup).trans (List.suffix_cons t rest).isInfix
  | case3 depth t rest _ hgroups ih =>
    have hbegins : [t] <+: t :: rest := List.cons_prefix_cons.mpr ⟨rfl, List.nil_prefix⟩
    refine ⟨fun group hgroup => ?_, fun group hgroup => ?_⟩
    · cases hgroup
      exact hbegins
    · rw [List.mem_singleton.mp hgroup]
      exact hbegins.isInfix
  | case4 depth t rest _ first groups hgroups ih =>
    rw [hgroups] at ih
    have hbegins : t :: first <+: t :: rest := List.cons_prefix_cons.mpr ⟨rfl, ih.1 first rfl⟩
    refine ⟨fun group hgroup => ?_, List.forall_mem_cons.mpr ⟨hbegins.isInfix, fun group hgroup => ?_⟩⟩
    · cases hgroup
      exact hbegins
    · exact (ih.2 group (List.mem_cons_of_mem _ hgroup)).trans (List.suffix_cons t rest).isInfix

theorem exists_of_mem_argumentTexts {source : List Char} {tokens : List Token} {argument : String}
    (h : argument ∈ argumentTexts source tokens) :
    ∃ group, group ⊆ tokens ∧ groupText source group = argument := by
  have hstrip := (stripParens_run tokens).subset
  unfold argumentTexts at h
  split at h
  · cases h
  · obtain ⟨group, hgroup, rfl⟩ := List.mem_map.mp h
    exact ⟨group, fun t ht => hstrip (((splitTopLevel_runs _ _).2 group hgroup).subset ht), rfl⟩

/-- What is read as a call: leading labels, an identifier and the tokens behind it. -/
theorem exists_of_parse? {file source : String} {tokens : List Token} {call : Call}
    (h : parse? file source tokens = some call) :
    ∃ head rest, behindLabels tokens = head :: rest ∧ head.kind = .identifier ∧
      call =
        { labels := labelsOf tokens
          name := head.text
          arguments := .ofCall head.text (argumentTexts source.toList rest)
          location := .ofNat file head.line head.column } := by
  simp only [parse?, splitLabels_eq] at h
  cases hbody : behindLabels tokens with
  | nil => simp [hbody] at h
  | cons head rest =>
    simp only [hbody, Option.ite_none_right_eq_some, Option.some.injEq] at h
    exact ⟨head, rest, rfl, h.1, h.2.symm⟩

/-- The name of a call is that of the token where the call stands. -/
theorem parse?_head {file source : String} {tokens : List Token} {call : Call}
    (h : parse? file source tokens = some call) :
    ∃ t ∈ tokens, call.name = t.text ∧ call.location = .ofNat file t.line t.column := by
  obtain ⟨head, rest, hbody, -, rfl⟩ := exists_of_parse? h
  refine ⟨head, (behindLabels_suffix tokens).subset ?_, rfl, rfl⟩
  rw [hbody]
  exact List.mem_cons_self ..

theorem parse?_parts {file source : String} {tokens : List Token} {call : Call}
    (h : parse? file source tokens = some call) :
    (∀ label ∈ call.labels, ∃ t ∈ tokens, t.text = label) ∧
      ∀ argument ∈ call.arguments.toList,
        ∃ group, group ⊆ tokens ∧ groupText source.toList group = argument := by
  obtain ⟨head, rest, hbody, -, rfl⟩ := exists_of_parse? h
  constructor
  · intro label hlabel
    obtain ⟨t, ht, -, htext⟩ := exists_of_mem_labels hlabel
    exact ⟨t, ht, htext⟩
  · intro argument hargument
    obtain ⟨group, hgroup, htext⟩ := exists_of_mem_argumentTexts hargument
    refine ⟨group, fun t ht => (behindLabels_suffix tokens).subset ?_, htext⟩
    rw [hbody]
    exact List.mem_cons_of_mem _ (hgroup ht)

end Call

end MipsMacro
