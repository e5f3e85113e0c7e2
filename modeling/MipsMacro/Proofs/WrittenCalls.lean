import MipsMacro.Proofs.CallTokens

/-!
# Calls that are written down

A call written with a comma and a space between its arguments is read as it was meant. Proved here:

* `Lexer.pieces_joined`: arguments with commas between them are cut into the pieces of each of them;
* `Call.splitTopLevel_joined`: and these are divided where the commas are;
* `Call.argumentTexts_enclosed`, `Call.argumentTexts_bare`: so the arguments are found again, with or
  without parentheses around them;
* `Call.parse?_written`: so the line is read as the call that was written.
-/

namespace MipsMacro

open Text

/-! ## Arguments -/

/-- The text stands as one argument: its first token begins it and its last token ends it, its
parentheses are balanced, and there is no comma outside of them. -/
structure Call.IsArgument (text : String) (tokens : List Token) : Prop where
  begins : ∃ first, tokens.head? = some first ∧ first.offset = 0
  ends : ∃ last, tokens.getLast? = some last ∧ last.stop = byteSize text.toList
  group : Call.IsGroup (tokens.map Token.kind)

namespace Lexer

/-- What the lexer makes of an argument. -/
structure CutsArgument (cs : List Char) : Prop where
  closed : (pieces cs).2 = none
  tight : Tight (pieces cs).1
  group : Call.IsGroup ((pieces cs).1.filterMap Piece.kind)

theorem eq_nil_of_byteSize_covered {ps : List Piece} (hne : ∀ p ∈ ps, p.chars ≠ [])
    (h : byteSize (covered ps) = 0) : ps = [] := by
  cases ps with
  | nil => rfl
  | cons p ps =>
    rw [byteSize_eq_zero_iff, covered_cons, List.append_eq_nil_iff] at h
    exact absurd h.1 (hne p (List.mem_cons_self ..))

/-- Tokens that reach from the beginning of a line to its end come from pieces that begin and end with a
token. -/
theorem tight_of_place {line : Nat} {ps : List Piece} (hne : ∀ p ∈ ps, p.chars ≠ [])
    {first last : Token} (hfirst : (place line 1 0 ps).head? = some first) (hbegins : first.offset = 0)
    (hlast : (place line 1 0 ps).getLast? = some last) (hends : last.stop = byteSize (covered ps)) :
    Tight ps := by
  constructor
  case first =>
    obtain ⟨after, hplace⟩ := List.head?_eq_some_iff.mp hfirst
    rw [← List.nil_append (first :: after)] at hplace
    obtain ⟨ps₁, kind, chars, ps₂, rfl, -, rfl⟩ := exists_of_place_eq_append hplace
    rw [Nat.zero_add] at hbegins
    obtain rfl : ps₁ = [] :=
      eq_nil_of_byteSize_covered (fun p hp => hne p (List.mem_append_left _ hp)) hbegins
    exact ⟨kind, chars, ps₂, rfl⟩
  case last =>
    obtain ⟨before, hplace⟩ := List.getLast?_eq_some_iff.mp hlast
    obtain ⟨ps₁, kind, chars, ps₂, rfl, -, rfl⟩ := exists_of_place_eq_append hplace
    have hnone : byteSize (covered ps₂) = 0 := by
      simp only [Token.stop, Token.size, String.toList_ofList, covered_append, covered_cons,
        byteSize_append] at hends
      omega
    obtain rfl : ps₂ = [] := eq_nil_of_byteSize_covered
      (fun p hp => hne p (List.mem_append_right _ (List.mem_cons_of_mem _ hp))) hnone
    exact ⟨ps₁, kind, chars, rfl⟩

theorem cutsArgument_of_tokens {file : String} {n : Nat} {text : String} {tokens : List Token}
    (h : tokenize file n text = .ok tokens) (hargument : Call.IsArgument text tokens) :
    CutsArgument text.toList := by
  obtain ⟨hnone, rfl⟩ := tokenize_eq_ok_iff.mp h
  obtain ⟨first, hfirst, hbegins⟩ := hargument.begins
  obtain ⟨last, hlast, hends⟩ := hargument.ends
  rw [← pieces_flatten hnone] at hends
  refine ⟨hnone, tight_of_place (fun _ => ne_nil_of_mem_pieces) hfirst hbegins hlast hends, ?_⟩
  rw [← map_kind_place n 1 0]
  exact hargument.group

theorem CutsArgument.pieces_append {as bs : List Char} (h : CutsArgument as)
    (hend : bs.head?.any isIdentChar = false) :
    pieces (as ++ bs) = ((pieces as).1 ++ (pieces bs).1, (pieces bs).2) := by
  refine Lexer.pieces_append h.closed (fun p hp => ?_) hend
  obtain ⟨front, kind, chars, hlast⟩ := h.tight.last
  rw [hlast, List.getLast?_concat] at hp
  cases hp
  nofun

/-! ## Arguments with commas between them -/

/-- The pieces of arguments that are written one behind the other. -/
def joinedPieces (arguments : List (List Char)) : List Piece :=
  [⟨some .comma, [',']⟩, ⟨none, [' ']⟩].intercalate (arguments.map fun cs => (pieces cs).1)

theorem joinedPieces_cons_cons (cs cs' : List Char) (arguments : List (List Char)) :
    joinedPieces (cs :: cs' :: arguments) =
      (pieces cs).1 ++ ⟨some .comma, [',']⟩ :: ⟨none, [' ']⟩ :: joinedPieces (cs' :: arguments) := by
  simp [joinedPieces, List.intercalate_cons_cons]

theorem pieces_space (cs : List Char) :
    pieces (' ' :: cs) = (⟨none, [' ']⟩ :: (pieces cs).1, (pieces cs).2) := by
  have hblank : ∀ c ∈ [' '], isBlank c = true := by simp [isBlank]
  exact pieces_blanks hblank cs

theorem pieces_joined {arguments : List (List Char)} (h : ∀ cs ∈ arguments, CutsArgument cs)
    {rest : List Char} (hend : rest.head?.any isIdentChar = false) :
    pieces ([',', ' '].intercalate arguments ++ rest) =
      (joinedPieces arguments ++ (pieces rest).1, (pieces rest).2) := by
  induction arguments with
  | nil => rfl
  | cons cs arguments ih =>
    obtain ⟨hcs, harguments⟩ := List.forall_mem_cons.mp h
    cases arguments with
    | nil => simpa [joinedPieces] using hcs.pieces_append hend
    | cons cs' arguments =>
      have hsplit : [',', ' '].intercalate (cs :: cs' :: arguments) ++ rest =
          cs ++ ',' :: ' ' :: ([',', ' '].intercalate (cs' :: arguments) ++ rest) := by
        simp [List.intercalate_cons_cons]
      rw [hsplit, hcs.pieces_append rfl, pieces_sign .comma _ rfl, pieces_space, ih harguments,
        joinedPieces_cons_cons]
      simp

/-- The first piece of arguments is a token, and a colon only if the first of them begins with one. -/
theorem joinedPieces_first {cs : List Char} (h : CutsArgument cs) (arguments : List (List Char)) :
    ∃ kind chars rest, joinedPieces (cs :: arguments) = ⟨some kind, chars⟩ :: rest ∧
      (kind = .colon → cs.head? = some ':') := by
  obtain ⟨kind, chars, rest, hpieces⟩ := h.tight.first
  have hcolon : kind = .colon → cs.head? = some ':' := by
    rintro rfl
    obtain ⟨c, cs', tail, more, rfl, hpiece, -, -⟩ := exists_of_pieces_eq_cons hpieces
    have hshape : c :: tail = [':'] := shape_of_piece hpiece
    exact congrArg some (List.cons.inj hshape).1
  cases arguments with
  | nil => exact ⟨kind, chars, rest, by simp [joinedPieces, hpieces], hcolon⟩
  | cons cs' arguments =>
    exact ⟨kind, chars, _, by rw [joinedPieces_cons_cons, hpieces]; rfl, hcolon⟩

end Lexer

/-! ## Reading arguments -/

namespace Call

open Lexer

theorem balanced_joinedPieces {arguments : List (List Char)} (h : ∀ cs ∈ arguments, CutsArgument cs) :
    Balanced ((joinedPieces arguments).filterMap Piece.kind) := by
  induction arguments with
  | nil => exact balanced_nil
  | cons cs arguments ih =>
    obtain ⟨hcs, harguments⟩ := List.forall_mem_cons.mp h
    cases arguments with
    | nil => simpa [joinedPieces] using hcs.group.toBalanced
    | cons cs' arguments =>
      rw [joinedPieces_cons_cons, List.filterMap_append]
      exact hcs.group.toBalanced.append (balanced_comma.append (ih harguments))

/-- Arguments that are written in a line are divided where their commas are. -/
theorem splitTopLevel_joined {arguments : List (List Char)} (h : ∀ cs ∈ arguments, CutsArgument cs)
    (hne : arguments ≠ []) (pre post : List Char) (line column : Nat) :
    (splitTopLevel 0 (place line column (byteSize pre) (joinedPieces arguments))).map
        (groupText (pre ++ [',', ' '].intercalate arguments ++ post)) =
      arguments.map String.ofList := by
  induction arguments generalizing pre column with
  | nil => exact absurd rfl hne
  | cons cs arguments ih =>
    obtain ⟨hcs, harguments⟩ := List.forall_mem_cons.mp h
    have hcovered : covered (pieces cs).1 = cs := pieces_flatten hcs.closed
    have hgroup : IsGroup ((place line column (byteSize pre) (pieces cs).1).map Token.kind) := by
      rw [map_kind_place]
      exact hcs.group
    have htext : ∀ more, groupText (pre ++ (cs ++ more))
        (place line column (byteSize pre) (pieces cs).1) = String.ofList cs := by
      intro more
      have hplaced := groupText_place hcs.tight pre more line column
      rwa [hcovered, List.append_assoc] at hplaced
    cases arguments with
    | nil =>
      have hsplit := hgroup.splitTopLevel_append []
      rw [List.append_nil] at hsplit
      simp [joinedPieces, hsplit, splitTopLevel, htext]
    | cons cs' arguments =>
      have hrest := ih harguments (List.cons_ne_nil _ _) (pre ++ (cs ++ [',', ' ']))
        (column + cs.length + 1 + 1)
      have hsize : byteSize (pre ++ (cs ++ [',', ' '])) =
          byteSize pre + byteSize cs + byteSize [','] + byteSize [' '] := by
        simp only [byteSize_append, byteSize, Nat.add_assoc, Nat.add_zero]
      have hplace : place line column (byteSize pre) (joinedPieces (cs :: cs' :: arguments)) =
          place line column (byteSize pre) (pieces cs).1 ++
            ⟨.comma, ",", line, column + cs.length, byteSize pre + byteSize cs⟩ ::
              place line (column + cs.length + 1 + 1) (byteSize (pre ++ (cs ++ [',', ' '])))
                (joinedPieces (cs' :: arguments)) := by
        rw [joinedPieces_cons_cons, place_append, hcovered, hsize]
        rfl
      have hsource : pre ++ [',', ' '].intercalate (cs :: cs' :: arguments) ++ post =
          pre ++ (cs ++ [',', ' ']) ++ [',', ' '].intercalate (cs' :: arguments) ++ post := by
        simp [List.intercalate_cons_cons]
      rw [hplace, hgroup.splitTopLevel_append, splitTopLevel, if_pos ⟨rfl, rfl⟩, List.modifyHead_cons,
        List.append_nil, List.map_cons, List.map_cons, hsource, hrest]
      rw [List.append_assoc, List.append_assoc, List.append_assoc, htext]

theorem argumentTexts_joined {arguments : List (List Char)} (h : ∀ cs ∈ arguments, CutsArgument cs)
    (hne : arguments ≠ []) (pre post : List Char) {line column : Nat} {tokens : List Token}
    (hstrip : stripParens tokens = place line column (byteSize pre) (joinedPieces arguments)) :
    argumentTexts (pre ++ [',', ' '].intercalate arguments ++ post) tokens =
      arguments.map String.ofList := by
  obtain ⟨cs, arguments, rfl⟩ := List.exists_cons_of_ne_nil hne
  obtain ⟨kind, chars, rest, hfirst, -⟩ := joinedPieces_first (h cs (List.mem_cons_self ..)) arguments
  have htokens : stripParens tokens ≠ [] := by
    rw [hstrip, hfirst]
    nofun
  rw [argumentTexts_eq htokens, hstrip, splitTopLevel_joined h hne]

/-- Parentheses around the arguments are dropped again. -/
theorem argumentTexts_enclosed {arguments : List (List Char)} (h : ∀ cs ∈ arguments, CutsArgument cs)
    (pre : List Char) (line column : Nat) :
    argumentTexts (pre ++ '(' :: ([',', ' '].intercalate arguments ++ [')']))
        (place line column (byteSize pre)
          (⟨some .leftParen, ['(']⟩ :: (joinedPieces arguments ++ [⟨some .rightParen, [')']⟩]))) =
      arguments.map String.ofList := by
  have hopened : Opened ((place line (column + 1) (byteSize (pre ++ ['(']))
      (joinedPieces arguments)).map Token.kind) := by
    rw [map_kind_place]
    exact (balanced_joinedPieces h).opened
  obtain ⟨left, right, hleft, hright, hplace⟩ : ∃ left right : Token,
      left.kind = .leftParen ∧ right.kind = .rightParen ∧
        place line column (byteSize pre)
            (⟨some .leftParen, ['(']⟩ :: (joinedPieces arguments ++ [⟨some .rightParen, [')']⟩])) =
          left :: (place line (column + 1) (byteSize (pre ++ ['('])) (joinedPieces arguments) ++
            [right]) := by
    rw [byteSize_append]
    exact ⟨_, _, rfl, rfl, congrArg (List.cons _) (place_append ..)⟩
  have hstrip := stripParens_wrapped hleft hright hopened
  rw [hplace]
  by_cases hne : arguments = []
  · subst hne
    unfold argumentTexts
    rw [hstrip]
    rfl
  · have htexts := argumentTexts_joined h hne (pre ++ ['(']) [')'] hstrip
    simpa using htexts

theorem argumentTexts_bare {arguments : List (List Char)} (h : ∀ cs ∈ arguments, CutsArgument cs)
    (hne : arguments ≠ [])
    (hwrapped : ∀ cs, arguments = [cs] → ¬ Wrapped ((pieces cs).1.filterMap Piece.kind))
    (pre : List Char) (line column : Nat) :
    argumentTexts (pre ++ ' ' :: [',', ' '].intercalate arguments)
        (place line column (byteSize pre) (⟨none, [' ']⟩ :: joinedPieces arguments)) =
      arguments.map String.ofList := by
  have hplace : place line column (byteSize pre) (⟨none, [' ']⟩ :: joinedPieces arguments) =
      place line (column + 1) (byteSize (pre ++ [' '])) (joinedPieces arguments) := by
    rw [byteSize_append]
    rfl
  have hstrip : stripParens (place line (column + 1) (byteSize (pre ++ [' ']))
      (joinedPieces arguments)) =
      place line (column + 1) (byteSize (pre ++ [' '])) (joinedPieces arguments) := by
    obtain ⟨cs, arguments, rfl⟩ := List.exists_cons_of_ne_nil hne
    obtain ⟨hcs, harguments⟩ := List.forall_mem_cons.mp h
    cases arguments with
    | nil =>
      refine stripParens_eq_self ?_ ?_
      · rw [map_kind_place]
        exact balanced_joinedPieces h
      · rw [map_kind_place]
        simpa [joinedPieces] using hwrapped cs rfl
    | cons cs' arguments =>
      obtain ⟨kind, chars, rest, hfirst⟩ := hcs.tight.first
      have hkinds : (place line (column + 1) (byteSize (pre ++ [' ']))
          (joinedPieces (cs :: cs' :: arguments))).map Token.kind =
          (pieces cs).1.filterMap Piece.kind ++
            .comma :: (joinedPieces (cs' :: arguments)).filterMap Piece.kind := by
        rw [map_kind_place, joinedPieces_cons_cons, List.filterMap_append]
        rfl
      exact stripParens_eq_self_of_append hkinds hcs.group.toBalanced (by simp [hfirst])
        (List.cons_ne_nil _ _)
  have htexts := argumentTexts_joined h hne (pre ++ [' ']) [] hstrip
  rw [hplace]
  simpa using htexts

end Call

/-! ## Reading a line -/

namespace Lexer

/-- Labels as they are written in front of a line. -/
def labelChars (labels : List String) : List Char :=
  labels.flatMap fun label => label.toList ++ [':', ' ']

def labelPieces (labels : List String) : List Piece :=
  labels.flatMap fun label =>
    [⟨some .identifier, label.toList⟩, ⟨some .colon, [':']⟩, ⟨none, [' ']⟩]

theorem covered_labelPieces (labels : List String) : covered (labelPieces labels) = labelChars labels := by
  rw [covered, labelPieces, List.flatMap_assoc]
  rfl

theorem pieces_labels {labels : List String} (h : ∀ label ∈ labels, IsWord label.toList)
    (cs : List Char) :
    pieces (labelChars labels ++ cs) = (labelPieces labels ++ (pieces cs).1, (pieces cs).2) := by
  induction labels with
  | nil => rfl
  | cons label labels ih =>
    obtain ⟨hlabel, hlabels⟩ := List.forall_mem_cons.mp h
    have hsplit : labelChars (label :: labels) ++ cs =
        label.toList ++ ':' :: ' ' :: (labelChars labels ++ cs) := by
      simp [labelChars]
    rw [hsplit, pieces_word hlabel rfl, pieces_sign .colon _ rfl, pieces_space, ih hlabels]
    rfl

theorem splitLabels_place (labels : List String) (line column offset : Nat) (ts : List Token) :
    splitLabels (place line column offset (labelPieces labels) ++ ts) =
      (labels ++ (splitLabels ts).1, (splitLabels ts).2) := by
  induction labels generalizing column offset with
  | nil => rfl
  | cons label labels ih =>
    have hrest := ih (column + label.toList.length + 1 + 1)
      (offset + byteSize label.toList + byteSize [':'] + byteSize [' '])
    have hplace : place line column offset (labelPieces (label :: labels)) ++ ts =
        ⟨.identifier, label, line, column, offset⟩ ::
          ⟨.colon, ":", line, column + label.toList.length, offset + byteSize label.toList⟩ ::
          (place line (column + label.toList.length + 1 + 1)
            (offset + byteSize label.toList + byteSize [':'] + byteSize [' ']) (labelPieces labels) ++
            ts) := by
      simp [labelPieces, place, byteSize]
    rw [hplace, splitLabels, if_pos ⟨rfl, rfl⟩, hrest]
    rfl

end Lexer

namespace Call

open Lexer

/-- On any line of any file, the text is read as a call with these parts. -/
def ReadsAs (text : String) (labels : List String) (name : String) (arguments : List String) : Prop :=
  ∀ file n, ∃ tokens call, tokenize file n text = .ok tokens ∧ parse? file text tokens = some call ∧
    call.labels = labels ∧ call.name = name ∧ call.arguments.macroName = name ∧
      call.arguments.toList = arguments

theorem splitLabels_of_head {head : Token} {ts : List Token}
    (h : (ts.map Token.kind).head? ≠ some .colon) : splitLabels (head :: ts) = ([], head :: ts) := by
  cases ts with
  | nil => rfl
  | cons t ts =>
    have hcolon : t.kind ≠ .colon := fun hkind => h (congrArg some hkind)
    simp [splitLabels, hcolon]

/-- A line is read by what is behind its labels and its name. -/
theorem readsAs_of_pieces {text name : String} {labels arguments : List String} {cs : List Char}
    {ps : List Piece} (htext : text.toList = labelChars labels ++ (name.toList ++ cs))
    (hlabels : ∀ label ∈ labels, IsWord label.toList) (hname : IsWord name.toList)
    (hpieces : pieces cs = (ps, none)) (hend : cs.head?.any isIdentChar = false)
    (hcolon : (ps.filterMap Piece.kind).head? ≠ some .colon)
    (harguments : ∀ pre line column,
      argumentTexts (pre ++ cs) (place line column (byteSize pre) ps) = arguments) :
    ReadsAs text labels name arguments := by
  intro file n
  have hline : pieces text.toList =
      (labelPieces labels ++ ⟨some .identifier, name.toList⟩ :: ps, none) := by
    rw [htext, pieces_labels hlabels, pieces_word hname hend, hpieces]
  have htokens : tokenize file n text =
      .ok (place n 1 0 (labelPieces labels ++ ⟨some .identifier, name.toList⟩ :: ps)) :=
    tokenize_eq_ok_iff.mpr (by rw [hline]; exact ⟨rfl, rfl⟩)
  -- where the name begins, and where the arguments do
  let column := 1 + (labelChars labels).length
  let head : Token := ⟨.identifier, name, n, column, byteSize (labelChars labels)⟩
  let rest := place n (column + name.toList.length) (byteSize (labelChars labels ++ name.toList)) ps
  have hplace : place n 1 0 (labelPieces labels ++ ⟨some .identifier, name.toList⟩ :: ps) =
      place n 1 0 (labelPieces labels) ++ head :: rest := by
    simp [place_append, covered_labelPieces, place, head, rest, column, byteSize_append]
  have hlabels' : splitLabels (place n 1 0 (labelPieces labels) ++ head :: rest) =
      (labels, head :: rest) := by
    rw [splitLabels_place, splitLabels_of_head (by rw [map_kind_place]; exact hcolon), List.append_nil]
  have htexts : argumentTexts text.toList rest = arguments := by
    rw [htext, ← List.append_assoc]
    exact harguments ..
  rw [hplace] at htokens
  refine ⟨_, ⟨labels, name, .ofCall name arguments, .ofNat file n column⟩, htokens, ?_,
    rfl, rfl, rfl, rfl⟩
  simp only [parse?, hlabels', htexts, head, if_true]

/-! ## Writing a call -/

/-- Labels, each with its colon. -/
def writtenLabels (labels : List String) : String := String.join (labels.map (· ++ ": "))

/-- A call with parentheses around its arguments. -/
def written (labels : List String) (name : String) (arguments : List String) : String :=
  writtenLabels labels ++ name ++ "(" ++ ", ".intercalate arguments ++ ")"

/-- A call without parentheses. -/
def writtenBare (labels : List String) (name : String) (arguments : List String) : String :=
  writtenLabels labels ++ name ++ " " ++ ", ".intercalate arguments

theorem toList_writtenLabels (labels : List String) :
    (writtenLabels labels).toList = labelChars labels := by
  simp [writtenLabels, labelChars, List.flatMap_map]

theorem readsAs_written {labels arguments : List String} {name : String}
    (hlabels : ∀ label ∈ labels, IsWord label.toList) (hname : IsWord name.toList)
    (harguments : ∀ cs ∈ arguments.map String.toList, CutsArgument cs) :
    ReadsAs (written labels name arguments) labels name arguments := by
  have hpieces : pieces ('(' :: ([',', ' '].intercalate (arguments.map String.toList) ++ [')'])) =
      (⟨some .leftParen, ['(']⟩ :: (joinedPieces (arguments.map String.toList) ++
        [⟨some .rightParen, [')']⟩]), none) := by
    rw [pieces_sign .leftParen _ rfl, pieces_joined harguments rfl, pieces_sign .rightParen _ rfl]
    simp [pieces]
  refine readsAs_of_pieces ?_ hlabels hname hpieces rfl ?_ fun pre line column => ?_
  · simp [written, toList_writtenLabels]
  · simp
  · rw [argumentTexts_enclosed harguments]
    simp

theorem readsAs_writtenBare {labels rest : List String} {name first : String}
    (hlabels : ∀ label ∈ labels, IsWord label.toList) (hname : IsWord name.toList)
    (harguments : ∀ cs ∈ (first :: rest).map String.toList, CutsArgument cs)
    (hcolon : first.toList.head? ≠ some ':')
    (hwrapped : rest = [] → ¬ Wrapped ((pieces first.toList).1.filterMap Piece.kind)) :
    ReadsAs (writtenBare labels name (first :: rest)) labels name (first :: rest) := by
  have hpieces : pieces (' ' :: [',', ' '].intercalate ((first :: rest).map String.toList)) =
      (⟨none, [' ']⟩ :: joinedPieces ((first :: rest).map String.toList), none) := by
    have hend : ([] : List Char).head?.any isIdentChar = false := rfl
    have hjoined := pieces_joined harguments hend
    rw [List.append_nil] at hjoined
    rw [pieces_space, hjoined]
    simp [pieces]
  refine readsAs_of_pieces ?_ hlabels hname hpieces rfl ?_ fun pre line column => ?_
  · simp [writtenBare, toList_writtenLabels]
  · obtain ⟨kind, chars, more, hfirst, hkind⟩ :=
      joinedPieces_first (harguments _ (List.mem_cons_self ..)) (rest.map String.toList)
    rw [List.map_cons, hfirst]
    intro hhead
    exact hcolon (hkind (Option.some.inj hhead))
  · have honly : ∀ cs, (first :: rest).map String.toList = [cs] →
        ¬ Wrapped ((pieces cs).1.filterMap Piece.kind) := by
      intro cs hcs
      obtain ⟨rfl, hrest⟩ := List.cons.inj hcs
      exact hwrapped (List.map_eq_nil_iff.mp hrest)
    rw [argumentTexts_bare harguments (List.cons_ne_nil _ _) honly]
    simp

/-- The first token of the text opens a parenthesis that its last token closes. -/
def Enclosed (text : String) : Prop :=
  ∃ file n tokens, tokenize file n text = .ok tokens ∧ Wrapped (tokens.map Token.kind)

/-- **A call that is written is read.** Arguments that can stand alone are found again between
parentheses; and without them too, unless the first begins with a colon or the only one is enclosed in
parentheses of its own. -/
theorem parse?_written (labels : List String) (name : String) (arguments : List String)
    (hlabels : ∀ label ∈ labels, IsWord label.toList) (hname : IsWord name.toList)
    (harguments : ∀ text ∈ arguments,
      ∃ file n tokens, tokenize file n text = .ok tokens ∧ IsArgument text tokens) :
    ReadsAs (written labels name arguments) labels name arguments ∧
      ∀ first rest, arguments = first :: rest → first.toList.head? ≠ some ':' →
        (rest = [] → ¬ Enclosed first) →
        ReadsAs (writtenBare labels name arguments) labels name arguments := by
  have hcut : ∀ cs ∈ arguments.map String.toList, CutsArgument cs := by
    intro cs hcs
    obtain ⟨text, htext, rfl⟩ := List.mem_map.mp hcs
    obtain ⟨file, n, tokens, htokens, hargument⟩ := harguments text htext
    exact cutsArgument_of_tokens htokens hargument
  refine ⟨readsAs_written hlabels hname hcut, ?_⟩
  rintro first rest rfl hcolon henclosed
  refine readsAs_writtenBare hlabels hname hcut hcolon fun hrest hwrapped => henclosed hrest ?_
  obtain ⟨file, n, tokens, htokens, -⟩ := harguments first (List.mem_cons_self ..)
  obtain ⟨-, rfl⟩ := tokenize_eq_ok_iff.mp htokens
  exact ⟨file, n, _, htokens, by rwa [map_kind_place]⟩

/-- Parentheses at both ends that do not belong together, and commas inside of parentheses and quotes. -/
def sumText : String := "(a, \"é),\") + (b)"

def sumTokens : List Token :=
  [⟨.leftParen, "(", 1, 1, 0⟩, ⟨.identifier, "a", 1, 2, 1⟩, ⟨.comma, ",", 1, 3, 2⟩,
    ⟨.string, "\"é),\"", 1, 5, 4⟩, ⟨.rightParen, ")", 1, 10, 10⟩, ⟨.plus, "+", 1, 12, 12⟩,
    ⟨.leftParen, "(", 1, 14, 14⟩, ⟨.identifier, "b", 1, 15, 15⟩, ⟨.rightParen, ")", 1, 16, 16⟩]

theorem tokenize_sumText : tokenize "m.asm" 1 sumText = .ok sumTokens :=
  tokenize_eq_ok_iff.mpr ⟨by decide +kernel, by decide +kernel⟩

theorem isArgument_sumText : IsArgument sumText sumTokens :=
  ⟨⟨_, rfl, rfl⟩, ⟨_, rfl, by decide⟩, by decide⟩

theorem not_enclosed_sumText : ¬ Enclosed sumText := by
  rintro ⟨file, n, tokens, htokens, inner, hinner, hbalanced⟩
  obtain ⟨-, rfl⟩ := tokenize_eq_ok_iff.mp htokens
  have hkinds : sumTokens.map Token.kind = .leftParen :: (inner ++ [.rightParen]) := by
    obtain ⟨-, hplace⟩ := tokenize_eq_ok_iff.mp tokenize_sumText
    rw [← hinner, hplace, map_kind_place, map_kind_place]
  have hinside : inner = (sumTokens.map Token.kind).tail.dropLast := by
    rw [hkinds, List.tail_cons, List.dropLast_concat]
  exact absurd (hinside ▸ hbalanced) (by decide)

/-- Such a text as one of two arguments, and as the only one. -/
theorem parse?_written_sums :
    ReadsAs "l: k.2: m((a, \"é),\") + (b), $t0 'x')" ["l", "k.2"] "m" [sumText, "$t0 'x'"] ∧
      ReadsAs "l: k.2: m (a, \"é),\") + (b), $t0 'x'" ["l", "k.2"] "m" [sumText, "$t0 'x'"] ∧
      ReadsAs "m (a, \"é),\") + (b)" [] "m" [sumText] := by
  have hsum : ∃ file n tokens, tokenize file n sumText = .ok tokens ∧ IsArgument sumText tokens :=
    ⟨"m.asm", 1, sumTokens, tokenize_sumText, isArgument_sumText⟩
  have hpair : ∃ file n tokens, tokenize file n "$t0 'x'" = .ok tokens ∧ IsArgument "$t0 'x'" tokens :=
    ⟨"m.asm", 1, [⟨.register, "$t0", 1, 1, 0⟩, ⟨.character, "'x'", 1, 5, 4⟩],
      tokenize_eq_ok_iff.mpr ⟨by decide +kernel, by decide +kernel⟩,
      ⟨_, rfl, rfl⟩, ⟨_, rfl, by decide⟩, by decide⟩
  have hname : IsWord "m".toList := ⟨by decide, by simp⟩
  have htwo := parse?_written ["l", "k.2"] "m" [sumText, "$t0 'x'"]
    (by simp [IsWord, isIdentStart, isIdentChar]) hname (by simpa using ⟨hsum, hpair⟩)
  have hone := parse?_written [] "m" [sumText] (by simp) hname (by simpa using hsum)
  exact ⟨htwo.1, htwo.2 _ _ rfl (by decide) fun hnil => absurd hnil (List.cons_ne_nil _ _),
    hone.2 _ _ rfl (by decide) fun _ => not_enclosed_sumText⟩

end Call

end MipsMacro
