import Mathlib.Data.List.Chain
import MipsMacro.Json.Reader
import MipsMacro.Json.Writer
import MipsMacro.Proofs.JsonNumbers
import MipsMacro.Proofs.JsonStrings

/-!
# Texts of JSON values

A text writes a value if it consists of the lexemes of the value in their order, with blanks anywhere
around them. Proved here:

* `Json.lexemes?_of_spaced`: such a text is cut into these lexemes;
* `Json.value_lexemes`: and the lexemes of a value are read as this value, however deep it is nested;
* `Json.parse?_of_writes`: so every text that writes a value is read as this value;
* `Json.writes_render`: what is written for a value writes it.
-/

namespace MipsMacro.Json

/-! ## Lexemes -/

namespace Lexeme

def chars : Lexeme → List Char
  | openBracket => ['[']
  | closeBracket => [']']
  | openBrace => ['\x7b']
  | closeBrace => ['\x7d']
  | comma => [',']
  | colon => [':']
  | null => ['n', 'u', 'l', 'l']
  | bool true => ['t', 'r', 'u', 'e']
  | bool false => ['f', 'a', 'l', 's', 'e']
  | number spelling => spelling.toList
  | string spelling => '\x22' :: (spelling.toList ++ ['\x22'])

def WellFormed : Lexeme → Prop
  | number spelling => IsNumber spelling.toList
  | string spelling => IsBody spelling.toList
  | _ => True

/-- The lexemes that need no blank around them. -/
def isPunctuation (l : Lexeme) : Bool :=
  l = openBracket ∨ l = closeBracket ∨ l = openBrace ∨ l = closeBrace ∨ l = comma ∨ l = colon

end Lexeme

/-- A lexeme is read where it stands, and what follows it stays. -/
theorem lexeme_chars {l : Lexeme} (h : l.WellFormed) {rest : List Char}
    (hrest : l.isPunctuation = false → NotAhead goesOn rest) :
    ∃ c cs, l.chars = c :: cs ∧ isSpace c = false ∧ lexeme c (cs ++ rest) = some (l, rest) := by
  cases l with
  | number spelling =>
    obtain ⟨c, cs, hchars, hc, hread⟩ := signedNumber_append h (hrest rfl)
    obtain ⟨hspace, hlexeme⟩ := lexeme_number hc
    refine ⟨c, cs, hchars, hspace, ?_⟩
    rw [hlexeme, hread, String.ofList_toList]
  | string spelling =>
    refine ⟨'\x22', _, rfl, rfl, ?_⟩
    have hread := stringBody_append h rest
    simp [lexeme, punctuation?, hread]
  | bool b => cases b <;> exact ⟨_, _, rfl, rfl, rfl⟩
  | _ => exact ⟨_, _, rfl, rfl, rfl⟩

/-- Lexemes with blanks anywhere around them. -/
inductive Spaced : List Lexeme → List Char → Prop where
  | nil {blanks : List Char} (hblanks : ∀ c ∈ blanks, isSpace c = true) : Spaced [] blanks
  | cons {blanks : List Char} {l : Lexeme} {ls : List Lexeme} {cs : List Char}
      (hblanks : ∀ c ∈ blanks, isSpace c = true) (hl : l.WellFormed) (h : Spaced ls cs) :
      Spaced (l :: ls) (blanks ++ (l.chars ++ cs))

/-- Of two neighbours one is punctuation, so a number ends before the next lexeme. -/
def Apart (ls : List Lexeme) : Prop :=
  ls.IsChain fun a b => a.isPunctuation = true ∨ b.isPunctuation = true

theorem lexemes?_blanks {blanks : List Char} (h : ∀ c ∈ blanks, isSpace c = true) (cs : List Char) :
    lexemes? (blanks ++ cs) = lexemes? cs := by
  induction blanks with
  | nil => rfl
  | cons c blanks ih =>
    obtain ⟨hc, hblanks⟩ := List.forall_mem_cons.mp h
    rw [List.cons_append, lexemes?, if_pos hc, ih hblanks]

theorem lexemes?_lexeme {c : Char} {cs rest : List Char} {l : Lexeme} (hc : isSpace c = false)
    (h : lexeme c cs = some (l, rest)) : lexemes? (c :: cs) = (lexemes? rest).map (l :: ·) := by
  rw [lexemes?, if_neg (by simp [hc])]
  split
  · next h' =>
    rw [h] at h'
    cases h'
    rfl
  · next h' =>
    rw [h] at h'
    cases h'

theorem goesOn_of_isSpace {c : Char} (h : isSpace c = true) : goesOn c = false := by
  simp only [isSpace, Bool.or_eq_true, beq_iff_eq] at h
  obtain ((rfl | rfl) | rfl) | rfl := h <;> rfl

theorem goesOn_of_isPunctuation {l : Lexeme} (h : l.isPunctuation = true) (cs : List Char) :
    NotAhead goesOn (l.chars ++ cs) := by
  simp only [Lexeme.isPunctuation, decide_eq_true_eq] at h
  obtain rfl | rfl | rfl | rfl | rfl | rfl := h <;>
  · rintro c ⟨⟩
    rfl

/-- Behind a number comes nothing by which it could go on. -/
theorem Spaced.notAhead {ls : List Lexeme} {cs : List Char} (h : Spaced ls cs)
    (hnext : ∀ l ∈ ls.head?, l.isPunctuation = true) : NotAhead goesOn cs := by
  have hahead : ∀ {blanks : List Char}, (∀ c ∈ blanks, isSpace c = true) → NotAhead goesOn blanks :=
    fun hblanks c hc => goesOn_of_isSpace (hblanks c (List.mem_of_mem_head? hc))
  cases h with
  | nil hblanks => exact hahead hblanks
  | cons hblanks hl h =>
    exact NotAhead.append (goesOn_of_isPunctuation (hnext _ rfl) _) (hahead hblanks)

theorem lexemes?_of_spaced {ls : List Lexeme} {cs : List Char} (h : Spaced ls cs) (hapart : Apart ls) :
    lexemes? cs = some ls := by
  induction h with
  | @nil blanks hblanks =>
    rw [← List.append_nil blanks, lexemes?_blanks hblanks, lexemes?]
  | @cons blanks l ls cs hblanks hl h ih =>
    obtain ⟨hnext, hapart⟩ := List.isChain_cons.mp hapart
    have hrest : l.isPunctuation = false → NotAhead goesOn cs := fun hl =>
      h.notAhead fun l' hl' => (hnext l' hl').resolve_left (by simp [hl])
    obtain ⟨c, tail, hchars, hspace, hlexeme⟩ := lexeme_chars hl hrest
    rw [lexemes?_blanks hblanks, hchars, List.cons_append, lexemes?_lexeme hspace hlexeme, ih hapart]
    rfl

/-! ## Values -/

mutual

/-- The lexemes of a value. -/
def lexemes : Json → List Lexeme
  | .null => [.null]
  | .bool b => [.bool b]
  | .number spelling => [.number spelling]
  | .string spelling => [.string spelling]
  | .array [] => [.openBracket, .closeBracket]
  | .array (v :: rest) => .openBracket :: (lexemes v ++ itemLexemes rest)
  | .object [] => [.openBrace, .closeBrace]
  | .object ((key, v) :: rest) => .openBrace :: .string key :: .colon :: (lexemes v ++ memberLexemes rest)

/-- The lexemes behind an item, with those of the items after it. -/
def itemLexemes : List Json → List Lexeme
  | [] => [.closeBracket]
  | v :: rest => .comma :: (lexemes v ++ itemLexemes rest)

/-- The lexemes behind a member, with those of the members after it. -/
def memberLexemes : List (String × Json) → List Lexeme
  | [] => [.closeBrace]
  | (key, v) :: rest => .comma :: .string key :: .colon :: (lexemes v ++ memberLexemes rest)

end

/-- The text consists of the lexemes of the value, with blanks anywhere around them. -/
def Writes (text : String) (v : Json) : Prop := Spaced v.lexemes text.toList

/-- The lexemes of a value begin with no closing bracket. -/
theorem lexemes_begin (v : Json) : ∃ l ls, v.lexemes = l :: ls ∧ l ≠ .closeBracket := by
  match v with
  | .null => exact ⟨_, _, rfl, nofun⟩
  | .bool b => exact ⟨_, _, rfl, nofun⟩
  | .number spelling => exact ⟨_, _, rfl, nofun⟩
  | .string spelling => exact ⟨_, _, rfl, nofun⟩
  | .array [] => exact ⟨_, _, rfl, nofun⟩
  | .array (v :: rest) => exact ⟨.openBracket, _, by rw [lexemes], nofun⟩
  | .object [] => exact ⟨_, _, rfl, nofun⟩
  | .object ((key, v) :: rest) => exact ⟨.openBrace, _, by rw [lexemes], nofun⟩

theorem value_openBracket (frames : List Frame) (v : Json) (ls : List Lexeme) :
    value frames (.openBracket :: (v.lexemes ++ ls)) = value (.array [] :: frames) (v.lexemes ++ ls) := by
  obtain ⟨l, tail, hlexemes, hl⟩ := v.lexemes_begin
  rw [hlexemes, List.cons_append]
  cases l with
  | closeBracket => exact absurd rfl hl
  | _ => rfl

/-! ### Reading -/

mutual

theorem value_lexemes (frames : List Frame) (v : Json) (ls : List Lexeme) :
    value frames (v.lexemes ++ ls) = next frames v ls := by
  match v with
  | .null => rfl
  | .bool b => rfl
  | .number spelling => rfl
  | .string spelling => rfl
  | .array [] => rfl
  | .array (v :: rest) =>
    rw [lexemes, List.cons_append, List.append_assoc, value_openBracket, value_lexemes,
      next_itemLexemes]
    rfl
  | .object [] => rfl
  | .object ((key, v) :: rest) =>
    rw [lexemes]
    simp only [List.cons_append, List.append_assoc]
    rw [value, value_lexemes, next_memberLexemes]
    rfl

theorem next_itemLexemes (frames : List Frame) (items : List Json) (v : Json) (rest : List Json)
    (ls : List Lexeme) :
    next (.array items :: frames) v (itemLexemes rest ++ ls) =
      next frames (.array (items.reverse ++ v :: rest)) ls := by
  match rest with
  | [] =>
    rw [itemLexemes, List.singleton_append, next, List.reverse_cons]
  | w :: rest =>
    rw [itemLexemes, List.cons_append, List.append_assoc, next, value_lexemes, next_itemLexemes]
    simp

theorem next_memberLexemes (frames : List Frame) (members : List (String × Json)) (key : String)
    (v : Json) (rest : List (String × Json)) (ls : List Lexeme) :
    next (.object members key :: frames) v (memberLexemes rest ++ ls) =
      next frames (.object (members.reverse ++ (key, v) :: rest)) ls := by
  match rest with
  | [] =>
    rw [memberLexemes, List.singleton_append, next, List.reverse_cons]
  | (key', w) :: rest =>
    rw [memberLexemes]
    simp only [List.cons_append, List.append_assoc]
    rw [next, value_lexemes, next_memberLexemes]
    simp

end

theorem Apart.cons {l : Lexeme} {ls : List Lexeme} (hl : l.isPunctuation = true) (h : Apart ls) :
    Apart (l :: ls) :=
  List.isChain_cons.mpr ⟨fun _ _ => Or.inl hl, h⟩

theorem Apart.cons_of_next {l : Lexeme} {ls : List Lexeme}
    (hnext : ∀ l' ∈ ls.head?, l'.isPunctuation = true) (h : Apart ls) : Apart (l :: ls) :=
  List.isChain_cons.mpr ⟨fun l' hl' => Or.inr (hnext l' hl'), h⟩

mutual

theorem apart_lexemes (v : Json) {ls : List Lexeme} (hnext : ∀ l ∈ ls.head?, l.isPunctuation = true)
    (h : Apart ls) : Apart (v.lexemes ++ ls) := by
  match v with
  | .null => exact h.cons_of_next hnext
  | .bool b => exact h.cons_of_next hnext
  | .number spelling => exact h.cons_of_next hnext
  | .string spelling => exact h.cons_of_next hnext
  | .array [] => exact (h.cons rfl).cons rfl
  | .array (v :: rest) =>
    rw [lexemes, List.cons_append, List.append_assoc]
    obtain ⟨hfirst, hrest⟩ := apart_itemLexemes rest h
    exact (apart_lexemes v hfirst hrest).cons rfl
  | .object [] => exact (h.cons rfl).cons rfl
  | .object ((key, v) :: rest) =>
    rw [lexemes]
    simp only [List.cons_append, List.append_assoc]
    obtain ⟨hfirst, hrest⟩ := apart_memberLexemes rest h
    have hcolon := (apart_lexemes v hfirst hrest).cons (l := .colon) rfl
    exact (hcolon.cons_of_next (by rintro l ⟨⟩; rfl)).cons rfl

theorem apart_itemLexemes (rest : List Json) {ls : List Lexeme} (h : Apart ls) :
    (∀ l ∈ (itemLexemes rest ++ ls).head?, l.isPunctuation = true) ∧ Apart (itemLexemes rest ++ ls) := by
  match rest with
  | [] => exact ⟨by rintro l ⟨⟩; rfl, h.cons rfl⟩
  | v :: rest =>
    rw [itemLexemes, List.cons_append, List.append_assoc]
    obtain ⟨hfirst, hrest⟩ := apart_itemLexemes rest h
    exact ⟨by rintro l ⟨⟩; rfl, (apart_lexemes v hfirst hrest).cons rfl⟩

theorem apart_memberLexemes (rest : List (String × Json)) {ls : List Lexeme} (h : Apart ls) :
    (∀ l ∈ (memberLexemes rest ++ ls).head?, l.isPunctuation = true) ∧
      Apart (memberLexemes rest ++ ls) := by
  match rest with
  | [] => exact ⟨by rintro l ⟨⟩; rfl, h.cons rfl⟩
  | (key, v) :: rest =>
    rw [memberLexemes]
    simp only [List.cons_append, List.append_assoc]
    obtain ⟨hfirst, hrest⟩ := apart_memberLexemes rest h
    have hcolon := (apart_lexemes v hfirst hrest).cons (l := .colon) rfl
    exact ⟨by rintro l ⟨⟩; rfl, (hcolon.cons_of_next (by rintro l ⟨⟩; rfl)).cons rfl⟩

end

/-- A text is read as the value that it writes. -/
theorem parse?_of_writes {text : String} {v : Json} (h : Writes text v) : parse? text = some v := by
  have hapart : Apart v.lexemes := by
    rw [← List.append_nil v.lexemes]
    exact apart_lexemes v nofun .nil
  have hread := value_lexemes [] v []
  rw [List.append_nil] at hread
  rw [parse?, lexemes?_of_spaced h hapart]
  exact hread

/-! ### Writing -/

/-- Numbers and strings in the value have the form of such. -/
def WellFormed (v : Json) : Prop := ∀ l ∈ v.lexemes, l.WellFormed

theorem forall_mem_itemLexemes (items : List Json) :
    (∀ l ∈ itemLexemes items, l.WellFormed) ↔ ∀ v ∈ items, v.WellFormed := by
  induction items with
  | nil => simp [itemLexemes, Lexeme.WellFormed]
  | cons v items ih =>
    rw [itemLexemes, List.forall_mem_cons, List.forall_mem_append, ih, List.forall_mem_cons]
    exact and_iff_right trivial

theorem forall_mem_memberLexemes (members : List (String × Json)) :
    (∀ l ∈ memberLexemes members, l.WellFormed) ↔
      ∀ m ∈ members, IsBody m.1.toList ∧ m.2.WellFormed := by
  induction members with
  | nil => simp [memberLexemes, Lexeme.WellFormed]
  | cons m members ih =>
    obtain ⟨key, v⟩ := m
    rw [memberLexemes, List.forall_mem_cons, List.forall_mem_cons, List.forall_mem_cons,
      List.forall_mem_append, ih, List.forall_mem_cons, and_assoc]
    exact (and_iff_right trivial).trans (and_congr_right fun _ => and_iff_right trivial)

theorem wellFormed_array_iff (items : List Json) :
    (Json.array items).WellFormed ↔ ∀ v ∈ items, v.WellFormed := by
  cases items with
  | nil => simp [WellFormed, lexemes, Lexeme.WellFormed]
  | cons v items =>
    rw [WellFormed, lexemes, List.forall_mem_cons, List.forall_mem_append, forall_mem_itemLexemes,
      List.forall_mem_cons]
    exact and_iff_right trivial

theorem wellFormed_object_iff (members : List (String × Json)) :
    (Json.object members).WellFormed ↔ ∀ m ∈ members, IsBody m.1.toList ∧ m.2.WellFormed := by
  cases members with
  | nil => simp [WellFormed, lexemes, Lexeme.WellFormed]
  | cons m members =>
    obtain ⟨key, v⟩ := m
    rw [WellFormed, lexemes, List.forall_mem_cons, List.forall_mem_cons, List.forall_mem_cons,
      List.forall_mem_append, forall_mem_memberLexemes, List.forall_mem_cons, and_assoc]
    exact (and_iff_right trivial).trans (and_congr_right fun _ => and_iff_right trivial)

theorem wellFormed_ofText (s : String) : (ofText s).WellFormed := by
  have hbody : IsBody (String.ofList (escape s.toList)).toList := by
    rw [String.toList_ofList]
    exact (spells_escape s.toList).isBody
  exact List.forall_mem_singleton.mpr hbody

theorem wellFormed_ofNat (n : Nat) : (ofNat n).WellFormed :=
  List.forall_mem_singleton.mpr (isNumber_decimal n)

theorem Spaced.blanks {ls : List Lexeme} {cs blanks : List Char} (h : Spaced ls cs)
    (hblanks : ∀ c ∈ blanks, isSpace c = true) : Spaced ls (blanks ++ cs) := by
  cases h with
  | nil hblanks' => exact .nil (List.forall_mem_append.mpr ⟨hblanks, hblanks'⟩)
  | cons hblanks' hl h =>
    rw [← List.append_assoc]
    exact .cons (List.forall_mem_append.mpr ⟨hblanks, hblanks'⟩) hl h

theorem Spaced.lexeme {ls : List Lexeme} {cs : List Char} (h : Spaced ls cs) {l : Lexeme}
    (hl : l.WellFormed) : Spaced (l :: ls) (l.chars ++ cs) := by
  have hnone : ∀ c ∈ ([] : List Char), isSpace c = true := nofun
  exact .cons hnone hl h

theorem Spaced.newline {ls : List Lexeme} {cs : List Char} (h : Spaced ls cs) (depth : Nat) :
    Spaced ls ((newline depth).toList ++ cs) :=
  h.blanks (by simp [Json.newline, isSpace])

/-- A key with its colon and the blank behind it. -/
theorem Spaced.key {ls : List Lexeme} {cs : List Char} (h : Spaced ls cs) {key : String}
    (hkey : (Lexeme.string key).WellFormed) :
    Spaced (.string key :: .colon :: ls) ((Lexeme.string key).chars ++ ':' :: ' ' :: cs) := by
  have hblank : ∀ c ∈ [' '], isSpace c = true := by simp [isSpace]
  have hcolon := (h.blanks hblank).lexeme (l := .colon) trivial
  exact hcolon.lexeme hkey

theorem toList_quote (spelling : String) : (quote spelling).toList = (Lexeme.string spelling).chars := by
  simp [quote, Lexeme.chars]

mutual

theorem spaced_pretty {v : Json} (hv : v.WellFormed) (depth : Nat) {ls : List Lexeme} {cs : List Char}
    (h : Spaced ls cs) : Spaced (v.lexemes ++ ls) ((pretty depth v).toList ++ cs) := by
  match v with
  | .null =>
    rw [pretty]
    exact h.lexeme (l := .null) trivial
  | .bool true =>
    rw [pretty]
    exact h.lexeme (l := .bool true) trivial
  | .bool false =>
    rw [pretty]
    exact h.lexeme (l := .bool false) trivial
  | .number spelling =>
    rw [pretty]
    exact h.lexeme (hv (.number spelling) (List.mem_singleton_self _))
  | .string spelling =>
    rw [pretty, toList_quote]
    exact h.lexeme (hv (.string spelling) (List.mem_singleton_self _))
  | .array [] =>
    rw [pretty]
    exact (h.lexeme (l := .closeBracket) trivial).lexeme (l := .openBracket) trivial
  | .array (v :: rest) =>
    rw [WellFormed, lexemes] at hv
    obtain ⟨-, hv⟩ := List.forall_mem_cons.mp hv
    obtain ⟨hv, hrest⟩ := List.forall_mem_append.mp hv
    have hitems := spaced_prettyItems hrest (depth + 1) depth h
    have hlayout := ((spaced_pretty hv (depth + 1) hitems).newline (depth + 1)).lexeme
      (l := .openBracket) trivial
    simpa [lexemes, pretty, Lexeme.chars] using hlayout
  | .object [] =>
    rw [pretty]
    exact (h.lexeme (l := .closeBrace) trivial).lexeme (l := .openBrace) trivial
  | .object ((key, v) :: rest) =>
    rw [WellFormed, lexemes] at hv
    obtain ⟨-, hv⟩ := List.forall_mem_cons.mp hv
    obtain ⟨hkey, hv⟩ := List.forall_mem_cons.mp hv
    obtain ⟨-, hv⟩ := List.forall_mem_cons.mp hv
    obtain ⟨hv, hrest⟩ := List.forall_mem_append.mp hv
    have hmembers := spaced_prettyMembers hrest (depth + 1) depth h
    have hlayout := (((spaced_pretty hv (depth + 1) hmembers).key hkey).newline (depth + 1)).lexeme
      (l := .openBrace) trivial
    simpa [lexemes, pretty, Lexeme.chars, toList_quote] using hlayout

theorem spaced_prettyItems {rest : List Json} (hrest : ∀ l ∈ itemLexemes rest, l.WellFormed)
    (depth outer : Nat) {ls : List Lexeme} {cs : List Char} (h : Spaced ls cs) :
    Spaced (itemLexemes rest ++ ls)
      ((prettyItems depth rest).toList ++ ((newline outer).toList ++ ']' :: cs)) := by
  match rest with
  | [] =>
    rw [prettyItems]
    exact (h.lexeme (l := .closeBracket) trivial).newline outer
  | v :: rest =>
    rw [itemLexemes] at hrest
    obtain ⟨-, hrest⟩ := List.forall_mem_cons.mp hrest
    obtain ⟨hv, hrest⟩ := List.forall_mem_append.mp hrest
    have hitems := spaced_prettyItems hrest depth outer h
    have hlayout := ((spaced_pretty hv depth hitems).newline depth).lexeme (l := .comma) trivial
    simpa [itemLexemes, prettyItems, Lexeme.chars] using hlayout

theorem spaced_prettyMembers {rest : List (String × Json)}
    (hrest : ∀ l ∈ memberLexemes rest, l.WellFormed) (depth outer : Nat) {ls : List Lexeme}
    {cs : List Char} (h : Spaced ls cs) :
    Spaced (memberLexemes rest ++ ls)
      ((prettyMembers depth rest).toList ++ ((newline outer).toList ++ '\x7d' :: cs)) := by
  match rest with
  | [] =>
    rw [prettyMembers]
    exact (h.lexeme (l := .closeBrace) trivial).newline outer
  | (key, v) :: rest =>
    rw [memberLexemes] at hrest
    obtain ⟨-, hrest⟩ := List.forall_mem_cons.mp hrest
    obtain ⟨hkey, hrest⟩ := List.forall_mem_cons.mp hrest
    obtain ⟨-, hrest⟩ := List.forall_mem_cons.mp hrest
    obtain ⟨hv, hrest⟩ := List.forall_mem_append.mp hrest
    have hmembers := spaced_prettyMembers hrest depth outer h
    have hlayout := (((spaced_pretty hv depth hmembers).key hkey).newline depth).lexeme
      (l := .comma) trivial
    simpa [memberLexemes, prettyMembers, Lexeme.chars, toList_quote] using hlayout

end

/-- What is written for a value writes it. -/
theorem writes_render {v : Json} (h : v.WellFormed) : Writes v.render v := by
  have hend : Spaced [] [] := .nil nofun
  have hlayout := spaced_pretty h 0 hend
  rwa [List.append_nil, List.append_nil] at hlayout

end MipsMacro.Json
