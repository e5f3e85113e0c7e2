import MipsMacro.Block
import MipsMacro.Proofs.Call

/-!
# Reading blocks line by line

What a line does to the blocks is described by the lines before it: the last directive among them
says which block is open, and a line that does not go with it is an offence. Proved here:

* `Block.collect_offence`, `Block.collect_step`: what reading one line does;
* `Block.collect_range`: reading many lines gives the blocks that are closed before the first
  offence, and then this offence or, if there is none, the block that is still open;
* `Scan.ofProgram_result`, `Scan.ofProgram_diagnostics`: the same for a whole program.
-/

namespace MipsMacro

/-! ## Directives -/

/-- Whether a token is the directive `word`, in any letter case. -/
def Token.isDirective (t : Token) (word : String) : Bool :=
  t.kind = .directive && t.text.toList.map Char.toLower = word.toList

/-- The two directives of a block. -/
inductive Side where
  | opening
  | closing
  deriving DecidableEq

namespace Program

/-- The tokens of a line behind its leading labels. -/
def unlabelled (p : Program) (n : Nat) : List Token := behindLabels (p.tokens n)

/-- The leading labels of a line. -/
def leadingLabels (p : Program) (n : Nat) : List String := labelsOf (p.tokens n)

/-- The directive of a block that a line holds, if any: its first token behind the labels. -/
def side? (p : Program) (n : Nat) : Option Side :=
  match p.unlabelled n with
  | [] => none
  | t :: _ =>
    if t.isDirective ".macro" then some .opening
    else if t.isDirective ".end_macro" then some .closing
    else none

/-- The lines among the given ones that open or close a block. -/
def marksOf (p : Program) (lines : List Nat) : List (Nat × Side) :=
  lines.filterMap fun n => (p.side? n).map (n, ·)

def marks (p : Program) : List (Nat × Side) := p.marksOf p.lineNumbers

def marksBefore (p : Program) (n : Nat) : List (Nat × Side) := p.marksOf (List.range' 1 (n - 1))

/-- The line of the last directive before a line, if this directive opens a block. -/
def openBefore (p : Program) (n : Nat) : Option Nat :=
  match (p.marksBefore n).getLast? with
  | some (m, .opening) => some m
  | _ => none

/-- What stands behind the directive of a header. -/
def headerTokens (p : Program) (n : Nat) : List Token := (p.unlabelled n).tail

/-- The name in a header. -/
def headerName (p : Program) (n : Nat) : String := ((p.headerTokens n).head?.map Token.text).getD ""

/-- The parameters in a header: what follows the name, without commas and parentheses. -/
def headerParameters (p : Program) (n : Nat) : List String :=
  ((p.headerTokens n).tail.filter fun t => !Block.isSeparator t).map Token.text

end Program

/-! ## Offences -/

namespace Block

/-- The first thing that is wrong with a header. -/
def headerFault? (engine : Engine) (directive : Token) : List Token → Option (Token × BlockFault)
  | [] => some (directive, .nameExpected)
  | name :: rest =>
    if name.kind = .identifier then
      (rest.find? fun t => !isSeparator t && !engine.isParameter t.text).map
        fun t => (t, .invalidParameter t.text)
    else
      some (name, .invalidName name.text)

/-- What is wrong with a line, given the lines before it, and the token where it shows. -/
def offence? (engine : Engine) (p : Program) (n : Nat) : Option (Token × BlockFault) :=
  match p.unlabelled n with
  | [] => none
  | directive :: rest =>
    match p.side? n, p.openBefore n with
    | some .opening, some m => some (directive, .nested (p.headerName m))
    | some .opening, none => headerFault? engine directive rest
    | some .closing, none => some (directive, .strayEnd)
    | some .closing, some _ => none
    | none, _ => none

/-- The block that is open at line `n` if it was opened at line `m`. -/
def draftAt (p : Program) (m n : Nat) : Draft where
  name := p.headerName m
  program := p
  parameters := p.headerParameters m
  labels := (List.range' (m + 1) (n - (m + 1))).flatMap p.leadingLabels
  range := { first := m, fileFirst := m }

/-- The definition in the block from line `m` to line `e`. -/
def definitionAt (p : Program) (m e : Nat) : Definition := ((draftAt p m (e + 1)).endAt e e).finish

/-- The block that a line closes. -/
def closedAt (p : Program) (n : Nat) : Option (Nat × Nat) :=
  if p.side? n = some .closing then (p.openBefore n).map (·, n) else none

/-- What is open after the last line is an error too. -/
def unclosed (p : Program) (m : Nat) : Error :=
  (BlockFault.unclosed (p.headerName m)).errorAt (.lineStart p.name m)

end Block

/-! ## One line -/

namespace Program

variable (p : Program) (n : Nat)

theorem splitLabels_tokens : splitLabels (p.tokens n) = (p.leadingLabels n, p.unlabelled n) :=
  splitLabels_eq (p.tokens n)

theorem marksBefore_succ (hn : 1 ≤ n) :
    p.marksBefore (n + 1) = p.marksBefore n ++ ((p.side? n).map (n, ·)).toList := by
  obtain ⟨k, rfl⟩ : ∃ k, n = k + 1 := ⟨n - 1, by omega⟩
  simp only [marksBefore, marksOf, Nat.add_sub_cancel, List.range'_1_concat, List.filterMap_append,
    Nat.add_comm 1 k]
  cases h : p.side? (k + 1) <;> simp [h]

/-- A directive decides what is open behind it; other lines leave it as it was. -/
theorem openBefore_succ (hn : 1 ≤ n) :
    p.openBefore (n + 1) =
      match p.side? n with
      | some .opening => some n
      | some .closing => none
      | none => p.openBefore n := by
  rw [openBefore, marksBefore_succ p n hn]
  cases h : p.side? n with
  | none => simp [openBefore]
  | some side => cases side <;> simp

theorem lt_of_openBefore {m : Nat} (h : p.openBefore n = some m) : m < n := by
  unfold openBefore at h
  split at h
  · next m' hlast =>
    cases h
    have hmem := List.mem_of_getLast? hlast
    simp only [marksBefore, marksOf, List.mem_filterMap, List.mem_range'_1,
      Option.map_eq_some_iff, Prod.mk.injEq] at hmem
    obtain ⟨k, hk, side, -, rfl, -⟩ := hmem
    omega
  · cases h

/-- Reading a line's mark in two ways: as the scan does and by its side. -/
theorem mark_eq :
    Mark.ofTokens (p.unlabelled n) =
      match p.unlabelled n, p.side? n with
      | t :: rest, some .opening => .opening t rest
      | t :: _, some .closing => .closing t
      | _, _ => .plain := by
  unfold side? Mark.ofTokens
  cases p.unlabelled n with
  | nil => rfl
  | cons t rest =>
    simp only [Token.isDirective]
    by_cases hk : t.kind = .directive
    · simp only [hk, decide_true, Bool.true_and, decide_eq_true_eq, if_true]
      by_cases hm : t.text.toList.map Char.toLower = ".macro".toList
      · rw [if_pos hm, if_pos hm]
      · rw [if_neg hm, if_neg hm]
        by_cases he : t.text.toList.map Char.toLower = ".end_macro".toList
        · rw [if_pos he, if_pos he]
        · rw [if_neg he, if_neg he]
    · simp [hk]

end Program

namespace Block

variable (engine : Engine) (p : Program) (n : Nat)

theorem parameters_eq (rest : List Token) :
    parameters engine rest =
      match rest.find? fun t => !isSeparator t && !engine.isParameter t.text with
      | some t => .error (t, .invalidParameter t.text)
      | none => .ok ((rest.filter fun t => !isSeparator t).map Token.text) := by
  induction rest with
  | nil => rfl
  | cons t rest ih =>
    rw [parameters, List.find?_cons, List.filter_cons]
    by_cases hs : isSeparator t
    · simp [hs, ih]
    · by_cases hp : engine.isParameter t.text
      · simp only [hs, hp, ih]
        cases rest.find? fun t => !isSeparator t && !engine.isParameter t.text <;> rfl
      · simp [hs, hp]

/-- A header is read as its name and parameters, unless something is wrong with it. -/
theorem header_eq {directive : Token} {rest : List Token}
    (h : p.unlabelled n = directive :: rest) :
    header engine directive rest =
      match headerFault? engine directive rest with
      | some fault => .error fault
      | none => .ok (p.headerName n, p.headerParameters n) := by
  simp only [Program.headerName, Program.headerParameters, Program.headerTokens, h, List.tail_cons]
  cases rest with
  | nil => rfl
  | cons name rest =>
    rw [header, headerFault?]
    by_cases hk : name.kind = .identifier
    · simp only [hk, if_true, parameters_eq]
      cases rest.find? fun t => !isSeparator t && !engine.isParameter t.text <;> rfl
    · simp [hk]

/-- What has been read of the open block when the lines before `n` are read. -/
def currentAt : Option Draft := (p.openBefore n).map fun m => draftAt p m n

theorem draftAt_succ {m : Nat} (h : m < n) :
    draftAt p m (n + 1) = (draftAt p m n).addLabels (p.leadingLabels n) := by
  obtain ⟨k, rfl⟩ : ∃ k, n = m + 1 + k := ⟨n - (m + 1), by omega⟩
  have hk : m + 1 + k + 1 - (m + 1) = k + 1 := by omega
  have hk' : m + 1 + k - (m + 1) = k := by omega
  simp [draftAt, Draft.addLabels, hk, hk', List.range'_1_concat]

/-- An offence ends the reading. -/
theorem collect_offence (lines : List Nat) {t : Token} {fault : BlockFault}
    (h : offence? engine p n = some (t, fault)) :
    collect engine p (currentAt p n) (n :: lines) = ([], some (fault.errorAtToken p.name t)) := by
  have hmark := p.mark_eq n
  unfold offence? at h
  rw [collect]
  cases hbody : p.unlabelled n with
  | nil => simp [hbody] at h
  | cons directive rest =>
    simp only [hbody] at h hmark
    simp only [p.splitLabels_tokens, hbody]
    split at h
    · next m hside hopen =>
      cases h
      simp [hmark, hside, hopen, currentAt, draftAt]
    · next hside hopen =>
      simp only [hmark, hside, currentAt, hopen, Option.map_none, header_eq engine p n hbody, h]
    · next hside hopen =>
      cases h
      simp [hmark, hside, hopen, currentAt]
    · cases h
    · cases h

/-- Any other line is read, and closes a block or not. -/
theorem collect_step (lines : List Nat) (hn : 1 ≤ n) (h : offence? engine p n = none) :
    collect engine p (currentAt p n) (n :: lines) =
      (((closedAt p n).map fun b => definitionAt p b.1 b.2).toList ++
          (collect engine p (currentAt p (n + 1)) lines).1,
        (collect engine p (currentAt p (n + 1)) lines).2) := by
  have hmark := p.mark_eq n
  have hnext := p.openBefore_succ n hn
  unfold offence? at h
  rw [collect]
  cases hside : p.side? n with
  | none =>
    rw [hside] at hmark hnext
    have hplain : Mark.ofTokens (p.unlabelled n) = .plain := by
      rw [hmark]
      cases p.unlabelled n <;> rfl
    simp only [p.splitLabels_tokens, hplain, closedAt, hside, currentAt, hnext]
    cases hopen : p.openBefore n with
    | none => simp
    | some m => simp [draftAt_succ p n (p.lt_of_openBefore n hopen)]
  | some side =>
    cases hbody : p.unlabelled n with
    | nil => simp [Program.side?, hbody] at hside
    | cons directive rest =>
      rw [hside] at hnext
      simp only [hbody, hside] at h hmark
      cases side with
      | opening =>
        cases hopen : p.openBefore n with
        | some m => simp [hopen] at h
        | none =>
          simp only [hopen] at h
          simp only [p.splitLabels_tokens, hbody, hmark, closedAt, hside, currentAt, hopen, hnext,
            Option.map_none, header_eq engine p n hbody, h]
          simp [draftAt, Draft.beginAt]
      | closing =>
        cases hopen : p.openBefore n with
        | none => simp [hopen] at h
        | some m =>
          have hlabels := draftAt_succ p n (p.lt_of_openBefore n hopen)
          simp only [p.splitLabels_tokens, hbody, hmark, closedAt, hside, currentAt, hopen, hnext,
            Option.map_some, Option.map_none, if_true]
          rw [definitionAt, hlabels]
          rfl

/-! ## Many lines -/

/-- The blocks that are closed among the given lines before the first offence. -/
def closedBlocks (lines : List Nat) : List (Nat × Nat) :=
  (lines.takeWhile fun n => (offence? engine p n).isNone).filterMap (closedAt p)

/-- The definitions in blocks. -/
def definitions (blocks : List (Nat × Nat)) : List Definition :=
  blocks.map fun b => definitionAt p b.1 b.2

/-- What ends the reading of lines up to `last`: the first offence, or a block left open. -/
def verdict (lines : List Nat) (last : Nat) : Option Error :=
  match lines.findSome? (offence? engine p) with
  | some (t, fault) => some (fault.errorAtToken p.name t)
  | none => (p.openBefore (last + 1)).map (unclosed p)

theorem collect_range (count : Nat) (hn : 1 ≤ n) :
    collect engine p (currentAt p n) (List.range' n count) =
      (definitions p (closedBlocks engine p (List.range' n count)),
        verdict engine p (List.range' n count) (n + count - 1)) := by
  induction count generalizing n with
  | zero =>
    have hlast : n + 0 - 1 + 1 = n := by omega
    rw [List.range'_zero, verdict, hlast, currentAt]
    cases p.openBefore n <;> rfl
  | succ count ih =>
    have hlast : n + 1 + count - 1 = n + (count + 1) - 1 := by omega
    rw [List.range'_succ]
    cases h : offence? engine p n with
    | some fault =>
      obtain ⟨t, fault⟩ := fault
      rw [collect_offence engine p n _ h]
      simp [closedBlocks, definitions, verdict, h]
    | none =>
      rw [collect_step engine p n _ hn h, ih (n + 1) (by omega), hlast]
      simp only [closedBlocks, definitions, verdict, List.takeWhile_cons, List.findSome?_cons, h,
        Option.isNone_none, if_true, List.filterMap_cons]
      cases closedAt p n <;> rfl

theorem collect_program :
    collect engine p none p.lineNumbers =
      (definitions p (closedBlocks engine p p.lineNumbers),
        verdict engine p p.lineNumbers p.lineCount) := by
  have h := collect_range engine p 1 p.lineCount (Nat.le_refl 1)
  have hnone : currentAt p 1 = none := rfl
  rw [hnone, Nat.add_sub_cancel_left] at h
  exact h

end Block

namespace Scan

variable (engine : Engine) (p : Program)

/-- A scan commits the blocks that are closed before the first offence, in order. -/
theorem ofProgram_diagnostics :
    (ofProgram engine p).diagnostics =
      (commitAll {} (Block.definitions p (Block.closedBlocks engine p p.lineNumbers))).2 := by
  simp only [ofProgram, Block.collect_program]
  cases Block.verdict engine p p.lineNumbers p.lineCount <;> rfl

/-- A scan fails if there is an offence or a block left open, and else holds all blocks. -/
theorem ofProgram_result :
    (ofProgram engine p).result =
      match Block.verdict engine p p.lineNumbers p.lineCount with
      | some e => .error e
      | none =>
        .ok ⟨(commitAll {} (Block.definitions p (Block.closedBlocks engine p p.lineNumbers))).1,
          Block.closedBlocks engine p p.lineNumbers⟩ := by
  have hranges : (Block.definitions p (Block.closedBlocks engine p p.lineNumbers)).map
      (fun d => (d.range.first, d.range.last)) = Block.closedBlocks engine p p.lineNumbers := by
    rw [Block.definitions, List.map_map]
    exact List.map_id _
  simp only [ofProgram, Block.collect_program, hranges]
  cases Block.verdict engine p p.lineNumbers p.lineCount <;> rfl

/-- An engine decides about the blocks of a program by what it takes for an offence. -/
theorem ofProgram_congr {engine engine' : Engine} {p : Program}
    (h : Block.offence? engine p = Block.offence? engine' p) :
    ofProgram engine p = ofProgram engine' p := by
  simp only [ofProgram, Block.collect_program, Block.closedBlocks, Block.verdict, h]

end Scan

end MipsMacro
