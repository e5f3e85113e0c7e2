import Mathlib.Algebra.GroupWithZero.Nat
import MipsMacro.Expansion
import MipsMacro.Proofs.MacroTable

/-!
# The steps of an expansion

An expansion goes through the lines of a program and hands a number to every call that it replaces.
Here each line that it reaches is a step with the number at hand. Proved here:

* `Expansion.role_spec`, `Expansion.resolved?_eq`: when a line has which role;
* `Expansion.advance_idAt`: the number at a line is the first one and the calls before this line;
* `Expansion.ofLines_eq_steps`: an expansion is what its steps give one after the other, up to the
  first that fails, and takes one number for each invocation among them;
* `Expansion.invocations_numbered`: the numbers of the invocations follow each other;
* `Expansion.uses_of_mem_invocations`: an invocation stands for a call, and its lines are in the output;
* `Expansion.sessionInvocations_numbered`, `Expansion.exists_of_mem_sessionInvocations`: the same across
  several expansions that share one counter.
-/

namespace MipsMacro

theorem map_eq_ok_iff {α β : Type} {x : Except Error α} {f : α → β} {b : β} :
    x.map f = .ok b ↔ ∃ a, x = .ok a ∧ f a = b := by
  cases x <;> simp [Except.map]

theorem toOption_eq_some_iff {α : Type} {x : Except Error α} {a : α} :
    x.toOption = some a ↔ x = .ok a := by
  cases x <;> simp [Except.toOption]

namespace Expansion

/-- A line that an expansion reaches, and the number that a call on it would get. -/
structure Step where
  line : Nat
  role : LineRole
  id : UInt64

namespace Step

/-- What the line is replaced by. -/
def outcome (engine : Engine) (scan : Scan) (program : Program) (s : Step) : Outcome (List String) :=
  segment engine scan.table s.id (program.text s.line) s.role

/-- The use of a macro that the line is, if it is a call that is replaced. -/
def invocation? (s : Step) : Option Invocation :=
  match s.role with
  | .call call definition => some ⟨definition, call.arguments, s.id⟩
  | _ => none

end Step

variable (engine : Engine) (scan : Scan) (program : Program)

/-- What the role of a line says about it. -/
theorem role_spec (n : Nat) :
    match role scan program n with
    | .header labels =>
      (scan.isDefinitionLine n = true ∧ scan.isHeader n = true) ∧
        labels = program.leadingLabels n
    | .hidden => scan.isDefinitionLine n = true ∧ scan.isHeader n = false
    | .unresolved call =>
      scan.isDefinitionLine n = false ∧
        Call.parse? program.name (program.text n) (program.tokens n) = some call ∧
        scan.table.containsName call.name = true ∧
        scan.table.lookup call.name call.arguments.arity = none
    | .call call definition =>
      scan.isDefinitionLine n = false ∧
        Call.parse? program.name (program.text n) (program.tokens n) = some call ∧
        scan.table.containsName call.name = true ∧
        scan.table.lookup call.name call.arguments.arity = some definition
    | .plain =>
      scan.isDefinitionLine n = false ∧
        ∀ call, Call.parse? program.name (program.text n) (program.tokens n) = some call →
          scan.table.containsName call.name = false := by
  unfold role
  cases hblock : scan.isDefinitionLine n with
  | true => cases hheader : scan.isHeader n <;> simp [splitLabels_fst, Program.leadingLabels]
  | false =>
    cases hparse : Call.parse? program.name (program.text n) (program.tokens n) with
    | none => simp
    | some call =>
      cases hname : scan.table.containsName call.name with
      | false => simp [hname]
      | true =>
        cases hlookup : scan.table.lookup call.name call.arguments.arity <;>
          simp [hname, hlookup]

/-- The call on a line outside of all blocks and the definition that it finds, if it finds one. -/
def resolved? (n : Nat) : Option (Call × Definition) :=
  if scan.isDefinitionLine n then
    none
  else
    (Call.parse? program.name (program.text n) (program.tokens n)).bind fun call =>
      (scan.table.lookup call.name call.arguments.arity).map (call, ·)

theorem resolved?_eq (n : Nat) :
    resolved? scan program n =
      match role scan program n with
      | .call call d => some (call, d)
      | _ => none := by
  unfold resolved? role
  cases scan.isDefinitionLine n with
  | true => cases scan.isHeader n <;> rfl
  | false =>
    cases Call.parse? program.name (program.text n) (program.tokens n) with
    | none => rfl
    | some call =>
      cases hlookup : scan.table.lookup call.name call.arguments.arity with
      | none => cases hname : scan.table.containsName call.name <;> simp [hlookup, hname]
      | some d =>
        -- what is found under a name and a number of arguments has this name
        have hname : scan.table.containsName call.name = true :=
          (MacroTable.containsName_iff ..).mpr ⟨_, d, hlookup⟩
        simp [hlookup, hname]

theorem role_of_resolved? {n : Nat} {call : Call} {d : Definition}
    (h : resolved? scan program n = some (call, d)) : role scan program n = .call call d := by
  rw [resolved?_eq] at h
  split at h
  · next hrole =>
    cases h
    exact hrole
  · cases h

/-- How many calls on the lines before a line are replaced. -/
def callsBefore (n : Nat) : Nat :=
  (List.range' 1 (n - 1)).countP fun k => (resolved? scan program k).isSome

/-- The number that a call on a line gets if the first call gets the number `first`. -/
def idAt (first : UInt64) (n : Nat) : UInt64 := first + UInt64.ofNat (callsBefore scan program n)

theorem callsBefore_succ {n : Nat} (hn : 1 ≤ n) :
    callsBefore scan program (n + 1) =
      callsBefore scan program n + (resolved? scan program n).toList.length := by
  obtain ⟨k, rfl⟩ : ∃ k, n = k + 1 := ⟨n - 1, by omega⟩
  rw [callsBefore, callsBefore, Nat.add_sub_cancel, Nat.add_sub_cancel, List.range'_1_concat,
    List.countP_append, Nat.add_comm 1 k]
  cases hcall : resolved? scan program (k + 1) <;> simp [hcall]

theorem advance_idAt (first : UInt64) {n : Nat} (hn : 1 ≤ n) :
    advance (idAt scan program first n) (role scan program n) = idAt scan program first (n + 1) := by
  rw [idAt, idAt, callsBefore_succ scan program hn, resolved?_eq]
  cases role scan program n with
  | call call d => rw [UInt64.ofNat_add, ← UInt64.add_assoc]; rfl
  | header labels => rfl
  | hidden => rfl
  | unresolved call => rfl
  | plain => rfl

/-- The steps through the given lines. A step that fails is the last. -/
def steps (id : UInt64) : List Nat → List Step
  | [] => []
  | n :: ns =>
    let step : Step := ⟨n, role scan program n, id⟩
    step :: match (step.outcome engine scan program).result with
      | .error _ => []
      | .ok _ => steps (advance id step.role) ns

/-- The macros that are used on the way, in order. -/
def invocations (id : UInt64) (lines : List Nat) : List Invocation :=
  (steps engine scan program id lines).filterMap Step.invocation?

/-- The lines of several outcomes together, or the first error among them. -/
def together : List (Except Error (List String)) → Except Error (List String)
  | [] => .ok []
  | .error e :: _ => .error e
  | .ok lines :: rest => (together rest).map (lines ++ ·)

theorem exists_of_mem_together {results : List (Except Error (List String))} {lines : List String}
    (h : together results = .ok lines) {line : String} (hline : line ∈ lines) :
    ∃ part, .ok part ∈ results ∧ line ∈ part := by
  induction results generalizing lines with
  | nil =>
    cases h
    cases hline
  | cons result results ih =>
    cases result with
    | error e => cases h
    | ok first =>
      rw [together, map_eq_ok_iff] at h
      obtain ⟨rest, hrest, rfl⟩ := h
      rcases List.mem_append.mp hline with hline | hline
      · exact ⟨first, List.mem_cons_self .., hline⟩
      · obtain ⟨part, hpart, hline⟩ := ih hrest hline
        exact ⟨part, List.mem_cons_of_mem _ hpart, hline⟩

/-- Each of several outcomes that succeed has its lines in one place. -/
theorem exists_of_together_append {before after : List (Except Error (List String))}
    {result : Except Error (List String)} {lines : List String}
    (h : together (before ++ result :: after) = .ok lines) :
    ∃ pre part post, result = .ok part ∧ lines = pre ++ part ++ post := by
  induction before generalizing lines with
  | nil =>
    cases result with
    | error e => cases h
    | ok part =>
      obtain ⟨rest, -, rfl⟩ := map_eq_ok_iff.mp h
      exact ⟨[], part, rest, rfl, rfl⟩
  | cons first before ih =>
    cases first with
    | error e => cases h
    | ok first =>
      obtain ⟨rest, hrest, rfl⟩ := map_eq_ok_iff.mp h
      obtain ⟨pre, part, post, hpart, rfl⟩ := ih hrest
      exact ⟨first ++ pre, part, post, hpart, by simp⟩

theorem line_mem_of_mem_steps {id : UInt64} {lines : List Nat} {s : Step}
    (h : s ∈ steps engine scan program id lines) : s.line ∈ lines := by
  induction lines generalizing id with
  | nil => cases h
  | cons n ns ih =>
    rcases List.mem_cons.mp h with rfl | h
    · exact List.mem_cons_self ..
    · split at h
      · cases h
      · exact List.mem_cons_of_mem _ (ih h)

theorem role_of_mem_steps {id : UInt64} {lines : List Nat} {s : Step}
    (h : s ∈ steps engine scan program id lines) : s.role = role scan program s.line := by
  induction lines generalizing id with
  | nil => cases h
  | cons n ns ih =>
    rcases List.mem_cons.mp h with rfl | h
    · rfl
    · split at h
      · cases h
      · exact ih h

/-- One number for each invocation. -/
theorem advance_eq (s : Step) :
    advance s.id s.role = s.id + UInt64.ofNat s.invocation?.toList.length := by
  obtain ⟨line, role, id⟩ := s
  cases role <;> simp [advance, Step.invocation?]

theorem add_ofNat_length (id : UInt64) (as bs : List Invocation) :
    id + UInt64.ofNat as.length + UInt64.ofNat bs.length = id + UInt64.ofNat (as ++ bs).length := by
  rw [List.length_append, UInt64.ofNat_add, UInt64.add_assoc]

theorem invocations_cons (id : UInt64) (n : Nat) (ns : List Nat) :
    invocations engine scan program id (n :: ns) =
      let step : Step := ⟨n, role scan program n, id⟩
      step.invocation?.toList ++ match (step.outcome engine scan program).result with
        | .error _ => []
        | .ok _ => invocations engine scan program (advance id step.role) ns := by
  simp only [invocations, steps, List.filterMap_cons]
  cases Step.invocation? ⟨n, role scan program n, id⟩ <;>
    cases (Step.outcome engine scan program ⟨n, role scan program n, id⟩).result <;> rfl

theorem ofLines_eq_steps (id : UInt64) (lines : List Nat) :
    ofLines engine scan program id lines =
      let outcomes := (steps engine scan program id lines).map (Step.outcome engine scan program)
      { result := together (outcomes.map Outcome.result)
        diagnostics := outcomes.flatMap Outcome.diagnostics
        next := id + UInt64.ofNat (invocations engine scan program id lines).length } := by
  induction lines generalizing id with
  | nil => simp [ofLines, steps, invocations, together]
  | cons n ns ih =>
    let step : Step := ⟨n, role scan program n, id⟩
    have hnext : advance id (role scan program n) =
        id + UInt64.ofNat step.invocation?.toList.length := advance_eq step
    rw [ofLines, steps, invocations_cons]
    change (match (step.outcome engine scan program).result with | .error e => _ | .ok lines => _) = _
    cases hresult : (step.outcome engine scan program).result with
    | error e =>
      simp only [step, hresult, List.map_cons, List.map_nil, together, List.flatMap_cons,
        List.flatMap_nil, List.append_nil, hnext]
      rfl
    | ok lines =>
      simp only [step, hresult, ih, List.map_cons, together, List.flatMap_cons]
      simp only [hnext, step, add_ofNat_length]
      rfl

/-- A call on a line outside of all blocks is one use of a macro in an expansion. If the expansion
succeeds, the lines that this use makes stand together in the output. -/
structure Uses (id : UInt64) (i : Invocation) : Prop where
  call : ∃ n ∈ program.lineNumbers, ∃ call,
    resolved? scan program n = some (call, i.definition) ∧ i.arguments = call.arguments
  lines : ∀ output, (ofProgram engine scan program id).result = .ok output →
    ∃ before body after, (i.expand engine).result = .ok body ∧ output = before ++ body ++ after

theorem uses_of_mem_invocations {id : UInt64} {i : Invocation}
    (h : i ∈ invocations engine scan program id program.lineNumbers) :
    Uses engine scan program id i := by
  obtain ⟨s, hs, hi⟩ := List.mem_filterMap.mp h
  have hline := line_mem_of_mem_steps engine scan program hs
  have hrole := role_of_mem_steps engine scan program hs
  obtain ⟨first, rest, hsteps⟩ := List.append_of_mem hs
  obtain ⟨line, role, id'⟩ := s
  cases role with
  | call call d =>
    cases hi
    refine ⟨⟨line, hline, call, ?_, rfl⟩, fun output houtput => ?_⟩
    · rw [resolved?_eq, ← hrole]
    · rw [ofProgram, ofLines_eq_steps, hsteps] at houtput
      simp only [List.map_append, List.map_cons] at houtput
      obtain ⟨pre, part, post, hpart, rfl⟩ := exists_of_together_append houtput
      obtain ⟨body, hbody, rfl⟩ := map_eq_ok_iff.mp hpart
      exact ⟨pre ++ labelLines call.labels, body, post, hbody, by simp⟩
  | header labels => cases hi
  | hidden => cases hi
  | unresolved call => cases hi
  | plain => cases hi

/-! ## Numbers -/

/-- Invocations with the numbers from `id` on, and zero after the largest. -/
def Numbered : UInt64 → List Invocation → Prop
  | _, [] => True
  | id, i :: is => i.id = id ∧ Numbered (id + 1) is

theorem succ_add_ofNat (id : UInt64) (k : Nat) :
    id + 1 + UInt64.ofNat k = id + UInt64.ofNat (k + 1) := by
  rw [UInt64.ofNat_add, UInt64.add_assoc, UInt64.add_comm (UInt64.ofNat k)]
  rfl

theorem Numbered.append {id : UInt64} {as bs : List Invocation} (ha : Numbered id as)
    (hb : Numbered (id + UInt64.ofNat as.length) bs) : Numbered id (as ++ bs) := by
  induction as generalizing id with
  | nil => simpa using hb
  | cons a as ih =>
    refine ⟨ha.1, ih ha.2 ?_⟩
    rw [succ_add_ofNat]
    exact hb

theorem Numbered.id_eq {id : UInt64} {is : List Invocation} {k : Nat} {i : Invocation}
    (h : Numbered id is) (hk : is[k]? = some i) : i.id = id + UInt64.ofNat k := by
  induction is generalizing id k with
  | nil => simp at hk
  | cons first is ih =>
    cases k with
    | zero =>
      cases hk
      simpa using h.1
    | succ k =>
      rw [← succ_add_ofNat]
      exact ih h.2 hk

theorem Step.invocation?_numbered (s : Step) : Numbered s.id s.invocation?.toList := by
  obtain ⟨line, role, id⟩ := s
  cases role <;> simp [Step.invocation?, Numbered]

theorem invocations_numbered (id : UInt64) (lines : List Nat) :
    Numbered id (invocations engine scan program id lines) := by
  induction lines generalizing id with
  | nil => trivial
  | cons n ns ih =>
    let step : Step := ⟨n, role scan program n, id⟩
    rw [invocations_cons]
    refine Numbered.append step.invocation?_numbered ?_
    rw [← advance_eq step]
    cases (step.outcome engine scan program).result with
    | error e => trivial
    | ok lines => exact ih (advance id step.role)

/-! ## Sessions -/

/-- The invocations of several expansions, each of which goes on with the number that the one before
it has left, also when that one has failed. -/
def sessionInvocations (engine : Engine) (id : UInt64) : List (Scan × Program) → List Invocation
  | [] => []
  | (scan, program) :: rest =>
    invocations engine scan program id program.lineNumbers ++
      sessionInvocations engine (ofProgram engine scan program id).next rest

/-- The number that such expansions leave. -/
def sessionNext (engine : Engine) (id : UInt64) (runs : List (Scan × Program)) : UInt64 :=
  runs.foldl (fun id run => (ofProgram engine run.1 run.2 id).next) id

theorem exists_of_mem_sessionInvocations {engine : Engine} {id : UInt64} {runs : List (Scan × Program)}
    {i : Invocation} (h : i ∈ sessionInvocations engine id runs) :
    ∃ before scan program after, runs = before ++ (scan, program) :: after ∧
      Uses engine scan program (sessionNext engine id before) i := by
  induction runs generalizing id with
  | nil => cases h
  | cons run runs ih =>
    obtain ⟨scan, program⟩ := run
    rcases List.mem_append.mp h with h | h
    · exact ⟨[], scan, program, runs, rfl, uses_of_mem_invocations engine scan program h⟩
    · obtain ⟨before, scan', program', after, rfl, huses⟩ := ih h
      exact ⟨(scan, program) :: before, scan', program', after, rfl, huses⟩

theorem sessionInvocations_numbered (engine : Engine) (id : UInt64) (runs : List (Scan × Program)) :
    Numbered id (sessionInvocations engine id runs) := by
  induction runs generalizing id with
  | nil => trivial
  | cons run runs ih =>
    obtain ⟨scan, program⟩ := run
    refine Numbered.append (invocations_numbered engine scan program id _) ?_
    have hnext := congrArg next (ofLines_eq_steps engine scan program id program.lineNumbers)
    simp only at hnext
    rw [← hnext]
    exact ih _

end Expansion

end MipsMacro
