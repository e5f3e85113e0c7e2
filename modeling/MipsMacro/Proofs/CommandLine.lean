import MipsMacro.Command.Arguments
import MipsMacro.Proofs.SourceText

/-!
# What a command line says

An accepted command line, read for the options that have no letter. Proved here:

* `Collected.eq_long_iff`, `Collected.eq_longValue_iff`: an argument has the form of a long option exactly
  if it is spelled as one;
* `Collected.addArgument_cases`: what one argument can do;
* `Collected.reads_of_addAll`: arguments are read one by one, a setting with the value behind it;
* `Collected.Reads.raised_iff`, `Collected.Reads.value?_eq_some_iff`: so a flag is up exactly if it stands
  in front of the dashes behind which all are inputs, and a setting has exactly a value given there;
* `Task.noSpim_iff`, `Task.firstOccurrence_iff`, `Task.firstInvocation_eq_some_iff`: the same of the task.
-/

namespace MipsMacro.Command

/-! ## Names -/

namespace Flag

def long : Flag → String
  | noSpim => "no-spim"
  | firstOccurrence => "first-occurrence"
  | verbose => "verbose"
  | help => "help"
  | version => "version"

/-- Whether no letter stands for the flag. -/
def HasNoLetter (f : Flag) : Prop := ∀ c, ofShort? c ≠ some f

theorem ofLong?_eq_some_iff (name : String) (f : Flag) : ofLong? name = some f ↔ name = f.long := by
  constructor
  · intro h
    grind [ofLong?, long]
  · rintro rfl
    cases f <;> decide

theorem long_inj (f g : Flag) : f = g ↔ f.long = g.long := by
  rw [← ofLong?_eq_some_iff, (ofLong?_eq_some_iff f.long f).mpr rfl, Option.some_inj]

theorem long_plain (f : Flag) : f.long ≠ "" ∧ '=' ∉ f.long.toList := by
  cases f <;> decide +kernel

end Flag

namespace Setting

def long : Setting → String
  | output => "output"
  | config => "config"
  | firstInvocation => "first-invocation"
  | diagnostics => "diagnostics"

def HasNoLetter (s : Setting) : Prop := ∀ c, ofShort? c ≠ some s

theorem ofLong?_eq_some_iff (name : String) (s : Setting) : ofLong? name = some s ↔ name = s.long := by
  constructor
  · intro h
    grind [ofLong?, long]
  · rintro rfl
    cases s <;> decide

theorem long_inj (s s' : Setting) : s = s' ↔ s.long = s'.long := by
  rw [← ofLong?_eq_some_iff, (ofLong?_eq_some_iff s.long s).mpr rfl, Option.some_inj]

theorem long_plain (s : Setting) : s.long ≠ "" ∧ '=' ∉ s.long.toList := by
  cases s <;> decide +kernel

theorem long_ne (s : Setting) (f : Flag) : s.long ≠ f.long := by
  cases s <;> cases f <;> decide

/-- What the value of a setting is read as. -/
def Value : Setting → Type
  | output => String
  | config => String
  | firstInvocation => UInt64
  | diagnostics => Format

def read? : (s : Setting) → String → Option s.Value
  | output => path?
  | config => path?
  | firstInvocation => word?
  | diagnostics => Format.ofName?

end Setting

/-! ## Fields -/

theorem raise_eq_ok {old new : Bool} (h : raise old = .ok new) : old = false ∧ new = true := by
  cases old <;> simp_all [raise]

theorem once_eq_ok {α : Type} {old new : Option α} {read : String → Option α} {value : String}
    (h : once old read value = .ok new) : old = none ∧ new = read value ∧ (read value).isSome := by
  simp only [once] at h
  split at h
  · cases h
  · cases h
  · next v hread =>
    cases h
    exact ⟨rfl, hread.symm, by rw [hread]; rfl⟩

theorem map_eq_ok {α β : Type} {x : Except Stop α} {f : α → β} {b : β} (h : x.map f = .ok b) :
    ∃ a, x = .ok a ∧ b = f a := by
  cases x with
  | error stop => cases h
  | ok a => exact ⟨a, rfl, by cases h; rfl⟩

namespace Collected

/-- Whether a flag is up. -/
def raised (a : Collected) : Flag → Bool
  | .noSpim => a.noSpim
  | .firstOccurrence => a.firstOccurrence
  | .verbose => a.verbose
  | .help => false
  | .version => false

def value? (a : Collected) : (s : Setting) → Option s.Value
  | .output => a.output
  | .config => a.config
  | .firstInvocation => a.firstInvocation
  | .diagnostics => a.diagnostics

/-- A flag is raised once, and nothing else changes. -/
theorem addFlag_eq_ok {a b : Collected} {f : Flag} (h : a.addFlag f = .ok b) :
    (∀ g, b.raised g = true ↔ a.raised g = true ∨ g = f) ∧ b.value? = a.value? := by
  cases f with
  | noSpim | firstOccurrence | verbose =>
    obtain ⟨new, hnew, rfl⟩ := map_eq_ok h
    obtain ⟨-, rfl⟩ := raise_eq_ok hnew
    refine ⟨fun g => ?_, funext fun s => ?_⟩
    · cases g <;> simp [raised]
    · cases s <;> rfl
  | help | version => cases h

/-- A setting gets its value once, and nothing else changes. -/
theorem addSetting_eq_ok {a b : Collected} {text : String} {s : Setting}
    (h : a.addSetting text s = .ok b) :
    b.raised = a.raised ∧ a.value? s = none ∧ b.value? s = s.read? text ∧
      ∀ s', s' ≠ s → b.value? s' = a.value? s' := by
  cases s with
  | output | config | firstInvocation | diagnostics =>
    obtain ⟨new, hnew, rfl⟩ := map_eq_ok h
    obtain ⟨hold, rfl, -⟩ := once_eq_ok hnew
    refine ⟨funext fun g => ?_, hold, rfl, fun s' hne => ?_⟩
    · cases g <;> rfl
    · cases s' <;> first | rfl | exact absurd rfl hne

theorem addSetting_value? {a b : Collected} {text : String} {s : Setting}
    (h : a.addSetting text s = .ok b) (s' : Setting) (v : s'.Value) :
    b.value? s' = some v ↔ a.value? s' = some v ∨ s = s' ∧ s'.read? text = some v := by
  obtain ⟨-, hold, hnew, hothers⟩ := addSetting_eq_ok h
  by_cases hs : s' = s
  · subst hs
    simp [hold, hnew]
  · simp [hothers s' hs, Ne.symm hs]

theorem addInput_eq_ok {a b : Collected} {text : String} (h : a.addInput text = .ok b) :
    b.raised = a.raised ∧ b.value? = a.value? := by
  rw [addInput] at h
  split at h
  · cases h
  · obtain ⟨new, -, rfl⟩ := map_eq_ok h
    refine ⟨funext fun g => ?_, funext fun s => ?_⟩
    · cases g <;> rfl
    · cases s <;> rfl

/-! ## Forms -/

theorem form_eq_inputsFollow_iff (argument : String) : form argument = .inputsFollow ↔ argument = "--" := by
  have hdashes : "--".toList = ['-', '-'] := by decide
  rw [← String.toList_inj, hdashes, form]
  constructor
  · intro h
    split at h
    · assumption
    · cases h
    · cases h
    · cases h
  · intro h
    rw [h]
    rfl

/-- A name behind two dashes ends in front of the first equals sign. -/
theorem form_long {argument : String} {cs : List Char} (h : argument.toList = '-' :: '-' :: cs)
    (hne : cs ≠ []) :
    form argument = .long (String.ofList (cs.takeWhile (· != '=')))
      (if (cs.takeWhile (· != '=')).length < cs.length then
        some (String.ofList (cs.drop ((cs.takeWhile (· != '=')).length + 1))) else none) := by
  obtain ⟨c, cs, rfl⟩ := List.exists_cons_of_ne_nil hne
  rw [form, h]
  rfl

theorem takeWhile_name {name : List Char} (h : '=' ∉ name) (rest : List Char) :
    (name ++ rest).takeWhile (· != '=') = name ++ rest.takeWhile (· != '=') :=
  List.takeWhile_append_of_pos fun _ hc => bne_iff_ne.mpr (ne_of_mem_of_not_mem hc h)

theorem form_name {name : String} (h : name ≠ "" ∧ '=' ∉ name.toList) :
    form ("--" ++ name) = .long name none := by
  have hdashes : ("--" ++ name).toList = '-' :: '-' :: name.toList := by simp
  have hname := takeWhile_name h.2 []
  rw [List.append_nil, List.takeWhile_nil, List.append_nil] at hname
  rw [form_long hdashes (by simpa using h.1), hname, if_neg (Nat.lt_irrefl _), String.ofList_toList]

theorem form_nameValue {name : String} (h : '=' ∉ name.toList) (value : String) :
    form ("--" ++ name ++ "=" ++ value) = .long name (some value) := by
  have hdashes : ("--" ++ name ++ "=" ++ value).toList =
      '-' :: '-' :: (name.toList ++ '=' :: value.toList) := by simp
  have hname := takeWhile_name h ('=' :: value.toList)
  rw [List.takeWhile_cons_of_neg (by simp), List.append_nil] at hname
  rw [form_long hdashes (by simp), hname, if_pos (by simp), String.ofList_toList]
  simp

/-- The spelling of an argument that has the form of a long option. -/
theorem eq_of_form_long {argument name : String} {value : Option String}
    (h : form argument = .long name value) :
    argument = "--" ++ name ++ (value.map ("=" ++ ·)).getD "" := by
  obtain ⟨cs, hcs, hne⟩ : ∃ cs, argument.toList = '-' :: '-' :: cs ∧ cs ≠ [] := by
    rw [form] at h
    split at h
    · cases h
    · next cs hne hcs => exact ⟨cs, hcs, hne⟩
    · cases h
    · cases h
  by_cases hequals : '=' ∈ cs
  · obtain ⟨n, v, rfl, hn⟩ := List.eq_append_cons_of_mem hequals
    have hargument : argument = "--" ++ String.ofList n ++ "=" ++ String.ofList v := by
      simp [← String.toList_inj, hcs]
    rw [hargument, form_nameValue (by simpa using hn)] at h
    cases h
    rw [hargument, Option.map_some, Option.getD_some, String.append_assoc]
  · have hargument : argument = "--" ++ String.ofList cs := by simp [← String.toList_inj, hcs]
    rw [hargument, form_name ⟨by simpa using hne, by simpa using hequals⟩] at h
    cases h
    rw [hargument, Option.map_none, Option.getD_none, String.append_empty]

theorem eq_long_iff {name : String} (h : name ≠ "" ∧ '=' ∉ name.toList) (argument : String) :
    argument = "--" ++ name ↔ form argument = .long name none := by
  constructor
  · rintro rfl
    exact form_name h
  · intro hform
    rw [eq_of_form_long hform, Option.map_none, Option.getD_none, String.append_empty]

theorem eq_longValue_iff {name : String} (h : '=' ∉ name.toList) (argument value : String) :
    argument = "--" ++ name ++ "=" ++ value ↔ form argument = .long name (some value) := by
  constructor
  · rintro rfl
    exact form_nameValue h value
  · intro hform
    rw [eq_of_form_long hform, Option.map_some, Option.getD_some, ← String.append_assoc]

/-! ## One argument -/

/-- The two agree in all flags and settings that have no letter. -/
def AgreesWith (b a : Collected) : Prop :=
  (∀ f : Flag, f.HasNoLetter → (b.raised f = true ↔ a.raised f = true)) ∧
  ∀ s : Setting, s.HasNoLetter → b.value? s = a.value? s

theorem addLetters_eq_ok {a b : Collected} {cs : List Char} {waiting : Option Setting}
    (h : a.addLetters cs = .ok (b, waiting)) :
    b.AgreesWith a ∧ ∀ s ∈ waiting, ¬ s.HasNoLetter := by
  induction cs generalizing a with
  | nil =>
    cases h
    exact ⟨⟨fun _ _ => Iff.rfl, fun _ _ => rfl⟩, nofun⟩
  | cons c cs ih =>
    rw [addLetters.eq_def] at h
    simp only at h
    split at h
    · next flag hflag =>
      obtain ⟨a', hadd, hrest⟩ := bind_eq_ok_iff.mp h
      obtain ⟨hraised, hvalue⟩ := addFlag_eq_ok hadd
      obtain ⟨⟨hflags, hsettings⟩, hwaiting⟩ := ih hrest
      refine ⟨⟨fun f hf => ?_, fun s hs => ?_⟩, hwaiting⟩
      · have hne : f ≠ flag := fun heq => hf c (heq ▸ hflag)
        rw [hflags f hf, hraised f, or_iff_left hne]
      · rw [hsettings s hs, hvalue]
    · split at h
      · cases h
      · next setting hsetting =>
        cases h
        refine ⟨⟨fun _ _ => Iff.rfl, fun _ _ => rfl⟩, fun s hs hletter => ?_⟩
        cases hs
        exact hletter c hsetting
      · next setting v vs hsetting =>
        obtain ⟨a', hadd, hrest⟩ := bind_eq_ok_iff.mp h
        cases hrest
        obtain ⟨hraised, -, -, hothers⟩ := addSetting_eq_ok hadd
        refine ⟨⟨fun f _ => by rw [hraised], fun s hs => hothers s ?_⟩, nofun⟩
        exact fun heq => hs c (heq ▸ hsetting)

/-- What one argument can do. -/
theorem addArgument_cases {a b : Collected} {argument : String} {waiting : Option Setting}
    (h : a.addArgument argument = .ok (b, waiting)) :
    ((∀ name value, form argument ≠ .long name value) ∧ b.AgreesWith a ∧
      ∀ s ∈ waiting, ¬ s.HasNoLetter) ∨
    (∃ f : Flag, form argument = .long f.long none ∧ a.addFlag f = .ok b ∧ waiting = none) ∨
    (∃ s : Setting, form argument = .long s.long none ∧ b = a ∧ waiting = some s) ∨
    ∃ (s : Setting) (text : String), form argument = .long s.long (some text) ∧
      a.addSetting text s = .ok b ∧ waiting = none := by
  rw [addArgument] at h
  split at h
  · next hform =>
    cases h
    exact .inl ⟨by simp [hform], ⟨fun _ _ => Iff.rfl, fun _ _ => rfl⟩, nofun⟩
  · next hform =>
    obtain ⟨a', hadd, heq⟩ := map_eq_ok h
    cases heq
    obtain ⟨hraised, hvalue⟩ := addInput_eq_ok hadd
    exact .inl ⟨by simp [hform], ⟨fun _ _ => by rw [hraised], fun _ _ => by rw [hvalue]⟩, nofun⟩
  · next cs hform =>
    obtain ⟨hagrees, hwaiting⟩ := addLetters_eq_ok h
    exact .inl ⟨by simp [hform], hagrees, hwaiting⟩
  · next name value hform =>
    split at h
    · next f hflag =>
      obtain ⟨a', hadd, heq⟩ := map_eq_ok h
      cases heq
      rw [(Flag.ofLong?_eq_some_iff name f).mp hflag] at hform
      exact .inr (.inl ⟨f, hform, hadd, rfl⟩)
    · cases h
    · next s _ hsetting =>
      cases h
      rw [(Setting.ofLong?_eq_some_iff name s).mp hsetting] at hform
      exact .inr (.inr (.inl ⟨s, hform, rfl, rfl⟩))
    · next s text _ hsetting =>
      obtain ⟨a', hadd, heq⟩ := map_eq_ok h
      cases heq
      rw [(Setting.ofLong?_eq_some_iff name s).mp hsetting] at hform
      exact .inr (.inr (.inr ⟨s, text, hform, hadd, rfl⟩))
    · cases h

theorem addArgument_raised {a b : Collected} {argument : String} {waiting : Option Setting}
    (h : a.addArgument argument = .ok (b, waiting)) {f : Flag} (hf : f.HasNoLetter) :
    b.raised f = true ↔ a.raised f = true ∨ form argument = .long f.long none := by
  rcases addArgument_cases h with ⟨hform, hagrees, -⟩ | ⟨g, hform, hadd, -⟩ | ⟨s, hform, rfl, -⟩ |
    ⟨s, text, hform, hadd, -⟩
  · rw [hagrees.1 f hf, or_iff_left (hform _ _)]
  · rw [(addFlag_eq_ok hadd).1 f, hform, Form.long.injEq, and_iff_left rfl, ← g.long_inj, eq_comm (a := f)]
  · rw [hform, Form.long.injEq, and_iff_left rfl, or_iff_left (s.long_ne f)]
  · rw [(addSetting_eq_ok hadd).1, hform, or_iff_left (by simp)]

theorem addArgument_value? {a b : Collected} {argument : String} {waiting : Option Setting}
    (h : a.addArgument argument = .ok (b, waiting)) {s : Setting} (hs : s.HasNoLetter) (v : s.Value) :
    b.value? s = some v ↔
      a.value? s = some v ∨ ∃ text, form argument = .long s.long (some text) ∧ s.read? text = some v := by
  rcases addArgument_cases h with ⟨hform, hagrees, -⟩ | ⟨g, hform, hadd, -⟩ | ⟨s', hform, rfl, -⟩ |
    ⟨s', text, hform, hadd, -⟩
  · simp [hagrees.2 s hs, hform]
  · simp [(addFlag_eq_ok hadd).2, hform]
  · simp [hform]
  · simp [addSetting_value? hadd s v, hform, ← s'.long_inj, and_assoc]

/-- A setting waits for its value behind its name. -/
theorem addArgument_waiting {a b : Collected} {argument : String} {waiting : Option Setting}
    (h : a.addArgument argument = .ok (b, waiting)) {s : Setting} (hs : s.HasNoLetter) :
    waiting = some s ↔ form argument = .long s.long none := by
  rcases addArgument_cases h with ⟨hform, -, hwaiting⟩ | ⟨g, hform, -, rfl⟩ | ⟨s', hform, -, rfl⟩ |
    ⟨s', text, hform, -, rfl⟩
  · exact ⟨fun heq => absurd hs (hwaiting s heq), fun heq => absurd heq (hform _ _)⟩
  · simp [hform, Ne.symm (s.long_ne g)]
  · simp [hform, ← s'.long_inj]
  · simp [hform]

end Collected

/-! ## Whole command lines -/

/-- The arguments in front of the two dashes behind which all are inputs. -/
def front (arguments : List String) : List String := arguments.takeWhile (· != "--")

@[simp] theorem front_nil : front [] = [] := rfl

@[simp] theorem front_dashes (arguments : List String) : front ("--" :: arguments) = [] := rfl

theorem front_cons {argument : String} (h : argument ≠ "--") (arguments : List String) :
    front (argument :: arguments) = argument :: front arguments := by
  simp [front, h]

/-- The setting is given with the text, behind an equals sign or as the next argument. -/
def Given (s : Setting) (arguments : List String) (text : String) : Prop :=
  "--" ++ s.long ++ "=" ++ text ∈ front arguments ∨ ["--" ++ s.long, text] <:+: front arguments

open Collected

theorem given_cons {argument : String} (h : argument ≠ "--") (s : Setting) (arguments : List String)
    (text : String) :
    Given s (argument :: arguments) text ↔ form argument = .long s.long (some text) ∨
      form argument = .long s.long none ∧ (front arguments).head? = some text ∨
      Given s arguments text := by
  have hhead : [text] <+: front arguments ↔ (front arguments).head? = some text := by
    cases front arguments <;> simp [eq_comm]
  rw [← eq_longValue_iff s.long_plain.2, ← eq_long_iff s.long_plain]
  simp only [Given, front_cons h, List.mem_cons, List.infix_cons_iff, List.cons_prefix_cons, hhead,
    eq_comm (a := argument), or_assoc]
  exact or_congr_right or_left_comm

namespace Collected

/-- A successful reading of a command line, argument by argument. -/
inductive Reads : Collected → List String → Collected → Prop
  | done (a : Collected) : Reads a [] a
  | inputs {a b : Collected} {arguments : List String} (h : a.addInputs arguments = .ok b) :
      Reads a ("--" :: arguments) b
  | alone {a a' b : Collected} {argument : String} {arguments : List String} (hne : argument ≠ "--")
      (h : a.addArgument argument = .ok (a', none)) (rest : Reads a' arguments b) :
      Reads a (argument :: arguments) b
  | valued {a a' a'' b : Collected} {argument text : String} {arguments : List String} {s : Setting}
      (hne : argument ≠ "--") (h : a.addArgument argument = .ok (a', some s))
      (hform : form text = .input) (hadd : a'.addSetting text s = .ok a'')
      (rest : Reads a'' arguments b) : Reads a (argument :: text :: arguments) b

theorem form_eq_input_of_isValue {text : String} (h : isValue text = true) : form text = .input := by
  rw [isValue] at h
  split at h
  · assumption
  · cases h

theorem reads_of_addAll {a b : Collected} {arguments : List String}
    (h : a.addAll arguments = .ok b) : Reads a arguments b := by
  have hdashes := form_eq_inputsFollow_iff
  fun_induction addAll a arguments with
  | case1 =>
    cases h
    exact .done _
  | case2 a argument rest hform =>
    rw [(hdashes argument).mp hform]
    exact .inputs h
  | case4 a argument a' rest hargument hform ih => exact .alone (mt (hdashes _).mpr hform) hargument (ih h)
  | case7 a argument a' s text rest hargument hvalue a'' hadd hform ih =>
    exact .valued (mt (hdashes _).mpr hform) hargument (form_eq_input_of_isValue hvalue) hadd (ih h)
  | case3 | case5 | case6 | case8 => cases h

theorem addInputs_eq_ok {a b : Collected} {arguments : List String}
    (h : a.addInputs arguments = .ok b) : b.raised = a.raised ∧ b.value? = a.value? := by
  induction arguments generalizing a with
  | nil =>
    cases h
    exact ⟨rfl, rfl⟩
  | cons argument arguments ih =>
    obtain ⟨a', hadd, hrest⟩ := bind_eq_ok_iff.mp h
    obtain ⟨hraised, hvalue⟩ := addInput_eq_ok hadd
    rw [(ih hrest).1, (ih hrest).2]
    exact ⟨hraised, hvalue⟩

theorem ne_dashes_of_form_eq_input {text : String} (h : form text = .input) : text ≠ "--" := by
  rintro rfl
  rw [(form_eq_inputsFollow_iff "--").mpr rfl] at h
  cases h

theorem Reads.raised_iff {a b : Collected} {arguments : List String} (h : Reads a arguments b)
    {f : Flag} (hf : f.HasNoLetter) :
    b.raised f = true ↔ a.raised f = true ∨ "--" ++ f.long ∈ front arguments := by
  induction h with
  | done a => simp
  | inputs h => simp [(addInputs_eq_ok h).1]
  | alone hne h rest ih =>
    rw [ih, addArgument_raised h hf, front_cons hne, List.mem_cons, eq_comm (a := "--" ++ f.long),
      eq_long_iff f.long_plain, or_assoc]
  | @valued a a' a'' b argument text arguments s hne h hform hadd rest ih =>
    have htext : "--" ++ f.long ≠ text := by
      rw [ne_comm, Ne, eq_long_iff f.long_plain, hform]
      nofun
    rw [ih, (addSetting_eq_ok hadd).1, addArgument_raised h hf, front_cons hne,
      front_cons (ne_dashes_of_form_eq_input hform), List.mem_cons, List.mem_cons, or_iff_right htext,
      eq_comm (a := "--" ++ f.long), eq_long_iff f.long_plain, or_assoc]

theorem Reads.value?_eq_some_iff {a b : Collected} {arguments : List String} (h : Reads a arguments b)
    {s : Setting} (hs : s.HasNoLetter) (v : s.Value) :
    b.value? s = some v ↔ a.value? s = some v ∨ ∃ text, Given s arguments text ∧ s.read? text = some v := by
  induction h with
  | done a => simp [Given]
  | inputs h => simp [(addInputs_eq_ok h).2, Given]
  | @alone a a' b argument arguments hne h rest ih =>
    -- the argument does not wait for a value, so it is not the bare name of the setting
    have hbare : form argument ≠ .long s.long none := fun hform =>
      absurd ((addArgument_waiting h hs).mpr hform) nofun
    simp only [ih, addArgument_value? h hs, given_cons hne, hbare, false_and, false_or, or_and_right,
      exists_or, or_assoc]
  | @valued a a' a'' b argument text arguments s' hne h hform hadd rest ih =>
    have htext := ne_dashes_of_form_eq_input hform
    have hbare : form argument = .long s.long none ↔ s' = s := by
      rw [← addArgument_waiting h hs, Option.some_inj]
    have hnext : ∀ t, Given s (text :: arguments) t ↔ Given s arguments t := fun t => by
      rw [given_cons htext, hform]
      simp
    simp only [ih, addSetting_value? hadd, addArgument_value? h hs, given_cons hne, hbare, hnext,
      front_cons htext, List.head?_cons, Option.some_inj, or_and_right, exists_or, or_assoc, and_assoc,
      exists_and_left, exists_eq_left']

end Collected

/-! ## Tasks -/

namespace Task

/-- What a task takes over from the arguments. -/
theorem ofArguments_eq_ok {arguments : List String} {t : Task} (h : ofArguments arguments = .ok t) :
    ∃ a, Collected.Reads {} arguments a ∧ t.noSpim = a.noSpim ∧ t.firstOccurrence = a.firstOccurrence ∧
      t.firstInvocation = a.firstInvocation := by
  obtain ⟨a, hadd, htask⟩ := bind_eq_ok_iff.mp h
  refine ⟨a, Collected.reads_of_addAll hadd, ?_⟩
  split at htask
  · cases htask
  · cases htask
    exact ⟨rfl, rfl, rfl⟩

theorem noSpim_iff {arguments : List String} {t : Task} (h : ofArguments arguments = .ok t) :
    t.noSpim = true ↔ "--no-spim" ∈ front arguments := by
  obtain ⟨a, hreads, hflag, -, -⟩ := ofArguments_eq_ok h
  have hletter : Flag.noSpim.HasNoLetter := fun c => by grind [Flag.ofShort?]
  have hname : "--" ++ Flag.noSpim.long = "--no-spim" := by decide
  rw [hflag, ← hname]
  simpa [Collected.raised] using hreads.raised_iff hletter

theorem firstOccurrence_iff {arguments : List String} {t : Task} (h : ofArguments arguments = .ok t) :
    t.firstOccurrence = true ↔ "--first-occurrence" ∈ front arguments := by
  obtain ⟨a, hreads, -, hflag, -⟩ := ofArguments_eq_ok h
  have hletter : Flag.firstOccurrence.HasNoLetter := fun c => by grind [Flag.ofShort?]
  have hname : "--" ++ Flag.firstOccurrence.long = "--first-occurrence" := by decide
  rw [hflag, ← hname]
  simpa [Collected.raised] using hreads.raised_iff hletter

theorem firstInvocation_eq_some_iff {arguments : List String} {t : Task}
    (h : ofArguments arguments = .ok t) (n : UInt64) :
    t.firstInvocation = some n ↔ ∃ text, Given .firstInvocation arguments text ∧ word? text = some n := by
  obtain ⟨a, hreads, -, -, hvalue⟩ := ofArguments_eq_ok h
  have hletter : Setting.firstInvocation.HasNoLetter := fun c => by grind [Setting.ofShort?]
  rw [hvalue]
  exact (hreads.value?_eq_some_iff hletter n).trans (or_iff_right nofun)

end Task

end MipsMacro.Command
