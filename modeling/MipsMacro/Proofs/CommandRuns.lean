import MipsMacro.Command.Directory
import MipsMacro.Command.Run
import MipsMacro.Proofs.CommandLine
import MipsMacro.Proofs.Reports

/-!
# Runs of the command

For a command line that is accepted, with files that can be read and written. Proved here:

* `overridden_iff`: the options of a run are those of the configuration with the flags over them;
* `Task.loadOptions_run`, `Task.deliver_run`: how the options are found and the text is written;
* `Task.run_of_ok`, `Task.run_of_error`: so how a run ends;
* `Task.run_diagnostics`: the format of the diagnostics has no part in it;
* `run_of_accepted`: all of this for the arguments.
-/

namespace MipsMacro.Command

/-! ## Options -/

/-- The number of the first invocation that the command line gives. -/
def FirstInvocation (arguments : List String) (n : UInt64) : Prop :=
  ∃ text, Given .firstInvocation arguments text ∧ word? text = some n

/-- The options are the given ones with the flags of the command line over them, and no others. -/
structure Overridden (arguments : List String) (base options : Options) : Prop where
  acceptSpimParameters : options.acceptSpimParameters = true ↔
    base.acceptSpimParameters = true ∧ "--no-spim" ∉ front arguments
  splice : options.splice =
    if "--first-occurrence" ∈ front arguments then .firstOccurrence else base.splice
  labelSuffix : options.labelSuffix = base.labelSuffix
  given : ∀ n, FirstInvocation arguments n → options.firstInvocation = n
  kept : (∀ n, ¬ FirstInvocation arguments n) → options.firstInvocation = base.firstInvocation

theorem Overridden.unique {arguments : List String} {base options options' : Options}
    (h : Overridden arguments base options) (h' : Overridden arguments base options') :
    options = options' := by
  have hspim : options.acceptSpimParameters = options'.acceptSpimParameters := by
    rw [Bool.eq_iff_iff, h.acceptSpimParameters, h'.acceptSpimParameters]
  have hfirst : options.firstInvocation = options'.firstInvocation := by
    by_cases hgiven : ∃ n, FirstInvocation arguments n
    · obtain ⟨n, hn⟩ := hgiven
      rw [h.given n hn, h'.given n hn]
    · have hnone := not_exists.mp hgiven
      rw [h.kept hnone, h'.kept hnone]
  have hsplice := h.splice.trans h'.splice.symm
  have hsuffix := h.labelSuffix.trans h'.labelSuffix.symm
  cases options
  cases options'
  simp_all

theorem overridden_override {arguments : List String} {t : Task}
    (h : Task.ofArguments arguments = .ok t) (base : Options) :
    Overridden arguments base (t.override base) where
  acceptSpimParameters := by simp [Task.override, ← Task.noSpim_iff h]
  splice := by simp [Task.override, ← Task.firstOccurrence_iff h]
  labelSuffix := rfl
  given n hn := by
    rw [Task.override, (Task.firstInvocation_eq_some_iff h n).mpr hn, Option.getD_some]
  kept hnone := by
    have hfirst : t.firstInvocation = none :=
      Option.eq_none_iff_forall_ne_some.mpr fun n hn =>
        hnone n ((Task.firstInvocation_eq_some_iff h n).mp hn)
    rw [Task.override, hfirst, Option.getD_none]

theorem overridden_iff {arguments : List String} {t : Task} (h : Task.ofArguments arguments = .ok t)
    (base options : Options) : Overridden arguments base options ↔ options = t.override base := by
  constructor
  · exact fun hover => hover.unique (overridden_override h base)
  · rintro rfl
    exact overridden_override h base

namespace Task

/-- What the configuration of a task says, or the defaults if it has none. -/
def Configures (t : Task) (contents : String → String) (base : Options) : Prop :=
  match t.config with
  | none => base = {}
  | some path => Options.ofText (contents path) = .ok base

theorem Configures.unique {t : Task} {contents : String → String} {base base' : Options}
    (h : t.Configures contents base) (h' : t.Configures contents base') : base = base' := by
  rw [Configures] at h h'
  cases hconfig : t.config with
  | none =>
    simp only [hconfig] at h h'
    rw [h, h']
  | some path =>
    simp only [hconfig] at h h'
    exact Except.ok.inj (h.symm.trans h')

end Task

/-! ## Steps of a run -/

theorem run_bind_of_eq {σ α β : Type} {x : StateM σ α} {f : α → StateM σ β} {s s' : σ} {a : α}
    (h : x.run s = (a, s')) : (x >>= f).run s = (f a).run s' := by
  rw [StateT.run_bind, h]
  rfl

namespace Task

variable {σ : Type} {files : Files (StateM σ)} {s : σ} {contents : String → String} {t : Task}

/-- Options are loaded without a trace, and exactly if the configuration can be read. -/
theorem loadOptions_run
    (h : ∀ path ∈ t.config, (files.read path).run s = (.ok (contents path), s)) :
    ∃ loaded, (t.loadOptions files).run s = (loaded, s) ∧
      ∀ o, loaded = .ok o ↔ ∃ base, t.Configures contents base ∧ o = t.override base := by
  cases hconfig : t.config with
  | none =>
    refine ⟨.ok (t.override {}), ?_, fun o => by simp [Configures, hconfig, eq_comm]⟩
    simp only [loadOptions, hconfig]
    rfl
  | some path =>
    have hread := h path hconfig
    cases htext : Options.ofText (contents path) with
    | error e =>
      refine ⟨.error { message := e.message }, ?_, fun o => by simp [Configures, hconfig, htext]⟩
      simp only [loadOptions, hconfig]
      rw [run_bind_of_eq hread]
      simp only [htext]
      rfl
    | ok base =>
      refine ⟨.ok (t.override base), ?_, fun o => by simp [Configures, hconfig, htext, eq_comm]⟩
      simp only [loadOptions, hconfig]
      rw [run_bind_of_eq hread]
      simp only [htext]
      rfl

theorem finish_code (printed stdout : String) (report : Report) :
    (finish printed stdout report).code =
      if ∃ d ∈ report.diagnostics, d.severity = .error then 1 else 0 := by
  rw [finish]
  by_cases herrors : report.hasErrors = true
  · rw [if_pos herrors, if_pos (report.hasErrors_iff.mp herrors)]
  · rw [if_neg herrors, if_neg (mt report.hasErrors_iff.mpr herrors)]

theorem finish_stdout (printed stdout : String) (report : Report) :
    (finish printed stdout report).stdout = stdout := by
  rw [finish]
  split <;> rfl

/-- The run has left the text in its output: the named file, or else what it prints. -/
def Written (files : Files (StateM σ)) (t : Task) (s : σ) (text : String) (ran : Exit × σ) : Prop :=
  match t.output with
  | none => ran.1.stdout = text ∧ ran.2 = s
  | some path => ran.1.stdout = "" ∧ (files.write path text).run s = (.ok (), ran.2)

theorem deliver_run (text : String) (ds : List Diagnostic)
    (h : ∀ path ∈ t.output, ∃ s', (files.write path text).run s = (.ok (), s')) :
    let ran : Exit × σ := (t.deliver files ⟨.ok text, ds⟩).run s
    ran.1.code = (if ∃ d ∈ ds, d.severity = .error then 1 else 0) ∧ Written files t s text ran := by
  cases houtput : t.output with
  | none =>
    simp only [deliver, houtput, Written]
    exact ⟨finish_code _ _ _, finish_stdout _ _ _, rfl⟩
  | some path =>
    obtain ⟨s', hwrite⟩ := h path houtput
    simp only [deliver, houtput, Written]
    rw [run_bind_of_eq hwrite]
    exact ⟨finish_code _ _ _, finish_stdout _ _ _, hwrite⟩

/-- A run ends at a configuration that says nothing, or delivers the expansion of its input. -/
theorem run_cases
    (hconfig : ∀ path ∈ t.config, (files.read path).run s = (.ok (contents path), s))
    (hinput : (files.read t.input).run s = (.ok (contents t.input), s)) :
    (∃ failure : Failure, (t.run files).run s = (failure.exit, s) ∧ ∀ base, ¬ t.Configures contents base) ∨
    ∃ base, t.Configures contents base ∧ (t.run files).run s =
      (t.deliver files (expandSource (t.override base) t.input (contents t.input))).run s := by
  obtain ⟨loaded, hload, hloaded⟩ := loadOptions_run hconfig
  cases loaded with
  | error failure =>
    refine .inl ⟨failure, ?_, fun base hbase => nomatch (hloaded _).mpr ⟨base, hbase, rfl⟩⟩
    rw [run, run_bind_of_eq hload]
    rfl
  | ok options =>
    obtain ⟨base, hbase, rfl⟩ := (hloaded options).mp rfl
    refine .inr ⟨base, hbase, ?_⟩
    rw [run, run_bind_of_eq hload]
    exact run_bind_of_eq hinput

theorem run_of_ok {base : Options} {text : String} {ds : List Diagnostic}
    (hconfig : ∀ path ∈ t.config, (files.read path).run s = (.ok (contents path), s))
    (hinput : (files.read t.input).run s = (.ok (contents t.input), s))
    (hwrites : ∀ path ∈ t.output, ∀ text, ∃ s', (files.write path text).run s = (.ok (), s'))
    (hbase : t.Configures contents base)
    (hexpand : expandSource (t.override base) t.input (contents t.input) = ⟨.ok text, ds⟩) :
    let ran : Exit × σ := (t.run files).run s
    ran.1.code = (if ∃ d ∈ ds, d.severity = .error then 1 else 0) ∧ Written files t s text ran := by
  rcases run_cases hconfig hinput with ⟨failure, -, hnone⟩ | ⟨base', hbase', hrun⟩
  · exact absurd hbase (hnone base)
  · rw [hrun, hbase'.unique hbase, hexpand]
    exact deliver_run text ds fun path hpath => hwrites path hpath text

/-- A run in which the options or the source cannot be read leaves nothing but an error. -/
theorem run_of_error
    (hconfig : ∀ path ∈ t.config, (files.read path).run s = (.ok (contents path), s))
    (hinput : (files.read t.input).run s = (.ok (contents t.input), s))
    (hnone : ∀ base text ds, t.Configures contents base →
      expandSource (t.override base) t.input (contents t.input) ≠ ⟨.ok text, ds⟩) :
    let ran : Exit × σ := (t.run files).run s
    ran.1.code = 1 ∧ ran.1.stdout = "" ∧ ran.2 = s := by
  rcases run_cases hconfig hinput with ⟨failure, hrun, -⟩ | ⟨base, hbase, hrun⟩
  · rw [hrun]
    exact ⟨rfl, rfl, rfl⟩
  · rw [hrun]
    cases hexpand : expandSource (t.override base) t.input (contents t.input) with
    | mk result ds =>
      cases result with
      | error e => exact ⟨rfl, rfl, rfl⟩
      | ok text => exact absurd hexpand (hnone base text ds hbase)

/-- The two runs differ in nothing but the diagnostics that they print. -/
def SameButDiagnostics (ran ran' : Exit × σ) : Prop :=
  ran'.1.code = ran.1.code ∧ ran'.1.stdout = ran.1.stdout ∧ ran'.2 = ran.2

theorem deliver_diagnostics (files : Files (StateM σ)) (t : Task) (format : Format)
    (outcome : Outcome String) (s : σ) :
    SameButDiagnostics ((t.deliver files outcome).run s)
      (({ t with diagnostics := format }.deliver files outcome).run s) := by
  have hfinish : ∀ (printed printed' stdout : String) (report : Report) (s : σ),
      SameButDiagnostics (finish printed stdout report, s) (finish printed' stdout report, s) := by
    intro printed printed' stdout report s
    refine ⟨?_, ?_, rfl⟩
    · rw [finish_code, finish_code]
    · rw [finish_stdout, finish_stdout]
  obtain ⟨result, ds⟩ := outcome
  cases result with
  | error e => exact ⟨rfl, rfl, rfl⟩
  | ok text =>
    cases houtput : t.output with
    | none =>
      simp only [deliver, houtput]
      exact hfinish _ _ _ _ _
    | some path =>
      obtain ⟨written, s', hwrite⟩ : ∃ written s', (files.write path text).run s = (written, s') :=
        ⟨_, _, rfl⟩
      simp only [deliver, houtput]
      rw [run_bind_of_eq hwrite, run_bind_of_eq hwrite]
      cases written with
      | error fault => exact ⟨rfl, rfl, rfl⟩
      | ok _ => exact hfinish _ _ _ _ _

theorem run_diagnostics (files : Files (StateM σ)) (t : Task) (format : Format) (s : σ) :
    SameButDiagnostics ((t.run files).run s) (({ t with diagnostics := format }.run files).run s) := by
  obtain ⟨loaded, s', hload⟩ : ∃ loaded s', (t.loadOptions files).run s = (loaded, s') := ⟨_, _, rfl⟩
  have hload' : ({ t with diagnostics := format }.loadOptions files).run s = (loaded, s') := hload
  rw [run, run, run_bind_of_eq hload, run_bind_of_eq hload']
  cases loaded with
  | error failure => exact ⟨rfl, rfl, rfl⟩
  | ok options =>
    obtain ⟨source, s'', hread⟩ : ∃ source s'', (files.read t.input).run s' = (source, s'') :=
      ⟨_, _, rfl⟩
    simp only
    rw [run_bind_of_eq hread, run_bind_of_eq hread]
    cases source with
    | error fault => exact ⟨rfl, rfl, rfl⟩
    | ok source => exact deliver_diagnostics files t format _ s''

end Task

/-- The expansion that a task asks for, with the flags on its command line, gives the text and these
complaints. -/
def Expands (arguments : List String) (t : Task) (contents : String → String) (text : String)
    (ds : List Diagnostic) : Prop :=
  ∃ base options, t.Configures contents base ∧ Overridden arguments base options ∧
    expandSource options t.input (contents t.input) = ⟨.ok text, ds⟩

section

variable {σ : Type} {files : Files (StateM σ)} {s : σ} {contents : String → String}
  {arguments : List String} {t : Task}

theorem run_eq_of_accepted (h : Task.ofArguments arguments = .ok t) :
    run files arguments = t.run files := by
  simp only [run, h]

theorem run_of_expands {text : String} {ds : List Diagnostic}
    (haccepted : Task.ofArguments arguments = .ok t)
    (hconfig : ∀ path ∈ t.config, (files.read path).run s = (.ok (contents path), s))
    (hinput : (files.read t.input).run s = (.ok (contents t.input), s))
    (hwrites : ∀ path ∈ t.output, ∀ text, ∃ s', (files.write path text).run s = (.ok (), s'))
    (hexpands : Expands arguments t contents text ds) :
    let ran : Exit × σ := (run files arguments).run s
    ran.1.code = (if ∃ d ∈ ds, d.severity = .error then 1 else 0) ∧ Task.Written files t s text ran := by
  obtain ⟨base, options, hbase, hover, hexpand⟩ := hexpands
  rw [(overridden_iff haccepted base options).mp hover] at hexpand
  rw [run_eq_of_accepted haccepted]
  exact Task.run_of_ok hconfig hinput hwrites hbase hexpand

theorem run_of_not_expands (haccepted : Task.ofArguments arguments = .ok t)
    (hconfig : ∀ path ∈ t.config, (files.read path).run s = (.ok (contents path), s))
    (hinput : (files.read t.input).run s = (.ok (contents t.input), s))
    (hnone : ¬ ∃ text ds, Expands arguments t contents text ds) :
    let ran : Exit × σ := (run files arguments).run s
    ran.1.code = 1 ∧ ran.1.stdout = "" ∧ ran.2 = s := by
  rw [run_eq_of_accepted haccepted]
  refine Task.run_of_error hconfig hinput fun base text ds hbase hexpand => hnone ⟨text, ds, ?_⟩
  exact ⟨base, _, hbase, overridden_override haccepted base, hexpand⟩

end

/-- **Runs.** An accepted command line, with files that can be read and written, ends in success exactly
if the configuration can be read, the input is expanded with the options that the flags leave, and nothing
that is complained about is an error. The text is written, and nothing else is, exactly if there is one;
warnings do no harm; and the format of the diagnostics has no part in any of this. -/
theorem run_of_accepted {σ : Type} (files : Files (StateM σ)) (s : σ) (contents : String → String)
    {arguments : List String} {t : Task} (haccepted : Task.ofArguments arguments = .ok t)
    (hconfig : ∀ path ∈ t.config, (files.read path).run s = (.ok (contents path), s))
    (hinput : (files.read t.input).run s = (.ok (contents t.input), s))
    (hwrites : ∀ path ∈ t.output, ∀ text, ∃ s', (files.write path text).run s = (.ok (), s')) :
    let ran : Exit × σ := (run files arguments).run s
    (ran.1.code = 0 ↔ ∃ text ds, Expands arguments t contents text ds ∧ ∀ d ∈ ds, d.severity ≠ .error) ∧
    (∀ text ds, Expands arguments t contents text ds →
      ran.1.code = (if ∃ d ∈ ds, d.severity = .error then 1 else 0) ∧
      match t.output with
      | none => ran.1.stdout = text ∧ ran.2 = s
      | some path => ran.1.stdout = "" ∧ (files.write path text).run s = (.ok (), ran.2)) ∧
    (∀ text ds, Expands arguments t contents text ds → (∀ d ∈ ds, d.severity = .warning) →
      ran.1.code = 0) ∧
    ((¬ ∃ text ds, Expands arguments t contents text ds) →
      ran.1.code = 1 ∧ ran.1.stdout = "" ∧ ran.2 = s) ∧
    ∀ arguments' format, Task.ofArguments arguments' = .ok { t with diagnostics := format } →
      let ran' : Exit × σ := (run files arguments').run s
      ran'.1.code = ran.1.code ∧ ran'.1.stdout = ran.1.stdout ∧ ran'.2 = ran.2 := by
  intro ran
  have hok : ∀ text ds, Expands arguments t contents text ds →
      ran.1.code = (if ∃ d ∈ ds, d.severity = .error then 1 else 0) ∧
        Task.Written files t s text ran :=
    fun text ds => run_of_expands haccepted hconfig hinput hwrites
  have hfailed := run_of_not_expands haccepted hconfig hinput
  have hsuccess : ∀ text ds, Expands arguments t contents text ds → (∀ d ∈ ds, d.severity ≠ .error) →
      ran.1.code = 0 := by
    intro text ds hexpands hclean
    rw [(hok text ds hexpands).1, if_neg fun ⟨d, hd, herror⟩ => hclean d hd herror]
  refine ⟨⟨fun hcode => ?_, fun ⟨text, ds, hexpands, hclean⟩ => hsuccess text ds hexpands hclean⟩, hok,
    fun text ds hexpands hwarnings => ?_, hfailed, ?_⟩
  · by_cases hexpands : ∃ text ds, Expands arguments t contents text ds
    · obtain ⟨text, ds, hexpands⟩ := hexpands
      refine ⟨text, ds, hexpands, fun d hd herror => ?_⟩
      rw [(hok text ds hexpands).1, if_pos ⟨d, hd, herror⟩] at hcode
      exact absurd hcode (by decide)
    · rw [(hfailed hexpands).1] at hcode
      exact absurd hcode (by decide)
  · refine hsuccess text ds hexpands fun d hd => ?_
    rw [hwarnings d hd]
    nofun
  · intro arguments' format haccepted' ran'
    have hsame := Task.run_diagnostics files t format s
    rwa [← run_eq_of_accepted haccepted, ← run_eq_of_accepted haccepted'] at hsame

theorem Files.inMemory_read (d : Directory) (path : String) :
    (Files.inMemory.read path).run d = (d.read path, d) := rfl

theorem Files.inMemory_write {d d' : Directory} {path text : String} (h : d.write path text = .ok d') :
    (Files.inMemory.write path text).run d = (.ok (), d') := by
  have hget : (get : StateM Directory Directory).run d = (d, d) := rfl
  rw [Files.inMemory, run_bind_of_eq hget, h]
  rfl

/-- A macro with a label, a call of it, and a call with an argument too many. -/
def labelledSource : String := ".macro m\nl: nop\n.end_macro\nm\nm 3\n"

def labelledConfig : String :=
  "\x7b\x22label_suffix\x22: \x22_K\x22, \x22first_invocation\x22: 3\x7d"

def labelledFiles : Directory :=
  .ofFiles [("m.asm", labelledSource.toUTF8), ("c.json", labelledConfig.toUTF8)]

theorem run_of_accepted_labelled :
    let ran : Exit × Directory := (run .inMemory
      ["m.asm", "--config", "c.json", "-oout.asm", "--first-invocation=7"]).run labelledFiles
    ran.1.code = 1 ∧ ran.1.stdout = "" ∧ ran.2.read "out.asm" = .ok "l_K7: nop\nm 3\n" := by
  intro ran
  let contents : String → String := fun path => if path = "m.asm" then labelledSource else labelledConfig
  let base : Options := { labelSuffix := "_K", firstInvocation := 3 }
  let t : Task := ⟨"m.asm", some "out.asm", some "c.json", some 7, .text, false, false⟩
  let place : Place := ⟨.above 0, ["out.asm"]⟩
  have haccepted : Task.ofArguments ["m.asm", "--config", "c.json", "-oout.asm", "--first-invocation=7"] =
      .ok t := by decide +kernel
  have hreads : ∀ path ∈ ["m.asm", "c.json"], labelledFiles.read path = .ok (contents path) := by
    decide +kernel
  have hread : ∀ path ∈ ["m.asm", "c.json"], (Files.inMemory.read path).run labelledFiles =
      (.ok (contents path), labelledFiles) := fun path hpath => by
    rw [Files.inMemory_read, hreads path hpath]
  have hwrite : ∀ text, (Files.inMemory.write "out.asm" text).run labelledFiles =
      (.ok (), labelledFiles.put place text) := by
    intro text
    refine Files.inMemory_write ?_
    have htarget : labelledFiles.target "out.asm" = .ok place := by decide +kernel
    have hnode : labelledFiles.node place = .nothing := by rfl
    rw [Directory.write, htarget]
    simp only [bind, Except.bind, hnode]
  have hexpands : Expands ["m.asm", "--config", "c.json", "-oout.asm", "--first-invocation=7"] t contents
      "l_K7: nop\nm 3\n" (expandSource (t.override base) "m.asm" labelledSource).diagnostics := by
    have hbase : t.Configures contents base := by
      show Options.ofText labelledConfig = .ok base
      decide +kernel
    have hresult : (expandSource (t.override base) "m.asm" labelledSource).result =
      .ok "l_K7: nop\nm 3\n" := by decide +kernel
    refine ⟨base, _, hbase, overridden_override haccepted base, ?_⟩
    rw [← hresult]
    rfl
  obtain ⟨-, hok, -⟩ := run_of_accepted .inMemory labelledFiles contents haccepted
    (fun path hpath => hread path (by cases hpath; simp)) (hread "m.asm" (by simp))
    fun path hpath text => ⟨labelledFiles.put place text, by cases hpath; exact hwrite text⟩
  obtain ⟨hcode, hstdout, hwritten⟩ := hok _ _ hexpands
  refine ⟨hcode.trans (by decide +kernel), hstdout, ?_⟩
  rw [hwrite] at hwritten
  rw [← congrArg Prod.snd hwritten]
  decide +kernel

end MipsMacro.Command
