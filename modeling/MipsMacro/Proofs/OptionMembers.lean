import MipsMacro.Options.Json
import MipsMacro.Proofs.JsonRecords
import MipsMacro.Proofs.JsonText
import MipsMacro.Proofs.RegisterNames

/-!
# Options in whatever layout

An object gives some of the options, in any order, with any blanks and escapes and with other members
between them. Proved here:

* `Options.exists_record`: reading keeps one member for each option that is given, and no other;
* `Options.ofJson?_of_given`: so every option that is given has its value, and every other its default;
* `Options.ofText_of_written`: the same for the text of such an object; it is refused if an option is given
  twice or the first invocation is no number of 64 bits.
-/

namespace MipsMacro

open Json

def SpliceStrategy.name : SpliceStrategy → String
  | trackOffsets => "track_offsets"
  | firstOccurrence => "first_occurrence"

theorem SpliceStrategy.ofJson?_of_spells {s : SpliceStrategy} {spelling : String}
    (h : SpellsText spelling s.name) : ofJson? (.string spelling) = some s := by
  simp only [ofJson?, asChoice?, text?_of_spells h, bind, Option.bind_some]
  cases s <;> decide

theorem Json.asNat?_eq_none {spelling : String} {bound : Nat}
    (h : ∀ n < bound, ¬ Text.Writes spelling.toList n) :
    (Json.number spelling).asNat? bound = none := by
  rw [asNat?, Option.filter_eq_none_iff]
  intro n hn hlt
  exact h n (Nat.blt_eq.mp hlt) (Text.ofDecimal?_eq_some_iff.mp hn)

namespace Options

/-! ## What is written -/

/-- A choice of options with their values. -/
structure Given where
  acceptSpimParameters : Option Bool := none
  splice : Option SpliceStrategy := none
  labelSuffix : Option String := none
  firstInvocation : Option UInt64 := none

/-- What is given, over the defaults. -/
def Given.options (g : Given) : Options :=
  let defaults : Options := {}
  { acceptSpimParameters := g.acceptSpimParameters.getD defaults.acceptSpimParameters
    splice := g.splice.getD defaults.splice
    labelSuffix := g.labelSuffix.getD defaults.labelSuffix
    firstInvocation := g.firstInvocation.getD defaults.firstInvocation }

/-- A member that gives an option, or one of another name. -/
inductive Entry where
  | acceptSpimParameters (value : Bool)
  | splice (strategy : SpliceStrategy)
  | labelSuffix (suffix : String)
  | firstInvocation (id : UInt64)
  | other (name : String) (hname : name ∉ fieldNames)

namespace Entry

def name : Entry → String
  | acceptSpimParameters _ => "accept_spim_parameters"
  | splice _ => "splice"
  | labelSuffix _ => "label_suffix"
  | firstInvocation _ => "first_invocation"
  | other name _ => name

def isField : Entry → Bool
  | other _ _ => false
  | _ => true

/-- The value of the member; that of a member of another name may be any. -/
def HasValue : Entry → Json → Prop
  | acceptSpimParameters value, v => v = .bool value
  | splice strategy, v => ∃ spelling, v = .string spelling ∧ SpellsText spelling strategy.name
  | labelSuffix suffix, v => ∃ spelling, v = .string spelling ∧ SpellsText spelling suffix
  | firstInvocation id, v => ∃ spelling, v = .number spelling ∧ Text.Writes spelling.toList id.toNat
  | other _ _, _ => True

/-- The member is written for the entry. -/
structure WrittenAs (e : Entry) (m : String × Json) : Prop where
  key : SpellsText m.1 e.name
  value : e.HasValue m.2

theorem isField_iff (e : Entry) : e.isField = true ↔ e.name ∈ fieldNames := by
  cases e with
  | other name hname => simpa [isField, Entry.name] using hname
  | _ => simp [isField, Entry.name, fieldNames]

end Entry

/-- An entry for each option that is given. -/
def Given.entries (g : Given) : List Entry :=
  (g.acceptSpimParameters.map Entry.acceptSpimParameters).toList ++
  (g.splice.map Entry.splice).toList ++
  (g.labelSuffix.map Entry.labelSuffix).toList ++
  (g.firstInvocation.map Entry.firstInvocation).toList

/-- The entry says what is given. -/
def Given.Holds (g : Given) : Entry → Prop
  | .acceptSpimParameters value => g.acceptSpimParameters = some value
  | .splice strategy => g.splice = some strategy
  | .labelSuffix suffix => g.labelSuffix = some suffix
  | .firstInvocation id => g.firstInvocation = some id
  | .other _ _ => False

theorem Given.mem_entries_iff (g : Given) (e : Entry) : e ∈ g.entries ↔ g.Holds e := by
  cases e <;> simp [entries, Holds]

theorem Given.mem_names_iff (g : Given) (name : String) :
    name ∈ g.entries.map Entry.name ↔
      name = "accept_spim_parameters" ∧ g.acceptSpimParameters.isSome = true ∨
      name = "splice" ∧ g.splice.isSome = true ∨
      name = "label_suffix" ∧ g.labelSuffix.isSome = true ∨
      name = "first_invocation" ∧ g.firstInvocation.isSome = true := by
  have hpart : ∀ {α : Type} (entry : α → Entry) (name' : String), (∀ a, (entry a).name = name') →
      ∀ x : Option α,
        name ∈ (x.map entry).toList.map Entry.name ↔ name = name' ∧ x.isSome = true := by
    intro α entry name' hname x
    cases x <;> simp [hname]
  simp only [entries, List.map_append, List.mem_append, or_assoc,
    hpart .acceptSpimParameters _ fun _ => rfl, hpart .splice _ fun _ => rfl,
    hpart .labelSuffix _ fun _ => rfl, hpart .firstInvocation _ fun _ => rfl]

/-- No two of them have one name. -/
theorem Given.nodup_names (g : Given) : (g.entries.map Entry.name).Nodup := by
  have hpart : ∀ {α : Type} (entry : α → Entry) (name : String), (∀ a, (entry a).name = name) →
      ∀ x : Option α, ((x.map entry).toList.map Entry.name).Sublist [name] := by
    intro α entry name hname x
    cases x with
    | none => exact List.nil_sublist _
    | some a => simp [hname]
  have hspim := hpart .acceptSpimParameters _ (fun _ => rfl) g.acceptSpimParameters
  have hsplice := hpart .splice _ (fun _ => rfl) g.splice
  have hsuffix := hpart .labelSuffix _ (fun _ => rfl) g.labelSuffix
  have hfirst := hpart .firstInvocation _ (fun _ => rfl) g.firstInvocation
  have hsublist : (g.entries.map Entry.name).Sublist fieldNames := by
    simp only [entries, List.map_append]
    exact ((hspim.append hsplice).append hsuffix).append hfirst
  exact hsublist.nodup (by decide)

/-! ## What is read -/

/-- What is kept of the member of an entry. -/
def Entry.ReadAs (e : Entry) (r : String × Json) : Prop := r.1 = e.name ∧ e.HasValue r.2

theorem exists_readKeys {entries : List Entry} {members : List (String × Json)}
    (h : List.Forall₂ Entry.WrittenAs entries members) :
    ∃ record, readKeys members = some record ∧ List.Forall₂ Entry.ReadAs entries record := by
  induction h with
  | nil => exact ⟨[], rfl, .nil⟩
  | @cons e m entries members hwritten _ ih =>
    obtain ⟨record, hread, hentries⟩ := ih
    obtain ⟨key, v⟩ := m
    refine ⟨(e.name, v) :: record, ?_, .cons ⟨rfl, hwritten.value⟩ hentries⟩
    simp only [readKeys, text?_of_spells hwritten.key, hread, bind, pure, Option.bind_some]

theorem names_of_readAs {entries : List Entry} {record : List (String × Json)}
    (h : List.Forall₂ Entry.ReadAs entries record) :
    record.map Prod.fst = entries.map Entry.name := by
  induction h with
  | nil => rfl
  | cons hread _ ih => rw [List.map_cons, List.map_cons, hread.1, ih]

theorem exists_of_mem_entries {entries : List Entry} {record : List (String × Json)}
    (h : List.Forall₂ Entry.ReadAs entries record) {e : Entry} (he : e ∈ entries) :
    ∃ v, (e.name, v) ∈ record ∧ e.HasValue v := by
  induction h with
  | nil => cases he
  | @cons e' r entries record hread _ ih =>
    rcases List.mem_cons.mp he with rfl | he
    · refine ⟨r.2, ?_, hread.2⟩
      rw [← hread.1]
      exact List.mem_cons_self ..
    · obtain ⟨v, hmem, hvalue⟩ := ih he
      exact ⟨v, List.mem_cons_of_mem _ hmem, hvalue⟩

/-- The record holds one member for each option that is given, and no other. -/
structure Given.Recorded (g : Given) (record : List (String × Json)) : Prop where
  names : (record.map Prod.fst).Perm (g.entries.map Entry.name)
  values : ∀ e ∈ g.entries, ∃ v, (e.name, v) ∈ record ∧ e.HasValue v

theorem exists_record {given : Given} {entries : List Entry} {members : List (String × Json)}
    (hgiven : (entries.filter Entry.isField).Perm given.entries)
    (hwritten : List.Forall₂ Entry.WrittenAs entries members) :
    ∃ record, (Json.object members).asRecord? fieldNames = some record ∧ given.Recorded record := by
  obtain ⟨named, hread, hentries⟩ := exists_readKeys hwritten
  have hkept : List.Forall₂ Entry.ReadAs (entries.filter Entry.isField)
      (named.filter fun r => fieldNames.contains r.1) := by
    refine List.rel_filter (fun e r hread => ?_) hentries
    show e.isField = true ↔ fieldNames.contains r.1 = true
    rw [e.isField_iff, hread.1, List.contains_iff_mem]
  have hnames : ((named.filter fun r => fieldNames.contains r.1).map Prod.fst).Perm
      (given.entries.map Entry.name) := by
    rw [names_of_readAs hkept]
    exact hgiven.map _
  refine ⟨_, asRecord?_object hread (hnames.nodup_iff.mpr given.nodup_names), hnames, ?_⟩
  exact fun e he => exists_of_mem_entries hkept (hgiven.mem_iff.mpr he)

/-- A field has the value `x` that is given for it, or else its default. -/
theorem Given.Recorded.field? {g : Given} {record : List (String × Json)} (h : g.Recorded record)
    {α : Type} {x : Option α} (entry : α → Entry) (name : String) (read : Json → Option α)
    (hname : ∀ a, (entry a).name = name) (hentry : ∀ a, x = some a → entry a ∈ g.entries)
    (hnone : x = none → name ∉ g.entries.map Entry.name)
    (hread : ∀ a v, (entry a).HasValue v → read v = some a) (default : α) :
    Json.field? record name read default = some (x.getD default) := by
  refine field?_of_given (h.names.nodup_iff.mpr g.nodup_names) (fun a ha => ?_) (fun hx => ?_) default
  · obtain ⟨v, hmem, hvalue⟩ := h.values _ (hentry a ha)
    exact ⟨v, hname a ▸ hmem, hread a v hvalue⟩
  · rw [h.names.mem_iff]
    exact hnone hx

theorem ofJson?_of_given {given : Given} {entries : List Entry} {members : List (String × Json)}
    (hgiven : (entries.filter Entry.isField).Perm given.entries)
    (hwritten : List.Forall₂ Entry.WrittenAs entries members) :
    ofJson? (.object members) = some given.options := by
  obtain ⟨record, hrecord, hfields⟩ := exists_record hgiven hwritten
  have hspim := hfields.field? .acceptSpimParameters "accept_spim_parameters" asBool? (fun _ => rfl)
    (fun a ha => (given.mem_entries_iff (.acceptSpimParameters a)).mpr ha)
    (fun hnone => by simp [given.mem_names_iff, hnone])
    (fun a v (hv : v = .bool a) => hv ▸ rfl)
  have hsplice := hfields.field? .splice "splice" SpliceStrategy.ofJson? (fun _ => rfl)
    (fun a ha => (given.mem_entries_iff (.splice a)).mpr ha)
    (fun hnone => by simp [given.mem_names_iff, hnone])
    (fun a v ⟨spelling, hv, hspells⟩ => hv ▸ SpliceStrategy.ofJson?_of_spells hspells)
  have hsuffix := hfields.field? .labelSuffix "label_suffix" asString? (fun _ => rfl)
    (fun a ha => (given.mem_entries_iff (.labelSuffix a)).mpr ha)
    (fun hnone => by simp [given.mem_names_iff, hnone])
    (fun a v ⟨spelling, hv, hspells⟩ => hv ▸ text?_of_spells hspells)
  have hfirst := hfields.field? .firstInvocation "first_invocation"
    (fun v => (v.asNat? UInt64.size).map Nat.toUInt64) (fun _ => rfl)
    (fun a ha => (given.mem_entries_iff (.firstInvocation a)).mpr ha)
    (fun hnone => by simp [given.mem_names_iff, hnone])
    (fun a v ⟨spelling, hv, hwrites⟩ => by
      rw [hv, asNat?_of_ofDecimal? (Text.ofDecimal?_eq_some_iff.mpr hwrites) a.toNat_lt]
      exact congrArg some UInt64.ofNat_toNat)
  simp only [ofJson?, hrecord, hspim, hsplice, hsuffix, hfirst, bind, pure, Option.bind_some]
  rfl

/-- A first invocation that is no number of 64 bits is refused. -/
theorem ofJson?_firstInvocation {members : List (String × Json)} {key spelling : String}
    (hmem : (key, .number spelling) ∈ members) (hkey : SpellsText key "first_invocation")
    (hlarge : ∀ n < 2 ^ 64, ¬ Text.Writes spelling.toList n) : ofJson? (.object members) = none := by
  rw [Option.eq_none_iff_forall_ne_some]
  intro options hoptions
  simp only [ofJson?, bind, Option.bind_eq_some_iff] at hoptions
  obtain ⟨record, hrecord, _, -, _, -, _, -, first, hfirst, -⟩ := hoptions
  have hlookup := lookup_of_mem (eq_filter_of_asRecord? hrecord).1
    (mem_of_asRecord? hrecord hmem hkey (by decide))
  have hnone : (Json.number spelling).asNat? UInt64.size = none := asNat?_eq_none hlarge
  rw [field?, hlookup] at hfirst
  simp only [hnone, Option.map_none] at hfirst
  cases hfirst

theorem ofJson?_repeated {members : List (String × Json)} {key key' name : String} {v v' : Json}
    (h : [(key, v), (key', v')].Sublist members) (hkey : SpellsText key name)
    (hkey' : SpellsText key' name) (hname : name ∈ fieldNames) : ofJson? (.object members) = none := by
  simp only [ofJson?, asRecord?_repeated h hkey hkey' hname, bind, Option.bind_none]

theorem ofText_of_ofJson? {text : String} {v : Json} (hwrites : Writes text v) {options : Options}
    (h : ofJson? v = some options) : ofText text = .ok options := by
  simp only [ofText, parse?_of_writes hwrites, bind, Option.bind_some, h]

theorem ofText_of_refused {text : String} {v : Json} (hwrites : Writes text v) (h : ofJson? v = none) :
    ∃ message, ofText text = .error (.invalidConfig message) := by
  simp only [ofText, parse?_of_writes hwrites, bind, Option.bind_some, h]
  exact ⟨_, rfl⟩

/-- **Options in an object.** The members of the object give some of the options, in any order and with
members of other names between them. Then the options are read as they are given, and all others have
their defaults. An object that gives an option twice is refused, and so is one whose first invocation is a
number that no digits for a number of 64 bits write, such as a larger one. -/
theorem ofText_of_written {text : String} {members : List (String × Json)}
    (hwrites : Writes text (.object members)) :
    (∀ (given : Given) (entries : List Entry), (entries.filter Entry.isField).Perm given.entries →
      List.Forall₂ Entry.WrittenAs entries members → ofText text = .ok given.options) ∧
    (∀ name ∈ fieldNames, ∀ key v key' v', [(key, v), (key', v')].Sublist members →
      SpellsText key name → SpellsText key' name →
      ∃ message, ofText text = .error (.invalidConfig message)) ∧
    (∀ key spelling, (key, Json.number spelling) ∈ members → SpellsText key "first_invocation" →
      (∀ n < 2 ^ 64, ¬ Text.Writes spelling.toList n) →
      ∃ message, ofText text = .error (.invalidConfig message)) := by
  refine ⟨?_, ?_, ?_⟩
  · intro given entries hgiven hwritten
    exact ofText_of_ofJson? hwrites (ofJson?_of_given hgiven hwritten)
  · intro name hname key v key' v' hsublist hkey hkey'
    exact ofText_of_refused hwrites (ofJson?_repeated hsublist hkey hkey' hname)
  · intro key spelling hmem hkey hlarge
    exact ofText_of_refused hwrites (ofJson?_firstInvocation hmem hkey hlarge)

/-- Two options around a member of another name, in another order than that of the fields. -/
def shuffledMembers : List (String × Json) :=
  [("first_invocation", .ofNat 7), ("x", .array [.object [], .string "\\n"]),
    ("label_suffix", .string "\\u0041")]

/-- One option with two values. -/
def repeatedMembers : List (String × Json) := [("splice", .null), ("x", .null), ("splice", .null)]

/-- A number that needs one bit more. -/
def largeMembers : List (String × Json) := [("first_invocation", .ofNat (2 ^ 64))]

theorem ofText_of_written_shuffled :
    ofText (Json.object shuffledMembers).render = .ok ⟨true, .trackOffsets, "A", 7⟩ ∧
    (∃ message, ofText (Json.object repeatedMembers).render = .error (.invalidConfig message)) ∧
    (∃ message, ofText (Json.object largeMembers).render = .error (.invalidConfig message)) := by
  have hplain : ∀ name ∈ "x" :: fieldNames, Plain name := by decide +kernel
  have hfirst := hplain "first_invocation" (by decide)
  have hsuffix := hplain "label_suffix" (by decide)
  have hsplice := hplain "splice" (by decide)
  have hother := hplain "x" (by decide)
  have hzero : IsHexDigit '0' 0 := ⟨by decide, Or.inl rfl⟩
  have hunit : UnitEscape 65 ['\x5c', 'u', '0', '0', '4', '1'] :=
    .digits hzero hzero (show IsHexDigit '4' 4 from ⟨by decide, Or.inl rfl⟩)
      (show IsHexDigit '1' 1 from ⟨by decide, Or.inl rfl⟩)
  have hunits : List.Forall₂ UnitEscape (Json.units 'A') [['\x5c', 'u', '0', '0', '4', '1']] :=
    .cons hunit .nil
  have hspells : SpellsText "\\u0041" "A" := Spells.units hunits .nil
  have hwrites : ∀ n, Text.Writes (Text.decimal n).toList n := fun n =>
    Text.ofDecimal?_eq_some_iff.mp (Text.ofDecimal?_decimal n)
  refine ⟨?_, ?_, ?_⟩
  · have harray : (Json.array [.object [], .string "\\n"]).WellFormed := by
      have hescape : (Json.string "\\n").WellFormed :=
        List.forall_mem_singleton.mpr (IsBody.short (show ('n', '\n') ∈ shortEscapes by decide) .nil)
      rw [wellFormed_array_iff, List.forall_mem_cons, List.forall_mem_singleton]
      exact ⟨(wellFormed_object_iff []).mpr nofun, hescape⟩
    have hform : (Json.object shuffledMembers).WellFormed := by
      rw [wellFormed_object_iff, shuffledMembers]
      simp only [List.forall_mem_cons]
      exact ⟨⟨hfirst.isBody, wellFormed_ofNat 7⟩, ⟨hother.isBody, harray⟩,
        ⟨hsuffix.isBody, List.forall_mem_singleton.mpr hspells.isBody⟩, nofun⟩
    refine (ofText_of_written (writes_render hform)).1 ⟨none, none, some "A", some 7⟩
      [.firstInvocation 7, .other "x" (by decide), .labelSuffix "A"] (.swap _ _ _) ?_
    exact .cons ⟨hfirst.spellsText, _, rfl, hwrites 7⟩ (.cons ⟨hother.spellsText, trivial⟩
      (.cons ⟨hsuffix.spellsText, _, rfl, hspells⟩ .nil))
  · have hform : (Json.object repeatedMembers).WellFormed := by
      have hnull : Json.null.WellFormed := List.forall_mem_singleton.mpr trivial
      rw [wellFormed_object_iff, repeatedMembers]
      simp only [List.forall_mem_cons]
      exact ⟨⟨hsplice.isBody, hnull⟩, ⟨hother.isBody, hnull⟩, ⟨hsplice.isBody, hnull⟩, nofun⟩
    exact (ofText_of_written (writes_render hform)).2.1 "splice" (by decide) _ _ _ _
      (.cons_cons _ (.cons _ (.cons_cons _ .slnil))) hsplice.spellsText hsplice.spellsText
  · have hform : (Json.object largeMembers).WellFormed := by
      rw [wellFormed_object_iff, largeMembers]
      simp only [List.forall_mem_cons]
      exact ⟨⟨hfirst.isBody, wellFormed_ofNat (2 ^ 64)⟩, nofun⟩
    exact (ofText_of_written (writes_render hform)).2.2 _ _ (List.mem_singleton_self _)
      hfirst.spellsText fun n hn h => absurd (h.unique (hwrites (2 ^ 64))) (Nat.ne_of_lt hn)

end Options

end MipsMacro
