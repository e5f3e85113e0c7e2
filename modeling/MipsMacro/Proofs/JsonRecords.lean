import Mathlib.Data.List.Nodup
import MipsMacro.Json.Record
import MipsMacro.Proofs.JsonStrings

/-!
# Records in JSON

The members of an object are found by the names that their keys spell, in whatever order they stand.
Proved here:

* `Json.readKeys_of_spells`: every key is read as the name that it spells;
* `Json.asRecord?_object`, `Json.asRecord?_repeated`: the members with the names of fields are kept,
  unless two of them have one name;
* `Json.lookup_of_mem`, `Json.field?_of_given`: and each of them is found by its name.
-/

namespace MipsMacro.Json

/-- What stands between the quotes spells the text. -/
def SpellsText (spelling text : String) : Prop := Spells spelling.toList text.toList

theorem text?_of_spells {spelling text : String} (h : SpellsText spelling text) :
    text? spelling = some text := by
  rw [text?, unescape_of_spells h, Option.map_some, String.ofList_toList]

theorem text?_escape (text : String) : text? (String.ofList (escape text.toList)) = some text := by
  refine text?_of_spells ?_
  rw [SpellsText, String.toList_ofList]
  exact spells_escape text.toList

/-- A numeral is read as its value, if this is below the bound. -/
theorem asNat?_of_ofDecimal? {spelling : String} {n bound : Nat}
    (h : Text.ofDecimal? spelling.toList = some n) (hn : n < bound) :
    (Json.number spelling).asNat? bound = some n := by
  rw [asNat?, h, Option.filter_some, if_pos (Nat.blt_eq.mpr hn)]

/-- A text that needs no escape. -/
def Plain (text : String) : Prop := ∀ c ∈ text.toList, c ≠ '\x22' ∧ c ≠ '\x5c' ∧ 0x20 ≤ c.toNat

instance (text : String) : Decidable (Plain text) :=
  List.decidableBAll (fun c => c ≠ '\x22' ∧ c ≠ '\x5c' ∧ 0x20 ≤ c.toNat) text.toList

/-- A text that needs no escape spells itself. -/
theorem Plain.spellsText {text : String} (h : Plain text) : SpellsText text text := by
  have hall : ∀ cs : List Char, (∀ c ∈ cs, c ≠ '\x22' ∧ c ≠ '\x5c' ∧ 0x20 ≤ c.toNat) →
      Spells cs cs := by
    intro cs
    induction cs with
    | nil => exact fun _ => .nil
    | cons c cs ih =>
      intro hcs
      obtain ⟨⟨hquote, hbackslash, hcontrol⟩, hcs⟩ := List.forall_mem_cons.mp hcs
      exact .plain hquote hbackslash hcontrol (ih hcs)
  exact hall text.toList h

theorem Plain.isBody {text : String} (h : Plain text) : IsBody text.toList := h.spellsText.isBody

/-! ## Keys -/

/-- The member is written with a key that spells the name. -/
def Named (m r : String × Json) : Prop := SpellsText m.1 r.1 ∧ m.2 = r.2

theorem readKeys_of_spells {members record : List (String × Json)}
    (h : List.Forall₂ Named members record) : readKeys members = some record := by
  induction h with
  | nil => rfl
  | @cons m r members record hmember _ ih =>
    obtain ⟨key, v⟩ := m
    obtain ⟨name, v'⟩ := r
    obtain ⟨hkey, rfl⟩ := hmember
    simp only [readKeys, text?_of_spells hkey, ih, bind, pure, Option.bind_some]

theorem readKeys_plain {members : List (String × Json)} (h : ∀ m ∈ members, Plain m.1) :
    readKeys members = some members :=
  readKeys_of_spells (List.forall₂_same.mpr fun m hm => ⟨(h m hm).spellsText, rfl⟩)

/-- Reading keeps the members in their order, and each gets the name that its key spells. -/
theorem eq_filterMap_of_readKeys {members record : List (String × Json)}
    (h : readKeys members = some record) :
    record = members.filterMap fun m => (text? m.1).map fun name => (name, m.2) := by
  induction members generalizing record with
  | nil =>
    cases h
    rfl
  | cons m members ih =>
    obtain ⟨key, v⟩ := m
    simp only [readKeys, bind, pure, Option.bind_eq_some_iff] at h
    obtain ⟨name, hname, rest, hrest, h⟩ := h
    cases h
    simp only [List.filterMap_cons, hname, Option.map_some, ih hrest]

theorem distinctKeys_iff (record : List (String × Json)) :
    distinctKeys record = true ↔ (record.map Prod.fst).Nodup := by
  induction record with
  | nil => simp [distinctKeys]
  | cons r record ih =>
    obtain ⟨name, v⟩ := r
    simp only [distinctKeys, Bool.and_eq_true, Bool.not_eq_true', ih, List.map_cons, List.nodup_cons]
    refine and_congr_left fun _ => ?_
    rw [Bool.eq_false_iff, Ne, List.any_eq_true, List.mem_map]
    simp only [beq_iff_eq]

/-! ## Fields -/

theorem asRecord?_object {members record : List (String × Json)} (h : readKeys members = some record)
    {fields : List String}
    (hdistinct : ((record.filter fun r => fields.contains r.1).map Prod.fst).Nodup) :
    (Json.object members).asRecord? fields = some (record.filter fun r => fields.contains r.1) := by
  simp only [asRecord?, h, bind, Option.bind_some]
  exact if_pos ((distinctKeys_iff _).mpr hdistinct)

/-- An object whose keys are the names of the fields is the record itself. -/
theorem asRecord?_plain {members : List (String × Json)} {names : List String}
    (hnames : members.map Prod.fst = names) (hplain : ∀ name ∈ names, Plain name)
    (hdistinct : names.Nodup) : (Json.object members).asRecord? names = some members := by
  subst hnames
  have hread := readKeys_plain fun m hm => hplain m.1 (List.mem_map_of_mem hm)
  have hall : members.filter (fun m => (members.map Prod.fst).contains m.1) = members :=
    List.filter_eq_self.mpr fun m hm => List.contains_iff_mem.mpr (List.mem_map_of_mem hm)
  rw [asRecord?_object hread (by rwa [hall]), hall]

/-- A record holds the members with the names of fields, and no two of them have one name. -/
theorem eq_filter_of_asRecord? {members record : List (String × Json)} {fields : List String}
    (h : (Json.object members).asRecord? fields = some record) :
    (record.map Prod.fst).Nodup ∧
      record = (members.filterMap fun m => (text? m.1).map fun name => (name, m.2)).filter
        fun r => fields.contains r.1 := by
  simp only [asRecord?, bind, Option.bind_eq_some_iff] at h
  obtain ⟨named, hread, h⟩ := h
  split at h
  · next hdistinct =>
    cases h
    rw [← eq_filterMap_of_readKeys hread]
    exact ⟨(distinctKeys_iff _).mp hdistinct, rfl⟩
  · cases h

theorem mem_of_asRecord? {members record : List (String × Json)} {fields : List String}
    (h : (Json.object members).asRecord? fields = some record) {key name : String} {v : Json}
    (hmem : (key, v) ∈ members) (hkey : SpellsText key name) (hname : name ∈ fields) :
    (name, v) ∈ record := by
  rw [(eq_filter_of_asRecord? h).2, List.mem_filter, List.mem_filterMap]
  refine ⟨⟨(key, v), hmem, ?_⟩, List.contains_iff_mem.mpr hname⟩
  rw [text?_of_spells hkey, Option.map_some]

/-- Two members with the name of one field spoil the record. -/
theorem asRecord?_repeated {members : List (String × Json)} {key key' name : String} {v v' : Json}
    (h : [(key, v), (key', v')].Sublist members) (hkey : SpellsText key name)
    (hkey' : SpellsText key' name) {fields : List String} (hname : name ∈ fields) :
    (Json.object members).asRecord? fields = none := by
  rw [Option.eq_none_iff_forall_ne_some]
  intro record hrecord
  obtain ⟨hdistinct, hkept⟩ := eq_filter_of_asRecord? hrecord
  have hcontains : fields.contains name = true := List.contains_iff_mem.mpr hname
  have hpair : [(name, v), (name, v')].Sublist record := by
    rw [hkept]
    have hpair := (h.filterMap fun m => (text? m.1).map fun name => (name, m.2)).filter
      fun r => fields.contains r.1
    simpa only [List.filterMap_cons, List.filterMap_nil, text?_of_spells hkey, text?_of_spells hkey',
      Option.map_some, List.filter_cons, List.filter_nil, hcontains, if_true] using hpair
  exact List.nodup_iff_sublist.mp hdistinct name (hpair.map Prod.fst)

theorem lookup_of_mem {record : List (String × Json)} (hdistinct : (record.map Prod.fst).Nodup)
    {name : String} {v : Json} (h : (name, v) ∈ record) : record.lookup name = some v := by
  induction record with
  | nil => cases h
  | cons r record ih =>
    obtain ⟨name', v'⟩ := r
    rw [List.map_cons, List.nodup_cons] at hdistinct
    rcases List.mem_cons.mp h with h | h
    · cases h
      rw [List.lookup_cons_self]
    · have hne : name ≠ name' := fun hname =>
        hdistinct.1 (List.mem_map.mpr ⟨(name, v), h, hname⟩)
      rw [List.lookup_cons, beq_eq_false_iff_ne.mpr hne]
      exact ih hdistinct.2 h

/-- A field that may be left out has the value that is given, or its default. -/
theorem field?_of_given {α : Type} {record : List (String × Json)}
    (hdistinct : (record.map Prod.fst).Nodup) {name : String} {read : Json → Option α}
    {given : Option α} (hgiven : ∀ a, given = some a → ∃ v, (name, v) ∈ record ∧ read v = some a)
    (hnone : given = none → name ∉ record.map Prod.fst) (default : α) :
    field? record name read default = some (given.getD default) := by
  rw [field?]
  cases given with
  | none =>
    have hlookup : record.lookup name = none := by
      rw [List.lookup_eq_none_iff]
      intro r hr
      exact bne_iff_ne.mpr fun hname => hnone rfl (List.mem_map.mpr ⟨r, hr, hname.symm⟩)
    rw [hlookup]
    rfl
  | some a =>
    obtain ⟨v, hmem, hread⟩ := hgiven a rfl
    rw [lookup_of_mem hdistinct hmem]
    exact hread

end MipsMacro.Json
