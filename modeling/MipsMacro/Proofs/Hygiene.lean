import MipsMacro.Proofs.Steps

/-!
# Renamed labels never meet

A label, the suffix and a number stand next to each other without anything between them, and a label
may end like a suffix or a number. Proved here, for every suffix that is not made of digits only:

* `Text.append_decimal_inj`, `Invocation.rename_eq_iff`: a renamed label determines the label and the
  number;
* `Expansion.rename_eq_iff_of_session`: so in all runs that share a counter, as long as it has not
  gone round, a renamed label determines the label and the call.
-/

namespace MipsMacro

theorem Text.decimal_injective {m n : Nat} (h : decimal m = decimal n) : m = n := by
  have hdigits : Nat.toDigits 10 m = Nat.toDigits 10 n := by
    simpa [decimal] using congrArg String.toList h
  have hread := congrArg (fun ds => Nat.ofDigitChars 10 ds 0) hdigits
  simpa using hread

theorem Text.isDigit_of_mem_decimal {n : Nat} {c : Char} (h : c ∈ (decimal n).toList) :
    c.isDigit = true := by
  rw [decimal, String.toList_ofList] at h
  exact Nat.isDigit_of_mem_toDigits (by decide) (by decide) h

/-- The digits at the end of a text are its last number and those in which the suffix ends. -/
theorem takeWhile_isDigit_reverse {label suffix number : List Char}
    (hsuffix : ∃ c ∈ suffix, c.isDigit = false) (hnumber : ∀ c ∈ number, c.isDigit = true) :
    (label ++ suffix ++ number).reverse.takeWhile Char.isDigit =
      number.reverse ++ suffix.reverse.takeWhile Char.isDigit := by
  have hends : ((suffix.reverse.takeWhile Char.isDigit).length = suffix.reverse.length) = False := by
    rw [eq_iff_iff, iff_false]
    intro hlength
    obtain ⟨c, hc, hdigit⟩ := hsuffix
    have hall := (List.takeWhile_prefix (p := Char.isDigit) (l := suffix.reverse)).eq_of_length hlength
    rw [← List.mem_reverse, ← hall] at hc
    have := List.all_eq_true.mp List.all_takeWhile c hc
    rw [hdigit] at this
    cases this
  rw [List.reverse_append, List.reverse_append, List.takeWhile_append_of_pos, List.takeWhile_append]
  · simp only [hends, if_false]
  · simpa using hnumber

/-- A text, a separator that is not made of digits only and a number can be told apart again. -/
theorem Text.append_decimal_inj {separator : String}
    (hseparator : ∃ c ∈ separator.toList, c.isDigit = false) (a b : String) (m n : Nat) :
    a ++ separator ++ decimal m = b ++ separator ++ decimal n ↔ a = b ∧ m = n := by
  constructor
  · intro h
    have hchars := congrArg String.toList h
    simp only [String.toList_append] at hchars
    -- both texts end in the same digits, of which the separator takes the same share
    have hdigits := congrArg (fun cs => cs.reverse.takeWhile Char.isDigit) hchars
    simp only [takeWhile_isDigit_reverse hseparator fun _ => isDigit_of_mem_decimal] at hdigits
    have hnumber := List.reverse_inj.mp (List.append_cancel_right hdigits)
    rw [hnumber] at hchars
    have htext := List.append_cancel_right (List.append_cancel_right hchars)
    exact ⟨String.toList_inj.mp htext, decimal_injective (String.toList_inj.mp hnumber)⟩
  · rintro ⟨rfl, rfl⟩
    rfl

theorem Invocation.rename_eq_iff {suffix : String}
    (hsuffix : ∃ c ∈ suffix.toList, c.isDigit = false) (id id' : UInt64) (label label' : String) :
    rename suffix id label = rename suffix id' label' ↔ label = label' ∧ id = id' := by
  rw [rename, rename, Text.append_decimal_inj hsuffix, UInt64.toNat_inj]

namespace Expansion

/-- **Label hygiene.** In any runs that share a counter and use it at most once for each of its
values, two renamed labels are the same only if the labels and the calls are. Every use of a macro
stands for a call in one of the runs, and if this run succeeds, for lines of its output. -/
theorem rename_eq_iff_of_session (engine : Engine) (start : UInt64) (runs : List (Scan × Program))
    (hsuffix : ∃ c ∈ engine.options.labelSuffix.toList, c.isDigit = false)
    (hcount : (sessionInvocations engine start runs).length ≤ UInt64.size)
    {i j : Nat} {a b : Invocation}
    (ha : (sessionInvocations engine start runs)[i]? = some a)
    (hb : (sessionInvocations engine start runs)[j]? = some b) (label label' : String) :
    (∀ c ∈ sessionInvocations engine start runs,
      ∃ before scan program after, runs = before ++ (scan, program) :: after ∧
        Uses engine scan program (sessionNext engine start before) c) ∧
    (Invocation.rename engine.options.labelSuffix a.id label =
        Invocation.rename engine.options.labelSuffix b.id label' ↔
      label = label' ∧ i = j) := by
  refine ⟨fun c => exists_of_mem_sessionInvocations, ?_⟩
  have hnumbered := sessionInvocations_numbered engine start runs
  have hi := (List.getElem?_eq_some_iff.mp ha).1
  have hj := (List.getElem?_eq_some_iff.mp hb).1
  rw [Invocation.rename_eq_iff hsuffix, hnumbered.id_eq ha, hnumbered.id_eq hb,
    UInt64.add_right_inj]
  refine and_congr_right fun _ => ⟨fun h => ?_, fun h => h ▸ rfl⟩
  have hnat := congrArg UInt64.toNat h
  rwa [UInt64.toNat_ofNat_of_lt' (by omega), UInt64.toNat_ofNat_of_lt' (by omega)] at hnat

/-- A macro with one label. -/
def looping : Definition where
  name := "m"
  program := ⟨"m.asm", 3, fun _ =>
    ⟨some "l:", some [⟨.identifier, "l", 2, 1, 0⟩, ⟨.colon, ":", 2, 2, 1⟩]⟩⟩
  parameters := []
  locals := .ofList ["l"]
  range := ⟨1, 3, 1, 3⟩

/-- A program of one line that calls it, and the table to look it up in. -/
def loopingRun : Scan × Program :=
  (⟨⟨[looping]⟩, []⟩, ⟨"main.asm", 1, fun _ => ⟨some "m", some [⟨.identifier, "m", 1, 1, 0⟩]⟩⟩)

/-- Two runs between which the counter starts again at zero. -/
theorem rename_ne_of_wrapped :
    ∃ a b, ((sessionInvocations {} 18446744073709551615 [loopingRun, loopingRun])[0]? = some a ∧
        a.id = 18446744073709551615) ∧
      ((sessionInvocations {} 18446744073709551615 [loopingRun, loopingRun])[1]? = some b ∧
        b.id = 0) ∧
      ∀ label label',
        Invocation.rename "_M" a.id label ≠ Invocation.rename "_M" b.id label' := by
  have hids : (sessionInvocations {} 18446744073709551615 [loopingRun, loopingRun]).map
      Invocation.id = [18446744073709551615, 0] := by decide +kernel
  obtain ⟨a, rest, hsession, ha, hrest⟩ := List.map_eq_cons_iff.mp hids
  obtain ⟨b, last, rfl, hb, hlast⟩ := List.map_eq_cons_iff.mp hrest
  have h₀ : (sessionInvocations {} 18446744073709551615 [loopingRun, loopingRun])[0]? = some a := by
    rw [hsession]
    rfl
  have h₁ : (sessionInvocations {} 18446744073709551615 [loopingRun, loopingRun])[1]? = some b := by
    rw [hsession]
    rfl
  have hcount : (sessionInvocations {} 18446744073709551615 [loopingRun, loopingRun]).length ≤
      UInt64.size := by decide +kernel
  refine ⟨a, b, ⟨h₀, ha⟩, ⟨h₁, hb⟩, fun label label' heq => ?_⟩
  have h := (rename_eq_iff_of_session {} 18446744073709551615 [loopingRun, loopingRun]
    ⟨'_', by decide, by decide⟩ hcount h₀ h₁ label label').2.mp heq
  exact absurd h.2 (by decide)

end Expansion

end MipsMacro
