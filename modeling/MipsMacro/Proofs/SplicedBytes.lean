import MipsMacro.Proofs.ByteOrder
import MipsMacro.Proofs.Splicing

/-!
# Splicing and bytes

Where a token is replaced is a matter of bytes: it says its offset in bytes, and a text is searched for
byte by byte. Proved here:

* `Text.isValid_of_bytes`: the bytes of a text that is not empty only begin where a character does;
* `Text.exists_append_of_bytes`: so they are only found where the text stands;
* `Text.cutAt?_eq_some_iff`: a text is found at an offset exactly if it stands there;
* `SpliceStrategy.splice_between_characters`: so whatever the token and the line are, a line is only cut
  between two characters: at the offset of the token if its text stands there and offsets are tracked, or
  else where the bytes of its text are first found.
-/

namespace MipsMacro

open Text

namespace Text

/-! ## Bytes -/

theorem toByteArray_bytes (s : String) : (bytes s).toByteArray = s.toByteArray := by
  rw [bytes_eq, ← List.utf8Encode, String.utf8Encode_toList]

theorem byteSize_eq_length (cs : List Char) :
    byteSize cs = (cs.flatMap String.utf8EncodeChar).length := by
  induction cs with
  | nil => rfl
  | cons c cs ih =>
    rw [byteSize, List.flatMap_cons, List.length_append, String.length_utf8EncodeChar, ih]

theorem length_bytes (s : String) : (bytes s).length = s.utf8ByteSize := rfl

theorem byteSize_toList (s : String) : byteSize s.toList = s.utf8ByteSize := by
  rw [byteSize_eq_length, ← bytes_eq, length_bytes]

/-- The bytes of a text begin at a place between two characters. -/
theorem isValid_of_bytes {line part : String} {before after : ByteArray} (hpart : part ≠ "")
    (h : line.toByteArray = before ++ (part.toByteArray ++ after)) :
    String.Pos.Raw.IsValid line ⟨before.size⟩ := by
  let start : String.Pos.Raw := ⟨before.size⟩
  let stop : String.Pos.Raw := ⟨before.size + part.utf8ByteSize⟩
  have hsize : line.utf8ByteSize = before.size + (part.utf8ByteSize + after.size) := by
    rw [← String.size_toByteArray, h, ByteArray.size_append, ByteArray.size_append,
      String.size_toByteArray]
  have hextract : line.toByteArray.extract start.byteIdx stop.byteIdx = part.toByteArray :=
    calc line.toByteArray.extract start.byteIdx stop.byteIdx
      _ = (before ++ (part.toByteArray ++ after)).extract (before.size + 0)
            (before.size + part.toByteArray.size) := by rw [h]; rfl
      _ = (part.toByteArray ++ after).extract 0 part.toByteArray.size :=
          ByteArray.extract_append_size_add
      _ = part.toByteArray := by
          rw [ByteArray.extract_append_size_left, ByteArray.extract_zero_size]
  have hle : start ≤ stop := by simp [String.Pos.Raw.le_iff, start, stop]
  have hend : stop ≤ line.rawEndPos := by simp [String.Pos.Raw.le_iff, stop, hsize]
  have hvalid := (String.Pos.Raw.isValidUTF8_extract_iff start stop hle hend).mp
    (hextract ▸ part.isValidUTF8)
  rcases hvalid with heq | ⟨hstart, -⟩
  · have hzero : part.utf8ByteSize = 0 := by simpa [start, stop] using congrArg (·.byteIdx) heq
    exact absurd (String.utf8ByteSize_eq_zero_iff.mp hzero) hpart
  · exact hstart

/-- The bytes of a text are only found where its characters are. -/
theorem exists_append_of_bytes {line part : String} {before after : List UInt8} (hpart : part ≠ "")
    (h : bytes line = before ++ bytes part ++ after) :
    ∃ pre post : String, line = pre ++ part ++ post ∧ pre.utf8ByteSize = before.length := by
  have harray : line.toByteArray =
      before.toByteArray ++ (part.toByteArray ++ after.toByteArray) := by
    rw [← toByteArray_bytes line, h, List.append_assoc, List.toByteArray_append,
      List.toByteArray_append, toByteArray_bytes]
  obtain ⟨pre, rest, rfl, hpos⟩ := String.Pos.Raw.isValid_iff_exists_append.mp
    (isValid_of_bytes hpart harray)
  have hsize : before.toByteArray.size = pre.utf8ByteSize := congrArg (·.byteIdx) hpos
  rw [String.toByteArray_append, ByteArray.append_eq_append_iff_of_size_eq_left hsize.symm] at harray
  -- what starts with the bytes of a text starts with its characters
  obtain ⟨post, hpost⟩ : part.toList <+: rest.toList :=
    List.isPrefix_of_utf8Encode_append_eq_utf8Encode after.toByteArray
      (by rw [String.utf8Encode_toList, String.utf8Encode_toList, harray.2])
  refine ⟨pre, String.ofList post, ?_, by rw [← hsize, List.size_toByteArray]⟩
  rw [String.append_assoc, ← String.toList_inj]
  simp [← hpost]

/-- Where the bytes of a text are found, or in front of that, the text stands. -/
theorem exists_append_le_of_bytes {line part : String} {before after : List UInt8}
    (h : bytes line = before ++ bytes part ++ after) :
    ∃ pre post : String, line = pre ++ part ++ post ∧ pre.utf8ByteSize ≤ before.length := by
  by_cases hpart : part = ""
  · -- the empty text is found everywhere, also inside of characters
    exact ⟨"", line, by simp [hpart], Nat.zero_le _⟩
  · obtain ⟨pre, post, hline, hsize⟩ := exists_append_of_bytes hpart h
    exact ⟨pre, post, hline, Nat.le_of_eq hsize⟩

/-! ## Places -/

theorem cutAt?_eq_some_iff {part cs pre post : List Char} {offset : Nat} :
    cutAt? part offset cs = some (pre, post) ↔ cs = pre ++ part ++ post ∧ byteSize pre = offset := by
  constructor
  · intro h
    refine ⟨eq_append_of_cutAt? h, ?_⟩
    simp only [cutAt?, bind, Option.bind_eq_some_iff, pure] at h
    obtain ⟨⟨before, rest⟩, hsplit, behind, -, h⟩ := h
    cases h
    exact (eq_append_of_splitAt? hsplit).2
  · rintro ⟨rfl, rfl⟩
    have hbehind : behind? part (part ++ post) = some post := behind?_eq_some_iff.mpr rfl
    simp [cutAt?, splitAt?_byteSize, hbehind]

theorem exists_cutFirst?_of_bytes {line part : String} {before after : List UInt8}
    (h : bytes line = before ++ bytes part ++ after) :
    ∃ pre post, cutFirst? part.toList line.toList = some (pre, post) ∧
      byteSize pre ≤ before.length := by
  obtain ⟨pre, post, rfl, hle⟩ := exists_append_le_of_bytes h
  have hline : (pre ++ part ++ post).toList = pre.toList ++ part.toList ++ post.toList := by simp
  obtain ⟨first, behind, hfirst, hsize⟩ := exists_cutFirst?_le hline
  rw [byteSize_toList] at hsize
  exact ⟨first, behind, hfirst, Nat.le_trans hsize hle⟩

end Text

/-! ## Where a line is cut -/

/-- The text of the token stands in the line at its offset. -/
def Token.StandsIn (t : Token) (line : String) : Prop :=
  ∃ pre post, line = pre ++ t.text ++ post ∧ pre.utf8ByteSize = t.offset

theorem Token.standsIn_iff {t : Token} {line : String} :
    t.StandsIn line ↔ (cutAt? t.text.toList t.offset line.toList).isSome = true := by
  rw [Option.isSome_iff_exists]
  constructor
  · rintro ⟨pre, post, rfl, hsize⟩
    refine ⟨(pre.toList, post.toList), cutAt?_eq_some_iff.mpr ⟨by simp, ?_⟩⟩
    rw [byteSize_toList, hsize]
  · rintro ⟨⟨pre, post⟩, hcut⟩
    obtain ⟨hline, hsize⟩ := cutAt?_eq_some_iff.mp hcut
    refine ⟨String.ofList pre, String.ofList post, ?_, ?_⟩
    · rw [← String.toList_inj]
      simp [hline]
    · rw [← byteSize_toList, String.toList_ofList, hsize]

namespace SpliceStrategy

/-- What is in front of the token and behind it where it is replaced. Both ends of the token lie between
two characters, so that the line can be cut there. -/
structure Cuts (strategy : SpliceStrategy) (t : Token) (line pre post : String) : Prop where
  whole : line = pre ++ t.text ++ post
  start : String.Pos.Raw.IsValid line ⟨pre.utf8ByteSize⟩
  stop : String.Pos.Raw.IsValid line ⟨pre.utf8ByteSize + t.size⟩
  tracked : strategy = .trackOffsets → t.StandsIn line → pre.utf8ByteSize = t.offset
  leftmost : ¬ (strategy = .trackOffsets ∧ t.StandsIn line) →
    ∀ before after, bytes line = before ++ bytes t.text ++ after → pre.utf8ByteSize ≤ before.length

theorem cut?_of_standsIn {t : Token} {line : String} (h : t.StandsIn line) :
    trackOffsets.cut? t line.toList = cutAt? t.text.toList t.offset line.toList :=
  Option.or_of_isSome (Token.standsIn_iff.mp h)

theorem cut?_of_not_standsIn {strategy : SpliceStrategy} {t : Token} {line : String}
    (h : ¬ (strategy = .trackOffsets ∧ t.StandsIn line)) :
    strategy.cut? t line.toList = cutFirst? t.text.toList line.toList := by
  cases strategy with
  | trackOffsets =>
    exact Option.or_eq_right_of_none <| Option.not_isSome_iff_eq_none.mp fun hsome =>
      h ⟨rfl, Token.standsIn_iff.mpr hsome⟩
  | firstOccurrence => rfl

theorem cuts_of_cut? {strategy : SpliceStrategy} {t : Token} {line : String} {pre post : List Char}
    (h : strategy.cut? t line.toList = some (pre, post)) :
    strategy.Cuts t line (String.ofList pre) (String.ofList post) := by
  have hwhole : line = String.ofList pre ++ t.text ++ String.ofList post := by
    rw [← String.toList_inj]
    simp [eq_append_of_cut? h]
  have hsize : (String.ofList pre).utf8ByteSize = byteSize pre := by
    rw [← byteSize_toList, String.toList_ofList]
  refine ⟨hwhole, ?_, ?_, ?_, ?_⟩
  · refine String.Pos.Raw.isValid_iff_exists_append.mpr
      ⟨String.ofList pre, t.text ++ String.ofList post, ?_, rfl⟩
    rw [← String.append_assoc, ← hwhole]
  · refine String.Pos.Raw.isValid_iff_exists_append.mpr
      ⟨String.ofList pre ++ t.text, String.ofList post, hwhole, ?_⟩
    rw [Token.size, byteSize_toList, ← String.utf8ByteSize_append]
    rfl
  · rintro rfl hstands
    rw [cut?_of_standsIn hstands] at h
    rw [hsize]
    exact (cutAt?_eq_some_iff.mp h).2
  · intro hother before after hbytes
    obtain ⟨first, behind, hfirst, hle⟩ := exists_cutFirst?_of_bytes hbytes
    rw [cut?_of_not_standsIn hother, hfirst] at h
    cases h
    rwa [hsize]

theorem not_infix_of_cut? {strategy : SpliceStrategy} {t : Token} {line : String}
    (h : strategy.cut? t line.toList = none) : ¬ bytes t.text <:+: bytes line := by
  rintro ⟨before, after, hbytes⟩
  obtain ⟨pre, post, hfirst, -⟩ := exists_cutFirst?_of_bytes hbytes.symm
  cases strategy with
  | trackOffsets =>
    have hnone := (Option.or_eq_none_iff.mp h).2
    cases hfirst.symm.trans hnone
  | firstOccurrence => cases hfirst.symm.trans h

/-- **A line is never cut inside of a character**, whatever token is replaced in it. A line without the
text of the token stays as it is; otherwise the substitute is in the place of the text, at the offset of
the token if offsets are tracked and the text stands there, and else where the bytes of the text are
found first. -/
theorem splice_between_characters (strategy : SpliceStrategy) (t : Token) (substitute line : String) :
    ¬ bytes t.text <:+: bytes line ∧
        strategy.splice t substitute.toList line.toList = line.toList ∨
      ∃ pre post, strategy.Cuts t line pre post ∧
        strategy.splice t substitute.toList line.toList = (pre ++ substitute ++ post).toList := by
  unfold splice
  split
  · next pre post hcut =>
    exact Or.inr ⟨String.ofList pre, String.ofList post, cuts_of_cut? hcut, by simp⟩
  · next hcut => exact Or.inl ⟨not_infix_of_cut? hcut, rfl⟩

-- an offset inside of a character, and a text that is found in itself
example : trackOffsets.splice ⟨.operator, "é", 1, 1, 1⟩ ['x'] "éé".toList = "xé".toList := by
  decide +kernel

example : trackOffsets.splice ⟨.operator, "--", 1, 2, 1⟩ ['x'] "---".toList = "-x".toList := by
  decide +kernel

end SpliceStrategy

end MipsMacro
