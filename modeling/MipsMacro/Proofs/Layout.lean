import MipsMacro.Substitution

/-!
# Layouts of a line

A line as tokens and the text between them, from left to right. Proved here:

* `Layout.tokens_reverse_eq`: whatever order the tokens of a line are listed in, going through them
  from right to left is going through its layout backwards;
* `Fitting.exists_layout`: tokens that stand where they say, do not overlap and are not empty have a
  layout.
-/

namespace MipsMacro

open Text

/-! ## Spans -/

/-- A token of a line, or text that belongs to none. -/
inductive Span where
  | gap (chars : List Char)
  | token (token : Token)

namespace Span

/-- The text of a span, with `f t` for a token `t`. -/
def chars (f : Token → List Char) : Span → List Char
  | gap cs => cs
  | token t => f t

def token? : Span → Option Token
  | gap _ => none
  | token t => some t

/-- A line with `f t` in the place of each token `t`; the text between the tokens stays. -/
def render (f : Token → List Char) (spans : List Span) : List Char := spans.flatMap (chars f)

def tokens (spans : List Span) : List Token := spans.filterMap token?

/-- No token is empty, and each stands at its offset if the first span starts at byte `start`. -/
def Placed : Nat → List Span → Prop
  | _, [] => True
  | start, gap cs :: spans => Placed (start + byteSize cs) spans
  | start, token t :: spans => t.offset = start ∧ t.text ≠ "" ∧ Placed (start + t.size) spans

@[simp] theorem render_nil (f : Token → List Char) : render f [] = [] := rfl

@[simp] theorem render_gap (f : Token → List Char) (cs : List Char) (spans : List Span) :
    render f (gap cs :: spans) = cs ++ render f spans := rfl

@[simp] theorem render_token (f : Token → List Char) (t : Token) (spans : List Span) :
    render f (token t :: spans) = f t ++ render f spans := rfl

@[simp] theorem tokens_nil : tokens [] = [] := rfl

@[simp] theorem tokens_gap (cs : List Char) (spans : List Span) :
    tokens (gap cs :: spans) = tokens spans := rfl

@[simp] theorem tokens_token (t : Token) (spans : List Span) :
    tokens (token t :: spans) = t :: tokens spans := rfl

end Span

theorem Text.byteSize_eq_zero_iff (cs : List Char) : byteSize cs = 0 ↔ cs = [] := by
  cases cs with
  | nil => simp [byteSize]
  | cons c cs =>
    have := c.utf8Size_pos
    simp [byteSize]
    omega

theorem Token.size_pos {t : Token} (h : t.text ≠ "") : 0 < t.size := by
  rw [Nat.pos_iff_ne_zero, Token.size, Ne, Text.byteSize_eq_zero_iff]
  simpa using h

/-- In a placed line no token starts before the line does, and each ends before the next starts. -/
theorem Span.Placed.apart {start : Nat} {spans : List Span} (h : Placed start spans) :
    (∀ t ∈ tokens spans, start ≤ t.offset) ∧
      (tokens spans).Pairwise fun a b => a.stop ≤ b.offset := by
  induction spans generalizing start with
  | nil => simp [tokens]
  | cons s spans ih =>
    cases s with
    | gap cs =>
      obtain ⟨hlow, hsorted⟩ := ih h
      exact ⟨fun t ht => by have := hlow t ht; omega, hsorted⟩
    | token u =>
      obtain ⟨hoff, -, hrest⟩ := h
      obtain ⟨hlow, hsorted⟩ := ih hrest
      constructor
      · intro t ht
        rcases List.mem_cons.mp ht with rfl | ht
        · omega
        · have := hlow t ht
          omega
      · refine List.pairwise_cons.mpr ⟨fun t ht => ?_, hsorted⟩
        have := hlow t ht
        rw [Token.stop]
        omega

theorem Span.Placed.nonempty {start : Nat} {spans : List Span} (h : Placed start spans) :
    ∀ t ∈ tokens spans, t.text ≠ "" := by
  induction spans generalizing start with
  | nil => simp
  | cons s spans ih =>
    cases s with
    | gap cs => exact ih h
    | token u => exact List.forall_mem_cons.mpr ⟨h.2.1, ih h.2.2⟩

theorem Span.Placed.increasing {start : Nat} {spans : List Span} (h : Placed start spans) :
    (tokens spans).Pairwise fun a b => a.offset < b.offset := by
  refine h.apart.2.imp_of_mem fun {a b} ha _ hab => ?_
  have hpos := Token.size_pos (h.nonempty a ha)
  rw [Token.stop] at hab
  omega

/-! ## Layouts -/

theorem Invocation.rightToLeft_pairwise (tokens : List Token) :
    (rightToLeft tokens).Pairwise fun a b => b.offset ≤ a.offset := by
  refine (sortBy_pairwise _ ?_ ?_ tokens).imp (by simp)
  · intro a b c
    simp only [Nat.ble_eq]
    omega
  · intro a b
    simp only [Bool.or_eq_true, Nat.ble_eq]
    omega

/-- A way to see `text` as the given tokens, each at its offset, and the text between them. The
tokens may be listed in any order. -/
structure Layout (text : List Char) (tokens : List Token) where
  spans : List Span
  source : Span.render (·.text.toList) spans = text
  perm : (Span.tokens spans).Perm tokens
  placed : Span.Placed 0 spans

namespace Layout

variable {text : List Char} {tokens : List Token}

/-- The line with `f t` in the place of each token `t` and all else as it is. -/
def replace (layout : Layout text tokens) (f : Token → String) : String :=
  String.ofList (Span.render (fun t => (f t).toList) layout.spans)

theorem tokens_reverse_eq (layout : Layout text tokens) :
    Invocation.rightToLeft tokens = (Span.tokens layout.spans).reverse := by
  have hsorted := layout.placed.increasing
  have hperm : (Invocation.rightToLeft tokens).Perm (Span.tokens layout.spans).reverse :=
    (sortBy_perm _ tokens).trans (layout.perm.symm.trans (List.reverse_perm _).symm)
  have hback : (Span.tokens layout.spans).reverse.Pairwise fun a b => b.offset < a.offset :=
    List.pairwise_reverse.mpr hsorted
  -- sorting only gives `≤`; that no two tokens share an offset comes from the layout
  have hapart : (Invocation.rightToLeft tokens).Pairwise fun a b => a.offset ≠ b.offset :=
    (hperm.pairwise_iff Ne.symm).mpr (hback.imp fun h => Nat.ne_of_gt h)
  have hstrict : (Invocation.rightToLeft tokens).Pairwise fun a b => b.offset < a.offset :=
    ((Invocation.rightToLeft_pairwise tokens).and hapart).imp fun h => by omega
  exact hperm.eq_of_pairwise (fun a b _ _ hab hba => by omega) hstrict hback

end Layout

/-! ## Fitting tokens -/

/-- The tokens are not empty, stand in the text at their offsets and do not overlap. -/
structure Fitting (text : List Char) (tokens : List Token) : Prop where
  nonempty : ∀ t ∈ tokens, t.text ≠ ""
  held : ∀ t ∈ tokens, slice? text t.offset t.stop = some t.text.toList
  disjoint : tokens.Pairwise fun a b => a.stop ≤ b.offset ∨ b.stop ≤ a.offset

theorem Text.eq_append_of_slice? {cs part : List Char} {start stop : Nat}
    (h : slice? cs start stop = some part) :
    ∃ pre post, cs = pre ++ part ++ post ∧ byteSize pre = start ∧ byteSize (pre ++ part) = stop := by
  simp only [slice?, bind, Option.bind_eq_some_iff, pure, Option.ite_none_right_eq_some] at h
  obtain ⟨hle, ⟨pre, rest⟩, hpre, ⟨mid, post⟩, hmid, h⟩ := h
  obtain ⟨rfl, hsize⟩ := eq_append_of_splitAt? hpre
  obtain ⟨rfl, hmidSize⟩ := eq_append_of_splitAt? hmid
  obtain rfl : mid = part := Option.some.inj h
  refine ⟨pre, post, by simp, hsize, ?_⟩
  rw [byteSize_append]
  omega

theorem Text.slice?_append (pre part post : List Char) :
    slice? (pre ++ part ++ post) (byteSize pre) (byteSize (pre ++ part)) = some part := by
  have hle : byteSize pre ≤ byteSize (pre ++ part) := by
    rw [byteSize_append]
    omega
  have hsize : byteSize (pre ++ part) - byteSize pre = byteSize part := by
    rw [byteSize_append]
    omega
  simp [slice?, hle, hsize, splitAt?_byteSize]

/-- Of two beginnings of a text the one with fewer bytes is a beginning of the other. -/
theorem Text.append_of_byteSize_le {a b c d : List Char} (h : a ++ b = c ++ d)
    (hle : byteSize a ≤ byteSize c) : ∃ gap, c = a ++ gap ∧ b = gap ++ d := by
  rcases List.append_eq_append_iff.mp h with ⟨gap, hc, hb⟩ | ⟨gap, ha, hd⟩
  · exact ⟨gap, hc, hb⟩
  · have hzero : byteSize gap = 0 := by
      rw [ha, byteSize_append] at hle
      omega
    rw [byteSize_eq_zero_iff] at hzero
    subst hzero
    exact ⟨[], by simpa using ha.symm, by simpa using hd.symm⟩

/-- Two beginnings of one text with the same number of bytes are the same. -/
theorem Text.eq_of_byteSize_eq {a b c d : List Char} (h : a ++ b = c ++ d)
    (hsize : byteSize a = byteSize c) : a = c := by
  have hcut := splitAt?_byteSize a b
  rw [h, hsize, splitAt?_byteSize] at hcut
  exact (congrArg Prod.fst (Option.some.inj hcut)).symm

/-- Cutting what lies behind `pre` at tokens that follow each other. -/
theorem exists_spans (ts : List Token) (pre rest : List Char)
    (hne : ∀ t ∈ ts, t.text ≠ "")
    (hheld : ∀ t ∈ ts, slice? (pre ++ rest) t.offset t.stop = some t.text.toList)
    (hlow : ∀ t ∈ ts, byteSize pre ≤ t.offset)
    (hsorted : ts.Pairwise fun a b => a.stop ≤ b.offset) :
    ∃ spans, Span.render (·.text.toList) spans = rest ∧ Span.tokens spans = ts ∧
      Span.Placed (byteSize pre) spans := by
  induction ts generalizing pre rest with
  | nil => exact ⟨[.gap rest], by simp, rfl, trivial⟩
  | cons t ts ih =>
    obtain ⟨hnext, hsorted⟩ := List.pairwise_cons.mp hsorted
    obtain ⟨before, post, hcut, hsize, -⟩ := eq_append_of_slice? (hheld t (List.mem_cons_self ..))
    rw [List.append_assoc] at hcut
    obtain ⟨gap, rfl, rfl⟩ := append_of_byteSize_le hcut
      (hsize ▸ hlow t (List.mem_cons_self ..))
    rw [byteSize_append] at hsize
    have hsame : pre ++ (gap ++ (t.text.toList ++ post)) = pre ++ gap ++ t.text.toList ++ post := by
      simp
    have hend : byteSize (pre ++ gap ++ t.text.toList) = t.stop := by
      simp only [byteSize_append, Token.stop, Token.size]
      omega
    obtain ⟨spans, hrender, htokens, hplaced⟩ := ih (pre ++ gap ++ t.text.toList) post
      (fun u hu => hne u (List.mem_cons_of_mem _ hu))
      (fun u hu => hsame ▸ hheld u (List.mem_cons_of_mem _ hu))
      (fun u hu => hend ▸ hnext u hu) hsorted
    refine ⟨.gap gap :: .token t :: spans, ?_, ?_, ?_⟩
    · rw [Span.render_gap, Span.render_token, hrender]
    · rw [Span.tokens_gap, Span.tokens_token, htokens]
    · have hstart : byteSize pre + byteSize gap + t.size = t.stop := by
        rw [Token.stop]
        omega
      refine ⟨hsize.symm, hne t (List.mem_cons_self ..), ?_⟩
      rw [hstart, ← hend]
      exact hplaced

theorem Fitting.exists_layout {text : List Char} {tokens : List Token} (h : Fitting text tokens) :
    Nonempty (Layout text tokens) := by
  have hperm : (Invocation.rightToLeft tokens).reverse.Perm tokens :=
    (List.reverse_perm _).trans (sortBy_perm _ tokens)
  have hmem : ∀ t ∈ (Invocation.rightToLeft tokens).reverse, t ∈ tokens :=
    fun t ht => hperm.mem_iff.mp ht
  have hle : (Invocation.rightToLeft tokens).reverse.Pairwise fun a b => a.offset ≤ b.offset := by
    rw [List.pairwise_reverse]
    exact Invocation.rightToLeft_pairwise tokens
  have hdisjoint := (hperm.symm.pairwise_iff (fun hab => hab.symm)).mp h.disjoint
  have hsorted : (Invocation.rightToLeft tokens).reverse.Pairwise fun a b => a.stop ≤ b.offset := by
    refine (hle.and hdisjoint).imp_of_mem ?_
    intro a b ha hb hab
    have hpos := Token.size_pos (h.nonempty b (hmem b hb))
    rcases hab.2 with hab' | hab'
    · exact hab'
    · have := hab.1
      rw [Token.stop] at hab'
      omega
  obtain ⟨spans, hrender, htokens, hplaced⟩ := exists_spans _ [] text
    (fun t ht => h.nonempty t (hmem t ht)) (fun t ht => h.held t (hmem t ht))
    (fun t _ => Nat.zero_le _) hsorted
  exact ⟨⟨spans, hrender, htokens ▸ hperm, hplaced⟩⟩

end MipsMacro
