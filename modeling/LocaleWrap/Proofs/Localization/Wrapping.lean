import LocaleWrap.Proofs.Localization.Locality
import LocaleWrap.Proofs.Text.RawLine

/-! # Wrapped lines

What is common to all rules that wrap a literal on its line.

* **`Text.Diverge`** — two texts that differ before either of them ends.
* **`Wraps`** — a line before and after its literal is wrapped, and **`Rules.WrapsBy`** the same for
  each rule; by `Rules.wrapsBy_of_edit` each edit is of this kind.
* `Wraps.diverge` — wrapping always changes the text, within the length of both.
* `Wraps.classify_eq_unmatched`, `Wraps.deferredValue_eq_none` — no rules do anything to a wrapped
  line.
* `Wraps.cut_append`, `Wraps.newline_not_mem` — the terminator stays what it was, and so do the
  blanks in front of it by `Wraps.trimEnd_eq_self_iff`. -/

namespace LocaleWrap

open Literal Text

/-! ## Texts that diverge -/

/-- **Two texts that differ in a character** which both of them have. -/
def Text.Diverge (a b : Text) : Prop :=
  ∃ p c d s u, c ≠ d ∧ a = p ++ c :: s ∧ b = p ++ d :: u

namespace Text.Diverge

variable {a b : Text}

/-- Texts with different first characters diverge. -/
theorem of_ne_head {c d : Char} (h : c ≠ d) (s u : Text) : Diverge (c :: s) (d :: u) :=
  ⟨[], c, d, s, u, h, rfl, rfl⟩

/-- Diverging texts diverge behind a common beginning. -/
theorem append_left (h : Diverge a b) (x : Text) : Diverge (x ++ a) (x ++ b) := by
  obtain ⟨p, c, d, s, u, hne, rfl, rfl⟩ := h
  exact ⟨x ++ p, c, d, s, u, hne, by simp, by simp⟩

/-- **Whatever follows them**, diverging texts diverge. -/
theorem append_right (h : Diverge a b) (x y : Text) : Diverge (a ++ x) (b ++ y) := by
  obtain ⟨p, c, d, s, u, hne, rfl, rfl⟩ := h
  exact ⟨p, c, d, s ++ x, u ++ y, hne, by simp, by simp⟩

/-- Texts that diverge are different. -/
theorem ne (h : Diverge a b) : a ≠ b := by
  obtain ⟨p, c, d, s, u, hne, rfl, rfl⟩ := h
  intro heq
  exact hne (List.cons.inj (List.append_cancel_left heq)).1

end Text.Diverge

/-! ## Lines before and after -/

/-- **A line before and after its literal is wrapped.** -/
inductive Wraps : Text → Text → Prop
  /-- The literal of an inline field. -/
  | field {names : List Text} (p : InlineForm names) : Wraps p.line (p.value.localizedField p.name)
  /-- A bare literal, as an array item or a deferred value. -/
  | bare {least : Nat} {comma : Bool} (p : BareForm least comma) : Wraps p.line p.value.localized

namespace Rules

variable {rules : Rules} {before : Option Text} {raw : Text} {e : Edit}

/-- **A line before and after a rule wraps the literal on it.** -/
inductive WrapsBy (rules : Rules) : LineRole → Text → Text → Prop
  /-- The literal of an inline field. -/
  | field (p : InlineForm rules.names) :
      rules.WrapsBy .fieldInline p.line (p.value.localizedField p.name)
  /-- A bare literal that is the value of the field header before. -/
  | deferred (p : BareForm 1 false) : rules.WrapsBy .fieldHeader p.line p.value.localized
  /-- A bare literal that is an array item. -/
  | item (p : BareForm rules.minIndent true) : rules.WrapsBy .arrayItem p.line p.value.localized

/-- **Every edit wraps the literal of its line**, as its rule does. -/
theorem wrapsBy_of_edit (h : rules.edit before raw = some e) :
    rules.WrapsBy e.rule (Lines.body raw) e.after := by
  rw [edit] at h
  split at h
  · next value hvalue =>
    -- a deferred value
    obtain rfl := Option.some.inj h
    split at hvalue
    · obtain ⟨p, hp, rfl⟩ := deferredValue_eq_some_iff.mp hvalue
      exact hp ▸ .deferred p
    · cases hvalue
  · -- what the reading of the line asks for
    have hfits := rules.fits_classify (Lines.body raw)
    cases hread : rules.classify (Lines.body raw) with
    | fieldInline field value =>
        rw [hread] at h hfits
        obtain ⟨p, hp, rfl, rfl⟩ := hfits
        obtain rfl := Option.some.inj h
        exact hp ▸ .field p
    | fieldHeader field =>
        rw [hread] at h
        cases h
    | arrayItem value =>
        rw [hread] at h hfits
        obtain ⟨p, hp, rfl⟩ := hfits
        obtain rfl := Option.some.inj h
        exact hp ▸ .item p
    | unmatched =>
        rw [hread] at h
        cases h

/-- Every rule that wraps is counted. -/
theorem WrapsBy.wraps {rule : LineRole} {line after : Text} (h : rules.WrapsBy rule line after) :
    Wraps line after ∧ rule ≠ .unmatched := by
  cases h with
  | field p => exact ⟨.field p, by decide⟩
  | deferred p => exact ⟨.bare p, by decide⟩
  | item p => exact ⟨.bare p, by decide⟩

/-- An edit wraps the literal of the body, and a rule stands for it. -/
theorem wraps_of_edit (h : rules.edit before raw = some e) :
    Wraps (Lines.body raw) e.after ∧ e.rule ≠ .unmatched :=
  (wrapsBy_of_edit h).wraps

end Rules

namespace Wraps

variable {before after : Text}

/-- The parts of a wrapped line: what stands in front of the literal stays but for a space. -/
theorem exists_parts (h : Wraps before after) :
    ∃ front front' literal tail, IsLiteral literal ∧ ValueTail false tail ∧
      before = front ++ literal ++ tail ∧ after = front' ++ localizedValue literal ++ tail ∧
      ∀ c ∈ front', c ∈ front ∨ c = ' ' := by
  cases h with
  | field p =>
      refine ⟨p.front, p.indent ++ p.name ++ ": ".toList, p.literal, p.tail, p.isLiteral,
        p.valueTail, p.line_eq, rfl, ?_⟩
      intro c hc
      simp only [List.mem_append] at hc
      rcases hc with (hc | hc) | hc
      · exact Or.inl (by simp [InlineForm.front, hc])
      · exact Or.inl (by simp [InlineForm.front, hc])
      · obtain rfl | rfl : c = ':' ∨ c = ' ' := by simpa using hc
        · exact Or.inl (by simp [InlineForm.front])
        · exact Or.inr rfl
  | bare p =>
      exact ⟨p.indent, p.indent, p.literal, p.tail, p.isLiteral, p.valueTail.optional, rfl, rfl,
        fun c hc => Or.inl hc⟩

/-- **Wrapping changes the text**, though blanks behind the colon may be lost in exchange. -/
theorem diverge (h : Wraps before after) : Diverge before after := by
  cases h with
  | field p =>
      have hfirst : Diverge (p.gap ++ p.literal ++ p.tail)
          (' ' :: localizedValue p.literal ++ p.tail) := by
        obtain ⟨g, gap, hgap⟩ := List.exists_cons_of_ne_nil p.gap_ne_nil
        rw [hgap, localizedValue]
        by_cases hg : g = ' '
        · -- The next character is a blank or the quote, and a brace afterwards.
          rw [hg]
          refine Diverge.append_left (a := gap ++ p.literal ++ p.tail) ?_ [' ']
          cases gap with
          | nil =>
              obtain ⟨q, u, hq, hlit⟩ := p.isLiteral.exists_cons
              rw [hlit]
              refine Diverge.of_ne_head ?_ _ _
              rcases hq with rfl | rfl <;> decide
          | cons b gap =>
              refine Diverge.of_ne_head ?_ _ _
              rintro rfl
              exact absurd (p.blank_gap '{' (by simp [hgap])) (by decide)
        · exact Diverge.of_ne_head hg _ _
      rw [Quoted.localizedField_eq]
      exact Diverge.append_left (Diverge.append_left hfirst [':']) (p.indent ++ p.name)
  | bare p =>
      obtain ⟨q, u, hq, hlit⟩ := p.isLiteral.exists_cons
      have hfirst : Diverge (p.literal ++ p.tail) (localizedValue p.literal ++ p.tail) := by
        rw [localizedValue, hlit]
        refine Diverge.of_ne_head ?_ _ _
        rcases hq with rfl | rfl <;> decide
      rw [BareForm.line, BareForm.value, Quoted.localized, List.append_assoc, List.append_assoc]
      exact Diverge.append_left hfirst p.indent

/-! ## Wrapped lines are left alone -/

/-- The mark of a wrapped line is the closing brace. -/
theorem hasMark (h : Wraps before after) : HasMark after '}' := by
  obtain ⟨-, front', literal, tail, -, htail, -, rfl, -⟩ := h.exists_parts
  refine ⟨by decide, front' ++ ['{', ' ', 'e', 'n', ':', ' '] ++ literal ++ [' '], tail, ?_,
    htail.isMargin⟩
  simp [localizedValue]

/-- **A wrapped line holds no literal** that only a tail follows. -/
theorem ne_append (h : Wraps before after) {a l t : Text} {required : Bool} (hl : IsLiteral l)
    (ht : ValueTail required t) : after ≠ a ++ l ++ t := by
  rintro rfl
  obtain ⟨q, hq, hmark⟩ := exists_hasMark_of_literal (a := a) hl ht
  have hbrace := h.hasMark.unique hmark
  rcases hq with rfl | rfl <;> exact absurd hbrace (by decide)

/-- **No rules recognise a wrapped line.** -/
theorem classify_eq_unmatched (h : Wraps before after) (rules : Rules) :
    rules.classify after = .unmatched := by
  refine Rules.classify_eq_unmatched_of_forms ?_ ?_ ?_
  · intro p hp
    exact h.ne_append p.isLiteral p.valueTail (hp.symm.trans p.line_eq)
  · rintro p rfl
    exact absurd (h.hasMark.unique p.hasMark_line) (by decide)
  · intro p hp
    exact h.ne_append p.isLiteral p.valueTail hp.symm

/-- **No wrapped line is a deferred value.** -/
theorem deferredValue_eq_none (h : Wraps before after) (rules : Rules) :
    rules.deferredValue after = none := by
  rw [Option.eq_none_iff_forall_ne_some]
  intro v hv
  obtain ⟨p, hp, -⟩ := Rules.deferredValue_eq_some_iff.mp hv
  exact h.ne_append p.isLiteral p.valueTail hp.symm

/-! ## Terminators -/

/-- The last character of a wrapped line is that of the line before, or the closing brace. -/
theorem getLast? (h : Wraps before after) :
    after.getLast? = before.getLast? ∨ after.getLast? = some '}' := by
  obtain ⟨front, front', literal, tail, hlit, -, rfl, rfl, -⟩ := h.exists_parts
  -- The tail is kept, so only where there is none the last character changes.
  rcases List.eq_nil_or_concat tail with rfl | ⟨tail, c, rfl⟩
  · have hbrace : front' ++ localizedValue literal ++ [] =
        (front' ++ ['{', ' ', 'e', 'n', ':', ' '] ++ literal ++ [' ']) ++ ['}'] := by
      simp [localizedValue]
    rw [hbrace, List.getLast?_concat]
    exact Or.inr rfl
  · exact Or.inl (by simp)

/-- **The terminator of a line is found again** when its literal has been wrapped. -/
theorem cut_append {raw : Text} (h : Wraps (Lines.body raw) after) :
    Lines.cut (after ++ Lines.ending raw) = (after, Lines.ending raw) := by
  refine Lines.cut_append ?_
  have hlast : ∀ c, c ≠ '}' → (Lines.body raw).getLast? ≠ some c → after.getLast? ≠ some c := by
    intro c hc hbody
    rcases h.getLast? with heq | heq
    · rwa [heq]
    · rw [heq]
      simpa using hc.symm
  rcases Lines.separable_cut raw with ⟨he, hb⟩ | ⟨he, hb⟩ | he
  · exact Or.inl ⟨he, hlast '\n' (by decide) hb⟩
  · exact Or.inr (Or.inl ⟨he, hlast '\r' (by decide) hb⟩)
  · exact Or.inr (Or.inr he)

/-- **A wrapped line ends in blanks** just when the line did before. -/
theorem trimEnd_eq_self_iff (h : Wraps before after) :
    trimEnd after = after ↔ trimEnd before = before := by
  obtain ⟨front, front', literal, tail, hlit, -, rfl, rfl, -⟩ := h.exists_parts
  obtain ⟨q, x, hq, rfl⟩ := hlit.exists_concat
  -- In front of the tail stands a quote, and afterwards a brace.
  have hbefore : trimEnd (front ++ (x ++ [q]) ++ tail) = front ++ (x ++ [q]) ++ trimEnd tail := by
    simpa using trimEnd_append_cons hq.isBlank_eq_false (front ++ x) tail
  have hafter : trimEnd (front' ++ localizedValue (x ++ [q]) ++ tail) =
      front' ++ localizedValue (x ++ [q]) ++ trimEnd tail := by
    simpa [localizedValue] using trimEnd_append_cons (show isBlank '}' = false by decide)
      (front' ++ ['{', ' ', 'e', 'n', ':', ' '] ++ (x ++ [q]) ++ [' ']) tail
  rw [hbefore, hafter, List.append_cancel_left_eq, List.append_cancel_left_eq]

/-- **Wrapping brings no line feed in.** -/
theorem newline_not_mem (h : Wraps before after) (hb : '\n' ∉ before) : '\n' ∉ after := by
  obtain ⟨front, front', literal, tail, -, -, rfl, rfl, hfront⟩ := h.exists_parts
  simp only [List.mem_append, not_or] at hb
  obtain ⟨⟨hf, hl⟩, ht⟩ := hb
  have hf' : '\n' ∉ front' := by
    intro hmem
    rcases hfront '\n' hmem with hmem | heq
    · exact hf hmem
    · exact absurd heq (by decide)
  simp [localizedValue, hf', hl, ht]

end Wraps

/-! ## The ledger of a pass -/

/-- **What an entry of the ledger says**: its line is the one with its number, before and after the
literal was wrapped, with the terminator that the line had. -/
theorem Rules.wraps_of_mem_changes {rules : Rules} {lines : List Text} {c : Change}
    (h : c ∈ (rules.localizeLines lines).changes) :
    ∃ raw, lines[c.line - 1]? = some raw ∧
      (rules.localizeLines lines).lines[c.line - 1]? = some (c.after ++ Lines.ending raw) ∧
      c.before = Lines.body raw ∧ Wraps (Lines.body raw) c.after ∧ c.rule ≠ .unmatched := by
  rw [localizeLines_eq_localizeEach] at h ⊢
  obtain ⟨i, raw, e, hraw, he, rfl⟩ := mem_changes_localizeEach.mp h
  obtain ⟨hwraps, hrule⟩ := wraps_of_edit he
  have hline : (Edit.entry (0 + i) raw e).line - 1 = i := by simp
  rw [hline, getElem?_lines_localizeEach, hraw, Option.map_some, he]
  exact ⟨raw, rfl, rfl, rfl, hwraps, hrule⟩

end LocaleWrap
