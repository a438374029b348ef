import LocaleWrap.Proofs.Rules.LiteralGrammar
import LocaleWrap.Rules.Basic

/-! # The forms of lines

A form is a way to write a line out of its parts; each part comes with the proof that it is what it
should be.

* **`ValueTail`** — what stands after a value: blanks, and a comma that may be required.
* **`InlineForm`**, **`HeaderForm`**, **`BareForm`** — a field with its literal, a field alone, a
  literal alone; **`line`** is the line that each stands for.
* `InlineForm.parts_unique`, `BareForm.parts_unique` — a line has only one literal, however it is
  written in a form.
* `InlineForm.line_ne_headerForm`, `InlineForm.line_ne_bareForm`, `HeaderForm.line_ne_bareForm` —
  no line has forms of two kinds, whatever the field names and indents are. -/

namespace LocaleWrap

open Literal Text

/-! ## Tails -/

/-- **The tail of a value**: blanks with one comma among them, or with none where no comma is
`required`. -/
def ValueTail (required : Bool) (t : Text) : Prop :=
  (required = false ∧ Blank t) ∨ ∃ a b, Blank a ∧ Blank b ∧ t = a ++ ',' :: b

namespace ValueTail

variable {required : Bool} {t : Text}

/-- A tail is margin. -/
theorem isMargin (h : ValueTail required t) : ∀ c ∈ t, IsMargin c := by
  rcases h with ⟨-, h⟩ | ⟨a, b, ha, hb, rfl⟩
  · exact h.isMargin
  · intro c hc
    rcases List.mem_append.mp hc with hc | hc
    · exact ha.isMargin c hc
    · rcases List.mem_cons.mp hc with rfl | hc
      · exact Or.inr rfl
      · exact hb.isMargin c hc

/-- A tail with a comma is a tail where none is required. -/
theorem optional (h : ValueTail required t) : ValueTail false t := by
  rcases h with ⟨-, h⟩ | h
  · exact Or.inl ⟨rfl, h⟩
  · exact Or.inr h

end ValueTail

/-! ## Forms -/

/-- **A field with its literal on one line.** -/
structure InlineForm (names : List Text) where
  indent : Text
  name : Text
  gap : Text
  literal : Text
  tail : Text
  indent_ne_nil : indent ≠ []
  blank_indent : Blank indent
  name_mem : name ∈ names
  gap_ne_nil : gap ≠ []
  blank_gap : Blank gap
  isLiteral : IsLiteral literal
  valueTail : ValueTail false tail

/-- **A field whose value begins on the next line.** -/
structure HeaderForm (names : List Text) where
  indent : Text
  name : Text
  rest : Text
  indent_ne_nil : indent ≠ []
  blank_indent : Blank indent
  name_mem : name ∈ names
  blank_rest : Blank rest

/-- **A literal that stands alone**, behind at least `least` blanks. -/
structure BareForm (least : Nat) (comma : Bool) where
  indent : Text
  literal : Text
  tail : Text
  least_le : least ≤ indent.length
  blank_indent : Blank indent
  isLiteral : IsLiteral literal
  valueTail : ValueTail comma tail

/-- The line that stands for the parts of an inline field. -/
def InlineForm.line {names : List Text} (p : InlineForm names) : Text :=
  p.indent ++ p.name ++ ':' :: (p.gap ++ p.literal ++ p.tail)

/-- The literal of an inline field, with the indent of the field. -/
def InlineForm.value {names : List Text} (p : InlineForm names) : Quoted :=
  ⟨p.indent, p.literal, p.tail⟩

/-- The line that stands for the parts of a field header. -/
def HeaderForm.line {names : List Text} (p : HeaderForm names) : Text :=
  p.indent ++ p.name ++ ':' :: p.rest

/-- The line that stands for the parts of a bare literal. -/
def BareForm.line {least : Nat} {comma : Bool} (p : BareForm least comma) : Text :=
  p.indent ++ p.literal ++ p.tail

/-- The literal of a bare literal with the text around it. -/
def BareForm.value {least : Nat} {comma : Bool} (p : BareForm least comma) : Quoted :=
  ⟨p.indent, p.literal, p.tail⟩

/-! ## One literal on a line -/

/-- **A line has one literal only** that nothing or a blank precedes and a tail follows. -/
theorem literal_unique {a b l m t s : Text} {r r' : Bool} (hl : IsLiteral l) (hm : IsLiteral m)
    (ht : ValueTail r t) (hs : ValueTail r' s) (ha : ∀ c ∈ a.getLast?, isBlank c = true)
    (hb : ∀ c ∈ b.getLast?, isBlank c = true) (h : a ++ l ++ t = b ++ m ++ s) :
    a = b ∧ l = m ∧ t = s := by
  obtain ⟨q, u, hq, hlu⟩ := hl.exists_concat
  obtain ⟨p, v, hp, hmv⟩ := hm.exists_concat
  -- The closing quotes are the last characters outside the margin, so the literals end together.
  have hends : (a ++ u) ++ q :: t = (b ++ v) ++ p :: s := by simpa [hlu, hmv] using h
  obtain ⟨hfront, hquote, htail⟩ :=
    append_cons_inj_of_margin hq.not_isMargin hp.not_isMargin ht.isMargin hs.isMargin hends
  have hliteral : a ++ l = b ++ m := by
    rw [hlu, hmv, ← List.append_assoc, ← List.append_assoc, hfront, hquote]
  obtain ⟨hab, hlm⟩ := hl.append_inj hm ha hb hliteral
  exact ⟨hab, hlm, htail⟩

/-- A colon is not part of the margin. -/
theorem not_isMargin_colon : ¬ IsMargin ':' := by decide

/-- The mark of a line that ends in a literal and its tail is a quote. -/
theorem exists_hasMark_of_literal {a l t : Text} {required : Bool} (hl : IsLiteral l)
    (ht : ValueTail required t) : ∃ q, IsQuote q ∧ HasMark (a ++ l ++ t) q := by
  obtain ⟨q, u, hq, rfl⟩ := hl.exists_concat
  exact ⟨q, hq, hq.not_isMargin, a ++ u, t, by simp, ht.isMargin⟩

namespace InlineForm

variable {names names' : List Text}

/-- What stands in front of the literal. -/
def front (p : InlineForm names) : Text := p.indent ++ p.name ++ ':' :: p.gap

/-- The line of an inline field is its front, the literal and the tail. -/
theorem line_eq (p : InlineForm names) : p.line = p.front ++ p.literal ++ p.tail := by
  simp [line, front]

/-- The literal stands behind a blank. -/
theorem isBlank_getLast_front (p : InlineForm names) :
    ∀ c ∈ p.front.getLast?, isBlank c = true := by
  obtain ⟨g, d, hg⟩ := (List.eq_nil_or_concat p.gap).resolve_left p.gap_ne_nil
  have hd : isBlank d = true := p.blank_gap d (by simp [hg])
  have hfront : p.front = (p.indent ++ p.name ++ ':' :: g) ++ [d] := by simp [front, hg]
  intro c hc
  rw [hfront, List.getLast?_concat] at hc
  obtain rfl := Option.some.inj hc
  exact hd

/-- **The parts of an inline field are determined by the line**, except for where the indent ends
and the name begins. -/
theorem parts_unique (p : InlineForm names) (p' : InlineForm names') (h : p.line = p'.line) :
    p.indent ++ p.name = p'.indent ++ p'.name ∧ p.gap = p'.gap ∧ p.literal = p'.literal ∧
      p.tail = p'.tail := by
  rw [line_eq, line_eq] at h
  obtain ⟨hfront, hliteral, htail⟩ :=
    literal_unique p.isLiteral p'.isLiteral p.valueTail p'.valueTail p.isBlank_getLast_front
      p'.isBlank_getLast_front h
  obtain ⟨hname, -, hgap⟩ :=
    append_cons_inj_of_margin not_isMargin_colon not_isMargin_colon p.blank_gap.isMargin
      p'.blank_gap.isMargin hfront
  exact ⟨hname, hgap, hliteral, htail⟩

end InlineForm

namespace BareForm

variable {least least' : Nat} {comma comma' : Bool}

/-- The indent of a bare literal ends in a blank, if it is not empty. -/
theorem isBlank_getLast_indent (p : BareForm least comma) :
    ∀ c ∈ p.indent.getLast?, isBlank c = true :=
  fun c hc => p.blank_indent c (List.mem_of_getLast? hc)

/-- **The parts of a bare literal are determined by the line.** -/
theorem parts_unique (p : BareForm least comma) (p' : BareForm least' comma')
    (h : p.line = p'.line) :
    p.indent = p'.indent ∧ p.literal = p'.literal ∧ p.tail = p'.tail :=
  literal_unique p.isLiteral p'.isLiteral p.valueTail p'.valueTail p.isBlank_getLast_indent
    p'.isBlank_getLast_indent h

/-- One line has only one bare literal on it. -/
theorem value_unique (p : BareForm least comma) (p' : BareForm least' comma')
    (h : p.line = p'.line) : p.value = p'.value := by
  obtain ⟨hindent, hliteral, htail⟩ := p.parts_unique p' h
  rw [value, value, hindent, hliteral, htail]

end BareForm

/-! ## Forms of different kinds -/

/-- The mark of a field header is its colon. -/
theorem HeaderForm.hasMark_line {names : List Text} (p : HeaderForm names) :
    HasMark p.line ':' :=
  ⟨not_isMargin_colon, p.indent ++ p.name, p.rest, rfl, p.blank_rest.isMargin⟩

/-- **A field header holds no literal**: its mark is the colon. -/
theorem HeaderForm.line_ne_append {names : List Text} (p : HeaderForm names) {a l t : Text}
    {required : Bool} (hl : IsLiteral l) (ht : ValueTail required t) : p.line ≠ a ++ l ++ t := by
  intro h
  obtain ⟨q, hq, hmark⟩ := exists_hasMark_of_literal (a := a) hl ht
  rw [← h] at hmark
  have hcolon := p.hasMark_line.unique hmark
  rcases hq with rfl | rfl <;> exact absurd hcolon (by decide)

/-- An inline field is no field header, whatever the names. -/
theorem InlineForm.line_ne_headerForm {names names' : List Text} (p : InlineForm names)
    (h : HeaderForm names') : p.line ≠ h.line := by
  rw [p.line_eq]
  exact (h.line_ne_append p.isLiteral p.valueTail).symm

/-- A field header is no bare literal. -/
theorem HeaderForm.line_ne_bareForm {names : List Text} {least : Nat} {comma : Bool}
    (p : HeaderForm names) (b : BareForm least comma) : p.line ≠ b.line :=
  p.line_ne_append b.isLiteral b.valueTail

/-- **No inline field is a bare literal**, though its name may begin with a quote: both would have
the same literal, and the indent of the bare one would reach over the colon. -/
theorem InlineForm.line_ne_bareForm {names : List Text} {least : Nat} {comma : Bool}
    (p : InlineForm names) (b : BareForm least comma) : p.line ≠ b.line := by
  intro h
  rw [p.line_eq] at h
  obtain ⟨hindent, -, -⟩ :=
    literal_unique p.isLiteral b.isLiteral p.valueTail b.valueTail p.isBlank_getLast_front
      b.isBlank_getLast_indent h
  have hcolon : ':' ∈ b.indent := by
    rw [← hindent]
    simp [InlineForm.front]
  exact absurd (b.blank_indent ':' hcolon) (by decide)

end LocaleWrap
