import Mathlib.Data.List.Basic
import LocaleWrap.Proofs.Rules.LineForm

/-! # What the readers accept

Each reader succeeds exactly on the lines of its form, and finds the parts of such a form.

* `isTail_iff`, `literalAndTail_eq_some_iff`, `inlineValue_eq_some_iff`,
  `bareLiteral_eq_some_iff` — the readers for parts of a line, against the forms.
* `behindIndent_eq_some`, `behindName_eq_some` and their `isSome` companions — the readers that
  search: what they find is there, and they find something wherever there is something.
* `LineReader.read_fieldInline_eq_some`, `LineReader.read_fieldHeader_eq_some`,
  `LineReader.read_arrayItem_eq_some_iff` — the readers of lines, against the forms of lines. -/

namespace LocaleWrap

open Literal Text

/-! ## Readers for the parts of a line -/

/-- **The test for tails** holds of tails only. -/
theorem isTail_iff {required : Bool} {t : Text} :
    isTail required t = true ↔ ValueTail required t := by
  have hsplit := leadingBlanks_append_trimStart t
  have hblank := blank_leadingBlanks t
  rcases htrim : t.trimStart with _ | ⟨c, cs⟩
  · -- There are only blanks, and so no comma.
    have ht : Blank t := by
      rw [← hsplit, htrim]
      simpa using hblank
    rw [isTail, htrim]
    constructor
    · intro h
      exact Or.inl ⟨by simpa using h, ht⟩
    · rintro (⟨h, -⟩ | ⟨a, b, -, -, rfl⟩)
      · simp [h]
      · exact absurd (ht ',' (by simp)) (by decide)
  · -- The first other character has to be the comma.
    rw [isTail, htrim]
    rw [htrim] at hsplit
    constructor
    · intro h
      obtain ⟨rfl, hcs⟩ : c = ',' ∧ Blank cs := by simpa [← all_isBlank_iff] using h
      exact Or.inr ⟨_, cs, hblank, hcs, hsplit.symm⟩
    · rintro (⟨-, ht⟩ | ⟨a, b, ha, hb, rfl⟩)
      · -- A blank text would have been trimmed away.
        have : t.trimStart = [] := by simpa using trimStart_append (t := []) ht (by simp)
        rw [htrim] at this
        exact absurd this (List.cons_ne_nil c cs)
      · rw [trimStart_append ha (by simp; decide)] at htrim
        obtain ⟨rfl, rfl⟩ := List.cons.inj htrim
        simpa [← all_isBlank_iff] using hb

/-- A literal and its tail are read exactly where the text is a literal with a tail behind it. -/
theorem literalAndTail_eq_some_iff {required : Bool} {t l s : Text} :
    literalAndTail required t = some (l, s) ↔
      IsLiteral l ∧ ValueTail required s ∧ t = l ++ s := by
  rw [literalAndTail, Option.bind_eq_some_iff]
  constructor
  · rintro ⟨⟨l', s'⟩, hread, h⟩
    obtain ⟨htail, rfl, rfl⟩ : isTail required s' = true ∧ l' = l ∧ s' = s := by simpa using h
    obtain ⟨hl, ht⟩ := read_eq_some_iff.mp hread
    exact ⟨hl, isTail_iff.mp htail, ht⟩
  · rintro ⟨hl, hs, rfl⟩
    refine ⟨(l, s), read_eq_some_iff.mpr ⟨hl, rfl⟩, ?_⟩
    simp [isTail_iff.mpr hs]

/-- A literal and its tail behind blanks are found by passing over the blanks. -/
theorem literalAndTail_trimStart {required : Bool} {b l s : Text} (hb : Blank b)
    (hl : IsLiteral l) (hs : ValueTail required s) :
    leadingBlanks (b ++ l ++ s) = b ∧
      literalAndTail required (trimStart (b ++ l ++ s)) = some (l, s) := by
  rw [List.append_assoc, leadingBlanks_append hb (hl.isBlank_head s),
    trimStart_append hb (hl.isBlank_head s)]
  exact ⟨rfl, literalAndTail_eq_some_iff.mpr ⟨hl, hs, rfl⟩⟩

/-- **The value of an inline field** is a literal with its tail, behind at least one blank. -/
theorem inlineValue_eq_some_iff {t l s : Text} :
    inlineValue t = some (l, s) ↔
      ∃ gap, gap ≠ [] ∧ Blank gap ∧ IsLiteral l ∧ ValueTail false s ∧ t = gap ++ l ++ s := by
  rw [inlineValue]
  constructor
  · intro h
    split at h
    · simp at h
    · next hgap =>
      obtain ⟨hl, hs, ht⟩ := literalAndTail_eq_some_iff.mp h
      refine ⟨leadingBlanks t, hgap, blank_leadingBlanks t, hl, hs, ?_⟩
      rw [List.append_assoc, ← ht, leadingBlanks_append_trimStart]
  · rintro ⟨gap, hne, hgap, hl, hs, rfl⟩
    obtain ⟨hlead, hvalue⟩ := literalAndTail_trimStart hgap hl hs
    rw [hlead, if_neg hne, hvalue]

/-- A header ends in a blank text, and in no other. -/
theorem headerEnd_eq_some_iff {t : Text} {u : Unit} : headerEnd t = some u ↔ Blank t := by
  simp [headerEnd, Blank]

/-- **A bare literal is read on exactly the lines of its form**, part by part. -/
theorem bareLiteral_eq_some_iff {least : Nat} {comma : Bool} {line : Text} {v : Quoted} :
    bareLiteral least comma line = some v ↔
      ∃ p : BareForm least comma, p.line = line ∧ p.value = v := by
  rw [bareLiteral]
  constructor
  · intro h
    split at h
    · next hleast =>
      obtain ⟨⟨l, s⟩, hvalue, rfl⟩ := Option.map_eq_some_iff.mp h
      obtain ⟨hl, hs, ht⟩ := literalAndTail_eq_some_iff.mp hvalue
      refine ⟨⟨leadingBlanks line, l, s, hleast, blank_leadingBlanks line, hl, hs⟩, ?_, rfl⟩
      rw [BareForm.line, List.append_assoc, ← ht, leadingBlanks_append_trimStart]
    · simp at h
  · rintro ⟨p, rfl, rfl⟩
    obtain ⟨hlead, hvalue⟩ := literalAndTail_trimStart p.blank_indent p.isLiteral p.valueTail
    rw [BareForm.line, hlead, if_pos p.least_le, hvalue]
    rfl

/-! ## Readers that search -/

section Search

variable {α : Type} {next : Text → Option α}

/-- **What is found behind a name** stands there. -/
theorem behindName_eq_some {names : List Text} {t name : Text} {a : α}
    (h : behindName names next t = some (name, a)) :
    name ∈ names ∧ ∃ rest, t = name ++ ':' :: rest ∧ next rest = some a := by
  obtain ⟨name', hmem, hfound⟩ := List.exists_of_findSome?_eq_some h
  obtain ⟨rest, hfront, hmap⟩ := Option.bind_eq_some_iff.mp hfound
  obtain ⟨a', hnext, heq⟩ := Option.map_eq_some_iff.mp hmap
  obtain ⟨rfl, rfl⟩ := Prod.mk.inj heq
  exact ⟨hmem, rest, by simpa using (List.isPrefixOf?_eq_some_iff_append_eq.mp hfront).symm, hnext⟩

/-- **Something is found behind a name** wherever there is something. -/
theorem isSome_behindName {names : List Text} {name rest : Text} (hmem : name ∈ names)
    (h : (next rest).isSome) : (behindName names next (name ++ ':' :: rest)).isSome := by
  rw [behindName, List.findSome?_isSome_iff]
  refine ⟨name, hmem, ?_⟩
  have hfront : (name ++ [':']).isPrefixOf? (name ++ ':' :: rest) = some rest :=
    List.isPrefixOf?_eq_some_iff_append_eq.mpr (by simp)
  simpa [hfront] using h

/-- **What is found behind an indent** stands there. -/
theorem behindIndent_eq_some {t indent : Text} {a : α}
    (h : behindIndent next t = some (indent, a)) :
    indent ≠ [] ∧ Blank indent ∧ ∃ rest, t = indent ++ rest ∧ next rest = some a := by
  induction t generalizing indent with
  | nil => simp [behindIndent] at h
  | cons c cs ih =>
    rw [behindIndent] at h
    split at h
    · next hc =>
      split at h
      · next indent' a' hlonger =>
        -- a longer indent
        obtain ⟨rfl, rfl⟩ := by simpa using h
        obtain ⟨-, hblank, rest, rfl, hnext⟩ := ih hlonger
        exact ⟨by simp, by simp [hc, hblank], rest, rfl, hnext⟩
      · -- this blank alone
        obtain ⟨a', hnext, heq⟩ := Option.map_eq_some_iff.mp h
        obtain ⟨rfl, rfl⟩ := Prod.mk.inj heq
        exact ⟨by simp, by simp [hc], cs, rfl, hnext⟩
    · simp at h

/-- **Something is found behind an indent** wherever there is something. -/
theorem isSome_behindIndent {indent rest : Text} (hne : indent ≠ []) (hblank : Blank indent)
    (h : (next rest).isSome) : (behindIndent next (indent ++ rest)).isSome := by
  induction indent with
  | nil => exact absurd rfl hne
  | cons c cs ih =>
    obtain ⟨hc, hcs⟩ := blank_cons.mp hblank
    rw [List.cons_append, behindIndent, if_pos hc]
    -- A longer indent that succeeds wins; this one decides only where there is none.
    split
    · rfl
    · next hlonger =>
      cases cs with
      | nil => simpa using h
      | cons d ds =>
        have hfound : (behindIndent next (d :: ds ++ rest)).isSome := ih (by simp) hcs
        rw [hlonger] at hfound
        exact absurd hfound (by simp)

end Search

/-! ## Readers of lines -/

namespace LineReader

variable {rules : Rules} {line : Text} {r : LineReading}

/-- **An inline field that is read** has the parts of a form. -/
theorem read_fieldInline_eq_some (h : read rules line .fieldInline = some r) :
    ∃ p : InlineForm rules.names, p.line = line ∧ r = .fieldInline p.name p.value := by
  obtain ⟨⟨indent, name, literal, tail⟩, hfound, rfl⟩ := Option.map_eq_some_iff.mp h
  obtain ⟨hne, hindent, rest, rfl, hname⟩ := behindIndent_eq_some hfound
  obtain ⟨hmem, rest', rfl, hvalue⟩ := behindName_eq_some hname
  obtain ⟨gap, hgap, hblank, hliteral, htail, rfl⟩ := inlineValue_eq_some_iff.mp hvalue
  exact ⟨⟨indent, name, gap, literal, tail, hne, hindent, hmem, hgap, hblank, hliteral, htail⟩,
    by simp [InlineForm.line], rfl⟩

/-- **Every inline field is read.** -/
theorem isSome_read_fieldInline (p : InlineForm rules.names) :
    (read rules p.line .fieldInline).isSome := by
  have hvalue : (inlineValue (p.gap ++ p.literal ++ p.tail)).isSome :=
    Option.isSome_iff_exists.mpr ⟨_, inlineValue_eq_some_iff.mpr
      ⟨p.gap, p.gap_ne_nil, p.blank_gap, p.isLiteral, p.valueTail, rfl⟩⟩
  have hfound := isSome_behindIndent p.indent_ne_nil p.blank_indent
    (isSome_behindName p.name_mem hvalue)
  rw [read, Option.isSome_map, InlineForm.line, List.append_assoc]
  exact hfound

/-- **A field header that is read** has the parts of a form. -/
theorem read_fieldHeader_eq_some (h : read rules line .fieldHeader = some r) :
    ∃ p : HeaderForm rules.names, p.line = line ∧ r = .fieldHeader p.name := by
  obtain ⟨⟨indent, name, u⟩, hfound, rfl⟩ := Option.map_eq_some_iff.mp h
  obtain ⟨hne, hindent, rest, rfl, hname⟩ := behindIndent_eq_some hfound
  obtain ⟨hmem, rest', rfl, hend⟩ := behindName_eq_some hname
  exact ⟨⟨indent, name, rest', hne, hindent, hmem, headerEnd_eq_some_iff.mp hend⟩,
    by simp [HeaderForm.line], rfl⟩

/-- **Every field header is read.** -/
theorem isSome_read_fieldHeader (p : HeaderForm rules.names) :
    (read rules p.line .fieldHeader).isSome := by
  have hend : (headerEnd p.rest).isSome :=
    Option.isSome_iff_exists.mpr ⟨(), headerEnd_eq_some_iff.mpr p.blank_rest⟩
  have hfound := isSome_behindIndent p.indent_ne_nil p.blank_indent
    (isSome_behindName p.name_mem hend)
  rw [read, Option.isSome_map, HeaderForm.line, List.append_assoc]
  exact hfound

/-- **An array item is read on exactly the lines of its form**, part by part. -/
theorem read_arrayItem_eq_some_iff :
    read rules line .arrayItem = some r ↔
      ∃ p : BareForm rules.minIndent true, p.line = line ∧ r = .arrayItem p.value := by
  rw [read, Option.map_eq_some_iff]
  constructor
  · rintro ⟨v, hv, rfl⟩
    obtain ⟨p, hline, rfl⟩ := bareLiteral_eq_some_iff.mp hv
    exact ⟨p, hline, rfl⟩
  · rintro ⟨p, hline, rfl⟩
    exact ⟨p.value, bareLiteral_eq_some_iff.mpr ⟨p, hline, rfl⟩, rfl⟩

end LineReader

end LocaleWrap
