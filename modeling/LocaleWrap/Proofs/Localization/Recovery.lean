import LocaleWrap.Proofs.Localization.Idempotence

/-! # Undoing the wrapping

A wrapped line tells what the line was before, except for how wide the gap behind the colon of an
inline field has been. For this the wrapper has to be found again, though the literal in it and the
name of the field may look like wrappers themselves.

* `localizedValue_unique` — a line has one localized value only that a tail follows.
* **`unwrap`** — a line without the wrapper of its literal; `unwrap_append` finds the wrapper.
* `Rules.WrapsBy.same_or_sameButGap` — two lines that are wrapped to the same text.
* **`Ledger.restore`** — a document without the wrappers on the given lines, and
  **`Rules.evenGap`** — a line with one space for its gap: by `Rules.restore_localize` this is what
  restoring a localized document gives.
* `Rules.wrapping_keeps_all_but_gaps` — all of this for the changes of any two passes. -/

namespace LocaleWrap

open Literal Text

/-! ## Finding the wrapper -/

/-- The wrapper written out around a literal. -/
theorem localizedValue_eq (l : Text) :
    localizedValue l = ['{', ' ', 'e', 'n', ':', ' '] ++ l ++ [' ', '}'] := rfl

/-- **A line has one localized value only** that a tail follows: its wrapper ends at the mark of the
line, and the literal in it stands behind a blank. -/
theorem localizedValue_unique {a b l m t s : Text} {r r' : Bool} (hl : IsLiteral l)
    (hm : IsLiteral m) (ht : ValueTail r t) (hs : ValueTail r' s)
    (h : a ++ localizedValue l ++ t = b ++ localizedValue m ++ s) : a = b ∧ l = m ∧ t = s := by
  have hends : (a ++ ['{', ' ', 'e', 'n', ':', ' '] ++ l ++ [' ']) ++ '}' :: t =
      (b ++ ['{', ' ', 'e', 'n', ':', ' '] ++ m ++ [' ']) ++ '}' :: s := by
    simpa [localizedValue_eq] using h
  have hbrace : ¬ IsMargin '}' := by decide
  obtain ⟨hfront, -, htail⟩ :=
    append_cons_inj_of_margin hbrace hbrace ht.isMargin hs.isMargin hends
  have hblank : ∀ x : Text,
      ∀ c ∈ (x ++ ['{', ' ', 'e', 'n', ':', ' ']).getLast?, isBlank c = true := by
    intro x c hc
    obtain rfl : ' ' = c := by simpa using hc
    decide
  obtain ⟨hopening, hliteral⟩ :=
    hl.append_inj hm (hblank a) (hblank b) (List.append_cancel_right hfront)
  exact ⟨List.append_cancel_right hopening, hliteral, htail⟩

/-- **A localized value at the front of a text**: the literal in it and the tail behind it. -/
def localizedValue? (t : Text) : Option (Text × Text) :=
  (['{', ' ', 'e', 'n', ':', ' '].isPrefixOf? t).bind fun rest => (Literal.read rest).bind fun p =>
    ([' ', '}'].isPrefixOf? p.2).bind fun s => if isTail false s then some (p.1, s) else none

/-- A text is read as a wrapped literal exactly when it is one, with a tail behind it. -/
theorem localizedValue?_eq_some_iff {t l s : Text} :
    localizedValue? t = some (l, s) ↔
      IsLiteral l ∧ ValueTail false s ∧ t = localizedValue l ++ s := by
  rw [localizedValue?, Option.bind_eq_some_iff]
  constructor
  · rintro ⟨rest, hopening, h⟩
    obtain ⟨⟨l', closing⟩, hread, h⟩ := Option.bind_eq_some_iff.mp h
    obtain ⟨s', hclosing, h⟩ := Option.bind_eq_some_iff.mp h
    obtain ⟨htail, rfl, rfl⟩ : isTail false s' = true ∧ l' = l ∧ s' = s := by simpa using h
    obtain ⟨hl, rfl⟩ := read_eq_some_iff.mp hread
    have hclosing : [' ', '}'] ++ s' = closing :=
      List.isPrefixOf?_eq_some_iff_append_eq.mp hclosing
    refine ⟨hl, isTail_iff.mp htail, ?_⟩
    rw [← List.isPrefixOf?_eq_some_iff_append_eq.mp hopening, ← hclosing, localizedValue_eq]
    simp only [List.append_assoc]
  · rintro ⟨hl, hs, rfl⟩
    refine ⟨l ++ ([' ', '}'] ++ s), ?_, ?_⟩
    · rw [List.isPrefixOf?_eq_some_iff_append_eq, localizedValue_eq]
      simp only [List.append_assoc]
    · have hclosing : [' ', '}'].isPrefixOf? ([' ', '}'] ++ s) = some s :=
        List.isPrefixOf?_eq_some_iff_append_eq.mpr rfl
      rw [read_eq_some_iff.mpr ⟨hl, rfl⟩, Option.bind_some, hclosing, Option.bind_some,
        if_pos (isTail_iff.mpr hs)]

/-- **A line without the wrapper of its literal**: the first localized value that a tail follows
becomes the literal in it. -/
def unwrap (t : Text) : Text :=
  match localizedValue? t with
  | some (l, s) => l ++ s
  | none => match t with
    | [] => []
    | c :: cs => c :: unwrap cs

/-- Unwrapping leaves the literal of a wrapped value, and the tail. -/
theorem unwrap_of_localizedValue? {t l s : Text} (h : localizedValue? t = some (l, s)) :
    unwrap t = l ++ s := by
  rw [unwrap.eq_def, h]

/-- Where no wrapped value begins, unwrapping goes on behind the character. -/
theorem unwrap_cons {c : Char} {cs : Text} (h : localizedValue? (c :: cs) = none) :
    unwrap (c :: cs) = c :: unwrap cs := by
  rw [unwrap.eq_def, h]

/-- **The wrapper is found**, whatever stands in front of it. -/
theorem unwrap_append {l s : Text} (hl : IsLiteral l) (hs : ValueTail false s) (front : Text) :
    unwrap (front ++ localizedValue l ++ s) = front ++ l ++ s := by
  induction front with
  | nil => exact unwrap_of_localizedValue? (localizedValue?_eq_some_iff.mpr ⟨hl, hs, rfl⟩)
  | cons c front ih =>
      have hnone : localizedValue? (c :: (front ++ localizedValue l ++ s)) = none := by
        rw [Option.eq_none_iff_forall_ne_some]
        rintro ⟨m, r⟩ hvalue
        obtain ⟨hm, hr, heq⟩ := localizedValue?_eq_some_iff.mp hvalue
        -- The wrapper at the front would be the one further on.
        have hfront := (localizedValue_unique (a := c :: front) (b := []) hl hm hs hr heq).1
        exact List.cons_ne_nil c front hfront
      rw [List.cons_append, List.cons_append, unwrap_cons hnone, ih]
      rfl

/-! ## Lines -/

namespace InlineForm

variable {names names' : List Text}

/-- **The same field with one space for its gap.** -/
def evenGap (p : InlineForm names) : InlineForm names :=
  { p with gap := [' '], gap_ne_nil := by decide, blank_gap := blank_cons.mpr ⟨rfl, blank_nil⟩ }

/-- **Two inline fields that differ in their gaps at most.** Where the indent ends and the name
begins makes no difference. -/
structure SameButGap (p : InlineForm names) (q : InlineForm names') : Prop where
  indent_append_name : p.indent ++ p.name = q.indent ++ q.name
  literal : p.literal = q.literal
  tail : p.tail = q.tail

/-- What stands in front of the wrapper of an inline field. -/
def evenFront (p : InlineForm names) : Text := p.indent ++ p.name ++ ": ".toList

/-- A localized inline field is its even front, the wrapped literal and the tail. -/
theorem localizedField_value (p : InlineForm names) :
    p.value.localizedField p.name = p.evenFront ++ localizedValue p.literal ++ p.tail := rfl

/-- With an even gap the line of an inline field is its even front, the literal and the tail. -/
theorem line_evenGap (p : InlineForm names) :
    p.evenGap.line = p.evenFront ++ p.literal ++ p.tail := by
  simp [line, evenGap, evenFront]

/-- The wrapper of an inline field does not stand behind blanks only. -/
theorem not_blank_evenFront (p : InlineForm names) : ¬ Blank p.evenFront := by
  intro h
  exact absurd (h ':' (by simp [evenFront])) (by decide)

end InlineForm

namespace Rules

variable {rules r₁ r₂ : Rules} {rule rule₁ rule₂ : LineRole} {line line₁ line₂ after : Text}

/-- **A rule wraps an inline field or a bare literal.** -/
theorem WrapsBy.field_or_bare (h : rules.WrapsBy rule line after) :
    (rule = .fieldInline ∧ ∃ p : InlineForm rules.names, p.line = line ∧
      after = p.evenFront ++ localizedValue p.literal ++ p.tail) ∨
    (rule ≠ .fieldInline ∧ ∃ p : BareForm 0 false, p.line = line ∧
      after = p.indent ++ localizedValue p.literal ++ p.tail) := by
  have hbare : ∀ {least : Nat} {comma : Bool} (p : BareForm least comma), ∃ q : BareForm 0 false,
      q.line = p.line ∧ p.value.localized = q.indent ++ localizedValue q.literal ++ q.tail :=
    fun p => ⟨{ p with least_le := Nat.zero_le _, valueTail := p.valueTail.optional }, rfl, rfl⟩
  cases h with
  | field p => exact Or.inl ⟨rfl, p, rfl, p.localizedField_value⟩
  | deferred p => exact Or.inr ⟨by decide, hbare p⟩
  | item p => exact Or.inr ⟨by decide, hbare p⟩

/-- Each change of the ledger wraps the literal of its line, by its rule. -/
theorem wrapsBy_of_mem_changes {lines : List Text} {c : Change}
    (h : c ∈ (rules.localizeLines lines).changes) : rules.WrapsBy c.rule c.before c.after := by
  rw [localizeLines_eq_localizeEach] at h
  obtain ⟨i, raw, e, -, he, rfl⟩ := mem_changes_localizeEach.mp h
  exact wrapsBy_of_edit he

/-- **Two lines that are wrapped to the same text** are the same, or inline fields that differ in
their gaps at most. -/
theorem WrapsBy.same_or_sameButGap (h₁ : r₁.WrapsBy rule₁ line₁ after)
    (h₂ : r₂.WrapsBy rule₂ line₂ after) :
    (rule₁ ≠ .fieldInline ∧ rule₂ ≠ .fieldInline ∧ line₁ = line₂) ∨
      (rule₁ = .fieldInline ∧ rule₂ = .fieldInline ∧
        ∃ (p : InlineForm r₁.names) (q : InlineForm r₂.names),
          p.line = line₁ ∧ q.line = line₂ ∧ p.SameButGap q) := by
  rcases h₁.field_or_bare with ⟨hrule₁, p, hp, rfl⟩ | ⟨hrule₁, p, hp, rfl⟩
  · rcases h₂.field_or_bare with ⟨hrule₂, q, hq, heq⟩ | ⟨-, q, -, heq⟩
    · obtain ⟨hfront, hliteral, htail⟩ :=
        localizedValue_unique p.isLiteral q.isLiteral p.valueTail q.valueTail heq
      exact Or.inr ⟨hrule₁, hrule₂, p, q, hp, hq, List.append_cancel_right hfront, hliteral, htail⟩
    · obtain ⟨hfront, -, -⟩ :=
        localizedValue_unique p.isLiteral q.isLiteral p.valueTail q.valueTail heq
      exact absurd (hfront ▸ q.blank_indent) p.not_blank_evenFront
  · rcases h₂.field_or_bare with ⟨-, q, -, heq⟩ | ⟨hrule₂, q, hq, heq⟩
    · obtain ⟨hfront, -, -⟩ :=
        localizedValue_unique p.isLiteral q.isLiteral p.valueTail q.valueTail heq
      exact absurd (hfront ▸ p.blank_indent) q.not_blank_evenFront
    · obtain ⟨hfront, hliteral, htail⟩ :=
        localizedValue_unique p.isLiteral q.isLiteral p.valueTail q.valueTail heq
      refine Or.inl ⟨hrule₁, hrule₂, ?_⟩
      rw [← hp, ← hq, BareForm.line, BareForm.line, hfront, hliteral, htail]

/-! ## Documents -/

/-- **A raw line with one space for the gap of its inline field**, if it is one. -/
def evenGap (rules : Rules) (raw : Text) : Text :=
  match rules.classify (Lines.body raw) with
  | .fieldInline field value =>
    value.indent ++ field ++ ": ".toList ++ value.literal ++ value.tail ++ Lines.ending raw
  | _ => raw

variable {before : Option Text} {raw : Text} {e : Edit}

/-- Evening the gaps changes inline fields only, and these in the gap only. -/
theorem evenGap_of_inlineForm {p : InlineForm rules.names} (h : p.line = Lines.body raw) :
    rules.evenGap raw = p.evenGap.line ++ Lines.ending raw := by
  have hfits := rules.fits_classify (Lines.body raw)
  have hrole := role_classify_eq_iff.mpr (show rules.HasForm _ .fieldInline from ⟨p, h⟩)
  rw [evenGap]
  cases hread : rules.classify (Lines.body raw) with
  | fieldInline field value =>
      rw [hread] at hfits
      obtain ⟨q, hq, rfl, rfl⟩ := hfits
      obtain ⟨hname, -, hliteral, htail⟩ := p.parts_unique q (h.trans hq.symm)
      rw [p.line_evenGap, InlineForm.evenFront, hname, hliteral, htail]
      rfl
  | fieldHeader field =>
      rw [hread] at hrole
      cases hrole
  | arrayItem value =>
      rw [hread] at hrole
      cases hrole
  | unmatched =>
      rw [hread] at hrole
      cases hrole

/-- A raw line that is no inline field is left as it is. -/
theorem evenGap_of_not_inlineForm (h : ∀ p : InlineForm rules.names, p.line ≠ Lines.body raw) :
    rules.evenGap raw = raw := by
  have hfits := rules.fits_classify (Lines.body raw)
  rw [evenGap]
  cases hread : rules.classify (Lines.body raw) with
  | fieldInline field value =>
      rw [hread] at hfits
      obtain ⟨p, hp, -⟩ := hfits
      exact absurd hp (h p)
  | fieldHeader field => rfl
  | arrayItem value => rfl
  | unmatched => rfl

/-- **An edited line, unwrapped**, is the line with its gap evened. -/
theorem unwrap_after_edit (h : rules.edit before raw = some e) :
    unwrap e.after ++ Lines.ending raw = rules.evenGap raw := by
  rcases (wrapsBy_of_edit h).field_or_bare with ⟨-, p, hp, hafter⟩ | ⟨-, p, hp, hafter⟩
  · rw [hafter, unwrap_append p.isLiteral p.valueTail, evenGap_of_inlineForm hp, p.line_evenGap]
  · have hnot : ∀ q : InlineForm rules.names, q.line ≠ Lines.body raw := by
      intro q hq
      exact q.line_ne_bareForm p (hq.trans hp.symm)
    rw [hafter, unwrap_append p.isLiteral p.valueTail, evenGap_of_not_inlineForm hnot,
      ← BareForm.line, hp, Lines.body_append_ending]

/-- A line without an edit has no gap to be evened. -/
theorem evenGap_of_edit_eq_none (h : rules.edit before raw = none) : rules.evenGap raw = raw := by
  refine evenGap_of_not_inlineForm fun p hp => ?_
  have hrole : (rules.classify (Lines.body raw)).role = .fieldInline :=
    role_classify_eq_iff.mpr ⟨p, hp⟩
  have hsome : (rules.edit before raw).isSome := isSome_edit_iff.mpr (Or.inl hrole)
  simp [h] at hsome

end Rules

/-- **A document without the wrappers on the lines with the given numbers.** -/
def Ledger.restore (changed : List Nat) (text : Text) : Text :=
  ((Lines.split text).mapIdx fun i raw =>
    if i + 1 ∈ changed then unwrap (Lines.body raw) ++ Lines.ending raw else raw).flatten

namespace Rules

/-- **The document is found again** from the localized one and the numbers of the changed lines, but
for the width of the gaps. -/
theorem restore_localize (rules : Rules) (text : Text) :
    Ledger.restore ((rules.localize text).changes.map Change.line) (rules.localize text).text =
      ((Lines.split text).map rules.evenGap).flatten := by
  rw [Ledger.restore, split_text_localize]
  congr 1
  apply List.ext_getElem?
  intro i
  have hout := getElem?_lines_localizeEach rules none 0 (Lines.split text) i
  rw [← localizeLines_eq_localizeEach] at hout
  rw [List.getElem?_mapIdx, List.getElem?_map, localize, hout, Option.map_map]
  cases hraw : (Lines.split text)[i]? with
  | none => rfl
  | some raw =>
      have hmem : i + 1 ∈ (rules.localizeLines (Lines.split text)).changes.map Change.line ↔
          ∃ e, rules.edit (lineBefore none (Lines.split text) i) raw = some e := by
        rw [succ_mem_map_line_iff]
        simp [hraw]
      rw [Option.map_some, Option.map_some, Function.comp_apply]
      cases he : rules.edit (lineBefore none (Lines.split text) i) raw with
      | none =>
          rw [if_neg (by simp [hmem, he]), Edit.applied_none, evenGap_of_edit_eq_none he]
      | some e =>
          obtain ⟨hbody, hending⟩ := cut_applied_edit he
          rw [if_pos (hmem.mpr ⟨e, he⟩), hbody, hending, unwrap_after_edit he]

/-- **Wrapping loses nothing but the width of gaps.** Two changes, by whatever rules and in whatever
documents, that come to the same text are of the same line, or both of inline fields, and then the
two lines have the same name behind the same indent, the same literal and the same tail. In each
change the literal and what stands around it are kept as they were. So the numbers of the changed
lines are enough to find the document again from the localized one, with one space for each gap. -/
theorem wrapping_keeps_all_but_gaps (rules other : Rules) (lines otherLines : List Text) :
    (∀ c ∈ (rules.localizeLines lines).changes, ∀ d ∈ (other.localizeLines otherLines).changes,
      c.after = d.after →
        (c.rule ≠ .fieldInline ∧ d.rule ≠ .fieldInline ∧ c.before = d.before) ∨
        (c.rule = .fieldInline ∧ d.rule = .fieldInline ∧
          ∃ (p : InlineForm rules.names) (q : InlineForm other.names),
            p.line = c.before ∧ q.line = d.before ∧ p.SameButGap q)) ∧
    (∀ c ∈ (rules.localizeLines lines).changes,
      (c.rule = .fieldInline ∧ ∃ p : InlineForm rules.names, p.line = c.before ∧
        c.after = p.evenFront ++ localizedValue p.literal ++ p.tail) ∨
      (c.rule ≠ .fieldInline ∧ ∃ p : BareForm 0 false, p.line = c.before ∧
        c.after = p.indent ++ localizedValue p.literal ++ p.tail)) ∧
    ∀ text,
      Ledger.restore ((rules.localize text).changes.map Change.line) (rules.localize text).text =
        ((Lines.split text).map rules.evenGap).flatten ∧
      ∀ raw, rules.evenGap raw = raw ∨ ∃ p : InlineForm rules.names, p.line = Lines.body raw ∧
        rules.evenGap raw = p.evenGap.line ++ Lines.ending raw := by
  refine ⟨?_, fun c hc => (wrapsBy_of_mem_changes hc).field_or_bare, fun text => ?_⟩
  · intro c hc d hd hafter
    exact (wrapsBy_of_mem_changes hc).same_or_sameButGap (hafter ▸ wrapsBy_of_mem_changes hd)
  · refine ⟨restore_localize rules text, fun raw => ?_⟩
    by_cases h : ∃ p : InlineForm rules.names, p.line = Lines.body raw
    · obtain ⟨p, hp⟩ := h
      exact Or.inr ⟨p, hp, evenGap_of_inlineForm hp⟩
    · exact Or.inl (evenGap_of_not_inlineForm fun p hp => h ⟨p, hp⟩)

/-- A literal that looks like a wrapper. -/
def wrapperLiteral : String := "'" ++ braced " en: \"b\" " ++ "'"

/-- A field whose literal looks like a wrapper, with two gaps: to the second rules the last blank of
the indent belongs to the name. -/
theorem wrapping_keeps_all_but_gaps_blank_in_name :
    ⟨1, .fieldInline, ("  name:\t" ++ wrapperLiteral ++ "\r").toList,
      ("  name: " ++ braced (" en: " ++ wrapperLiteral ++ " ") ++ "\r").toList⟩ ∈
        (standard.localizeLines [("  name:\t" ++ wrapperLiteral ++ "\r").toList]).changes ∧
    ⟨1, .fieldInline, ("  name:   " ++ wrapperLiteral ++ "\r").toList,
      ("  name: " ++ braced (" en: " ++ wrapperLiteral ++ " ") ++ "\r").toList⟩ ∈
        ((⟨["me".toList, " name".toList], 0⟩ : Rules).localizeLines
          [("  name:   " ++ wrapperLiteral ++ "\r").toList]).changes ∧
    ∃ (p : InlineForm standard.names) (q : InlineForm ["me".toList, " name".toList]),
      p.line = ("  name:\t" ++ wrapperLiteral ++ "\r").toList ∧
      q.line = ("  name:   " ++ wrapperLiteral ++ "\r").toList ∧ p.SameButGap q := by
  have hc : (standard.localizeLines [("  name:\t" ++ wrapperLiteral ++ "\r").toList]).changes =
      [⟨1, .fieldInline, ("  name:\t" ++ wrapperLiteral ++ "\r").toList,
        ("  name: " ++ braced (" en: " ++ wrapperLiteral ++ " ") ++ "\r").toList⟩] := by cbv
  have hd : ((⟨["me".toList, " name".toList], 0⟩ : Rules).localizeLines
      [("  name:   " ++ wrapperLiteral ++ "\r").toList]).changes =
      [⟨1, .fieldInline, ("  name:   " ++ wrapperLiteral ++ "\r").toList,
        ("  name: " ++ braced (" en: " ++ wrapperLiteral ++ " ") ++ "\r").toList⟩] := by cbv
  have hcmem := List.mem_singleton_self (⟨1, .fieldInline,
    ("  name:\t" ++ wrapperLiteral ++ "\r").toList,
    ("  name: " ++ braced (" en: " ++ wrapperLiteral ++ " ") ++ "\r").toList⟩ : Change)
  have hdmem := List.mem_singleton_self (⟨1, .fieldInline,
    ("  name:   " ++ wrapperLiteral ++ "\r").toList,
    ("  name: " ++ braced (" en: " ++ wrapperLiteral ++ " ") ++ "\r").toList⟩ : Change)
  rw [← hc] at hcmem
  rw [← hd] at hdmem
  refine ⟨hcmem, hdmem, ?_⟩
  rcases (wrapping_keeps_all_but_gaps standard ⟨["me".toList, " name".toList], 0⟩ _ _).1 _ hcmem _
    hdmem rfl with ⟨hrule, -⟩ | ⟨-, -, hforms⟩
  · exact absurd rfl hrule
  · exact hforms

end Rules

end LocaleWrap
