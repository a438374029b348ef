import LocaleWrap.Proofs.Localization.Wrapping

/-! # Only the given names are fields

A field that is found on a line is one of the names that the readers try. These are the names that
the rules were made with, unless there were none: then a field has the empty name, and a colon alone
makes one.

* **`Rules.KeepsTo`** — rules that find no field but those of some names, on a line or in a
  document.
* `Rules.keepsTo_names` — rules keep to the names that their readers try.
* `Rules.ofFields_keepsTo_iff` — rules keep to the names that they were made with if there is one at
  all; `Rules.ofFields_nil_finds_field` — a line with a field of rules that were made with none. -/

namespace LocaleWrap

namespace Rules

variable {rules : Rules} {before : Option Text} {raw : Text} {e : Edit} {names : List Text}

/-- **Rules that keep to some names**: the name of every field that is found is one of them. In a
document, an inline field is changed only on a line that gives such a field a value, and a deferred
value only directly after the header of such a field. -/
structure KeepsTo (rules : Rules) (names : List Text) : Prop where
  inline : ∀ line field value, rules.classify line = .fieldInline field value → field ∈ names
  header : ∀ line field, rules.classify line = .fieldHeader field → field ∈ names
  changedInline : ∀ lines, ∀ c ∈ (rules.localizeLines lines).changes, c.rule = .fieldInline →
    ∃ i raw, c.line = i + 1 ∧ lines[i]? = some raw ∧ c.before = Lines.body raw ∧
      ∃ p : InlineForm names, p.line = Lines.body raw
  changedDeferred : ∀ lines, ∀ c ∈ (rules.localizeLines lines).changes, c.rule = .fieldHeader →
    ∃ i raw, c.line = i + 2 ∧ lines[i]? = some raw ∧ ∃ p : HeaderForm names, p.line = Lines.body raw

/-! ## What an edit tells about its line -/

/-- **An inline field is changed** on a line of its form. -/
theorem exists_inlineForm_of_edit (h : rules.edit before raw = some e)
    (hrule : e.rule = .fieldInline) : ∃ p : InlineForm rules.names, p.line = Lines.body raw := by
  obtain ⟨rule, after⟩ := e
  obtain rfl : rule = .fieldInline := hrule
  have hwraps : rules.WrapsBy .fieldInline (Lines.body raw) after := wrapsBy_of_edit h
  -- Of the three ways to wrap a line only one goes by this rule.
  generalize Lines.body raw = line at hwraps ⊢
  cases hwraps with
  | field p => exact ⟨p, rfl⟩

/-- **A deferred value is changed** only after a field header. -/
theorem isHeader_of_edit (h : rules.edit before raw = some e) (hrule : e.rule = .fieldHeader) :
    rules.isHeader before = true := by
  by_contra hbefore
  -- By its own reading a line is changed as an inline field or as an array item.
  rw [edit_eq_of_isHeader_eq_false (Bool.eq_false_iff.mpr hbefore)] at h
  cases hread : rules.classify (Lines.body raw) with
  | fieldInline field value =>
      rw [hread] at h
      obtain rfl := Option.some.inj h
      cases hrule
  | fieldHeader field =>
      rw [hread] at h
      cases h
  | arrayItem value =>
      rw [hread] at h
      obtain rfl := Option.some.inj h
      cases hrule
  | unmatched =>
      rw [hread] at h
      cases h

/-! ## The names that the readers try -/

/-- **Rules keep to the names that their readers try.** -/
theorem keepsTo_names (rules : Rules) : rules.KeepsTo rules.names where
  inline line field value hread := by
    have hfits := rules.fits_classify line
    rw [hread] at hfits
    obtain ⟨p, -, rfl, -⟩ := hfits
    exact p.name_mem
  header line field hread := by
    have hfits := rules.fits_classify line
    rw [hread] at hfits
    obtain ⟨p, -, rfl⟩ := hfits
    exact p.name_mem
  changedInline lines c hc hrule := by
    rw [localizeLines_eq_localizeEach] at hc
    obtain ⟨i, raw, e, hraw, he, rfl⟩ := mem_changes_localizeEach.mp hc
    exact ⟨i, raw, by simp, hraw, rfl, exists_inlineForm_of_edit he hrule⟩
  changedDeferred lines c hc hrule := by
    rw [localizeLines_eq_localizeEach] at hc
    obtain ⟨i, raw, e, hraw, he, rfl⟩ := mem_changes_localizeEach.mp hc
    -- The line before the changed one is there, and it is the header.
    obtain ⟨j, header, rfl, hheader, hrole⟩ :=
      isHeader_lineBefore_iff.mp (isHeader_of_edit he hrule)
    exact ⟨j, header, by simp, hheader, role_classify_eq_iff.mp hrole⟩

/-! ## The names that rules are made with -/

/-- **Without any name a colon makes a field**, whose name is empty. -/
theorem classify_colon (n : Nat) :
    (⟨[], n⟩ : Rules).classify "  : 'x',".toList
      = .fieldInline [] ⟨"  ".toList, "'x'".toList, ",".toList⟩ := by
  cbv

/-- No rules that were made without a name keep to the names that they were made with. -/
theorem not_keepsTo_nil (n : Nat) : ¬ (⟨[], n⟩ : Rules).KeepsTo [] := by
  intro hkeeps
  have hmem : ([] : Text) ∈ ([] : List Text) := hkeeps.inline _ _ _ (classify_colon n)
  cases hmem

/-- **Rules keep to the names that they were made with**, whatever these are, if there is one at
all. Made without any they keep to the empty name, which is none of those. -/
theorem ofFields_keepsTo_iff {fields : List Text} {n : Nat}
    (h : Rules.ofFields fields n = .ok rules) :
    rules.KeepsTo (if fields = [] then [[]] else fields) ∧
      (rules.KeepsTo fields ↔ fields ≠ []) := by
  obtain rfl := Rules.eq_of_ofFields h
  have hnames : (⟨fields, n⟩ : Rules).KeepsTo (if fields = [] then [[]] else fields) :=
    keepsTo_names ⟨fields, n⟩
  refine ⟨hnames, ?_, ?_⟩
  · rintro hkeeps rfl
    exact not_keepsTo_nil n hkeeps
  · intro hfields
    rwa [if_neg hfields] at hnames

/-- Names that begin alike, a name twice, an empty name and one with characters that stand for
something else in a pattern. -/
theorem ofFields_keepsTo_iff_mixed :
    let fields := ["name".toList, "names".toList, "name".toList, [], "a|b.*(".toList]
    Rules.ofFields fields 6 = .ok ⟨fields, 6⟩ ∧ fields ≠ [] ∧
      (⟨fields, 6⟩ : Rules).KeepsTo fields := by
  intro fields
  have hmade : Rules.ofFields fields 6 = .ok ⟨fields, 6⟩ := by cbv
  have hfields : fields ≠ [] := List.cons_ne_nil _ _
  exact ⟨hmade, hfields, (ofFields_keepsTo_iff hmade).2.mpr hfields⟩

/-- **Rules without any name find a field**, on a line that begins with a colon. -/
theorem ofFields_nil_finds_field :
    ∃ rules, Rules.ofFields [] 6 = .ok rules ∧
      rules.classify "  : 'x',".toList
        = .fieldInline [] ⟨"  ".toList, "'x'".toList, ",".toList⟩ ∧ ¬ rules.KeepsTo [] :=
  ⟨⟨[], 6⟩, by cbv, classify_colon 6, not_keepsTo_nil 6⟩

end Rules

end LocaleWrap
