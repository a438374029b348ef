import LocaleWrap.Proofs.Localization.Wrapping

/-! # A second pass changes nothing

* `Rules.edit_eq_none_of_wraps` — a wrapped line has no edit, wherever it stands.
* `Rules.edit_eq_none_of_edit_eq_none` — a line without an edit keeps having none when the line
  before is no header any more.
* `Rules.localizeEach_localizeEach` — the second pass, line by line.
* `Rules.isCut_localizeEach` — the lines that come out of a document are the lines of the document
  that comes out.
* `Rules.localize_idempotent` — the second pass over lines and over documents, and why it has
  nothing to do. -/

namespace LocaleWrap

namespace Rules

variable {rules : Rules} {before before' : Option Text} {raw : Text} {e : Edit}

/-! ## Lines -/

/-- The body of an edited line is what the edit says, and the terminator is what it was. -/
theorem cut_applied_edit (h : rules.edit before raw = some e) :
    Lines.body (Edit.applied raw (some e)) = e.after ∧
      Lines.ending (Edit.applied raw (some e)) = Lines.ending raw :=
  Lines.body_ending_of_cut (wraps_of_edit h).1.cut_append

/-- **A wrapped line has no edit**, after whatever line it stands. -/
theorem edit_eq_none_of_wraps {line after : Text} (h : Wraps line after)
    (hraw : Lines.body raw = after) : rules.edit before raw = none := by
  rw [edit_eq_of_not_deferred (by simp [hraw, h.deferredValue_eq_none rules]), hraw,
    h.classify_eq_unmatched rules]
  rfl

/-- **A line that has no edit** has none after a line that is no header either. -/
theorem edit_eq_none_of_edit_eq_none (h : rules.edit before raw = none)
    (hbefore : before' = before ∨ rules.isHeader before' = false) :
    rules.edit before' raw = none := by
  rcases hbefore with rfl | hbefore
  · exact h
  · rw [edit_eq_of_isHeader_eq_false hbefore]
    -- Had it been a deferred value, it would have had an edit.
    by_cases hdeferred : rules.isHeader before = true ∧
        (rules.deferredValue (Lines.body raw)).isSome
    · obtain ⟨value, hvalue⟩ := Option.isSome_iff_exists.mp hdeferred.2
      rw [edit_of_deferredValue hdeferred.1 hvalue] at h
      cases h
    · rwa [edit_eq_of_not_deferred hdeferred] at h

/-- **The second pass has nothing to do**, line by line: the lines that were edited are left alone,
and of the others none has come to stand after a header. -/
theorem localizeEach_localizeEach (rules : Rules) (before before' : Option Text) (index : Nat)
    (lines : List Text) (h : before' = before ∨ rules.isHeader before' = false) :
    rules.localizeEach before' index (rules.localizeEach before index lines).lines =
      ⟨(rules.localizeEach before index lines).lines, []⟩ := by
  -- In the second pass the line before is the same as in the first, or a wrapped line.
  induction lines generalizing before before' index with
  | nil => rfl
  | cons raw rest ih =>
      rw [localizeEach, Localized.put]
      cases he : rules.edit before raw with
      | none =>
          have hnone := edit_eq_none_of_edit_eq_none he h
          rw [Edit.applied_none, localizeEach, hnone, ih (some raw) (some raw) _ (Or.inl rfl)]
          rfl
      | some e =>
          obtain ⟨hbody, -⟩ := cut_applied_edit he
          have hwraps := (wraps_of_edit he).1
          have hheader : rules.isHeader (some (Edit.applied raw (some e))) = false := by
            rw [isHeader_some, hbody, hwraps.classify_eq_unmatched rules]
            rfl
          rw [localizeEach, edit_eq_none_of_wraps hwraps hbody, ih _ _ _ (Or.inr hheader)]
          rfl

/-! ## Documents -/

/-- A line of a cut document stays one when it is edited. -/
theorem newline_not_mem_applied_edit (rules : Rules) (before : Option Text) (hraw : raw ≠ [])
    (hb : '\n' ∉ Lines.body raw) :
    Edit.applied raw (rules.edit before raw) ≠ [] ∧
      '\n' ∉ Lines.body (Edit.applied raw (rules.edit before raw)) ∧
      Lines.ending (Edit.applied raw (rules.edit before raw)) = Lines.ending raw := by
  cases he : rules.edit before raw with
  | none => exact ⟨hraw, hb, rfl⟩
  | some e =>
      obtain ⟨hbody, hending⟩ := cut_applied_edit he
      have hwraps := (wraps_of_edit he).1
      refine ⟨?_, ?_, hending⟩
      · obtain ⟨-, x, t, hafter, -⟩ := hwraps.hasMark
        rw [Edit.applied_some, hafter]
        simp
      · rw [hbody]
        exact hwraps.newline_not_mem hb

/-- **What comes out of the lines of a cut document** are the lines of a cut document. -/
theorem isCut_localizeEach (rules : Rules) (before : Option Text) (index : Nat)
    {lines : List Text} (h : Lines.IsCut lines) :
    Lines.IsCut (rules.localizeEach before index lines).lines := by
  induction h generalizing before index with
  | nil => exact .nil
  | last hne hb =>
      obtain ⟨hne', hb', -⟩ := newline_not_mem_applied_edit rules before hne hb
      exact .last hne' hb'
  | @cons raw rest hb he _ ih =>
      have hne : raw ≠ [] := by
        rintro rfl
        exact he rfl
      obtain ⟨-, hb', he'⟩ := newline_not_mem_applied_edit rules before hne hb
      exact .cons hb' (he' ▸ he) (ih (some raw) (index + 1))

/-- **The text that comes out is cut into the lines that come out.** -/
theorem split_text_localize (rules : Rules) (text : Text) :
    Lines.split (rules.localize text).text = (rules.localize text).lines := by
  have hcut := isCut_localizeEach rules none 0 (Lines.isCut_split text)
  rw [← localizeLines_eq_localizeEach] at hcut
  exact Lines.split_flatten hcut

/-- Localizing the text that comes out is localizing the lines that come out. -/
theorem localize_text_localize (rules : Rules) (text : Text) :
    rules.localize (rules.localize text).text =
      rules.localizeLines (rules.localizeLines (Lines.split text)).lines := by
  rw [localize, split_text_localize, localize]

/-- A second run over the lines leaves them and reports nothing. -/
theorem localizeLines_localizeLines (rules : Rules) (lines : List Text) :
    rules.localizeLines (rules.localizeLines lines).lines =
      ⟨(rules.localizeLines lines).lines, []⟩ := by
  rw [localizeLines_eq_localizeEach rules lines, localizeLines_eq_localizeEach]
  exact localizeEach_localizeEach rules none none 0 lines (Or.inl rfl)

/-- **Localizing is idempotent**, over lines and over documents. What is behind it: the new text of
a change is matched by no rules at all and is no deferred value, and the line that comes out is cut
into that text and the terminator again. -/
theorem localize_idempotent (rules : Rules) :
    (∀ lines,
      (rules.localizeLines (rules.localizeLines lines).lines).changes = [] ∧
      (rules.localizeLines (rules.localizeLines lines).lines).lines =
        (rules.localizeLines lines).lines) ∧
    (∀ text,
      (rules.localize (rules.localize text).text).changes = [] ∧
      (rules.localize (rules.localize text).text).text = (rules.localize text).text) ∧
    ∀ lines, ∀ c ∈ (rules.localizeLines lines).changes,
      (∀ other : Rules, other.classify c.after = .unmatched ∧
        other.deferredValue c.after = none) ∧
      ∃ raw, lines[c.line - 1]? = some raw ∧
        (rules.localizeLines lines).lines[c.line - 1]? = some (c.after ++ Lines.ending raw) ∧
        Lines.cut (c.after ++ Lines.ending raw) = (c.after, Lines.ending raw) := by
  refine ⟨?_, ?_, ?_⟩
  · intro lines
    rw [localizeLines_localizeLines]
    exact ⟨rfl, rfl⟩
  · intro text
    rw [localize_text_localize, localizeLines_localizeLines]
    exact ⟨rfl, rfl⟩
  · intro lines c hc
    obtain ⟨raw, hraw, hout, -, hwraps, -⟩ := wraps_of_mem_changes hc
    exact ⟨fun other => ⟨hwraps.classify_eq_unmatched other, hwraps.deferredValue_eq_none other⟩,
      raw, hraw, hout, hwraps.cut_append⟩

/-- A deferred value whose literal looks like a wrapper, with a carriage return in its tail: its
line is wrapped once, and then matches no rules. -/
theorem localize_idempotent_wrapper_in_literal :
    ⟨2, .fieldHeader, ("\t'" ++ braced " en: \"x\" " ++ "',\r").toList,
      ("\t" ++ braced (" en: '" ++ braced " en: \"x\" " ++ "' ") ++ ",\r").toList⟩ ∈
        (standard.localizeLines
          ["  setup: ".toList, ("\t'" ++ braced " en: \"x\" " ++ "',\r").toList]).changes ∧
    ∀ other : Rules,
      other.classify
        ("\t" ++ braced (" en: '" ++ braced " en: \"x\" " ++ "' ") ++ ",\r").toList =
          .unmatched := by
  have hchanges : (standard.localizeLines
      ["  setup: ".toList, ("\t'" ++ braced " en: \"x\" " ++ "',\r").toList]).changes =
        [⟨2, .fieldHeader, ("\t'" ++ braced " en: \"x\" " ++ "',\r").toList,
          ("\t" ++ braced (" en: '" ++ braced " en: \"x\" " ++ "' ") ++ ",\r").toList⟩] := by
    cbv
  have hmem := List.mem_singleton_self (⟨2, .fieldHeader,
    ("\t'" ++ braced " en: \"x\" " ++ "',\r").toList,
    ("\t" ++ braced (" en: '" ++ braced " en: \"x\" " ++ "' ") ++ ",\r").toList⟩ : Change)
  rw [← hchanges] at hmem
  obtain ⟨-, -, hafter⟩ := localize_idempotent standard
  exact ⟨hmem, fun other => ((hafter _ _ hmem).1 other).1⟩

end Rules

end LocaleWrap
