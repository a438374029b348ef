import LocaleWrap.Proofs.Localization.Wrapping

/-! # The ledger is exact

The ledger of a pass lists the changed lines, all of them and no others, in the order of the
document.

* `Counts.total_ofChanges` — every entry is counted.
* `Rules.pairwise_changes_localizeEach` — line numbers increase.
* `Rules.diverge_applied_edit` — an edited line differs from the line that went in, so that
  `Rules.mem_map_line_iff` the ledger tells which lines differ.
* `Rules.changes_eq_nil_iff` — the text that comes out is the text that went in just when the
  ledger is empty, and so `Rules.changed_localize_iff` for a document.
* `Rules.localizeLines_ledger_exact` — all of this for the pass over a document. -/

namespace LocaleWrap

/-- **Every entry is counted** where no rule is "unmatched". -/
theorem Counts.total_ofChanges {cs : List Change} (h : ∀ c ∈ cs, c.rule ≠ .unmatched) :
    (Counts.ofChanges cs).total = cs.length := by
  induction cs with
  | nil => rfl
  | cons c cs ih =>
      have hone : (Counts.ofRule c.rule).total = 1 := by
        have hc : c.rule ≠ .unmatched := h c (by simp)
        cases hrule : c.rule with
        | unmatched => exact absurd hrule hc
        | _ => rfl
      rw [Counts.ofChanges_cons, Counts.total_add, hone, ih fun d hd => h d (by simp [hd]),
        List.length_cons, Nat.add_comm]

namespace Rules

variable {rules : Rules} {before : Option Text}

/-- **The line numbers in the ledger increase.** -/
theorem pairwise_changes_localizeEach (rules : Rules) (before : Option Text) (index : Nat)
    (lines : List Text) :
    ((rules.localizeEach before index lines).changes.map Change.line).Pairwise (· < ·) := by
  induction lines generalizing before index with
  | nil => exact List.Pairwise.nil
  | cons raw rest ih =>
      rw [localizeEach, Localized.put, List.map_append, List.pairwise_append]
      refine ⟨?_, ih (some raw) (index + 1), ?_⟩
      · -- There is one entry for the first line at most.
        cases rules.edit before raw <;> simp
      · intro m hm n hn
        obtain ⟨c, hc, rfl⟩ := List.mem_map.mp hn
        have hlater := (line_mem_changes_localizeEach hc).1
        cases he : rules.edit before raw with
        | none => simp [he] at hm
        | some e =>
            obtain rfl : m = index + 1 := by simpa [he] using hm
            exact hlater

/-- **An edited line differs from the line that went in**, and so do any texts that begin with
the two. -/
theorem diverge_applied_edit {raw : Text} {e : Edit} (h : rules.edit before raw = some e) :
    Text.Diverge raw (Edit.applied raw (some e)) := by
  have hdiverge := (wraps_of_edit h).1.diverge.append_right (Lines.ending raw) (Lines.ending raw)
  rwa [Lines.body_append_ending] at hdiverge

/-- **A line is in the ledger just when it has changed.** -/
theorem mem_map_line_iff (rules : Rules) (lines : List Text) (i : Nat) :
    i + 1 ∈ (rules.localizeLines lines).changes.map Change.line ↔
      (rules.localizeLines lines).lines[i]? ≠ lines[i]? := by
  rw [succ_mem_map_line_iff, localizeLines_eq_localizeEach, getElem?_lines_localizeEach]
  constructor
  · rintro ⟨raw, e, hraw, he⟩
    rw [hraw, Option.map_some, he, ne_eq, Option.some.injEq]
    exact fun heq => (diverge_applied_edit he).ne heq.symm
  · intro hne
    cases hraw : lines[i]? with
    | none => simp [hraw] at hne
    | some raw =>
        cases he : rules.edit (lineBefore none lines i) raw with
        | none => simp [hraw, he] at hne
        | some e => exact ⟨raw, e, rfl, he⟩

/-- **The text stays the same just when the ledger is empty**: a line that is wrapped differs from
the text that was there before anything that follows it can make up for it. -/
theorem changes_eq_nil_iff (rules : Rules) (before : Option Text) (index : Nat)
    (lines : List Text) :
    (rules.localizeEach before index lines).changes = [] ↔
      (rules.localizeEach before index lines).lines.flatten = lines.flatten := by
  induction lines generalizing before index with
  | nil => simp [localizeEach, Localized.empty]
  | cons raw rest ih =>
      rw [localizeEach, Localized.put, List.flatten_cons, List.flatten_cons,
        List.append_eq_nil_iff, ih (some raw) (index + 1)]
      cases he : rules.edit before raw with
      | none => simp
      | some e =>
          have hne := ((diverge_applied_edit he).append_right rest.flatten
            (rules.localizeEach (some raw) (index + 1) rest).lines.flatten).ne
          constructor
          · rintro ⟨hentry, -⟩
            simp at hentry
          · intro htext
            exact absurd htext.symm hne

/-- **A document has changes just when its text changes.** -/
theorem changed_localize_iff (rules : Rules) (s : Text) :
    (rules.localize s).changed = true ↔ (rules.localize s).text ≠ s := by
  have hnil := rules.changes_eq_nil_iff none 0 (Lines.split s)
  rw [← localizeLines_eq_localizeEach, Lines.flatten_split] at hnil
  rw [Localized.changed, Localized.text, localize, ne_eq, ← hnil]
  simp

/-- **The ledger of a pass is exact.** It goes with the lines that come out: the numbers of its
entries increase, a line is in it just when it has changed, each entry has the two texts of its line
without the terminator, and every entry is counted. So there is a change just when the text that
comes out differs from the text that went in. -/
theorem localizeLines_ledger_exact (rules : Rules) (lines : List Text) :
    (rules.localizeLines lines).lines.length = lines.length ∧
    ((rules.localizeLines lines).changes.map Change.line).Pairwise (· < ·) ∧
    (∀ c ∈ (rules.localizeLines lines).changes, 1 ≤ c.line ∧ c.line ≤ lines.length) ∧
    (∀ i, i + 1 ∈ (rules.localizeLines lines).changes.map Change.line ↔
      (rules.localizeLines lines).lines[i]? ≠ lines[i]?) ∧
    (∀ c ∈ (rules.localizeLines lines).changes,
      ∃ eol ∈ [[], ['\n'], ['\r', '\n']], lines[c.line - 1]? = some (c.before ++ eol) ∧
        (rules.localizeLines lines).lines[c.line - 1]? = some (c.after ++ eol)) ∧
    (∀ c ∈ (rules.localizeLines lines).changes, c.rule ≠ .unmatched) ∧
    (rules.localizeLines lines).counts.total = (rules.localizeLines lines).changes.length ∧
    ((rules.localizeLines lines).changed = true ↔
      (rules.localizeLines lines).text ≠ lines.flatten) ∧
    ∀ text, (rules.localize text).changed = true ↔ (rules.localize text).text ≠ text := by
  have hrule : ∀ c ∈ (rules.localizeLines lines).changes, c.rule ≠ .unmatched := by
    intro c hc
    obtain ⟨raw, -, -, -, -, hc⟩ := wraps_of_mem_changes hc
    exact hc
  have hchanged : ∀ lines : List Text, (rules.localizeLines lines).changed = true ↔
      (rules.localizeLines lines).text ≠ lines.flatten := by
    intro lines
    rw [Localized.changed, Localized.text, localizeLines_eq_localizeEach, ne_eq,
      ← changes_eq_nil_iff]
    simp
  refine ⟨length_lines_localizeFrom rules 0 lines, ?_, ?_, mem_map_line_iff rules lines, ?_, hrule,
    Counts.total_ofChanges hrule, hchanged lines, ?_⟩
  · rw [localizeLines_eq_localizeEach]
    exact pairwise_changes_localizeEach rules none 0 lines
  · intro c hc
    exact line_mem_changes_localizeLines hc
  · intro c hc
    obtain ⟨raw, hraw, hout, hbefore, -, -⟩ := wraps_of_mem_changes hc
    refine ⟨Lines.ending raw, Lines.ending_mem raw, ?_, hout⟩
    rw [hbefore, Lines.body_append_ending, hraw]
  · intro text
    have htext := hchanged (Lines.split text)
    rwa [Lines.flatten_split] at htext

/-- Nine blanks behind the colon are as long as the wrapper that takes their place: the line is in
the ledger all the same. -/
theorem localizeLines_ledger_exact_same_length :
    ⟨1, .fieldInline, "  name:         'a'".toList, ("  name: " ++ braced " en: 'a' ").toList⟩ ∈
      (standard.localizeLines ["  name:         'a'\r\n".toList]).changes ∧
    ∃ eol ∈ [[], ['\n'], ['\r', '\n']],
      (["  name:         'a'\r\n".toList] : List Text)[0]? =
        some ("  name:         'a'".toList ++ eol) ∧
      (standard.localizeLines ["  name:         'a'\r\n".toList]).lines[0]? =
        some (("  name: " ++ braced " en: 'a' ").toList ++ eol) := by
  have hchanges : (standard.localizeLines ["  name:         'a'\r\n".toList]).changes =
      [⟨1, .fieldInline, "  name:         'a'".toList,
        ("  name: " ++ braced " en: 'a' ").toList⟩] := by
    cbv
  have hmem := List.mem_singleton_self (⟨1, .fieldInline, "  name:         'a'".toList,
    ("  name: " ++ braced " en: 'a' ").toList⟩ : Change)
  rw [← hchanges] at hmem
  obtain ⟨-, -, -, -, hentry, -⟩ :=
    localizeLines_ledger_exact standard ["  name:         'a'\r\n".toList]
  exact ⟨hmem, hentry _ hmem⟩

end Rules

end LocaleWrap
