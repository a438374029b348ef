import Mathlib.Tactic.Tauto
import LocaleWrap.Proofs.Localization.Idempotence
import LocaleWrap.Proofs.Rules.ReaderOrder

/-! # Two rule sets, one after the other

What a line is wrapped to does not depend on the rules that wrap it, only on the line. So two passes
by different rules come to the same lines in either order, which are those of a single pass by both
rule sets at once.

* `Wraps.unique` — a line has one wrapped text.
* `Rules.isHeader_applied_edit` — field headers are kept by every pass, and none are made.
* `Rules.getElem?_lines_localizeLines_twice` — two passes, line by line: each line has the edit of
  the first rules, or else that of the second, both taken from the document that went in.
* **`Rules.merge`** — the fields of two rule sets, with the smaller array indent. Its lines are
  those of the two (`Rules.hasForm_merge_iff`), and so are its edits (`Rules.applied_edit_merge`).
* `Rules.localizeLines_comm` — the lines that come out of two passes. -/

namespace LocaleWrap

open Literal Text

/-! ## The wrapped text of a line -/

namespace Wraps

variable {before after after' : Text}

/-- **A line has one wrapped text**, by whatever rules it is wrapped. -/
theorem unique (h : Wraps before after) (h' : Wraps before after') : after = after' := by
  cases h with
  | field p =>
      generalize hline : p.line = before at h'
      cases h' with
      | field q =>
          -- Where the indent ends and the name begins makes no difference to the text.
          obtain ⟨hname, -, hliteral, htail⟩ := p.parts_unique q hline
          show p.indent ++ p.name ++ ": ".toList ++ localizedValue p.literal ++ p.tail = _
          rw [hname, hliteral, htail]
          rfl
      | bare q => exact absurd hline (p.line_ne_bareForm q)
  | bare p =>
      generalize hline : p.line = before at h'
      cases h' with
      | field q => exact absurd hline.symm (q.line_ne_bareForm p)
      | bare q => rw [p.value_unique q hline]

/-- A line that is wrapped is no field header, by whatever rules. -/
theorem role_classify_ne_fieldHeader (h : Wraps before after) (rules : Rules) :
    (rules.classify before).role ≠ .fieldHeader := by
  intro hheader
  obtain ⟨p, hp⟩ := Rules.role_classify_eq_iff.mp hheader
  cases h with
  | field q => exact q.line_ne_headerForm p hp.symm
  | bare q => exact p.line_ne_bareForm q hp

end Wraps

namespace Rules

variable {rules r₁ r₂ : Rules} {before before' : Option Text} {raw : Text}

/-- **The edits of a line by different rules** give the same text. -/
theorem after_edit_unique {e₁ e₂ : Edit} (h₁ : r₁.edit before raw = some e₁)
    (h₂ : r₂.edit before' raw = some e₂) : e₁.after = e₂.after :=
  (wraps_of_edit h₁).1.unique (wraps_of_edit h₂).1

/-- Of two edits of a line, either may come first. -/
theorem applied_or_comm (r₁ r₂ : Rules) (before : Option Text) (raw : Text) :
    Edit.applied raw ((r₁.edit before raw).or (r₂.edit before raw)) =
      Edit.applied raw ((r₂.edit before raw).or (r₁.edit before raw)) := by
  cases h₁ : r₁.edit before raw with
  | none => rw [Option.none_or, Option.or_none]
  | some e₁ =>
      cases h₂ : r₂.edit before raw with
      | none => rfl
      | some e₂ =>
          rw [Option.some_or, Option.some_or, Edit.applied_some, Edit.applied_some,
            after_edit_unique h₁ h₂]

/-! ## The second pass -/

/-- **Every pass keeps the field headers** of all rules, and makes no line a field header. -/
theorem isHeader_applied_edit (rules other : Rules) (before : Option Text) (raw : Text) :
    other.isHeader (some (Edit.applied raw (rules.edit before raw))) =
      other.isHeader (some raw) := by
  cases he : rules.edit before raw with
  | none => rfl
  | some e =>
      -- An edited line is no header, neither before nor after.
      have hwraps := (wraps_of_edit he).1
      have hraw : other.isHeader (some raw) = false := by
        rw [isHeader_some, beq_eq_false_iff_ne]
        exact hwraps.role_classify_ne_fieldHeader other
      rw [hraw, isHeader_some, (cut_applied_edit he).1, hwraps.classify_eq_unmatched other]
      rfl

/-- After a pass, a line stands behind a field header just when it did before. -/
theorem isHeader_lineBefore_localizeLines (rules other : Rules) (lines : List Text) (i : Nat) :
    other.isHeader (lineBefore none (rules.localizeLines lines).lines i) =
      other.isHeader (lineBefore none lines i) := by
  cases i with
  | zero => rfl
  | succ j =>
      rw [lineBefore_succ, lineBefore_succ, localizeLines_eq_localizeEach,
        getElem?_lines_localizeEach]
      cases lines[j]? with
      | none => rfl
      | some raw => exact isHeader_applied_edit rules other _ raw

/-- **The second pass leaves edited lines alone** and edits the others as if it were the first. -/
theorem edit_applied_edit (r₁ r₂ : Rules) (before before' : Option Text) (raw : Text) :
    r₂.edit before' (Edit.applied raw (r₁.edit before raw)) =
      if (r₁.edit before raw).isSome then none else r₂.edit before' raw := by
  cases he : r₁.edit before raw with
  | none => rfl
  | some e =>
      rw [Option.isSome_some, if_pos rfl]
      exact edit_eq_none_of_wraps (wraps_of_edit he).1 (cut_applied_edit he).1

/-- **Two passes, line by line**: a line has the edit of the first rules, or else that of the
second, both as they are in the document that went in. -/
theorem getElem?_lines_localizeLines_twice (r₁ r₂ : Rules) (lines : List Text) (i : Nat) :
    (r₂.localizeLines (r₁.localizeLines lines).lines).lines[i]? =
      lines[i]?.map fun raw => Edit.applied raw
        ((r₁.edit (lineBefore none lines i) raw).or (r₂.edit (lineBefore none lines i) raw)) := by
  rw [localizeLines_eq_localizeEach r₂, getElem?_lines_localizeEach]
  have hfirst : (r₁.localizeLines lines).lines[i]? =
      lines[i]?.map fun raw => Edit.applied raw (r₁.edit (lineBefore none lines i) raw) := by
    rw [localizeLines_eq_localizeEach, getElem?_lines_localizeEach]
  rw [hfirst, Option.map_map]
  congr 1
  funext raw
  rw [Function.comp_apply, edit_applied_edit,
    edit_congr (isHeader_lineBefore_localizeLines r₁ r₂ lines i)]
  cases r₁.edit (lineBefore none lines i) raw with
  | none => rfl
  | some e => rfl

/-! ## Both rule sets at once -/

/-- **The rules of both**: the fields of the two, and array items as deep as the less demanding of
them asks for. -/
def merge (r₁ r₂ : Rules) : Rules := ⟨r₁.fields ++ r₂.fields, min r₁.minIndent r₂.minIndent⟩

/-- The names of both rules. -/
theorem mem_names_merge (h₁ : r₁.fields ≠ []) (h₂ : r₂.fields ≠ []) {name : Text} :
    name ∈ (r₁.merge r₂).names ↔ name ∈ r₁.names ∨ name ∈ r₂.names := by
  have hboth : (r₁.merge r₂).fields ≠ [] := List.append_ne_nil_of_left_ne_nil h₁ _
  rw [names_eq_fields h₁, names_eq_fields h₂, names_eq_fields hboth]
  exact List.mem_append

/-- An indent is deep enough for merged rules when it is for one of the two. -/
theorem minIndent_merge_le {n : Nat} :
    (r₁.merge r₂).minIndent ≤ n ↔ r₁.minIndent ≤ n ∨ r₂.minIndent ≤ n := by
  simp only [merge]
  omega

/-- **More names and a smaller array indent** give every role at least the lines that it had. -/
theorem HasForm.mono {line : Text} {role : LineRole} (h : r₁.HasForm line role)
    (hrole : role ≠ .unmatched) (hnames : ∀ name ∈ r₁.names, name ∈ r₂.names)
    (hleast : r₂.minIndent ≤ r₁.minIndent) : r₂.HasForm line role := by
  cases role with
  | fieldInline =>
      obtain ⟨p, rfl⟩ := h
      exact ⟨{ p with name_mem := hnames _ p.name_mem }, rfl⟩
  | fieldHeader =>
      obtain ⟨p, rfl⟩ := h
      exact ⟨{ p with name_mem := hnames _ p.name_mem }, rfl⟩
  | arrayItem =>
      obtain ⟨p, rfl⟩ := h
      exact ⟨{ p with least_le := Nat.le_trans hleast p.least_le }, rfl⟩
  | unmatched => exact absurd rfl hrole

/-- **The lines of a role by both rules** are those of the role by one of them. -/
theorem hasForm_merge_iff (h₁ : r₁.fields ≠ []) (h₂ : r₂.fields ≠ []) {line : Text}
    {role : LineRole} (hrole : role ≠ .unmatched) :
    (r₁.merge r₂).HasForm line role ↔ r₁.HasForm line role ∨ r₂.HasForm line role := by
  have hnames : ∀ name, name ∈ (r₁.merge r₂).names ↔ name ∈ r₁.names ∨ name ∈ r₂.names :=
    fun _ => mem_names_merge h₁ h₂
  constructor
  · intro h
    cases role with
    | fieldInline =>
        obtain ⟨p, rfl⟩ := h
        exact ((hnames _).mp p.name_mem).imp (fun hmem => ⟨{ p with name_mem := hmem }, rfl⟩)
          (fun hmem => ⟨{ p with name_mem := hmem }, rfl⟩)
    | fieldHeader =>
        obtain ⟨p, rfl⟩ := h
        exact ((hnames _).mp p.name_mem).imp (fun hmem => ⟨{ p with name_mem := hmem }, rfl⟩)
          (fun hmem => ⟨{ p with name_mem := hmem }, rfl⟩)
    | arrayItem =>
        obtain ⟨p, rfl⟩ := h
        exact (minIndent_merge_le.mp p.least_le).imp (fun hle => ⟨{ p with least_le := hle }, rfl⟩)
          (fun hle => ⟨{ p with least_le := hle }, rfl⟩)
    | unmatched => exact absurd rfl hrole
  · rintro (h | h)
    · exact h.mono hrole (fun name hmem => (hnames name).mpr (Or.inl hmem)) (Nat.min_le_left _ _)
    · exact h.mono hrole (fun name hmem => (hnames name).mpr (Or.inr hmem)) (Nat.min_le_right _ _)

/-- A line is a field header by both rules when it is one by either. -/
theorem isHeader_merge_iff (h₁ : r₁.fields ≠ []) (h₂ : r₂.fields ≠ []) :
    (r₁.merge r₂).isHeader before = true ↔
      r₁.isHeader before = true ∨ r₂.isHeader before = true := by
  cases before with
  | none => simp
  | some raw =>
      simp only [isHeader_some, beq_iff_eq, role_classify_eq_iff]
      exact hasForm_merge_iff h₁ h₂ (by decide)

/-- **A line is edited by both rules when one of them edits it.** -/
theorem isSome_edit_merge_iff (h₁ : r₁.fields ≠ []) (h₂ : r₂.fields ≠ []) :
    ((r₁.merge r₂).edit before raw).isSome ↔
      (r₁.edit before raw).isSome ∨ (r₂.edit before raw).isSome := by
  have hform : ∀ role, role ≠ .unmatched → ((r₁.merge r₂).HasForm (Lines.body raw) role ↔
      r₁.HasForm (Lines.body raw) role ∨ r₂.HasForm (Lines.body raw) role) :=
    fun role hrole => hasForm_merge_iff h₁ h₂ hrole
  -- Deferred values are the same for all rules.
  have hvalue : ∀ r : Rules, r.deferredValue (Lines.body raw) =
      (r₁.merge r₂).deferredValue (Lines.body raw) := fun _ => rfl
  rw [isSome_edit_iff, isSome_edit_iff, isSome_edit_iff, hvalue r₁, hvalue r₂]
  rw [isHeader_merge_iff h₁ h₂, role_classify_eq_iff, role_classify_eq_iff, role_classify_eq_iff,
    role_classify_eq_iff, role_classify_eq_iff, role_classify_eq_iff, hform _ (by decide),
    hform _ (by decide)]
  tauto

/-- **One pass by both rules** gives a line the edit of the first rules, or else that of the
second. -/
theorem applied_edit_merge (h₁ : r₁.fields ≠ []) (h₂ : r₂.fields ≠ []) :
    Edit.applied raw ((r₁.merge r₂).edit before raw) =
      Edit.applied raw ((r₁.edit before raw).or (r₂.edit before raw)) := by
  have hsome : ((r₁.merge r₂).edit before raw).isSome ↔
      ((r₁.edit before raw).or (r₂.edit before raw)).isSome := by
    rw [isSome_edit_merge_iff h₁ h₂, Option.isSome_or, Bool.or_eq_true]
  cases he : (r₁.merge r₂).edit before raw with
  | none =>
      rw [he] at hsome
      rw [Option.not_isSome_iff_eq_none.mp fun h => absurd (hsome.mpr h) (by simp)]
  | some e =>
      obtain ⟨e', he'⟩ := Option.isSome_iff_exists.mp (hsome.mp (by rw [he]; rfl))
      have hafter : e.after = e'.after := by
        rcases Option.or_eq_some_iff.mp he' with h | ⟨-, h⟩
        · exact after_edit_unique he h
        · exact after_edit_unique he h
      rw [he', Edit.applied_some, Edit.applied_some, hafter]

/-- **Rule sets compose in any order.** Two passes, by one rule set and then by another, give the
same lines as the two in the opposite order; and where both name fields, these are the lines of one
pass by the rules of both. -/
theorem localizeLines_comm {f₁ f₂ : List Text} {n₁ n₂ : Nat} {r₁ r₂ : Rules}
    (h₁ : Rules.ofFields f₁ n₁ = .ok r₁) (h₂ : Rules.ofFields f₂ n₂ = .ok r₂)
    (lines : List Text) :
    (r₂.localizeLines (r₁.localizeLines lines).lines).lines =
      (r₁.localizeLines (r₂.localizeLines lines).lines).lines ∧
    (f₁ ≠ [] → f₂ ≠ [] → ∃ both, Rules.ofFields (f₁ ++ f₂) (min n₁ n₂) = .ok both ∧
      (r₂.localizeLines (r₁.localizeLines lines).lines).lines =
        (both.localizeLines lines).lines) := by
  constructor
  · apply List.ext_getElem?
    intro i
    rw [getElem?_lines_localizeLines_twice, getElem?_lines_localizeLines_twice]
    simp only [applied_or_comm r₁ r₂]
  · intro hf₁ hf₂
    obtain rfl := Rules.eq_of_ofFields h₁
    obtain rfl := Rules.eq_of_ofFields h₂
    refine ⟨merge ⟨f₁, n₁⟩ ⟨f₂, n₂⟩, ?_, ?_⟩
    · have hlimit := Rules.ofFields_eq_ok.mp h₁
      exact Rules.ofFields_eq_ok.mpr (Nat.lt_of_le_of_lt (Nat.min_le_left n₁ n₂) hlimit)
    · apply List.ext_getElem?
      intro i
      rw [getElem?_lines_localizeLines_twice, localizeLines_eq_localizeEach,
        getElem?_lines_localizeEach]
      congr 1
      funext raw
      exact (applied_edit_merge hf₁ hf₂).symm

/-- A line that is a deferred value by the first rules and an array item by the second, behind a
header that only the first know, and an inline field that only the second know. -/
theorem localizeLines_comm_value_and_item :
    Rules.ofFields ["setup".toList] 9 = .ok ⟨["setup".toList], 9⟩ ∧
    Rules.ofFields ["name".toList] 2 = .ok ⟨["name".toList], 2⟩ ∧
    ((⟨["name".toList], 2⟩ : Rules).localizeLines ((⟨["setup".toList], 9⟩ : Rules).localizeLines
      ["  setup:\n".toList, "  'a',\r\n".toList, " name:\t'b'".toList]).lines).lines =
        ["  setup:\n".toList, ("  " ++ braced " en: 'a' " ++ ",\r\n").toList,
          (" name: " ++ braced " en: 'b' ").toList] ∧
    ((⟨["setup".toList], 9⟩ : Rules).localizeLines ((⟨["name".toList], 2⟩ : Rules).localizeLines
      ["  setup:\n".toList, "  'a',\r\n".toList, " name:\t'b'".toList]).lines).lines =
        ["  setup:\n".toList, ("  " ++ braced " en: 'a' " ++ ",\r\n").toList,
          (" name: " ++ braced " en: 'b' ").toList] ∧
    ∃ both, Rules.ofFields (["setup".toList] ++ ["name".toList]) (min 9 2) = .ok both ∧
      (both.localizeLines
        ["  setup:\n".toList, "  'a',\r\n".toList, " name:\t'b'".toList]).lines =
        ["  setup:\n".toList, ("  " ++ braced " en: 'a' " ++ ",\r\n").toList,
          (" name: " ++ braced " en: 'b' ").toList] := by
  have hlines : ((⟨["name".toList], 2⟩ : Rules).localizeLines
      ((⟨["setup".toList], 9⟩ : Rules).localizeLines
        ["  setup:\n".toList, "  'a',\r\n".toList, " name:\t'b'".toList]).lines).lines =
        ["  setup:\n".toList, ("  " ++ braced " en: 'a' " ++ ",\r\n").toList,
          (" name: " ++ braced " en: 'b' ").toList] := by cbv
  obtain ⟨hcomm, hmerge⟩ := localizeLines_comm
    (rfl : Rules.ofFields ["setup".toList] 9 = .ok ⟨["setup".toList], 9⟩)
    (rfl : Rules.ofFields ["name".toList] 2 = .ok ⟨["name".toList], 2⟩)
    ["  setup:\n".toList, "  'a',\r\n".toList, " name:\t'b'".toList]
  obtain ⟨both, hboth, hpass⟩ := hmerge (by decide) (by decide)
  exact ⟨rfl, rfl, hlines, hcomm ▸ hlines, both, hboth, hpass ▸ hlines⟩

end Rules

end LocaleWrap
