import Mathlib.Data.List.Permutation
import LocaleWrap.Proofs.Rules.Reading
import LocaleWrap.Rules.Pattern

/-! # What classification accepts

* **`Rules.Fits`** — what a reading of a line says about the forms of the line.
* `Rules.fits_classify` — `classify` says the truth.
* **`Rules.HasForm`** — the form of a role; since no line has forms of two kinds, `classify` also
  finds every form: `Rules.role_classify_eq_iff`.
* `Rules.classify_grammar` — for given field names and array indent, which lines are read in which
  role, and which parts are returned.
* `Rules.role_classify_ne_fieldHeader` — a line that can be a deferred value is no field header. -/

namespace LocaleWrap

namespace Rules

variable {rules : Rules} {line : Text}

/-- **What a reading says about its line**: the line has the form of the role, with the parts that
are returned, or it has none of the forms. -/
def Fits (rules : Rules) (line : Text) : LineReading → Prop
  | .fieldInline field value =>
    ∃ p : InlineForm rules.names, p.line = line ∧ p.name = field ∧ p.value = value
  | .fieldHeader field => ∃ p : HeaderForm rules.names, p.line = line ∧ p.name = field
  | .arrayItem value => ∃ p : BareForm rules.minIndent true, p.line = line ∧ p.value = value
  | .unmatched =>
    (∀ p : InlineForm rules.names, p.line ≠ line) ∧
      (∀ p : HeaderForm rules.names, p.line ≠ line) ∧
      ∀ p : BareForm rules.minIndent true, p.line ≠ line

/-- **Classification says the truth about its line.** -/
theorem fits_classify (rules : Rules) (line : Text) : rules.Fits line (rules.classify line) := by
  rw [classify, classifyWith, LineReader.inOrder, List.findSome?_cons, List.findSome?_cons,
    List.findSome?_singleton]
  rcases hinline : LineReader.read rules line .fieldInline with _ | r
  · rcases hheader : LineReader.read rules line .fieldHeader with _ | r
    · rcases hitem : LineReader.read rules line .arrayItem with _ | r
      · -- No reader succeeds, and each would on a line of its form.
        refine ⟨?_, ?_, ?_⟩
        · rintro p rfl
          simpa [hinline] using LineReader.isSome_read_fieldInline p
        · rintro p rfl
          simpa [hheader] using LineReader.isSome_read_fieldHeader p
        · intro p hp
          have hread := LineReader.read_arrayItem_eq_some_iff.mpr ⟨p, hp, rfl⟩
          simp [hitem] at hread
      · obtain ⟨p, hp, rfl⟩ := LineReader.read_arrayItem_eq_some_iff.mp hitem
        exact ⟨p, hp, rfl⟩
    · obtain ⟨p, hp, rfl⟩ := LineReader.read_fieldHeader_eq_some hheader
      exact ⟨p, hp, rfl⟩
  · obtain ⟨p, hp, rfl⟩ := LineReader.read_fieldInline_eq_some hinline
    exact ⟨p, hp, rfl, rfl⟩

/-! ## Which lines have which role -/

/-- **The form that a line of a role has**; an unmatched line has none of the forms. -/
def HasForm (rules : Rules) (line : Text) : LineRole → Prop
  | .fieldInline => ∃ p : InlineForm rules.names, p.line = line
  | .fieldHeader => ∃ p : HeaderForm rules.names, p.line = line
  | .arrayItem => ∃ p : BareForm rules.minIndent true, p.line = line
  | .unmatched =>
    (∀ p : InlineForm rules.names, p.line ≠ line) ∧
      (∀ p : HeaderForm rules.names, p.line ≠ line) ∧
      ∀ p : BareForm rules.minIndent true, p.line ≠ line

/-- **A line has the form of one role only.** -/
theorem HasForm.unique {role role' : LineRole} (h : rules.HasForm line role)
    (h' : rules.HasForm line role') : role = role' := by
  -- Two roles would give the line two forms of different kinds.
  match role, role', h, h' with
  | .fieldInline, .fieldInline, _, _ => rfl
  | .fieldInline, .fieldHeader, ⟨p, hp⟩, ⟨q, hq⟩ =>
      exact absurd (hp.trans hq.symm) (p.line_ne_headerForm q)
  | .fieldInline, .arrayItem, ⟨p, hp⟩, ⟨q, hq⟩ =>
      exact absurd (hp.trans hq.symm) (p.line_ne_bareForm q)
  | .fieldInline, .unmatched, ⟨p, hp⟩, hnone => exact absurd hp (hnone.1 p)
  | .fieldHeader, .fieldInline, ⟨p, hp⟩, ⟨q, hq⟩ =>
      exact absurd (hq.trans hp.symm) (q.line_ne_headerForm p)
  | .fieldHeader, .fieldHeader, _, _ => rfl
  | .fieldHeader, .arrayItem, ⟨p, hp⟩, ⟨q, hq⟩ =>
      exact absurd (hp.trans hq.symm) (p.line_ne_bareForm q)
  | .fieldHeader, .unmatched, ⟨p, hp⟩, hnone => exact absurd hp (hnone.2.1 p)
  | .arrayItem, .fieldInline, ⟨p, hp⟩, ⟨q, hq⟩ =>
      exact absurd (hq.trans hp.symm) (q.line_ne_bareForm p)
  | .arrayItem, .fieldHeader, ⟨p, hp⟩, ⟨q, hq⟩ =>
      exact absurd (hq.trans hp.symm) (q.line_ne_bareForm p)
  | .arrayItem, .arrayItem, _, _ => rfl
  | .arrayItem, .unmatched, ⟨p, hp⟩, hnone => exact absurd hp (hnone.2.2 p)
  | .unmatched, .fieldInline, hnone, ⟨p, hp⟩ => exact absurd hp (hnone.1 p)
  | .unmatched, .fieldHeader, hnone, ⟨p, hp⟩ => exact absurd hp (hnone.2.1 p)
  | .unmatched, .arrayItem, hnone, ⟨p, hp⟩ => exact absurd hp (hnone.2.2 p)
  | .unmatched, .unmatched, _, _ => rfl

/-- What is said about a line gives it the form of the role. -/
theorem Fits.hasForm {r : LineReading} (h : rules.Fits line r) : rules.HasForm line r.role := by
  cases r with
  | fieldInline field value =>
      obtain ⟨p, hp, -⟩ := h
      exact ⟨p, hp⟩
  | fieldHeader field =>
      obtain ⟨p, hp, -⟩ := h
      exact ⟨p, hp⟩
  | arrayItem value =>
      obtain ⟨p, hp, -⟩ := h
      exact ⟨p, hp⟩
  | unmatched => exact h

/-- **The lines of a role are those of its form.** -/
theorem role_classify_eq_iff {role : LineRole} :
    (rules.classify line).role = role ↔ rules.HasForm line role := by
  have hform : rules.HasForm line (rules.classify line).role :=
    (rules.fits_classify line).hasForm
  constructor
  · rintro rfl
    exact hform
  · exact hform.unique

/-- A line of no form is not matched. -/
theorem classify_eq_unmatched_of_forms (hinline : ∀ p : InlineForm rules.names, p.line ≠ line)
    (hheader : ∀ p : HeaderForm rules.names, p.line ≠ line)
    (hitem : ∀ p : BareForm rules.minIndent true, p.line ≠ line) :
    rules.classify line = .unmatched := by
  have hrole : (rules.classify line).role = .unmatched :=
    role_classify_eq_iff.mpr ⟨hinline, hheader, hitem⟩
  cases hread : rules.classify line with
  | unmatched => rfl
  | _ => simp [hread, LineReading.role] at hrole

/-! ## Deferred values -/

/-- **The deferred values are the lines of their form**, part by part. -/
theorem deferredValue_eq_some_iff {v : Quoted} :
    rules.deferredValue line = some v ↔ ∃ p : BareForm 1 false, p.line = line ∧ p.value = v :=
  bareLiteral_eq_some_iff

/-- **A line that can be a deferred value is no field header**, by whatever rules. -/
theorem role_classify_ne_fieldHeader {v : Quoted} (h : rules.deferredValue line = some v)
    (other : Rules) : (other.classify line).role ≠ .fieldHeader := by
  obtain ⟨b, hb, -⟩ := deferredValue_eq_some_iff.mp h
  intro hheader
  obtain ⟨p, hp⟩ := role_classify_eq_iff.mp hheader
  exact p.line_ne_bareForm b (hp.trans hb.symm)

/-! ## The grammar -/

/-- **Classification accepts exactly its grammar and returns its parts.** The roles are those of the
forms; the literal, the tail and the indent that are returned are those of every form of the line,
for an inline field the indent together with the name. -/
theorem classify_grammar {fields : List Text} {n : Nat} {rules : Rules} (hfields : fields ≠ [])
    (hrules : Rules.ofFields fields n = .ok rules) (line : Text) :
    ((rules.classify line).role = .fieldInline ↔ ∃ p : InlineForm fields, p.line = line) ∧
    ((rules.classify line).role = .fieldHeader ↔ ∃ p : HeaderForm fields, p.line = line) ∧
    ((rules.classify line).role = .arrayItem ↔ ∃ p : BareForm n true, p.line = line) ∧
    ((rules.classify line).role = .unmatched ↔
      (¬ ∃ p : InlineForm fields, p.line = line) ∧ (¬ ∃ p : HeaderForm fields, p.line = line) ∧
        ¬ ∃ p : BareForm n true, p.line = line) ∧
    ((rules.deferredValue line).isSome ↔ ∃ p : BareForm 1 false, p.line = line) ∧
    (∀ f v, rules.classify line = .fieldInline f v →
      (∃ p : InlineForm fields, p.line = line ∧ p.name = f ∧ p.value = v) ∧
        ∀ p : InlineForm fields, p.line = line →
          v.indent ++ f = p.indent ++ p.name ∧ v.literal = p.literal ∧ v.tail = p.tail) ∧
    (∀ f, rules.classify line = .fieldHeader f →
      ∃ p : HeaderForm fields, p.line = line ∧ p.name = f) ∧
    (∀ v, rules.classify line = .arrayItem v →
      ∀ p : BareForm n true, p.line = line → v = p.value) ∧
    ∀ v, rules.deferredValue line = some v →
      ∀ p : BareForm 1 false, p.line = line → v = p.value := by
  obtain ⟨hnames, hindent⟩ : rules.names = fields ∧ rules.minIndent = n := by
    rw [Rules.eq_of_ofFields hrules]
    exact ⟨names_eq_fields hfields, rfl⟩
  -- From here on the names and the indent are those of the rules.
  clear hrules
  subst hnames hindent
  have hfits := rules.fits_classify line
  refine ⟨role_classify_eq_iff, role_classify_eq_iff, role_classify_eq_iff, ?_, ?_, ?_, ?_, ?_, ?_⟩
  · rw [role_classify_eq_iff, not_exists, not_exists, not_exists]
    rfl
  · rw [Option.isSome_iff_exists]
    constructor
    · rintro ⟨v, hv⟩
      obtain ⟨p, hp, -⟩ := deferredValue_eq_some_iff.mp hv
      exact ⟨p, hp⟩
    · rintro ⟨p, hp⟩
      exact ⟨p.value, deferredValue_eq_some_iff.mpr ⟨p, hp, rfl⟩⟩
  · intro f v hread
    rw [hread] at hfits
    obtain ⟨q, hq, rfl, rfl⟩ := hfits
    refine ⟨⟨q, hq, rfl, rfl⟩, fun p hp => ?_⟩
    obtain ⟨hname, -, hliteral, htail⟩ := q.parts_unique p (hq.trans hp.symm)
    exact ⟨hname, hliteral, htail⟩
  · intro f hread
    rw [hread] at hfits
    exact hfits
  · intro v hread p hp
    rw [hread] at hfits
    obtain ⟨q, hq, rfl⟩ := hfits
    exact q.value_unique p (hq.trans hp.symm)
  · intro v hv p hp
    obtain ⟨q, hq, rfl⟩ := deferredValue_eq_some_iff.mp hv
    exact q.value_unique p (hq.trans hp.symm)

/-- A field whose name holds a colon, a blank and a quote, beside a shorter one that begins like
it: the longer name is found, and no form of the line has another literal. -/
theorem classify_grammar_name_with_quote :
    ["name".toList, "name: 'x".toList] ≠ [] ∧
    Rules.ofFields ["name".toList, "name: 'x".toList] 6 =
      .ok ⟨["name".toList, "name: 'x".toList], 6⟩ ∧
    (∃ p : InlineForm ["name".toList, "name: 'x".toList],
      p.line = "  name: 'x: 'y' ,".toList ∧ p.name = "name: 'x".toList) ∧
    ∀ p : InlineForm ["name".toList, "name: 'x".toList], p.line = "  name: 'x: 'y' ,".toList →
      p.literal = "'y'".toList := by
  obtain ⟨-, -, -, -, -, hparts, -⟩ :=
    classify_grammar (by decide) (rfl : Rules.ofFields ["name".toList, "name: 'x".toList] 6 = _)
      "  name: 'x: 'y' ,".toList
  have hread : (⟨["name".toList, "name: 'x".toList], 6⟩ : Rules).classify
      "  name: 'x: 'y' ,".toList =
        .fieldInline "name: 'x".toList ⟨"  ".toList, "'y'".toList, " ,".toList⟩ := by cbv
  obtain ⟨⟨p, hp, hname, -⟩, hunique⟩ := hparts _ _ hread
  exact ⟨by decide, rfl, ⟨p, hp, hname⟩, fun p hp => (hunique p hp).2.1.symm⟩

end Rules

end LocaleWrap
