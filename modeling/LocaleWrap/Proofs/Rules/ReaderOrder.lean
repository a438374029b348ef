import LocaleWrap.Proofs.Rules.Classification

/-! # The order of the readers

A line has the form of one role only, so no two readers succeed on one line and it makes no
difference in which order they are tried.

* `LineReader.isSome_read_iff` — a reader succeeds exactly on the lines of its role's form.
* `LineReader.eq_of_isSome_read` — no line is read by two readers.
* `Rules.classifyWith_eq_of_mem`, `Rules.classifyWith_congr` — what some readers make of a line
  depends on which readers they are, and not on their order.
* `Rules.HasForm.line_ne_bareForm` — a line that is a field by some rules is no bare literal.
* `Rules.readers_exclusive` — all of this, for one rule set and across two. -/

namespace LocaleWrap

namespace LineReader

variable {rules : Rules} {line : Text} {reader reader' : LineReader}

/-- Different readers recognise different roles. -/
theorem role_inj : reader.role = reader'.role ↔ reader = reader' := by
  cases reader <;> cases reader' <;> simp [role]

/-- **A reader succeeds exactly on the lines of its role's form.** -/
theorem isSome_read_iff : (read rules line reader).isSome ↔ rules.HasForm line reader.role := by
  rw [Option.isSome_iff_exists]
  cases reader with
  | fieldInline =>
      constructor
      · rintro ⟨r, hr⟩
        obtain ⟨p, hp, -⟩ := read_fieldInline_eq_some hr
        exact ⟨p, hp⟩
      · rintro ⟨p, rfl⟩
        exact Option.isSome_iff_exists.mp (isSome_read_fieldInline p)
  | fieldHeader =>
      constructor
      · rintro ⟨r, hr⟩
        obtain ⟨p, hp, -⟩ := read_fieldHeader_eq_some hr
        exact ⟨p, hp⟩
      · rintro ⟨p, rfl⟩
        exact Option.isSome_iff_exists.mp (isSome_read_fieldHeader p)
  | arrayItem =>
      constructor
      · rintro ⟨r, hr⟩
        obtain ⟨p, hp, -⟩ := read_arrayItem_eq_some_iff.mp hr
        exact ⟨p, hp⟩
      · rintro ⟨p, hp⟩
        exact ⟨_, read_arrayItem_eq_some_iff.mpr ⟨p, hp, rfl⟩⟩

/-- A reader fails on a line that has not the form of its role. -/
theorem read_eq_none (h : ¬ rules.HasForm line reader.role) : read rules line reader = none := by
  rw [← isSome_read_iff] at h
  exact Option.not_isSome_iff_eq_none.mp h

/-- **No line is read by two readers.** -/
theorem eq_of_isSome_read (h : (read rules line reader).isSome)
    (h' : (read rules line reader').isSome) : reader = reader' :=
  role_inj.mp ((isSome_read_iff.mp h).unique (isSome_read_iff.mp h'))

end LineReader

namespace Rules

variable {rules : Rules} {line : Text}

/-! ## Any order -/

/-- **What one reader makes of a line** is what any readers make of it that it is among. -/
theorem classifyWith_eq_of_mem {readers : List LineReader} {reader : LineReader}
    {reading : LineReading} (hmem : reader ∈ readers)
    (h : LineReader.read rules line reader = some reading) :
    rules.classifyWith readers line = reading := by
  have hread : (LineReader.read rules line reader).isSome := by
    rw [h]
    rfl
  have hsome : (readers.findSome? (LineReader.read rules line)).isSome :=
    List.findSome?_isSome_iff.mpr ⟨reader, hmem, hread⟩
  obtain ⟨found, hfound⟩ := Option.isSome_iff_exists.mp hsome
  -- The reader that succeeded first is the only one that can.
  obtain ⟨first, -, hfirst⟩ := List.exists_of_findSome?_eq_some hfound
  have hfirst' : (LineReader.read rules line first).isSome := by
    rw [hfirst]
    rfl
  have hsame : first = reader := LineReader.eq_of_isSome_read hfirst' hread
  rw [hsame, h] at hfirst
  rw [classifyWith, hfound, ← hfirst]
  rfl

/-- Readers of which none succeeds match nothing. -/
theorem classifyWith_eq_unmatched {readers : List LineReader}
    (h : ∀ reader ∈ readers, LineReader.read rules line reader = none) :
    rules.classifyWith readers line = .unmatched := by
  rw [classifyWith, List.findSome?_eq_none_iff.mpr h]
  rfl

/-- **What some readers make of a line depends on which readers they are**, not on the order in
which they are tried, nor on whether one is tried again. -/
theorem classifyWith_congr {readers readers' : List LineReader}
    (h : ∀ reader, reader ∈ readers ↔ reader ∈ readers') :
    rules.classifyWith readers line = rules.classifyWith readers' line := by
  by_cases hread : ∃ reader ∈ readers, (LineReader.read rules line reader).isSome
  · obtain ⟨reader, hmem, hsome⟩ := hread
    obtain ⟨reading, hreading⟩ := Option.isSome_iff_exists.mp hsome
    rw [classifyWith_eq_of_mem hmem hreading,
      classifyWith_eq_of_mem ((h reader).mp hmem) hreading]
  · have hnone : ∀ reader ∈ readers, LineReader.read rules line reader = none := by
      intro reader hmem
      rw [← Option.not_isSome_iff_eq_none]
      exact fun hsome => hread ⟨reader, hmem, hsome⟩
    rw [classifyWith_eq_unmatched hnone,
      classifyWith_eq_unmatched fun reader hmem => hnone reader ((h reader).mpr hmem)]

/-! ## Two rule sets -/

/-- **A field by some rules is no bare literal**, with or without its text on the line. -/
theorem HasForm.line_ne_bareForm {role : LineRole} (h : rules.HasForm line role)
    (hrole : role = .fieldInline ∨ role = .fieldHeader) {least : Nat} {comma : Bool}
    (b : BareForm least comma) : b.line ≠ line := by
  rcases hrole with rfl | rfl
  · obtain ⟨p, rfl⟩ := h
    exact (p.line_ne_bareForm b).symm
  · obtain ⟨p, rfl⟩ := h
    exact (p.line_ne_bareForm b).symm

/-- **The readers exclude each other.** On a line at most one of them succeeds, so that every order
of the readers classifies the line alike. A line that is read as a field by some rules is an array
item or a deferred value by no rules at all, and a field header by some rules is an inline field by
none. -/
theorem readers_exclusive (rules : Rules) (line : Text) :
    (∀ reader reader', (LineReader.read rules line reader).isSome →
      (LineReader.read rules line reader').isSome → reader = reader') ∧
    (∀ readers, readers.Perm LineReader.inOrder →
      rules.classifyWith readers line = rules.classify line) ∧
    (∀ reader, reader = .fieldInline ∨ reader = .fieldHeader →
      (LineReader.read rules line reader).isSome → ∀ other : Rules,
        LineReader.read other line .arrayItem = none ∧ other.deferredValue line = none) ∧
    ((LineReader.read rules line .fieldHeader).isSome → ∀ other : Rules,
      LineReader.read other line .fieldInline = none) := by
  refine ⟨?_, ?_, ?_, ?_⟩
  · intro reader reader' h h'
    exact LineReader.eq_of_isSome_read h h'
  · intro readers hperm
    exact classifyWith_congr fun reader => hperm.mem_iff
  · intro reader hreader h other
    have hform := LineReader.isSome_read_iff.mp h
    have hrole : reader.role = .fieldInline ∨ reader.role = .fieldHeader := by
      rcases hreader with rfl | rfl
      · exact Or.inl rfl
      · exact Or.inr rfl
    constructor
    · apply LineReader.read_eq_none
      rintro ⟨b, hb⟩
      exact hform.line_ne_bareForm hrole b hb
    · rw [Option.eq_none_iff_forall_ne_some]
      intro v hv
      obtain ⟨b, hb, -⟩ := deferredValue_eq_some_iff.mp hv
      exact hform.line_ne_bareForm hrole b hb
  · intro h other
    obtain ⟨p, rfl⟩ := LineReader.isSome_read_iff.mp h
    apply LineReader.read_eq_none
    rintro ⟨q, hq⟩
    exact q.line_ne_headerForm p hq

/-- A field whose name begins with a quote that a literal could close: its line is an inline field
in the opposite order of the readers too, and its header line begins like a literal as well. -/
theorem readers_exclusive_quote_in_name :
    [LineReader.arrayItem, .fieldHeader, .fieldInline].Perm LineReader.inOrder ∧
    (LineReader.read ⟨["'x".toList], 0⟩ "  'x: 'y',".toList .fieldInline).isSome ∧
    (LineReader.read ⟨["'x' ,".toList], 0⟩ "  'x' ,: ".toList .fieldHeader).isSome ∧
    (⟨["'x".toList], 0⟩ : Rules).classifyWith [.arrayItem, .fieldHeader, .fieldInline]
      "  'x: 'y',".toList = (⟨["'x".toList], 0⟩ : Rules).classify "  'x: 'y',".toList ∧
    (∀ other : Rules, LineReader.read other "  'x: 'y',".toList .arrayItem = none ∧
      other.deferredValue "  'x: 'y',".toList = none) ∧
    ∀ other : Rules, LineReader.read other "  'x' ,: ".toList .fieldInline = none := by
  have hperm : [LineReader.arrayItem, .fieldHeader, .fieldInline].Perm LineReader.inOrder := by
    decide
  have hinline : (LineReader.read ⟨["'x".toList], 0⟩ "  'x: 'y',".toList .fieldInline).isSome := by
    cbv
  have hheader :
      (LineReader.read ⟨["'x' ,".toList], 0⟩ "  'x' ,: ".toList .fieldHeader).isSome := by
    cbv
  obtain ⟨-, horder, hfield, -⟩ := readers_exclusive ⟨["'x".toList], 0⟩ "  'x: 'y',".toList
  obtain ⟨-, -, -, hnone⟩ := readers_exclusive ⟨["'x' ,".toList], 0⟩ "  'x' ,: ".toList
  exact ⟨hperm, hinline, hheader, horder _ hperm, hfield _ (Or.inl rfl) hinline, hnone hheader⟩

end Rules

end LocaleWrap
