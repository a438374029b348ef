import LocaleWrap.Localization
import LocaleWrap.Proofs.Rules.Classification

/-! # Localizing one line at a time

The pass over a document takes two lines at once where a field header has its value on the next
line, and then never classifies the second. Still each line's fate hangs on this line and the one
before it alone.

* **`Edit`** — what becomes of one line; **`Rules.edit`** computes it from the line and its
  predecessor, **`Rules.localizeEach`** does so for all lines.
* `Rules.localizeFrom_eq_localizeEach` — the pass is this line-by-line computation.
* `Rules.getElem?_lines_localizeEach`, `Rules.filter_changes_localizeEach` — the lines that come
  out and the entries of the ledger, position by position.
* `Rules.localizeLines_local` — the same said of the pass over a document. -/

namespace LocaleWrap

/-! ## Edits -/

/-- **What becomes of one line**: the rule that applies, and the line's text afterwards. -/
structure Edit where
  rule : LineRole
  after : Text
  deriving DecidableEq, Repr

namespace Edit

/-- The raw line after its edit, if there is one. -/
def applied (raw : Text) : Option Edit → Text
  | none => raw
  | some e => e.after ++ Lines.ending raw

/-- The entry in the ledger for an edit of the raw line with the given index. -/
def entry (index : Nat) (raw : Text) (e : Edit) : Change :=
  ⟨index + 1, e.rule, Lines.body raw, e.after⟩

@[simp] theorem applied_none (raw : Text) : applied raw none = raw := rfl

@[simp] theorem applied_some (raw : Text) (e : Edit) :
    applied raw (some e) = e.after ++ Lines.ending raw := rfl

@[simp] theorem line_entry (index : Nat) (raw : Text) (e : Edit) :
    (e.entry index raw).line = index + 1 := rfl

end Edit

/-- Puts a line in front that has been edited or not. -/
def Localized.put (index : Nat) (raw : Text) (e : Option Edit) (r : Localized) : Localized :=
  ⟨Edit.applied raw e :: r.lines, (e.map (Edit.entry index raw)).toList ++ r.changes⟩

/-- **The edit that a line's reading asks for** by itself. -/
def LineReading.edit : LineReading → Option Edit
  | .fieldInline field value => some ⟨.fieldInline, value.localizedField field⟩
  | .fieldHeader _ => none
  | .arrayItem value => some ⟨.arrayItem, value.localized⟩
  | .unmatched => none

namespace Rules

/-- Whether a raw line, if there is one, is a field header. -/
def isHeader (rules : Rules) (raw : Option Text) : Bool :=
  raw.any fun raw => (rules.classify (Lines.body raw)).role == .fieldHeader

/-- **The edit of a raw line that stands after the line `before`.** After a field header the line
is a deferred value if it can be one; else its own reading decides. -/
def edit (rules : Rules) (before : Option Text) (raw : Text) : Option Edit :=
  match if rules.isHeader before then rules.deferredValue (Lines.body raw) else none with
  | some value => some ⟨.fieldHeader, value.localized⟩
  | none => (rules.classify (Lines.body raw)).edit

/-- **Localizes raw lines one by one**, the first of which stands after the line `before` and has
the given index. -/
def localizeEach (rules : Rules) (before : Option Text) (index : Nat) : List Text → Localized
  | [] => .empty
  | raw :: rest =>
    (rules.localizeEach (some raw) (index + 1) rest).put index raw (rules.edit before raw)

variable {rules : Rules} {before : Option Text} {raw : Text}

@[simp] theorem isHeader_none (rules : Rules) : rules.isHeader none = false := rfl

@[simp] theorem isHeader_some (rules : Rules) (raw : Text) :
    rules.isHeader (some raw) = ((rules.classify (Lines.body raw)).role == .fieldHeader) := rfl

/-- The value behind a field header is edited by the rule for it. -/
theorem edit_of_deferredValue {value : Quoted} (hbefore : rules.isHeader before = true)
    (hvalue : rules.deferredValue (Lines.body raw) = some value) :
    rules.edit before raw = some ⟨.fieldHeader, value.localized⟩ := by
  rw [edit, if_pos hbefore, hvalue]

/-- Where the line before is no header, or the line no deferred value, its own reading decides. -/
theorem edit_eq_of_not_deferred
    (h : ¬ (rules.isHeader before = true ∧ (rules.deferredValue (Lines.body raw)).isSome)) :
    rules.edit before raw = (rules.classify (Lines.body raw)).edit := by
  rw [edit]
  split
  · next value hvalue =>
    split at hvalue
    · next hbefore => exact absurd ⟨hbefore, by simp [hvalue]⟩ h
    · cases hvalue
  · rfl

/-- Where no field header stands in front, the line alone says what is edited. -/
theorem edit_eq_of_isHeader_eq_false (h : rules.isHeader before = false) :
    rules.edit before raw = (rules.classify (Lines.body raw)).edit :=
  edit_eq_of_not_deferred fun hand => by simp [h] at hand

/-- **Which lines have an edit**: inline fields, array items, and deferred values after a header. -/
theorem isSome_edit_iff :
    (rules.edit before raw).isSome ↔
      (rules.classify (Lines.body raw)).role = .fieldInline ∨
        (rules.classify (Lines.body raw)).role = .arrayItem ∨
        (rules.isHeader before = true ∧ (rules.deferredValue (Lines.body raw)).isSome) := by
  by_cases hdeferred :
      rules.isHeader before = true ∧ (rules.deferredValue (Lines.body raw)).isSome
  · obtain ⟨value, hvalue⟩ := Option.isSome_iff_exists.mp hdeferred.2
    rw [edit_of_deferredValue hdeferred.1 hvalue]
    exact ⟨fun _ => Or.inr (Or.inr hdeferred), fun _ => rfl⟩
  · rw [edit_eq_of_not_deferred hdeferred]
    cases rules.classify (Lines.body raw) <;> simp [LineReading.edit, LineReading.role, hdeferred]

/-- Of the line before, only whether it is a header matters. -/
theorem edit_congr {before' : Option Text}
    (h : rules.isHeader before' = rules.isHeader before) :
    rules.edit before' raw = rules.edit before raw := by
  rw [edit, edit, h]

/-! ## The pass, line by line -/

/-- **The pass over raw lines is the line-by-line computation**, wherever the line before is no
header that still waits for its value. -/
theorem localizeFrom_eq_localizeEach (rules : Rules) (index : Nat) (lines : List Text)
    {before : Option Text} (h : rules.isHeader before = false) :
    rules.localizeFrom index lines = rules.localizeEach before index lines := by
  -- A line that was taken along as a deferred value is no header itself, so the invariant on the
  -- line before holds again behind the two lines.
  fun_induction localizeFrom rules index lines generalizing before with
  | case1 => rfl
  | case2 index raw rest field value hread ih =>
      -- an inline field
      have hraw : rules.isHeader (some raw) = false := by simp [hread, LineReading.role]
      rw [localizeEach, edit_eq_of_isHeader_eq_false h, hread, ih hraw]
      rfl
  | case3 index raw field hread =>
      -- a header on the last line
      rw [localizeEach, edit_eq_of_isHeader_eq_false h, hread]
      rfl
  | case4 index raw field hread next rest value hvalue ih =>
      -- a header that takes its value along
      have hraw : rules.isHeader (some raw) = true := by simp [hread, LineReading.role]
      have hnext : rules.isHeader (some next) = false := by
        simpa using role_classify_ne_fieldHeader hvalue rules
      rw [localizeEach, localizeEach, edit_eq_of_isHeader_eq_false h, hread,
        edit_of_deferredValue hraw hvalue, ih hnext]
      rfl
  | case5 index raw field hread next rest hvalue ih =>
      -- a header without a value behind it: to the next line it makes no difference
      have hedit : rules.edit (some raw) next = rules.edit none next := by
        rw [edit_eq_of_not_deferred (by simp [hvalue]), edit_eq_of_isHeader_eq_false rfl]
      rw [localizeEach, localizeEach, edit_eq_of_isHeader_eq_false h, hread, hedit,
        ih (isHeader_none rules), localizeEach]
      rfl
  | case6 index raw rest value hread ih =>
      -- an array item
      have hraw : rules.isHeader (some raw) = false := by simp [hread, LineReading.role]
      rw [localizeEach, edit_eq_of_isHeader_eq_false h, hread, ih hraw]
      rfl
  | case7 index raw rest hread ih =>
      -- any other line
      have hraw : rules.isHeader (some raw) = false := by simp [hread, LineReading.role]
      rw [localizeEach, edit_eq_of_isHeader_eq_false h, hread, ih hraw]
      rfl

/-- Localizing lines is localizing each of them, with the one before it at hand. -/
theorem localizeLines_eq_localizeEach (rules : Rules) (lines : List Text) :
    rules.localizeLines lines = rules.localizeEach none 0 lines :=
  localizeFrom_eq_localizeEach rules 0 lines (isHeader_none rules)

/-! ## Position by position -/

/-- The line in front of the one with index `i`. -/
def lineBefore (before : Option Text) (lines : List Text) : Nat → Option Text
  | 0 => before
  | i + 1 => lines[i]?

@[simp] theorem lineBefore_zero (before : Option Text) (lines : List Text) :
    lineBefore before lines 0 = before := rfl

@[simp] theorem lineBefore_succ (before : Option Text) (lines : List Text) (i : Nat) :
    lineBefore before lines (i + 1) = lines[i]? := rfl

/-- In front of the lines behind a first one stands that line, whatever stood in front of it. -/
theorem lineBefore_cons_succ (before : Option Text) (raw : Text) (lines : List Text) (i : Nat) :
    lineBefore before (raw :: lines) (i + 1) = lineBefore (some raw) lines i := by
  cases i <;> rfl

/-- **Each line that comes out** is the line that went in, after its edit. -/
theorem getElem?_lines_localizeEach (rules : Rules) (before : Option Text) (index : Nat)
    (lines : List Text) (i : Nat) :
    (rules.localizeEach before index lines).lines[i]? =
      lines[i]?.map fun raw => Edit.applied raw (rules.edit (lineBefore before lines i) raw) := by
  induction lines generalizing before index i with
  | nil => rfl
  | cons raw rest ih =>
      cases i with
      | zero => rfl
      | succ i =>
          rw [lineBefore_cons_succ]
          exact ih (some raw) (index + 1) i

/-- **The entries of the ledger** are those of the edited lines. -/
theorem mem_changes_localizeEach {rules : Rules} {before : Option Text} {index : Nat}
    {lines : List Text} {c : Change} :
    c ∈ (rules.localizeEach before index lines).changes ↔
      ∃ i raw e, lines[i]? = some raw ∧ rules.edit (lineBefore before lines i) raw = some e ∧
        c = e.entry (index + i) raw := by
  induction lines generalizing before index with
  | nil => simp [localizeEach, Localized.empty]
  | cons raw rest ih =>
      have hchanges : c ∈ (rules.localizeEach before index (raw :: rest)).changes ↔
          (∃ e, rules.edit before raw = some e ∧ e.entry index raw = c) ∨
            c ∈ (rules.localizeEach (some raw) (index + 1) rest).changes := by
        rw [localizeEach, Localized.put, List.mem_append, Option.mem_toList,
          Option.map_eq_some_iff]
      rw [hchanges, ih]
      constructor
      · rintro (⟨e, he, rfl⟩ | ⟨i, raw', e, hraw', he, rfl⟩)
        · exact ⟨0, raw, e, rfl, he, rfl⟩
        · refine ⟨i + 1, raw', e, hraw', ?_, ?_⟩
          · rwa [lineBefore_cons_succ]
          · rw [Nat.add_right_comm, Nat.add_assoc]
      · rintro ⟨i, raw', e, hraw', he, rfl⟩
        cases i with
        | zero =>
            obtain rfl : raw = raw' := by simpa using hraw'
            exact Or.inl ⟨e, he, rfl⟩
        | succ i =>
            rw [lineBefore_cons_succ] at he
            refine Or.inr ⟨i, raw', e, hraw', he, ?_⟩
            rw [Nat.add_right_comm, Nat.add_assoc]

/-- The line numbers in the ledger are those of the lines that went in. -/
theorem line_mem_changes_localizeEach {c : Change} {index : Nat} {lines : List Text}
    (h : c ∈ (rules.localizeEach before index lines).changes) :
    index < c.line ∧ c.line ≤ index + lines.length := by
  obtain ⟨i, raw, e, hraw, -, rfl⟩ := mem_changes_localizeEach.mp h
  have hi : i < lines.length := (List.getElem?_eq_some_iff.mp hraw).1
  rw [Edit.line_entry]
  omega

/-- **The ledger has one entry for an edited line** and none for any other. -/
theorem filter_changes_localizeEach (rules : Rules) (before : Option Text) (index : Nat)
    (lines : List Text) (i : Nat) :
    (rules.localizeEach before index lines).changes.filter (fun c => c.line = index + i + 1) =
      (lines[i]?.bind fun raw =>
        (rules.edit (lineBefore before lines i) raw).map (Edit.entry (index + i) raw)).toList := by
  induction lines generalizing before index i with
  | nil => rfl
  | cons raw rest ih =>
      rw [localizeEach, Localized.put, List.filter_append]
      cases i with
      | zero =>
          -- The entries of the later lines have larger numbers.
          have hrest : (rules.localizeEach (some raw) (index + 1) rest).changes.filter
              (fun c => c.line = index + 0 + 1) = [] := by
            rw [List.filter_eq_nil_iff]
            intro c hc
            have := (line_mem_changes_localizeEach hc).1
            simp only [decide_eq_true_eq]
            omega
          rw [hrest, List.append_nil]
          cases hedit : rules.edit before raw <;> simp [hedit]
      | succ i =>
          have hfirst : ((rules.edit before raw).map (Edit.entry index raw)).toList.filter
              (fun c => c.line = index + (i + 1) + 1) = [] := by
            cases rules.edit before raw <;> simp
          have hindex : index + (i + 1) = index + 1 + i := by omega
          rw [hfirst, List.nil_append, lineBefore_cons_succ, hindex]
          exact ih (some raw) (index + 1) i

end Rules

/-! ## The pass over a document -/

/-- **What a localized document has at an index**: the raw line there, and the entries of the ledger
for the line with that index. -/
def Localized.HasAt (r : Localized) (i : Nat) (line : Text) (entries : List Change) : Prop :=
  r.lines[i]? = some line ∧ r.changes.filter (fun c => c.line = i + 1) = entries

namespace Rules

variable {rules : Rules} {lines : List Text} {i : Nat} {raw : Text}

/-- **Whether the line in front of the one with index `i`** is a field header. -/
def AfterHeader (rules : Rules) (lines : List Text) (i : Nat) : Prop :=
  ∃ j raw, i = j + 1 ∧ lines[j]? = some raw ∧
    (rules.classify (Lines.body raw)).role = .fieldHeader

/-- The line in front is a header exactly where the line comes after one. -/
theorem isHeader_lineBefore_iff :
    rules.isHeader (lineBefore none lines i) = true ↔ rules.AfterHeader lines i := by
  constructor
  · intro h
    cases i with
    | zero => simp at h
    | succ j =>
        obtain ⟨raw, hraw, hrole⟩ := (Option.any_eq_true _ _).mp h
        exact ⟨j, raw, rfl, hraw, by simpa using hrole⟩
  · rintro ⟨j, raw, rfl, hraw, hrole⟩
    simp [hraw, hrole]

/-- An edited line and its entry are found at the line's index. -/
theorem hasAt_of_edit (hraw : lines[i]? = some raw) {e : Option Edit}
    (he : rules.edit (lineBefore none lines i) raw = e) :
    (rules.localizeLines lines).HasAt i (Edit.applied raw e)
      (e.map (Edit.entry i raw)).toList := by
  rw [localizeLines_eq_localizeEach]
  constructor
  · rw [getElem?_lines_localizeEach, hraw, Option.map_some, he]
  · have hfilter := filter_changes_localizeEach rules none 0 lines i
    rwa [hraw, Option.bind_some, he, Nat.zero_add] at hfilter

/-- The line numbers in the ledger of a document count its lines. -/
theorem line_mem_changes_localizeLines {c : Change}
    (h : c ∈ (rules.localizeLines lines).changes) : 1 ≤ c.line ∧ c.line ≤ lines.length := by
  rw [localizeLines_eq_localizeEach] at h
  have hline := line_mem_changes_localizeEach h
  omega

/-- **The line numbers in the ledger** are those of the lines that have an edit. -/
theorem succ_mem_map_line_iff :
    i + 1 ∈ (rules.localizeLines lines).changes.map Change.line ↔
      ∃ raw e, lines[i]? = some raw ∧ rules.edit (lineBefore none lines i) raw = some e := by
  rw [localizeLines_eq_localizeEach, List.mem_map]
  constructor
  · rintro ⟨c, hc, hline⟩
    obtain ⟨j, raw, e, hraw, he, rfl⟩ := mem_changes_localizeEach.mp hc
    obtain rfl : j = i := by simpa using hline
    exact ⟨raw, e, hraw, he⟩
  · rintro ⟨raw, e, hraw, he⟩
    exact ⟨e.entry (0 + i) raw, mem_changes_localizeEach.mpr ⟨i, raw, e, hraw, he, rfl⟩, by simp⟩

/-- **Each line depends on itself and the line before alone.** With a field header before it, a line
that can be a deferred value is wrapped as one; any other line is treated as its own reading asks
for. The ledger holds the entries of the changed lines and nothing else. -/
theorem localizeLines_local (rules : Rules) (lines : List Text) :
    (rules.localizeLines lines).lines.length = lines.length ∧
    (∀ c ∈ (rules.localizeLines lines).changes, 1 ≤ c.line ∧ c.line ≤ lines.length) ∧
    (∀ i raw, lines[i]? = some raw →
      (∀ v, rules.AfterHeader lines i → rules.deferredValue (Lines.body raw) = some v →
        (rules.localizeLines lines).HasAt i
          (v.indent ++ localizedValue v.literal ++ v.tail ++ Lines.ending raw)
          [⟨i + 1, .fieldHeader, Lines.body raw,
            v.indent ++ localizedValue v.literal ++ v.tail⟩]) ∧
      (¬ (rules.AfterHeader lines i ∧ (rules.deferredValue (Lines.body raw)).isSome) →
        match rules.classify (Lines.body raw) with
        | .fieldInline f v =>
          (rules.localizeLines lines).HasAt i (v.localizedField f ++ Lines.ending raw)
            [⟨i + 1, .fieldInline, Lines.body raw, v.localizedField f⟩]
        | .arrayItem v =>
          (rules.localizeLines lines).HasAt i (v.localized ++ Lines.ending raw)
            [⟨i + 1, .arrayItem, Lines.body raw, v.localized⟩]
        | .fieldHeader _ => (rules.localizeLines lines).HasAt i raw []
        | .unmatched => (rules.localizeLines lines).HasAt i raw [])) ∧
    ∀ other i, other[i]? = lines[i]? → (∀ j, i = j + 1 → other[j]? = lines[j]?) →
      (rules.localizeLines other).lines[i]? = (rules.localizeLines lines).lines[i]? := by
  refine ⟨length_lines_localizeFrom rules 0 lines, ?_, ?_, ?_⟩
  · intro c hc
    exact line_mem_changes_localizeLines hc
  · intro i raw hraw
    constructor
    · intro v hheader hv
      exact hasAt_of_edit hraw (edit_of_deferredValue (isHeader_lineBefore_iff.mpr hheader) hv)
    · intro hnot
      rw [← isHeader_lineBefore_iff] at hnot
      have hat := hasAt_of_edit hraw (edit_eq_of_not_deferred hnot)
      cases hread : rules.classify (Lines.body raw) with
      | fieldInline f v =>
          rw [hread] at hat
          exact hat
      | fieldHeader f =>
          rw [hread] at hat
          exact hat
      | arrayItem v =>
          rw [hread] at hat
          exact hat
      | unmatched =>
          rw [hread] at hat
          exact hat
  · intro other i hi hbefore
    have hline : lineBefore none other i = lineBefore none lines i := by
      cases i with
      | zero => rfl
      | succ j => exact hbefore j rfl
    rw [localizeLines_eq_localizeEach, localizeLines_eq_localizeEach, getElem?_lines_localizeEach,
      getElem?_lines_localizeEach, hi, hline]

/-- A header behind a header waits for a value of its own, which has a carriage return before its
terminator and stays short of the array indent. -/
theorem localizeLines_local_header_chain :
    (["  setup:\n", "  name:\n", " 'a: \\'b' ,\r\r\n"].map String.toList)[2]? =
      some " 'a: \\'b' ,\r\r\n".toList ∧
    standard.AfterHeader (["  setup:\n", "  name:\n", " 'a: \\'b' ,\r\r\n"].map String.toList) 2 ∧
    (standard.localizeLines
      (["  setup:\n", "  name:\n", " 'a: \\'b' ,\r\r\n"].map String.toList)).HasAt 2
        (" " ++ braced " en: 'a: \\'b' " ++ " ,\r\r\n").toList
        [⟨3, .fieldHeader, " 'a: \\'b' ,\r".toList,
          (" " ++ braced " en: 'a: \\'b' " ++ " ,\r").toList⟩] := by
  have hraw : (["  setup:\n", "  name:\n", " 'a: \\'b' ,\r\r\n"].map String.toList)[2]? =
      some " 'a: \\'b' ,\r\r\n".toList := by cbv
  have hafter : standard.AfterHeader
      (["  setup:\n", "  name:\n", " 'a: \\'b' ,\r\r\n"].map String.toList) 2 :=
    ⟨1, "  name:\n".toList, rfl, by cbv, by cbv⟩
  have hvalue : standard.deferredValue (Lines.body " 'a: \\'b' ,\r\r\n".toList) =
      some ⟨" ".toList, "'a: \\'b'".toList, " ,\r".toList⟩ := by cbv
  refine ⟨hraw, hafter, ?_⟩
  obtain ⟨-, -, hlocal, -⟩ := localizeLines_local standard
    (["  setup:\n", "  name:\n", " 'a: \\'b' ,\r\r\n"].map String.toList)
  have hat := (hlocal 2 _ hraw).1 _ hafter hvalue
  have hbody : Lines.body " 'a: \\'b' ,\r\r\n".toList = " 'a: \\'b' ,\r".toList := by cbv
  have hending : Lines.ending " 'a: \\'b' ,\r\r\n".toList = "\r\n".toList := by cbv
  rw [hbody, hending] at hat
  exact hat

end Rules

end LocaleWrap
