/-! # The roles of lines

* **`LineRole`** — the structural role of a line in a record file, with its **`LineRole.label`**. -/

namespace LocaleWrap

/-- **The structural role of a line.** -/
inductive LineRole
  /-- A field and its text on one line. -/
  | fieldInline
  /-- A field whose value begins on the next line. -/
  | fieldHeader
  /-- An item of a list: a deeply indented text with a comma. -/
  | arrayItem
  /-- Any other line. -/
  | unmatched
  deriving DecidableEq, Repr, Inhabited

namespace LineRole

/-- The name by which reports call a role. -/
def label : LineRole → String
  | fieldInline => "field-inline"
  | fieldHeader => "field-header"
  | arrayItem => "array-item"
  | unmatched => "unmatched"

/-- The role with a given name. -/
def ofLabel? : String → Option LineRole
  | "field-inline" => some fieldInline
  | "field-header" => some fieldHeader
  | "array-item" => some arrayItem
  | "unmatched" => some unmatched
  | _ => none

@[simp] theorem ofLabel?_label (k : LineRole) : ofLabel? k.label = some k := by
  cases k <;> rfl

end LineRole

end LocaleWrap
