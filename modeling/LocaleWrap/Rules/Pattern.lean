import LocaleWrap.Rules.Basic
import LocaleWrap.Rules.Expression

/-! # Rules written as patterns

Each reader of lines is also known by a regular expression, which is what a listing of the rules
shows.

* **`Expression.literal`**, **`Expression.tail`**, **`Rules.namesExpression`** — the expressions for
  the parts of a line.
* **`LineReader.linePattern`**, **`Rules.deferredLinePattern`** — the patterns for whole lines, and
  **`LineReader.pattern`**, **`Rules.deferredPattern`** how they are written.
* **`Rules.ofFields`** — rules, unless their array indent is too large for an expression;
  **`PatternFault`** says in which of two ways, and `ofFields_eq_ok` where it is not. -/

namespace LocaleWrap

namespace Expression

/-- What may stand between two quotes `q`: one character, or a backslash with one. -/
def unit (q : Char) : Expression := either (except [q, '\\']) (seq (char '\\') any)

/-- The expression for a literal between two quotes `q`. -/
def quotedBy (q : Char) : Expression := seq (char q) (seq (star (unit q)) (char q))

/-- The expression for a quoted literal. -/
def literal : Expression := either (quotedBy '\'') (quotedBy '"')

/-- The expression for the tail of a value. -/
def tail (required : Bool) : Expression :=
  seq (star blank) (seq (if required then char ',' else optional (char ',')) (star blank))

end Expression

/-- The expression for one of the fields that the rules name. -/
def Rules.namesExpression (rules : Rules) : Expression :=
  .oneOf (rules.fields.map .word)

/-- **The names are written escaped**, with bars between them. -/
theorem Rules.text_namesExpression (rules : Rules) : rules.namesExpression.text =
    "|".intercalate (rules.fields.map fun f => (Expression.escape f).asString) := by
  rw [namesExpression]
  generalize rules.fields = fields
  induction fields with
  | nil => rfl
  | cons f fs ih =>
    cases fs with
    | nil => simp [Expression.oneOf]
    | cons g fs =>
      rw [List.map_cons, List.map_cons, Expression.oneOf, Expression.text, ← List.map_cons, ih]
      simp [String.intercalate_cons_cons]

/-- A literal on a line of its own, behind an indent that is given by its expression. -/
def LinePattern.bareLiteral (indent : Expression) (required : Bool) : LinePattern :=
  [.group indent, .group .literal, .group (.tail required)]

/-- The pattern for an array item behind at least so many blanks. -/
def LinePattern.arrayItem (minIndent : Nat) : LinePattern :=
  bareLiteral (.atLeast minIndent .blank) true

/-- **The pattern for the lines that a reader recognises.** -/
def LineReader.linePattern (rules : Rules) : LineReader → LinePattern
  | .fieldInline =>
    [.group (.plus .blank), .group rules.namesExpression, .plain (.char ':'),
      .plain (.plus .blank), .group .literal, .group (.tail false)]
  | .fieldHeader =>
    [.group (.plus .blank), .group rules.namesExpression, .plain (.char ':'),
      .plain (.star .blank)]
  | .arrayItem => .arrayItem rules.minIndent

/-- The pattern for the line after a field header. -/
def Rules.deferredLinePattern (_ : Rules) : LinePattern :=
  .bareLiteral (.plus .blank) false

/-- The pattern of a reader as it is written. -/
def LineReader.pattern (rules : Rules) (m : LineReader) : String := (m.linePattern rules).text

/-- The pattern for the line after a field header as it is written. -/
def Rules.deferredPattern (rules : Rules) : String := rules.deferredLinePattern.text

example : LineReader.pattern .standard .fieldInline =
    "^(\\s+)(name|description|setup):\\s+" ++
      "('(?:[^'\\\\]|\\\\.)*'|\"(?:[^\"\\\\]|\\\\.)*\")(\\s*,?\\s*)$" := by
  decide +kernel

/-! ## Array indents that are too large -/

/-- **Why there is no expression for an array indent.** -/
inductive PatternFault
  /-- The expression would take more room than is allowed. -/
  | tooLarge
  /-- The number does not fit into a count of repetitions. -/
  | countOverflow (minIndent : Nat)
  deriving DecidableEq, Repr, Inhabited

namespace PatternFault

/-- The room that a compiled expression may take, in bytes. -/
def sizeLimit : Nat := 10485760

/-- **The least array indent that is refused here** because its expression would take too much room.
It is a bound from above. How much room an expression takes depends on the compiler of expressions,
which may refuse smaller indents too, and very long names with them; the rules that it accepts are
among those that are made here. -/
def indentLimit : Nat := 100000

/-- The largest count of repetitions. -/
def countLimit : Nat := 4294967295

/-- What is wrong, in words. A number that does not fit is pointed at below its expression. -/
def message : PatternFault → String
  | tooLarge => s!"Compiled regex exceeds size limit of {sizeLimit} bytes."
  | countOverflow n =>
    let margin := "         "
    let marks := String.ofList ((toString n).toList.map fun _ => '^')
    "regex parse error:\n    " ++ (LinePattern.arrayItem n).text ++ "\n" ++ margin ++ marks ++
      "\nerror: decimal literal invalid"

end PatternFault

/-- **Rules with the given field names and array indent.** -/
def Rules.ofFields (fields : List Text) (minIndent : Nat) : Except PatternFault Rules :=
  if minIndent > PatternFault.countLimit then .error (.countOverflow minIndent)
  else if minIndent ≥ PatternFault.indentLimit then .error .tooLarge
  else .ok ⟨fields, minIndent⟩

/-- The rules that come out are the ones that were asked for. -/
theorem Rules.eq_of_ofFields {fields : List Text} {minIndent : Nat} {rules : Rules}
    (h : Rules.ofFields fields minIndent = .ok rules) : rules = ⟨fields, minIndent⟩ := by
  unfold Rules.ofFields at h
  split at h
  · cases h
  · split at h
    · cases h
    · exact (Except.ok.inj h).symm

/-- **Rules come out for every array indent below the limit.** Names are not looked at here, though
names that are long enough may be refused where expressions are compiled. -/
theorem Rules.ofFields_eq_ok {fields : List Text} {minIndent : Nat} :
    Rules.ofFields fields minIndent = .ok ⟨fields, minIndent⟩ ↔
      minIndent < PatternFault.indentLimit := by
  unfold Rules.ofFields PatternFault.countLimit PatternFault.indentLimit
  split
  · simp; omega
  · split
    · simp; omega
    · simp; omega

end LocaleWrap
