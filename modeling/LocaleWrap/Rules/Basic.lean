import LocaleWrap.Rules.Role
import LocaleWrap.Rules.Literal

/-! # Rules and what lines are by them

Rules say which fields hold text to be localized and how deep an array item is indented. They
classify one line at a time, without its terminator and without looking at its neighbours.

* **`Quoted`** — a literal found on a line, with the indent before it and the tail after it.
* **`LineReading`** — what a line is read as; **`LineReading.role`** its role.
* **`Rules`** — field names and array indent; **`Rules.standard`** the usual ones.
* **`LineReader`** — the three readers of lines; **`Rules.classify`** tries them in order.
* **`Rules.deferredValue`** — the reader for the line after a field header.

Where a line can be read in several ways, the longest indent wins, and then the field name that is
listed first. -/

namespace LocaleWrap

/-- **A literal on its line**: the text before it, the literal with its quotes, the text after. -/
structure Quoted where
  indent : Text
  literal : Text
  tail : Text
  deriving DecidableEq, Repr, Inhabited

/-- **What a line is read as.** -/
inductive LineReading
  /-- The named field with its literal. The indent is that of the field. -/
  | fieldInline (field : Text) (value : Quoted)
  /-- The named field, its value to come. -/
  | fieldHeader (field : Text)
  /-- A literal that is an item of a list. -/
  | arrayItem (value : Quoted)
  /-- None of these. -/
  | unmatched
  deriving DecidableEq, Repr, Inhabited

/-- The role that a line is read in. -/
def LineReading.role : LineReading → LineRole
  | fieldInline .. => .fieldInline
  | fieldHeader .. => .fieldHeader
  | arrayItem .. => .arrayItem
  | unmatched => .unmatched

/-- **Rules**: the names of the fields whose text is localized, and the least number of blanks in
front of an array item. -/
structure Rules where
  fields : List Text
  minIndent : Nat
  deriving DecidableEq, Repr, Inhabited

/-! ## Readers for the parts of a line -/

/-- **Whether a text is the tail of a value**: blanks with one comma among them, or with none where
the comma is not `required`. -/
def isTail (required : Bool) (t : Text) : Bool :=
  match t.trimStart with
  | [] => !required
  | c :: cs => c == ',' && cs.all Text.isBlank

/-- **Reads behind a non-empty indent.** The longest indent after which `next` succeeds wins. -/
def behindIndent {α : Type} (next : Text → Option α) : Text → Option (Text × α)
  | [] => none
  | c :: cs =>
    if Text.isBlank c then
      match behindIndent next cs with
      | some (indent, a) => some (c :: indent, a)
      | none => (next cs).map fun a => ([c], a)
    else none

/-- **Reads behind one of the names and a colon.** The first name after which `next` succeeds
wins. -/
def behindName {α : Type} (names : List Text) (next : Text → Option α) (t : Text) :
    Option (Text × α) :=
  names.findSome? fun name => ((name ++ [':']).isPrefixOf? t).bind fun rest =>
    (next rest).map fun a => (name, a)

/-- A literal and its tail. -/
def literalAndTail (required : Bool) (t : Text) : Option (Text × Text) :=
  (Literal.read t).bind fun p => if isTail required p.2 then some p else none

/-- The value of an inline field: blanks, a literal and its tail. -/
def inlineValue (t : Text) : Option (Text × Text) :=
  if t.leadingBlanks = [] then none else literalAndTail false t.trimStart

/-- The end of a field header: blanks only. -/
def headerEnd (t : Text) : Option Unit := if t.all Text.isBlank then some () else none

/-- **A literal behind at least `least` blanks**, which all belong to its indent. -/
def bareLiteral (least : Nat) (required : Bool) (line : Text) : Option Quoted :=
  if least ≤ line.leadingBlanks.length then
    (literalAndTail required line.trimStart).map fun p => ⟨line.leadingBlanks, p.1, p.2⟩
  else none

namespace Rules

/-- **The usual rules**: three fields, and array items six deep. -/
def standard : Rules := ⟨["name".toList, "description".toList, "setup".toList], 6⟩

/-- The field names that the readers try. Without any, a field has the empty name. -/
def names (rules : Rules) : List Text := if rules.fields = [] then [[]] else rules.fields

/-- Where there are fields, they are the names that are looked for. -/
theorem names_eq_fields {rules : Rules} (h : rules.fields ≠ []) : rules.names = rules.fields :=
  if_neg h

/-- The literal on the line after a field header. -/
def deferredValue (_ : Rules) (line : Text) : Option Quoted := bareLiteral 1 false line

end Rules

/-! ## The readers of lines -/

/-- **The readers for the three roles that are recognised.** -/
inductive LineReader
  | fieldInline
  | fieldHeader
  | arrayItem
  deriving DecidableEq, Repr, Inhabited

namespace LineReader

/-- The role that a reader recognises. -/
def role : LineReader → LineRole
  | fieldInline => .fieldInline
  | fieldHeader => .fieldHeader
  | arrayItem => .arrayItem

/-- The readers in the order in which they are tried. -/
def inOrder : List LineReader := [fieldInline, fieldHeader, arrayItem]

/-- **Reads a line in one role.** -/
def read (rules : Rules) (line : Text) : LineReader → Option LineReading
  | fieldInline => (behindIndent (behindName rules.names inlineValue) line).map
      fun (indent, field, literal, tail) => .fieldInline field ⟨indent, literal, tail⟩
  | fieldHeader => (behindIndent (behindName rules.names headerEnd) line).map
      fun (_, field, _) => .fieldHeader field
  | arrayItem => (bareLiteral rules.minIndent true line).map .arrayItem

end LineReader

namespace Rules

/-- What the first of some readers that succeeds makes of a line. -/
def classifyWith (readers : List LineReader) (rules : Rules) (line : Text) : LineReading :=
  (readers.findSome? (LineReader.read rules line)).getD .unmatched

/-- **What a line is**, by the first reader that succeeds. -/
def classify (rules : Rules) (line : Text) : LineReading :=
  rules.classifyWith LineReader.inOrder line

end Rules

end LocaleWrap
