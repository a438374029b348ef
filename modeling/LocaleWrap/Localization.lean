import LocaleWrap.Ledger
import LocaleWrap.Rules.Basic
import LocaleWrap.Text.Lines

/-! # Localized documents

One pass over the raw lines of a document turns each recognised literal into a localized value.

* **`localizedValue`** — a literal as a localized value.
* **`Localized`** — the lines of a localized document with the ledger of changes.
* **`Rules.localizeLines`** — the pass over raw lines, **`Rules.localize`** over a document.

The line after a field header is its value when it is a bare literal; otherwise it is classified
like any other. -/

namespace LocaleWrap

/-- **A literal as a localized value** with English text. -/
def localizedValue (literal : Text) : Text :=
  ['{', ' ', 'e', 'n', ':', ' '] ++ literal ++ [' ', '}']

example : localizedValue "'a'".toList = (braced " en: 'a' ").toList := by cbv

/-- A line with its literal wrapped, the text around it kept. -/
def Quoted.localized (q : Quoted) : Text := q.indent ++ localizedValue q.literal ++ q.tail

/-- An inline field with its literal wrapped. One space stands between the colon and the value. -/
def Quoted.localizedField (field : Text) (q : Quoted) : Text :=
  q.indent ++ field ++ ": ".toList ++ localizedValue q.literal ++ q.tail

/-- A localized field is the indent, the name, a colon and a space, the localized value and the
tail. -/
theorem Quoted.localizedField_eq (field : Text) (q : Quoted) :
    q.localizedField field =
      q.indent ++ field ++ ':' :: ' ' :: (localizedValue q.literal ++ q.tail) := by
  simp [localizedField]

/-- **A localized document**: its raw lines, and the changes in the order of their lines. -/
structure Localized where
  lines : List Text
  changes : List Change
  deriving DecidableEq, Repr, Inhabited

namespace Localized

/-- The document without lines. -/
def empty : Localized := ⟨[], []⟩

/-- Puts a line that is kept as it is in front. -/
def keep (raw : Text) (r : Localized) : Localized := ⟨raw :: r.lines, r.changes⟩

/-- Puts a changed line in front, together with its entry in the ledger. -/
def replace (index : Nat) (rule : LineRole) (raw after : Text) (r : Localized) : Localized :=
  ⟨(after ++ Lines.ending raw) :: r.lines, ⟨index + 1, rule, Lines.body raw, after⟩ :: r.changes⟩

/-- Whether any line was changed. -/
def changed (r : Localized) : Bool := !r.changes.isEmpty

/-- The localized document as one text. -/
def text (r : Localized) : Text := r.lines.flatten

/-- How many literals each rule wrapped. -/
def counts (r : Localized) : Counts := Counts.ofChanges r.changes

end Localized

namespace Rules

/-- **Localizes raw lines**, the first of which has the given index in its document. A field header
takes the line after it along when that is a bare literal, and such a line is not classified. -/
def localizeFrom (rules : Rules) (index : Nat) : List Text → Localized
  | [] => .empty
  | raw :: rest =>
    match rules.classify (Lines.body raw) with
    | .fieldInline field value =>
      (rules.localizeFrom (index + 1) rest).replace index .fieldInline raw
        (value.localizedField field)
    | .fieldHeader _ =>
      match rest with
      | [] => Localized.empty.keep raw
      | next :: rest' =>
        match rules.deferredValue (Lines.body next) with
        | some value =>
          ((rules.localizeFrom (index + 2) rest').replace (index + 1) .fieldHeader next
            value.localized).keep raw
        | none => (rules.localizeFrom (index + 1) (next :: rest')).keep raw
    | .arrayItem value =>
      (rules.localizeFrom (index + 1) rest).replace index .arrayItem raw value.localized
    | .unmatched => (rules.localizeFrom (index + 1) rest).keep raw

/-- **Localizes the raw lines of a document.** -/
def localizeLines (rules : Rules) (lines : List Text) : Localized := rules.localizeFrom 0 lines

/-- **Localizes a document.** -/
def localize (rules : Rules) (text : Text) : Localized := rules.localizeLines (Lines.split text)

@[simp] theorem localizeFrom_nil (rules : Rules) (index : Nat) :
    rules.localizeFrom index [] = .empty := rfl

/-- **As many lines come out as went in.** -/
theorem length_lines_localizeFrom (rules : Rules) (index : Nat) (lines : List Text) :
    (rules.localizeFrom index lines).lines.length = lines.length := by
  fun_induction localizeFrom rules index lines <;>
    simp_all [Localized.empty, Localized.keep, Localized.replace]

end Rules

end LocaleWrap
