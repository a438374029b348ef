import LocaleWrap.Json
import LocaleWrap.Report.Diff
import LocaleWrap.Rules.Pattern
import LocaleWrap.Summary

/-! # Reports as documents

* **`Report.run`** — what a batch did, as a JSON value.
* **`Report.ClassifiedLine`**, **`Report.classified`** — the class of each line of a document, and
  what became of it; **`Report.classification`** as a JSON value.
* **`Report.rules`** — the readers of a rule set, as a JSON value. -/

namespace LocaleWrap

namespace Report

/-! ## What a batch did -/

/-- The counts of wrapped literals. -/
def counts (t : Counts) : Json :=
  .object [("inline", .count t.inline), ("deferred", .count t.deferred), ("items", .count t.items)]

/-- The counts of a run. -/
def summary (s : Summary) : Json :=
  .object [("files", .count s.files), ("changed", .count s.changed), ("wrote", .count s.wrote),
    ("wrapped", counts s.wrapped)]

/-- The diff of a report, where one is asked for and there is something to show. -/
def diffOf (diff : Bool) (r : FileReport) : Option Text :=
  if diff && r.changed then some (Diff.render r.changes) else none

/-- What was done to one file. -/
def file (diff : Bool) (r : FileReport) : Json :=
  .object [("file", .string r.file.asString), ("target", .ofOption (r.target.map Path.asString)),
    ("changed", .bool r.changed), ("wrote", .bool r.wrote), ("lines", .count r.lines),
    ("wrapped", counts r.wrapped), ("diff", .ofOption ((diffOf diff r).map Text.asString))]

/-- **What a batch did**: its files, their counts, and the error that ended it. -/
def run (reports : List FileReport) (diff : Bool) (error : Option Error) : Json :=
  .object [("results", .array (reports.map (file diff))),
    ("summary", summary (Summary.ofReports reports)),
    ("error", .ofOption (error.map Error.message))]

/-! ## The classes of lines -/

/-- **A line of a document with its role**, and its text afterwards if it was changed. -/
structure ClassifiedLine where
  line : Nat
  role : LineRole
  body : Text
  localized : Option Text
  deriving DecidableEq, Repr, Inhabited

/-- The change on a line. Of several the last counts. -/
def changeAt? (changes : List Change) (line : Nat) : Option Change :=
  changes.reverse.find? fun c => c.line == line

/-- The classes of raw lines, the first of which has the given number. -/
def classifiedFrom (rules : Rules) (changes : List Change) : Nat → List Text → List ClassifiedLine
  | _, [] => []
  | line, raw :: rest =>
    ⟨line, (rules.classify (Lines.body raw)).role, Lines.body raw,
      (changeAt? changes line).map Change.after⟩ :: classifiedFrom rules changes (line + 1) rest

/-- **The classes of the lines of a document.** Each line is classified by itself; whether it was
changed is read off the ledger. -/
def classified (rules : Rules) (text : Text) (changes : List Change) : List ClassifiedLine :=
  classifiedFrom rules changes 1 (Lines.split text)

/-- One line with its class. -/
def classifiedLine (l : ClassifiedLine) : Json :=
  .object [("line", .count l.line), ("kind", .string l.role.label),
    ("rewritten", .ofOption (l.localized.map Text.asString))]

/-- **The classes of the lines of a file.** -/
def classification (file : Path) (lines : List ClassifiedLine) : Json :=
  .object [("file", .string file.asString), ("lines", .array (lines.map classifiedLine))]

/-! ## The rules -/

/-- The readers of a rule set, numbered from the given number on. -/
def matchersFrom (set : Rules) : Nat → List LineReader → List Json
  | _, [] => []
  | n, m :: ms =>
    .object [("priority", .count n), ("kind", .string m.role.label),
      ("pattern", .string (m.pattern set))] :: matchersFrom set (n + 1) ms

/-- **The readers of a rule set** in the order in which they are tried. -/
def rules (set : Rules) : Json :=
  .object [("matchers", .array (matchersFrom set 1 LineReader.inOrder)),
    ("continuation", .string set.deferredPattern)]

end Report

end LocaleWrap
