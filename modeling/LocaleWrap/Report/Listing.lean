import LocaleWrap.Report.Document
import LocaleWrap.Report.Style

/-! # Reports for readers

The same reports as lines of text, with styles where the terminal has them.

* **`Listing.run`** — what a batch did.
* **`Listing.classification`** — the class of each line of a document.
* **`Listing.rules`** — the readers of a rule set. -/

namespace LocaleWrap

namespace Listing

open Style

/-- A text filled up with spaces on the right. -/
def padRight (width : Nat) (s : String) : String :=
  s ++ String.ofList (List.replicate (width - s.length) ' ')

/-- A text filled up with spaces on the left. -/
def padLeft (width : Nat) (s : String) : String :=
  String.ofList (List.replicate (width - s.length) ' ') ++ s

/-- Lines as one text. -/
def unlines (lines : List String) : String := String.join (lines.map (· ++ "\n"))

/-! ## What a batch did -/

/-- The counts of wrapped literals. -/
def counts (t : Counts) : String :=
  s!"{t.total} wrapped (inline={t.inline} deferred={t.deferred} items={t.items})"

/-- What was done to a file. -/
def deed (delivery : Delivery) (changed : Bool) : String :=
  match delivery with
  | .reportOnly => if changed then "would transform:" else "no changes:"
  | .inPlace => "transformed:"
  | .below _ => "written:"

/-- Where the localized text went, if not to its file. -/
def destination (delivery : Delivery) (target : Option Path) : String :=
  match delivery, target with
  | .below _, some t => " -> " ++ t.asString
  | _, _ => ""

/-- The notice of one file. -/
def notice (color : Bool) (delivery : Delivery) (r : FileReport) : String :=
  let label := deed delivery r.changed
  (if r.changed || delivery.writes then paintBold color green label else paint color faint label) ++
    " " ++ paint color bold r.file.asString ++ destination delivery r.target ++
    " (" ++ counts r.wrapped ++ ")"

/-- The lines on one file: its notice, and the diff where one is shown. -/
def file (color : Bool) (delivery : Delivery) (diff : Bool) (r : FileReport) : List String :=
  notice color delivery r ::
    match Report.diffOf diff r with
    | none => []
    | some d =>
      [paintBold color cyan "---" ++ " " ++ paint color bold r.file.asString, d.asString]

/-- The line with the counts of a run. -/
def summary (color : Bool) (s : Summary) : String :=
  paint color bold
    (s!"— Summary — files={s.files} changed={s.changed} wrote={s.wrote} " ++ counts s.wrapped)

/-- **What a batch did**: the lines on each file, and the counts. -/
def run (color : Bool) (delivery : Delivery) (diff : Bool) (reports : List FileReport) : String :=
  unlines (reports.flatMap (file color delivery diff) ++
    [summary color (Summary.ofReports reports)])

/-! ## The classes of lines -/

/-- One line with its number, a mark if it was changed, and its role. -/
def classifiedLine (color : Bool) (l : Report.ClassifiedLine) : String :=
  let mark := if l.localized.isSome then "✎" else " "
  let tag := padRight 12 l.role.label
  let style := if l.role = .unmatched then faint else cyan
  padLeft 5 (toString l.line) ++ " " ++ paint color green mark ++ " " ++ paint color style tag ++
    " │ " ++ l.body.asString

/-- **The classes of the lines of a document.** -/
def classification (color : Bool) (lines : List Report.ClassifiedLine) : String :=
  unlines (lines.map (classifiedLine color))

/-! ## The rules -/

/-- The readers of a rule set, numbered from the given number on. -/
def matchersFrom (color : Bool) (set : Rules) : Nat → List LineReader → List String
  | _, [] => []
  | n, m :: ms =>
    (toString n ++ ". " ++ paint color bold (padRight 12 m.role.label) ++ " " ++ m.pattern set) ::
      matchersFrom color set (n + 1) ms

/-- **The readers of a rule set**, with the reader for the line after a field header and what
becomes of all other lines. -/
def rules (color : Bool) (set : Rules) : String :=
  unlines (matchersFrom color set 1 LineReader.inOrder ++
    ["   " ++ padRight 12 "value-line" ++ " " ++ set.deferredPattern,
     "   " ++ padRight 12 LineRole.unmatched.label ++ " anything else passes through"])

end Listing

end LocaleWrap
