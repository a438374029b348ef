import LocaleWrap.CommandLine.Request
import LocaleWrap.Report.Listing
import LocaleWrap.Settings.Resolution
import LocaleWrap.Targets

/-! # A run of the program

A run is given a disk and a command line. It leaves a disk, a text for the reader, lines of notes
and log entries, and an exit status.

* **`Surroundings`** — what else a run depends on: colours, and which log entries are shown.
* **`Outcome`** — what a run leaves.
* **`Program.wrap`**, **`Program.classify`**, **`Program.rules`** — the commands.
* **`Program.run`** — the whole command line. -/

namespace LocaleWrap

/-- **What a run finds around it.** -/
structure Surroundings where
  /-- Whether texts for readers have styles. -/
  color : Bool
  /-- The filter for the log, as it was written. -/
  logFilter : String
  deriving DecidableEq, Repr, Inhabited

namespace Surroundings

/-- The lines of the log entries that are shown. -/
def shown (s : Surroundings) (events : List Log.Event) : List String :=
  (events.filter (Log.Filter.parse s.logFilter).1.admits).map Log.Event.line

/-- A line that begins with a word in a colour. -/
def marked (s : Surroundings) (style : Style) (word rest : String) : String :=
  Style.paintBold s.color style word ++ " " ++ rest

/-- The line that tells of an error. -/
def errorLine (s : Surroundings) (e : Error) : String := s.marked .red "error:" e.message

end Surroundings

/-- **What a run leaves.** -/
structure Outcome where
  disk : Disk
  /-- The text on standard output. -/
  output : String
  /-- The texts on standard error, in the order of time. -/
  notes : List String
  exitCode : Nat
  deriving Repr, Inhabited

namespace Outcome

/-- A run that prints a text and succeeds. -/
def success (d : Disk) (output : String) : Outcome := ⟨d, output, [], 0⟩

/-- A run that an error ends before it has printed or written anything. -/
def failure (s : Surroundings) (d : Disk) (e : Error) : Outcome :=
  ⟨d, "", [s.errorLine e ++ "\n"], e.exitCode⟩

/-- The outcome of a run that showed lines before. -/
def after (lines : List String) (o : Outcome) : Outcome :=
  { o with notes := lines.map (· ++ "\n") ++ o.notes }

@[simp] theorem disk_after (lines : List String) (o : Outcome) : (o.after lines).disk = o.disk :=
  rfl

@[simp] theorem output_after (lines : List String) (o : Outcome) :
    (o.after lines).output = o.output := rfl

@[simp] theorem exitCode_after (lines : List String) (o : Outcome) :
    (o.after lines).exitCode = o.exitCode := rfl

end Outcome

namespace Program

/-- A report as a JSON document, on lines of its own. -/
def document (j : Json) : String := j.pretty ++ "\n"

/-! ## Localizing files -/

/-- **The remarks before files are localized**: reports for readers say where the settings and the
files come from if the command line names no files. -/
def remarks (s : Surroundings) (settings : RunSettings) (paths : List Text) : List String :=
  if settings.output = .human ∧ paths = [] then
    (if settings.configFound then []
      else [s.marked .yellow "note:" "No locwrap.toml found; using defaults."]) ++
    (if settings.patterns.isEmpty then []
      else [s.marked .blue "info:" ("Using configured patterns: [" ++
        ", ".intercalate (settings.patterns.map Text.asString) ++ "]")])
  else []

/-- The report on a batch. -/
def batchReport (s : Surroundings) (settings : RunSettings) (batch : Batch) : String :=
  match settings.output with
  | .json => document (Report.run batch.reports settings.diff batch.stopped)
  | .human => Listing.run s.color settings.delivery settings.diff batch.reports

/-- The lines after a report on a batch. A JSON document holds the error already. -/
def closing (s : Surroundings) (settings : RunSettings) (batch : Batch) : List String :=
  match settings.output, batch.stopped with
  | .human, some e => [s.errorLine e]
  | _, _ => []

/-- **The exit status of a batch**: that of the error that ended it, or one if a check found
something to change. -/
def batchExitCode (settings : RunSettings) (batch : Batch) : Nat :=
  match batch.stopped with
  | some e => e.exitCode
  | none => if settings.check && batch.reports.any FileReport.changed then 1 else 0

/-- Localizes the collected files. -/
def wrapTargets (s : Surroundings) (d : Disk) (settings : RunSettings) (targets : List Path) :
    Outcome :=
  let batch := Rules.standard.localizeFiles settings.delivery settings.repoRoot targets d
  ⟨batch.disk, batchReport s settings batch,
    (s.shown batch.log ++ closing s settings batch).map (· ++ "\n"), batchExitCode settings batch⟩

/-- Collects the files and localizes them. -/
def wrapWith (s : Surroundings) (d : Disk) (settings : RunSettings) (paths : List Text) : Outcome :=
  let requests := Target.requests settings.repoRoot paths settings.patterns
  (match Target.collect d settings.repoRoot paths settings.patterns with
    | .error e => Outcome.failure s d e
    | .ok targets => wrapTargets s d settings targets).after
    (remarks s settings paths ++ s.shown (Target.collectLog d requests))

/-- **Localizes files.** -/
def wrap (s : Surroundings) (d : Disk) (paths : List Text) (o : Overrides) : Outcome :=
  (match o.resolve d with
    | .error e => Outcome.failure s d e
    | .ok settings => wrapWith s d settings paths).after (s.shown (o.configLog d))

/-! ## The classes of lines, and the rules -/

/-- The report on the classes of the lines of a text. -/
def classification (s : Surroundings) (settings : RunSettings) (file : Path) (text : Text)
    (changes : List Change) : String :=
  let lines := Report.classified .standard text changes
  match settings.output with
  | .json => document (Report.classification file lines)
  | .human => Listing.classification s.color lines

/-- **Shows the classes of the lines of a file.** -/
def classify (s : Surroundings) (d : Disk) (path : Text) (o : Overrides) : Outcome :=
  (match o.resolve d with
    | .error e => Outcome.failure s d e
    | .ok settings =>
      match d.readText ⟨path⟩ with
      | .error fault => Outcome.failure s d (.io ⟨path⟩ fault)
      | .ok text =>
        let localized := Rules.standard.localize text
        let file := Path.shownFrom d.cwdPath? settings.repoRoot ⟨path⟩
        (Outcome.success d (classification s settings file text localized.changes)).after
          (s.shown localized.changeLog)).after (s.shown (o.configLog d))

/-- **Shows the rules.** -/
def rules (s : Surroundings) (d : Disk) (output : Option Text) : Outcome :=
  match OutputForm.ofLabel (output.getD OutputForm.human.label.toList) with
  | .error e => Outcome.failure s d e
  | .ok .json => Outcome.success d (document (Report.rules .standard))
  | .ok .human => Outcome.success d (Listing.rules s.color .standard)

/-! ## The command line -/

open CommandLine in
/-- **Runs a request.** -/
def answer (s : Surroundings) (d : Disk) : Request → Outcome
  | .version => Outcome.success d (programVersion ++ "\n")
  | .wrap paths o => wrap s d paths o
  | .classify path o => classify s d path o
  | .rules output => rules s d output

open CommandLine in
/-- Shows why nothing is run. -/
def explain (d : Disk) (c : Complaint) : Outcome :=
  if c.isAnswer then Outcome.success d c.text else ⟨d, "", [c.text], c.exitCode⟩

open CommandLine in
/-- **Runs a command line**, given by the arguments after the program's name. -/
def run (s : Surroundings) (d : Disk) (arguments : List String) : Outcome :=
  (match Request.parse arguments with
    | .error c => explain d c
    | .ok request => answer s d request).after (Log.Filter.parse s.logFilter).2

end Program

end LocaleWrap
