import LocaleWrap.Error
import LocaleWrap.Localization
import LocaleWrap.Log
import LocaleWrap.Path.Containment
import LocaleWrap.Tree.Disk

/-! # Localized files

Files are localized one after the other. The first one that fails ends the batch; what was done
before it stays done.

* **`Delivery`** — what becomes of a localized text.
* **`FileReport`** — what was done to one file.
* **`Rules.localizeFile`** — reads, localizes and delivers one file.
* **`Rules.localizeFiles`** — does so for each target in turn. -/

namespace LocaleWrap

/-- **What becomes of a localized text.** -/
inductive Delivery
  /-- It takes the place of the file. -/
  | inPlace
  /-- It is only reported on. -/
  | reportOnly
  /-- It goes below a directory, to where its file lies below the repository root. -/
  | below (dir : Path)
  deriving DecidableEq, Repr, Inhabited

namespace Delivery

/-- The name that settings and listings use. -/
def label : Delivery → String
  | inPlace => "overwrite"
  | reportOnly => "dry-run"
  | below _ => "new-path"

/-- Whether files are written. -/
def writes : Delivery → Bool
  | reportOnly => false
  | _ => true

end Delivery

/-- **What was done to one file.** -/
structure FileReport where
  /-- The file as it is shown. -/
  file : Path
  /-- Where the localized text went, as it is shown. -/
  target : Option Path
  changed : Bool
  wrote : Bool
  /-- The number of its lines. -/
  lines : Nat
  wrapped : Counts
  changes : List Change
  deriving DecidableEq, Repr, Inhabited

/-! ## One file -/

/-- **Where a file lies below the root**, or the bare name of a file elsewhere. -/
def Path.belowRoot (cwd : Option Path) (root p : Path) : Path :=
  match Path.insideOf? cwd root p with
  | some q => q
  | none => match p.fileName? with
    | some name => ⟨name⟩
    | none => p

/-- Writes a text at a path below a directory, after the directories in between. -/
def Disk.writeBelow (d : Disk) (dest : Path) (t : Text) : Disk × Except Error Unit :=
  match dest.parent? with
  | none =>
    match d.writeText dest t with
    | .ok d' => (d', .ok ())
    | .error fault => (d, .error (.io dest fault))
  | some parent =>
    match d.makeDirectories parent with
    | (d', some fault) => (d', .error (.io parent fault))
    | (d', none) =>
      match d'.writeText dest t with
      | .ok d'' => (d'', .ok ())
      | .error fault => (d', .error (.io dest fault))

/-- **Delivers a localized text**, and tells where it went. -/
def Delivery.deliver (delivery : Delivery) (root p : Path) (t : Text) (d : Disk) :
    Disk × Except Error (Option Path) :=
  match delivery with
  | reportOnly => (d, .ok none)
  | inPlace =>
    match d.writeText p t with
    | .ok d' => (d', .ok (some p))
    | .error fault => (d, .error (.io p fault))
  | below dir =>
    let dest := dir.join (Path.belowRoot d.cwdPath? root p)
    match d.writeBelow dest t with
    | (d', .ok _) => (d', .ok (some dest))
    | (d', .error e) => (d', .error e)

/-- **The outcome for one file**: the disk it leaves, the report or error, and the log. -/
structure Attempt where
  disk : Disk
  outcome : Except Error FileReport
  log : List Log.Event

/-- The log of the changes to a document. -/
def Localized.changeLog (l : Localized) : List Log.Event :=
  l.changes.map fun c =>
    ⟨.trace, "locwrap::rewrite", "wrapped literal",
      [("line", .count c.line), ("rule", .quoted (Text.ofString c.rule.label))]⟩

/-- The log of a localized file: an entry for each change, and one for the file. -/
def Localized.log (l : Localized) (delivery : Delivery) (p : Path) : List Log.Event :=
  l.changeLog ++
  [⟨.debug, "locwrap::wrap", "rewrote file",
    [("file", .shown p.asString), ("mode", .quoted (Text.ofString delivery.label)),
     ("lines", .count l.lines.length), ("changes", .count l.changes.length)]⟩]

/-- The report on a file that was localized and delivered. -/
def Localized.report (l : Localized) (cwd : Option Path) (root p : Path) (target : Option Path) :
    FileReport where
  file := Path.shownFrom cwd root p
  target := target.map (Path.shownFrom cwd root)
  changed := l.changed
  wrote := target.isSome
  lines := l.lines.length
  wrapped := l.counts
  changes := l.changes

/-- **Reads, localizes and delivers one file.** -/
def Rules.localizeFile (rules : Rules) (delivery : Delivery) (root p : Path) (d : Disk) :
    Attempt :=
  match d.readText p with
  | .error fault => ⟨d, .error (.io p fault), []⟩
  | .ok t =>
    let localized := rules.localize t
    let log := localized.log delivery p
    match delivery.deliver root p localized.text d with
    | (d', .ok target) => ⟨d', .ok (localized.report d'.cwdPath? root p target), log⟩
    | (d', .error e) => ⟨d', .error e, log⟩

/-! ## A batch -/

/-- **The outcome of a batch**: the disk it leaves, the reports on the files before the one that
failed, and why that one failed. -/
structure Batch where
  disk : Disk
  reports : List FileReport
  stopped : Option Error
  log : List Log.Event

/-- The entry for the file that ends a batch. -/
def Error.abortEvent (e : Error) (p : Path) : Log.Event :=
  ⟨.debug, "locwrap::wrap", "aborting batch",
    [("file", .shown p.asString), ("error", .shown e.message)]⟩

/-- **Localizes each target in turn**, up to the first that fails. -/
def Rules.localizeFiles (rules : Rules) (delivery : Delivery) (root : Path) :
    List Path → Disk → Batch
  | [], d => ⟨d, [], none, []⟩
  | p :: ps, d =>
    let attempt := rules.localizeFile delivery root p d
    match attempt.outcome with
    | .error e => ⟨attempt.disk, [], some e, attempt.log ++ [e.abortEvent p]⟩
    | .ok report =>
      let rest := rules.localizeFiles delivery root ps attempt.disk
      ⟨rest.disk, report :: rest.reports, rest.stopped, attempt.log ++ rest.log⟩

@[simp] theorem Rules.localizeFiles_nil (rules : Rules) (delivery : Delivery) (root : Path)
    (d : Disk) :
    rules.localizeFiles delivery root [] d = ⟨d, [], none, []⟩ := rfl

end LocaleWrap
