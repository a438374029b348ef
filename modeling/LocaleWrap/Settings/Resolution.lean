import LocaleWrap.Batch
import LocaleWrap.Settings.Discovery

/-! # The settings of a run

What the command line asks for goes before what the configuration says, and that before the usual
values. A diff or a check never writes.

* **`Overrides`** — what the command line asks for.
* **`OutputForm`** — the form of reports.
* **`RunSettings`** — the settings of a run.
* **`Overrides.merge`** — the settings from command line and configuration.
* **`Overrides.resolve`** — the same with the configuration that is found on a disk. -/

namespace LocaleWrap

/-- **The form of reports.** -/
inductive OutputForm
  /-- Lines for readers. -/
  | human
  /-- A JSON document. -/
  | json
  deriving DecidableEq, Repr, Inhabited

namespace OutputForm

/-- The name of a form. -/
def label : OutputForm → String
  | human => "human"
  | json => "json"

/-- The form with a given name. -/
def ofLabel? (t : Text) : Option OutputForm :=
  if t = "human".toList then some human else if t = "json".toList then some json else none

/-- The form with a given name, if there is one. -/
def ofLabel (t : Text) : Except Error OutputForm :=
  match ofLabel? t with
  | some form => .ok form
  | none => .error (.config (.unknownOutput t))

end OutputForm

/-- **What the command line asks for.** -/
structure Overrides where
  repoRoot : Option Text
  output : Option Text
  dryRun : Option Bool
  outDir : Option Text
  diff : Option Bool
  check : Option Bool
  deriving DecidableEq, Repr, Inhabited

/-- **The settings of a run.** -/
structure RunSettings where
  repoRoot : Path
  /-- Whether a configuration was found. -/
  configFound : Bool
  output : OutputForm
  patterns : List Text
  delivery : Delivery
  diff : Bool
  check : Bool
  deriving DecidableEq, Repr, Inhabited

/-- **The delivery that a configuration names.** Results for another directory need its name, taken
from the root. -/
def WrapSection.delivery? (w : WrapSection) (root : Path) : Except Error Delivery :=
  match w.mode with
  | none => .ok .inPlace
  | some name =>
    if name = "overwrite".toList then .ok .inPlace
    else if name = "dry-run".toList then .ok .reportOnly
    else if name = "new-path".toList then
      match w.outDir with
      | some dir => .ok (.below (root.join ⟨dir⟩))
      | none => .error (.config .missingOutDir)
    else .error (.config (.unknownMode name))

namespace Overrides

/-- Where the search for the root begins. -/
def start (o : Overrides) : Path := ⟨o.repoRoot.getD ['.']⟩

/-- **The settings from command line and configuration** at a root. -/
def merge (o : Overrides) (root : Path) (found : Option Config) : Except Error RunSettings := do
  let config := found.getD .empty
  let wrap := config.wrap.getD .empty
  let output ← OutputForm.ofLabel ((o.output.or config.output).getD "human".toList)
  let diff := (o.diff.or wrap.diff).getD false
  let check := (o.check.or wrap.check).getD false
  let delivery ←
    if diff || check || o.dryRun == some true then .ok .reportOnly
    else match o.outDir with
      | some dir => .ok (.below ⟨dir⟩)
      | none => wrap.delivery? root
  return ⟨root, found.isSome, output, config.patterns.getD [], delivery, diff, check⟩

/-- **The settings of a run** on a disk. -/
def resolve (o : Overrides) (d : Disk) : Except Error RunSettings :=
  let root := Discovery.root d o.start
  o.merge root (Discovery.load? d root)

/-- The log of looking for the configuration. -/
def configLog (o : Overrides) (d : Disk) : List Log.Event :=
  (Discovery.find d (Discovery.root d o.start)).log

end Overrides

end LocaleWrap
