import LocaleWrap.Error
import LocaleWrap.Log
import LocaleWrap.Settings.FromToml
import LocaleWrap.Settings.FromYaml
import LocaleWrap.Tree.Disk

/-! # Finding the settings

* **`Discovery.root`** — the repository root above a directory: where a configuration file or a
  repository mark is.
* **`Discovery.find`** — what the configuration file at a root amounts to.
* **`Discovery.load?`** — its settings; a file that cannot be read or understood gives none, and no
  other file is looked at in its place. -/

namespace LocaleWrap

namespace Discovery

/-- **The forms of configuration files.** -/
inductive Form
  | toml
  | yaml
  deriving DecidableEq, Repr, Inhabited

/-- The settings that a text gives in a form. -/
def Form.read? : Form → Text → Option Config
  | toml, t => Config.ofToml? t
  | yaml, t => Config.ofYaml? t

/-- **The names of configuration files**, in the order in which they are looked for. -/
def configFiles : List (Text × Form) :=
  [("locwrap.toml".toList, .toml), ("locwrap.yaml".toList, .yaml), ("locwrap.yml".toList, .yaml)]

/-- The mark of a repository. -/
def repositoryMark : Text := ".git".toList

/-- The entries that make a directory a root. -/
def marks : List Text := configFiles.map (·.1) ++ [repositoryMark]

/-- Whether a directory has an entry that makes it a root. -/
def isRoot (d : Disk) (p : Path) : Bool := marks.any fun name => d.contains (p.child name)

/-- **The root for a start**: the first of its ancestors, as they are written, that is one; or the
start itself where none is. -/
def root (d : Disk) (start : Path) : Path := (start.ancestors.find? (isRoot d)).getD start

/-! ## The configuration file -/

/-- **What the configuration file at a root amounts to.** -/
inductive Found
  /-- There is none. -/
  | absent
  /-- It cannot be read. -/
  | unreadable (file : Path) (fault : FileFault)
  /-- What it says cannot be understood. -/
  | invalid (file : Path)
  /-- It gives settings. -/
  | settings (config : Config)
  deriving DecidableEq, Repr, Inhabited

/-- What a file of the given form amounts to. -/
def examine (d : Disk) (file : Path) (form : Form) : Found :=
  match d.readText file with
  | .error fault => .unreadable file fault
  | .ok t =>
    match form.read? t with
    | some config => .settings config
    | none => .invalid file

/-- **The first configuration file at a root decides.** -/
def findAmong (d : Disk) (root : Path) : List (Text × Form) → Found
  | [] => .absent
  | (name, form) :: files =>
    if d.contains (root.child name) then examine d (root.child name) form
    else findAmong d root files

/-- What the configuration file at a root amounts to. -/
def find (d : Disk) (root : Path) : Found := findAmong d root configFiles

/-- The settings that were found. -/
def Found.config? : Found → Option Config
  | settings config => some config
  | _ => none

/-- The log of a configuration file that gives no settings. -/
def Found.log : Found → List Log.Event
  | unreadable file fault =>
    [⟨.warn, "locwrap::config", "cannot read config",
      [("path", .shown file.asString), ("error", .shown fault.message)]⟩]
  | invalid file =>
    [⟨.warn, "locwrap::config", "ignoring invalid config",
      [("path", .shown file.asString), ("error", .shown "malformed configuration")]⟩]
  | _ => []

/-- **The settings at a root**, if there are any. -/
def load? (d : Disk) (root : Path) : Option Config := (find d root).config?

end Discovery

end LocaleWrap
