import LocaleWrap.Batch
import LocaleWrap.Glob.Expansion

/-! # The files to work on

* **`Target.Request`** — a path or glob pattern for files.
* **`Target.requests`** — those of a run: the given paths, or else the configured patterns.
* **`Target.collect`** — the files that the requests stand for, one block per request. -/

namespace LocaleWrap

namespace Target

/-- **A request for files**: a path, which may be a pattern. -/
structure Request where
  path : Path
  isPattern : Bool
  deriving DecidableEq, Repr, Inhabited

/-- **The requests of a run.** Configured patterns are taken from the root, and count only where no
path is given. -/
def requests (root : Path) (paths patterns : List Text) : List Request :=
  if paths.isEmpty then patterns.map fun t => ⟨root.join ⟨t⟩, Glob.isPattern t⟩
  else paths.map fun t => ⟨⟨t⟩, Glob.isPattern t⟩

/-- **The files that a request stands for.** A path stands for itself, whether it is there or
not. -/
def Request.files (d : Disk) (r : Request) : Except Error (List Path) :=
  if r.isPattern then
    match Glob.Pattern.parse r.path.text with
    | .error fault => .error (.glob r.path.text fault)
    | .ok pattern => .ok (Glob.files d pattern)
  else .ok [r.path]

/-- The entry for a pattern that stands for no file. -/
def Request.emptyEvent (r : Request) : Log.Event :=
  ⟨.warn, "locwrap::wrap", "glob matched no files", [("pattern", .quoted r.path.text)]⟩

/-- The log of collecting: an entry for each pattern without a file, up to the first pattern that
cannot be read. -/
def collectLog (d : Disk) : List Request → List Log.Event
  | [] => []
  | r :: rs =>
    match r.files d with
    | .error _ => []
    | .ok [] => r.emptyEvent :: collectLog d rs
    | .ok _ => collectLog d rs

/-- The files of several requests, in their order. -/
def collectAll (d : Disk) : List Request → Except Error (List Path)
  | [] => .ok []
  | r :: rs => (r.files d).bind fun block => (collectAll d rs).map (block ++ ·)

/-- **The files to work on.** Without any there is nothing to do, which is an error. -/
def collect (d : Disk) (root : Path) (paths patterns : List Text) : Except Error (List Path) :=
  (collectAll d (requests root paths patterns)).bind fun targets =>
    if targets.isEmpty then .error .noInputs else .ok targets

end Target

end LocaleWrap
