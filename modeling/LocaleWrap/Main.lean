import LocaleWrap.Program

/-! # The program

A run works on a disk that is a value. Before it, the part of the file system that it will ask for
is read into such a disk; after it, what it changed is written back.

* **`Survey`** — reading the file system along a path, and below a directory.
* **`Commit`** — writing back.
* **`main`** — the program. -/

namespace LocaleWrap

/-- The path of a location as a string. -/
def Location.pathString (l : Location) : String := "/" ++ (Text.joinWith ['/'] l).asString

/-! ## Reading -/

namespace Survey

/-- What stands at a location: a directory, or a file with its contents if they are wanted. -/
def entryAt? (l : Location) (wanted : Bool) : IO (Option Entry) := do
  let place := (← IO.currentDir) / l.pathString
  match ← place.metadata.toBaseIO with
  | .error _ => return none
  | .ok data =>
    if data.type == .dir then return some .directory
    else if !wanted then return some (.file (.text []))
    else match ← (IO.FS.readBinFile place).toBaseIO with
      | .ok bytes => return some (.file (.ofBytes bytes.toList))
      | .error _ => return none

/-- Reads what stands at a location into a disk. -/
def single (d : Disk) (l : Location) (wanted : Bool) : IO Disk := do
  match ← entryAt? l wanted with
  | some e => return { d with tree := d.tree.insert l e }
  | none => return d

/-- Reads the entries on the way of a path, and what it leads to. -/
def along (d : Disk) (p : Path) : IO Disk := do
  let mut disk := d
  let mut place := if p.isAbsolute then [] else d.cwd
  for piece in Text.pieces '/' p.text do
    if piece = ['.', '.'] then place := place.dropLast
    else if !Path.isIdle piece then
      place := place ++ [piece]
      disk ← single disk place true
  return disk

/-- Reads the names below a directory, without the contents of files: as many levels as `reach`
says, or all. -/
partial def below (d : Disk) (l : Location) (reach : Option Nat) : IO Disk := do
  if reach = some 0 then return d
  let place := (← IO.currentDir) / l.pathString
  let mut disk := d
  for name in (← (place.readDir).toBaseIO).toOption.getD #[] do
    let next := l ++ [Text.ofString name.fileName]
    let kept := (disk.tree.get? next).isSome
    unless kept do disk ← single disk next false
    if disk.tree.isDirectory next then disk ← below disk next (reach.map (· - 1))
  return disk

/-- The front of a pattern, up to the first name with a wildcard: the working directory if the
pattern begins with one. -/
def front (p : Path) : Path :=
  match (Text.pieces '/' p.text).takeWhile fun t => !Glob.isPattern t with
  | [] => ⟨['.']⟩
  | plain => ⟨Text.joinWith ['/'] plain ++ ['/']⟩

/-- How many levels a pattern goes down from its front, unless it goes down at any depth. -/
def reach? (p : Path) : Option Nat :=
  let wild := (Text.pieces '/' p.text).dropWhile fun t => !Glob.isPattern t
  if wild.contains ['*', '*'] then none else some wild.length

/-- Reads all that may make a directory or one above it a root, for a given start. -/
def marks (d : Disk) (start : Path) : IO Disk :=
  start.ancestors.foldlM (fun d p =>
    Discovery.marks.foldlM (fun d name => along d (p.child name)) d) d

/-- Reads what a request for files stands for. -/
def request (d : Disk) (r : Target.Request) : IO Disk := do
  if !r.isPattern then return d
  let start := front r.path
  let d ← along d start
  match d.locate start with
  | .ok l => below d l (reach? r.path)
  | .error _ => return d

/-- Reads what the localizing of files asks for. -/
def wrap (d : Disk) (paths : List Text) (o : Overrides) : IO Disk := do
  match o.resolve d with
  | .error _ => return d
  | .ok settings =>
    let requests := Target.requests settings.repoRoot paths settings.patterns
    let d ← requests.foldlM request d
    let targets := (Target.collectAll d requests).toOption.getD []
    let d ← targets.foldlM along d
    match settings.delivery with
    | .below dir =>
      targets.foldlM (fun d p =>
        along d (dir.join (Path.belowRoot d.cwdPath? settings.repoRoot p))) d
    | _ => return d

/-- **Reads the part of the file system that a command line asks for.** -/
def disk (arguments : List String) : IO Disk := do
  let here := Path.ofString (← IO.currentDir).toString
  let cwd := (Text.pieces '/' here.text).filter fun t => !Path.isIdle t
  let d ← along ⟨.empty, cwd⟩ here
  match CommandLine.Request.parse arguments with
  | .ok (.wrap paths o) => wrap (← marks d o.start) paths o
  | .ok (.classify path o) => along (← marks d o.start) ⟨path⟩
  | _ => return d

end Survey

/-! ## Writing -/

namespace Commit

/-- Writes an entry to the file system. -/
def entry (l : Location) : Entry → IO Unit
  | .directory => IO.FS.createDirAll l.pathString
  | .file (.text t) => IO.FS.writeFile l.pathString t.asString
  | .file (.binary bytes) => IO.FS.writeBinFile l.pathString ⟨bytes.val.toArray⟩

/-- **Writes what a run changed**, the earliest change first. -/
def changes (before after : Tree) : IO Unit :=
  after.entries.reverse.forM fun (l, e) => do
    unless before.get? l == some e do entry l e

end Commit

end LocaleWrap

open LocaleWrap in
/-- **The program.** Colours are on unless the environment says otherwise. -/
def main (arguments : List String) : IO UInt32 := do
  let color := (← IO.getEnv "NO_COLOR").isNone
  let filter := (← IO.getEnv "RUST_LOG").getD ""
  let disk ← Survey.disk arguments
  let outcome := Program.run ⟨color, filter⟩ disk arguments
  Commit.changes disk.tree outcome.disk.tree
  (← IO.getStdout).putStr outcome.output
  outcome.notes.forM (← IO.getStderr).putStr
  return UInt32.ofNat outcome.exitCode
