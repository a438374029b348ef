import LocaleWrap.Path.Basic
import LocaleWrap.Tree.Basic
import LocaleWrap.Tree.Fault

/-! # Reading and writing by path

A disk is a file tree with a working directory. Paths are followed name by name, as the system does:
a step up leaves the directory that has been reached, and every step needs a directory to start
from.

* **`Disk`** — tree and working directory.
* **`Disk.locate`** — the location that a path leads to.
* **`Disk.readText`**, **`Disk.isFile`**, **`Disk.isDirectory`**, **`Disk.contains`** — questions.
* **`Disk.writeText`**, **`Disk.makeDirectory`**, **`Disk.makeDirectories`**, **`Disk.remove`** —
  changes; **`Disk.moveTo`** moves the working directory. -/

namespace LocaleWrap

/-- **A disk**: what it holds and where relative paths begin. -/
structure Disk where
  tree : Tree
  cwd : Location
  deriving DecidableEq, Repr, Inhabited

namespace Disk

/-- The working directory as a path, as long as it is there. -/
def cwdPath? (d : Disk) : Option Path :=
  if d.tree.isDirectory d.cwd then some ⟨'/' :: Text.joinWith ['/'] d.cwd⟩ else none

/-! ## Following a path -/

/-- The number of bytes that a path must stay below. -/
def pathLimit : Nat := 4096

/-- **One step from a location.** -/
def step (t : Tree) (l : Location) (piece : Text) : Except FileFault Location :=
  match t.get? l with
  | none => .error .notFound
  | some (.file _) => .error .notDirectory
  | some .directory =>
    if Path.isIdle piece then .ok l
    else if piece = ['.', '.'] then .ok l.dropLast
    else if piece.byteLength > nameLimit then .error .nameTooLong
    else if (t.get? (l ++ [piece])).isSome then .ok (l ++ [piece])
    else .error .notFound

/-- Several steps, one after the other. -/
def walk (t : Tree) (l : Location) : List Text → Except FileFault Location
  | [] => .ok l
  | piece :: pieces => (step t l piece).bind fun m => walk t m pieces

/-- Where a path begins. -/
def origin (d : Disk) (p : Path) : Location := if p.isAbsolute then [] else d.cwd

/-- Whether a path can be followed at all. -/
def permit (p : Path) : Except FileFault Unit :=
  if '\x00' ∈ p.text then .error .nulInPath
  else if p.text = [] then .error .notFound
  else if p.text.byteLength ≥ pathLimit then .error .nameTooLong
  else .ok ()

/-- **The location that a path leads to.** -/
def locate (d : Disk) (p : Path) : Except FileFault Location :=
  (permit p).bind fun _ => walk d.tree (d.origin p) (Text.pieces '/' p.text)

/-- The entry that a path leads to. -/
def entry (d : Disk) (p : Path) : Except FileFault Entry :=
  (d.locate p).bind fun l =>
    match d.tree.get? l with
    | some e => .ok e
    | none => .error .notFound

/-- Whether the path leads to anything. -/
def contains (d : Disk) (p : Path) : Bool := (d.entry p).toBool

/-- Whether the path leads to a directory. -/
def isDirectory (d : Disk) (p : Path) : Bool :=
  match d.entry p with
  | .ok .directory => true
  | _ => false

/-- Whether the path leads to a file. -/
def isFile (d : Disk) (p : Path) : Bool :=
  match d.entry p with
  | .ok (.file _) => true
  | _ => false

/-- **The text of the file that a path leads to.** -/
def readText (d : Disk) (p : Path) : Except FileFault Text :=
  (d.entry p).bind fun
    | .directory => .error .isDirectory
    | .file contents =>
      match contents.text? with
      | some t => .ok t
      | none => .error .notText

/-! ## Changes -/

/-- The pieces of a path without the slashes at its end, and whether there was one. -/
def solidPieces (p : Path) : List Text × Bool :=
  let pieces := Text.pieces '/' p.text
  ((pieces.reverse.dropWhile (· == [])).reverse, pieces.getLast? == some [])

/-- **Where a path wants something made**: the location of its last name, in a directory that is
there. `dots` is the fault of a path that ends in no name. -/
def place (d : Disk) (p : Path) (dots : FileFault) : Except FileFault Location :=
  (permit p).bind fun _ =>
    let pieces := (solidPieces p).1
    (walk d.tree (d.origin p) pieces.dropLast).bind fun l =>
      match d.tree.get? l with
      | none => .error .notFound
      | some (.file _) => .error .notDirectory
      | some .directory =>
        match pieces.getLast? with
        | none => .error dots
        | some name =>
          if Path.isIdle name ∨ name = ['.', '.'] then .error dots
          else if name.byteLength > nameLimit then .error .nameTooLong
          else .ok (l ++ [name])

/-- **Writes a file**, which may be there already. A fault leaves the disk as it is. -/
def write (d : Disk) (p : Path) (contents : Contents) : Except FileFault Disk :=
  (d.place p .isDirectory).bind fun l =>
    if (solidPieces p).2 ∨ d.tree.isDirectory l then .error .isDirectory
    else .ok { d with tree := d.tree.insert l (.file contents) }

/-- Writes a file that holds a text. -/
def writeText (d : Disk) (p : Path) (t : Text) : Except FileFault Disk := d.write p (.text t)

/-- **Makes a directory** in one that is there. -/
def makeDirectory (d : Disk) (p : Path) : Except FileFault Disk :=
  (d.place p .alreadyExists).bind fun l =>
    if (d.tree.get? l).isSome then .error .alreadyExists
    else .ok { d with tree := d.tree.insert l .directory }

/-- Makes the first path a directory, after the paths above it where these are missing. What was
made before a fault stays. -/
def makeAll (d : Disk) : List Path → Disk × Option FileFault
  | [] => (d, none)
  | p :: above =>
    if p.text = [] then (d, none)
    else match d.makeDirectory p with
      | .ok d' => (d', none)
      | .error .notFound =>
        match makeAll d above with
        | (d', some fault) => (d', some fault)
        | (d', none) =>
          match d'.makeDirectory p with
          | .ok d'' => (d'', none)
          | .error fault => (d', if d'.isDirectory p then none else some fault)
      | .error fault => (d, if d.isDirectory p then none else some fault)

/-- **Makes a directory and those above it that are missing.** -/
def makeDirectories (d : Disk) (p : Path) : Disk × Option FileFault := d.makeAll p.ancestors

/-- **Removes an entry** with everything below it. -/
def remove (d : Disk) (p : Path) : Except FileFault Disk :=
  (d.locate p).map fun l => { d with tree := d.tree.erase l }

/-- **Moves the working directory.** -/
def moveTo (d : Disk) (p : Path) : Except FileFault Disk :=
  (d.locate p).bind fun l =>
    if d.tree.isDirectory l then .ok { d with cwd := l } else .error .notDirectory

@[simp] theorem cwd_makeAll (d : Disk) (ps : List Path) : (d.makeAll ps).1.cwd = d.cwd := by
  have made : ∀ {d d' : Disk} {p : Path}, d.makeDirectory p = .ok d' → d'.cwd = d.cwd := by
    intro d d' p h
    simp only [makeDirectory, Except.bind] at h
    split at h
    · simp at h
    · split at h
      · simp at h
      · obtain rfl := by simpa using h
        rfl
  fun_induction makeAll d ps <;> grind

end Disk

end LocaleWrap
