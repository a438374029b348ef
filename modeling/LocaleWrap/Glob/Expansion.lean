import LocaleWrap.Glob.Pattern
import LocaleWrap.Tree.Disk

/-! # The paths that a glob pattern stands for

* **`Glob.expand`** — the paths on a disk that a pattern stands for.
* **`Glob.files`** — those that lead to files, in the order of paths. -/

namespace LocaleWrap

namespace Glob

/-- Whether a path stands for the working directory, whose entries are shown by their names. -/
def isHere (p : Path) : Bool := p.components == [.current]

/-- The path of an entry of a directory. -/
def entryPath (p : Path) (name : Text) : Path := if isHere p then ⟨name⟩ else p.child name

/-- The location of the directory that a path leads to. -/
def directoryAt? (d : Disk) (p : Path) : Option Location :=
  if d.isDirectory p then (d.locate p).toOption else none

/-- **The entries of a directory whose names a pattern accepts.** The directory itself and the one
above count as entries where the pattern begins with a dot. -/
def entriesMatching (d : Disk) (p : Path) (ts : List Token) : List Path :=
  match directoryAt? d p with
  | none => []
  | some l =>
    let dots := if ts.head? = some (.char '.') then [['.'], ['.', '.']] else []
    ((dots.filter (matchName ts)).map p.child) ++
      ((d.tree.childNames l).filter (matchName ts)).map (entryPath p)

/-- The entry of a directory that a name without wildcards stands for. -/
def entryNamed (d : Disk) (p : Path) (name : Text) : List Path :=
  let next := entryPath p name
  let found := if name = ['.'] ∨ name = ['.', '.'] then d.isDirectory p else d.contains next
  if found then [next] else []

/-- **Everything below a directory at any depth**: path, last name, and whether it is a
directory. -/
def entriesBelow (d : Disk) (p : Path) : List (Path × Text × Bool) :=
  match directoryAt? d p with
  | none => []
  | some l => (d.tree.below l).map fun (names, e) =>
    (entryPath p (Text.joinWith ['/'] names), names.getLastD [], e == .directory)

/-- **The paths that parts of a pattern stand for**, taken from a path. -/
def expandParts (d : Disk) : List Part → Path → List Path
  | [], p => [p]
  | .name ts :: parts, p =>
    (match literal? ts with
      | some name => entryNamed d p name
      | none => entriesMatching d p ts).flatMap (expandParts d parts)
  | [.anyDepth], p =>
    (entriesBelow d p).filterMap fun (q, _, isDir) => if isDir then some q else none
  | .anyDepth :: .name ts :: parts, p =>
    ((entriesBelow d p).filter fun (_, name, _) => matchName ts name).flatMap
      fun (q, _, _) => expandParts d parts q
  | .anyDepth :: .anyDepth :: parts, p => expandParts d (.anyDepth :: parts) p

/-- **The paths that a pattern stands for.** -/
def expand (d : Disk) (pattern : Pattern) : List Path :=
  if pattern.parts = [] then []
  else
    (expandParts d pattern.parts ⟨if pattern.absolute then ['/'] else ['.']⟩).filter
      fun p => !pattern.wantsDirectory || d.isDirectory p

/-- **The files that a pattern stands for**, in the order of paths. -/
def files (d : Disk) (pattern : Pattern) : List Path :=
  ((expand d pattern).filter d.isFile).mergeSort Path.le

end Glob

end LocaleWrap
