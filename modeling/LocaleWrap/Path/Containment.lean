import LocaleWrap.Path.Basic

/-! # Where one path lies below another

Containment is decided on components alone: `..` is never resolved.

* **`Path.difference`** — the way from one list of components to another.
* **`Path.insideOf?`** — the way from a directory to a path strictly below it.
* **`Path.shownFrom`** — a path as it is shown to a reader at a directory. -/

namespace LocaleWrap

namespace Path

/-- **The way from `base` to `target`**, both component lists. The common front is skipped; each
component left in `base` is a step up. There is no way out of a directory that is left by `..`. -/
def difference : List Component → List Component → Option (List Component)
  | [], target => some target
  | base, [] => some (base.map fun _ => .parent)
  | b :: base, t :: target =>
    if t = b then difference base target
    else if b = .parent then none
    else some (.parent :: base.map (fun _ => .parent) ++ t :: target)

/-- An absolute form of the path: itself, or the path taken from the working directory, if there is
one. -/
def anchored? (cwd : Option Path) (p : Path) : Option Path :=
  if p.isAbsolute then some p else cwd.map (·.join p)

/-- **The way from `root` to a path strictly below it**, made of names only. -/
def insideOf? (cwd : Option Path) (root p : Path) : Option Path := do
  let base ← root.anchored? cwd
  let full ← p.anchored? cwd
  let way ← difference base.components full.components
  if way ≠ [] ∧ way.all Component.isNormal then some (ofComponents way) else none

/-- **A path as it is shown at `root`**: the way to it if it lies below, or else as it is
written. -/
def shownFrom (cwd : Option Path) (root p : Path) : Path := (insideOf? cwd root p).getD p

end Path

end LocaleWrap
