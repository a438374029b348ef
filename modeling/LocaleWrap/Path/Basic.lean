import LocaleWrap.Text.Basic

/-! # Paths

A path is kept as it was written; what it says is read off its components. Nothing here looks at a
file tree.

* **`Path`** — a path as written; **`Path.components`** its components.
* **`Path.join`** — a path taken relative to another.
* **`Path.parents`** — the paths above a path, the nearest first.
* **`Path.fileName?`** — the name that a path ends in; **`Path.IsName`** — what a name can be.
* **`Path.le`** — the order of paths, component by component. -/

namespace LocaleWrap

/-- **A path** as it was written. -/
structure Path where
  text : Text
  deriving DecidableEq, Repr, Inhabited

/-- **A component of a path.** -/
inductive Component
  /-- The root of the file system, at the front of an absolute path. -/
  | root
  /-- The directory itself: a dot at the front of a relative path. -/
  | current
  /-- The directory above. -/
  | parent
  /-- An entry of a directory. -/
  | normal (name : Text)
  deriving DecidableEq, Repr, Inhabited

namespace Component

/-- The component as it stands in a path. -/
def text : Component → Text
  | root => ['/']
  | current => ['.']
  | parent => ['.', '.']
  | normal name => name

/-- Whether the component is an entry's name. -/
def isNormal : Component → Bool
  | normal _ => true
  | _ => false

/-- The kinds of components in their order. -/
def rank : Component → Nat
  | root => 0
  | current => 1
  | parent => 2
  | normal _ => 3

/-- **The order of components**: by kind, and names character by character. -/
def less (a b : Component) : Bool :=
  match a, b with
  | normal m, normal n => m < n
  | _, _ => a.rank < b.rank

end Component

namespace Path

/-- The path as a string. -/
def asString (p : Path) : String := p.text.asString

instance : ToString Path := ⟨asString⟩

/-- The path that a string writes. -/
def ofString (s : String) : Path := ⟨Text.ofString s⟩

/-- Whether the path begins at the root. -/
def isAbsolute (p : Path) : Bool := p.text.head? == some '/'

/-! ## Components -/

/-- Whether a piece between slashes says nothing: it is empty or a dot. -/
def isIdle (piece : Text) : Bool := piece == [] || piece == ['.']

/-- **A name of an entry**: it has no slash, and it is neither idle nor a step up. -/
def IsName (t : Text) : Prop := '/' ∉ t ∧ isIdle t = false ∧ t ≠ ['.', '.']

instance (t : Text) : Decidable (IsName t) := inferInstanceAs (Decidable (_ ∧ _ ∧ _))

/-- The component that a piece between slashes stands for. -/
def componentOf (piece : Text) : Component := if piece = ['.', '.'] then .parent else .normal piece

/-- The components that pieces between slashes stand for. -/
def componentsOf (pieces : List Text) : List Component :=
  (pieces.filter fun p => !isIdle p).map componentOf

/-- **How a path begins**: at the root, with a dot of its own, or with neither; and the text that
comes after. -/
def opening : Text → List Component × Text
  | '/' :: rest => ([.root], rest)
  | ['.'] => ([.current], [])
  | '.' :: '/' :: rest => ([.current], '/' :: rest)
  | rest => ([], rest)

/-- **The components of a path.** Slashes that follow each other count once, and a dot counts only
at the front of a relative path. -/
def components (p : Path) : List Component :=
  (opening p.text).1 ++ componentsOf (Text.pieces '/' (opening p.text).2)

/-- The path made of the given components. -/
def ofComponents (cs : List Component) : Path :=
  match cs with
  | .root :: cs => ⟨'/' :: Text.joinWith ['/'] (cs.map Component.text)⟩
  | cs => ⟨Text.joinWith ['/'] (cs.map Component.text)⟩

/-- **The path `q` taken from the directory `p`.** An absolute path stays as it is. -/
def join (p q : Path) : Path :=
  if q.isAbsolute then q
  else if p.text = [] ∨ p.text.getLast? = some '/' then ⟨p.text ++ q.text⟩
  else ⟨p.text ++ '/' :: q.text⟩

/-- An entry of the directory `p`. -/
def child (p : Path) (name : Text) : Path := p.join ⟨name⟩

@[simp] theorem join_of_isAbsolute {p q : Path} (h : q.isAbsolute = true) : p.join q = q := by
  simp [join, h]

/-! ## The paths above -/

/-- Pieces without the idle ones in front. -/
def dropIdle (pieces : List Text) : List Text := pieces.dropWhile isIdle

/-- **What is left of a path's pieces, last one first, as its components are taken off** one by one,
without idle pieces at the end. -/
def stems : List Text → List (List Text)
  | [] => []
  | p :: ps => if isIdle p then stems ps else dropIdle ps :: stems ps

/-- **The paths above a path**, the nearest first, down to the root or, for a relative path, to the
empty path. -/
def parents (p : Path) : List Path :=
  let head := (opening p.text).1
  let above := (stems (Text.pieces '/' (opening p.text).2).reverse).map fun ps =>
    (⟨(head.map Component.text).flatten ++ Text.joinWith ['/'] ps.reverse⟩ : Path)
  if head = [.current] then above ++ [⟨[]⟩] else above

/-- The path above a path. -/
def parent? (p : Path) : Option Path := p.parents.head?

/-- A path and the paths above it. -/
def ancestors (p : Path) : List Path := p :: p.parents

/-- **The name that a path ends in**, if its last component is one. -/
def fileName? (p : Path) : Option Text :=
  match p.components.getLast? with
  | some (.normal name) => some name
  | _ => none

/-! ## The order of paths -/

/-- Whether a list of components comes before or is another one. -/
def componentsLe : List Component → List Component → Bool
  | [], _ => true
  | _ :: _, [] => false
  | a :: as, b :: bs => a.less b || (a == b && componentsLe as bs)

/-- **The order of paths**: component by component, so that what lies in a directory follows it
before any sibling with a longer name. -/
def le (p q : Path) : Bool := componentsLe p.components q.components

end Path

end LocaleWrap
