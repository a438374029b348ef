import LocaleWrap.Yaml.Written

/-! # YAML documents as nodes

* **`Yaml.Node`** — a node of a document. An alias names the anchored node that it stands for.
* **`Yaml.Document`** — a node with the anchored nodes; **`Yaml.Document.resolve?`** follows an
  alias.
* **`Yaml.Written.compose`** — gives the anchors of a written node their numbers.
* **`Yaml.Document.parse?`** — the one document that a text holds. -/

namespace LocaleWrap

namespace Yaml

/-- **A node of a document.** -/
inductive Node
  | scalar (tag : Option Text) (style : ScalarStyle) (text : Text)
  | sequence (items : List Node)
  | mapping (pairs : List (Node × Node))
  | alias (anchor : Nat)
  deriving Repr, Inhabited

/-- **A document**: its node, if there is one, and the anchored nodes by number. -/
structure Document where
  node : Option Node
  anchored : List (Nat × Node)
  deriving Repr, Inhabited

/-- The node that an alias stands for; any other node stands for itself. -/
def Document.resolve? (d : Document) : Node → Option Node
  | .alias n => d.anchored.lookup n
  | n => some n

/-! ## Anchors -/

/-- **What is known of anchors** in the course of a document: the number that each name has at this
point, how many numbers there are, and the anchored nodes that are complete. -/
structure Anchors where
  numbers : List (Text × Nat)
  count : Nat
  complete : List (Nat × Node)
  deriving Repr, Inhabited

/-- A step that numbers anchors. -/
abbrev Anchoring := StateT Anchors Option

namespace Anchoring

/-- The number for an anchor, if a node has one. A later anchor of that name takes it over. -/
def number? : Option Text → Anchoring (Option Nat)
  | none => pure none
  | some name => fun s =>
    some (some s.count, { s with numbers := (name, s.count) :: s.numbers, count := s.count + 1 })

/-- Keeps a node under its number. -/
def keep (number : Option Nat) (n : Node) : Anchoring Node :=
  match number with
  | none => pure n
  | some k => fun s => some (n, { s with complete := (k, n) :: s.complete })

/-- The node that the anchor of a name stands for at this point. -/
def alias? (name : Text) : Anchoring Node := fun s =>
  (s.numbers.lookup name).map fun k => (.alias k, s)

end Anchoring

namespace Written

open Anchoring

mutual

/-- **The node that is written**, with numbers for its anchors. A node has its number before its
parts have theirs, and can be an alias of itself. -/
def compose : Written → Anchoring Node
  | .alias name => alias? name
  | .scalar anchor tag style text => do
    let number ← number? anchor
    keep number (.scalar tag style text)
  | .sequence anchor items => do
    let number ← number? anchor
    let items ← composeItems items
    keep number (.sequence items)
  | .mapping anchor pairs => do
    let number ← number? anchor
    let pairs ← composePairs pairs
    keep number (.mapping pairs)

/-- The items of a sequence in their order. -/
def composeItems : List Written → Anchoring (List Node)
  | [] => pure []
  | n :: ns => do
    let m ← compose n
    let ms ← composeItems ns
    pure (m :: ms)

/-- The pairs of a mapping in their order, each key before its value. -/
def composePairs : List (Written × Written) → Anchoring (List (Node × Node))
  | [] => pure []
  | (key, value) :: ps => do
    let k ← compose key
    let v ← compose value
    let qs ← composePairs ps
    pure ((k, v) :: qs)

end

end Written

/-- **The one document that a text holds.** -/
def Document.parse? (t : Text) : Option Document := do
  match ← Written.document? (← Token.scan? t) with
  | none => return ⟨none, []⟩
  | some n => do
    let (root, s) ← n.compose.run ⟨[], 0, []⟩
    return ⟨some root, s.complete⟩

end Yaml

end LocaleWrap
