import LocaleWrap.Settings.Config
import LocaleWrap.Yaml.Node

/-! # Settings in YAML

* **`Config.ofYaml?`** — the settings that a YAML document gives. Members without a meaning are
  passed over; a member of the wrong kind, or one that is there twice, spoils the document. A text
  without a document gives no setting. -/

namespace LocaleWrap

namespace Yaml

/-- The tag of a scalar that stands for nothing. -/
def nullTag : Text := "tag:yaml.org,2002:null".toList

/-- The tag of a truth value. -/
def boolTag : Text := "tag:yaml.org,2002:bool".toList

/-- Whether a text stands for nothing. -/
def isNull (t : Text) : Bool :=
  t ∈ ["null".toList, "Null".toList, "NULL".toList, "~".toList]

namespace Document

/-- **The text of a scalar**, whatever its tag. -/
def text? (d : Document) (n : Node) : Option Text :=
  match d.resolve? n with
  | some (.scalar _ _ t) => some t
  | _ => none

/-- **A truth value**: one of six words, written plainly, or as a literal with the tag for it. -/
def boolean? (d : Document) (n : Node) : Option Bool :=
  match d.resolve? n with
  | some (.scalar tag style t) =>
    if style = .plain ∨ (style = .literal ∧ tag = some boolTag) then
      if t ∈ ["true".toList, "True".toList, "TRUE".toList] then some true
      else if t ∈ ["false".toList, "False".toList, "FALSE".toList] then some false
      else none
    else none
  | _ => none

/-- **The texts of a sequence.** A plain scalar without text is one without items. -/
def texts? (d : Document) (n : Node) : Option (List Text) :=
  match d.resolve? n with
  | some (.sequence items) => items.mapM d.text?
  | some (.scalar _ .plain []) => some []
  | _ => none

/-- **The members of a mapping**, whose keys are all scalars. A plain scalar without text is one
without members. -/
def members? (d : Document) (n : Node) : Option (List (Text × Node)) :=
  match d.resolve? n with
  | some (.mapping pairs) => pairs.mapM fun p => (d.text? p.1).map fun key => (key, p.2)
  | some (.scalar _ .plain []) => some []
  | _ => none

/-- **Whether a node stands for a setting that is missing**: a plain scalar for nothing. With a tag
it is missing only where the tag says so, and with that tag it can be nothing else. -/
def isMissing? (d : Document) (n : Node) : Option Bool :=
  match d.resolve? n with
  | none => none
  | some (.scalar tag .plain t) =>
    match tag with
    | none => some (t.isEmpty || isNull t)
    | some tag => if tag = nullTag then (if isNull t then some true else none) else some false
  | some _ => some false

/-- A member that may be missing, but has to be of the kind that is asked for and must not be there
twice. -/
def optional? {α : Type} (d : Document) (kind : Node → Option α) (name : String)
    (ms : List (Text × Node)) : Option (Option α) :=
  match ms.filter fun m => m.1 == name.toList with
  | [] => some none
  | [(_, n)] => do
    if ← d.isMissing? n then return none else (kind n).map some
  | _ => none

/-- The section on localizing. -/
def section? (d : Document) (n : Node) : Option WrapSection := do
  let ms ← d.members? n
  let mode ← d.optional? d.text? "mode" ms
  let outDir ← d.optional? d.text? "out_dir" ms
  let diff ← d.optional? d.boolean? "diff" ms
  let check ← d.optional? d.boolean? "check" ms
  return ⟨mode, outDir, diff, check⟩

end Document

end Yaml

/-- **The settings that a YAML document gives.** -/
def Config.ofYaml? (t : Text) : Option Config := do
  let d ← Yaml.Document.parse? t
  match d.node with
  | none => return .empty
  | some n => do
    let ms ← d.members? n
    let output ← d.optional? d.text? "output" ms
    let patterns ← d.optional? d.texts? "patterns" ms
    let wrap ← d.optional? d.section? "wrap" ms
    return ⟨output, patterns, wrap⟩

end LocaleWrap
