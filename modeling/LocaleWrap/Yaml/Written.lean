import LocaleWrap.Text.Found
import LocaleWrap.Yaml.Scanner

/-! # YAML nodes as they are written

* **`Yaml.Written`** — a node with its anchor and tag, in which aliases are names.
* **`Yaml.Written.node`** — reads a node from the tokens; a reader for each of its parts stands
  beside it.
* **`Yaml.Written.document?`** — the one node of the tokens of a document.

Each reader goes on with the tokens that the one before has left. These become fewer, except where a
part is missing; then the reader around it has taken a token. -/

namespace LocaleWrap

namespace Yaml

/-- **A node as it is written.** -/
inductive Written
  | alias (name : Text)
  | scalar (anchor tag : Option Text) (style : ScalarStyle) (text : Text)
  | sequence (anchor : Option Text) (items : List Written)
  | mapping (anchor : Option Text) (pairs : List (Written × Written))
  deriving Repr, Inhabited

namespace Written

/-- A node that is not written at all. -/
def blank : Written := .scalar none none .plain []

/-- The tag that a handle and a suffix make up. -/
def tagOf? (handles : List (Text × Text)) (handle suffix : Text) : Option Text :=
  if handle = [] then some suffix else (handles.lookup handle).map fun front => front ++ suffix

section Readers

variable (handles : List (Text × Text))

/-- The anchor and the tag in front of a node, in either order. -/
def properties? (ts : List Token) :
    Option (Found Token (Option Text × Option Text) (ts.length + 1)) := do
  match ← next? ts with
  | ⟨.anchor name, r, _⟩ => do
    match next? r with
    | some ⟨.tag handle suffix, u, _⟩ => do
      let tag ← tagOf? handles handle suffix
      return ⟨(some name, some tag), u, by omega⟩
    | _ => return ⟨(some name, none), r, by omega⟩
  | ⟨.tag handle suffix, r, _⟩ => do
    let tag ← tagOf? handles handle suffix
    match next? r with
    | some ⟨.anchor name, u, _⟩ => return ⟨(some name, some tag), u, by omega⟩
    | _ => return ⟨(none, some tag), r, by omega⟩
  | _ => return ⟨(none, none), ts, by omega⟩

/-- The comma in front of an item, except of the first. -/
def separator? (first : Bool) (ts : List Token) : Option (Found Token Unit (ts.length + 1)) := do
  if first then return ⟨(), ts, by omega⟩
  else
    let ⟨.comma, r, _⟩ ← next? ts | none
    return ⟨(), r, by omega⟩

mutual

/-- **A node.** Blocks count only with `block`; dashes without a block of their own only with
`loose`. Where no text and no items follow its anchor and its tag, a node has to have one of
them. -/
def node (block loose : Bool) (ts : List Token) : Option (Found Token Written ts.length) := do
  match next? ts with
  | some ⟨.alias name, r, _⟩ => return ⟨.alias name, r, by omega⟩
  | _ => do
    let ⟨(anchor, tag), r, _⟩ ← properties? handles ts
    let ⟨t, u, _⟩ ← next? r
    match t, block, loose with
    | .scalar style text, _, _ =>
      return ⟨.scalar anchor (if tag = some ['!'] then none else tag) style text, u, by omega⟩
    | .openBracket, _, _ => do
      let ⟨items, u, _⟩ ← bracketItems true u
      return ⟨.sequence anchor items, u, by omega⟩
    | .openBrace, _, _ => do
      let ⟨pairs, u, _⟩ ← bracePairs true u
      return ⟨.mapping anchor pairs, u, by omega⟩
    | .sequenceBlock, true, _ => do
      let ⟨items, u, _⟩ ← dashItems u
      return ⟨.sequence anchor items, u, by omega⟩
    | .mappingBlock, true, _ => do
      let ⟨pairs, u, _⟩ ← blockPairs u
      return ⟨.mapping anchor pairs, u, by omega⟩
    | .dash, _, true => do
      let ⟨items, u, _⟩ ← looseItems u
      return ⟨.sequence anchor items, u, by omega⟩
    | _, _, _ =>
      if h : r.length < ts.length then return ⟨.scalar anchor tag .plain [], r, h⟩ else none
termination_by 4 * ts.length + 1
decreasing_by all_goals omega

/-- A node that is missing where one of some tokens stands. -/
def part (ends : List Token) (block loose : Bool) (ts : List Token) :
    Option (Found Token Written (ts.length + 1)) :=
  if ts.head?.any (· ∈ ends) then some ⟨blank, ts, by omega⟩
  else (node block loose ts).map (Found.mono (by omega))
termination_by 4 * ts.length + 2
decreasing_by omega

/-- The items of a block, each after its dash. -/
def dashItems (ts : List Token) : Option (Found Token (List Written) ts.length) := do
  match ← next? ts with
  | ⟨.blockEnd, r, _⟩ => return ⟨[], r, by omega⟩
  | ⟨.dash, r, _⟩ => do
    let ⟨item, r, _⟩ ← part [.dash, .blockEnd] true false r
    let ⟨items, r, _⟩ ← dashItems r
    return ⟨item :: items, r, by omega⟩
  | _ => none
termination_by 4 * ts.length
decreasing_by all_goals omega

/-- Items that stand right below a key, read after the first dash. -/
def looseItems (ts : List Token) : Option (Found Token (List Written) (ts.length + 1)) := do
  let ⟨item, r, _⟩ ← part [.dash, .key, .value, .blockEnd] true false ts
  match next? r with
  | some ⟨.dash, u, _⟩ => do
    let ⟨items, u, _⟩ ← looseItems u
    return ⟨item :: items, u, by omega⟩
  | _ => return ⟨[item], r, by omega⟩
termination_by 4 * ts.length + 3
decreasing_by all_goals omega

/-- The pairs of a block. -/
def blockPairs (ts : List Token) : Option (Found Token (List (Written × Written)) ts.length) := do
  match ← next? ts with
  | ⟨.blockEnd, r, _⟩ => return ⟨[], r, by omega⟩
  | ⟨.key, r, _⟩ => do
    let ⟨key, r, _⟩ ← part [.key, .value, .blockEnd] true true r
    let ⟨value, r, _⟩ ← valuePart [.key, .value, .blockEnd] true true r
    let ⟨pairs, r, _⟩ ← blockPairs r
    return ⟨(key, value) :: pairs, r, by omega⟩
  | _ => none
termination_by 4 * ts.length
decreasing_by all_goals omega

/-- The value behind a key. Without a mark for it, it is missing. -/
def valuePart (ends : List Token) (block loose : Bool) (ts : List Token) :
    Option (Found Token Written (ts.length + 1)) :=
  match next? ts with
  | some ⟨.value, r, _⟩ => (part ends block loose r).map (Found.mono (by omega))
  | _ => some ⟨blank, ts, by omega⟩
termination_by 4 * ts.length
decreasing_by omega

/-- The items between brackets. A pair may stand for a mapping of its own. -/
def bracketItems (first : Bool) (ts : List Token) :
    Option (Found Token (List Written) ts.length) := do
  if ts.head? = some .closeBracket then
    let ⟨_, r, _⟩ ← next? ts
    return ⟨[], r, by omega⟩
  else
    let ⟨_, r, _⟩ ← separator? first ts
    match ← next? r with
    | ⟨.closeBracket, u, _⟩ => return ⟨[], u, by omega⟩
    | ⟨.key, u, _⟩ => do
      let ⟨pair, u, _⟩ ← bracketPair u
      let ⟨items, u, _⟩ ← bracketItems false u
      return ⟨.mapping none [pair] :: items, u, by omega⟩
    | _ => do
      let ⟨item, u, _⟩ ← node false false r
      let ⟨items, u, _⟩ ← bracketItems false u
      return ⟨item :: items, u, by omega⟩
termination_by 4 * ts.length + 2
decreasing_by all_goals omega

/-- A pair between brackets, after its mark for a key. Where the key is missing, the token that
stands in its place is passed. -/
def bracketPair (ts : List Token) : Option (Found Token (Written × Written) ts.length) := do
  let ⟨t, r, _⟩ ← next? ts
  let ⟨key, r, _⟩ : Found Token Written ts.length ←
    if t ∈ [.value, .comma, .closeBracket] then some ⟨blank, r, by omega⟩
    else node false false ts
  let ⟨value, r, _⟩ ← valuePart [.comma, .closeBracket] false false r
  return ⟨(key, value), r, by omega⟩
termination_by 4 * ts.length + 2
decreasing_by all_goals omega

/-- The pairs between braces. -/
def bracePairs (first : Bool) (ts : List Token) :
    Option (Found Token (List (Written × Written)) ts.length) := do
  if ts.head? = some .closeBrace then
    let ⟨_, r, _⟩ ← next? ts
    return ⟨[], r, by omega⟩
  else
    let ⟨_, r, _⟩ ← separator? first ts
    match ← next? r with
    | ⟨.closeBrace, u, _⟩ => return ⟨[], u, by omega⟩
    | ⟨.key, u, _⟩ => do
      let ⟨key, u, _⟩ ← part [.value, .comma, .closeBrace] false false u
      let ⟨value, u, _⟩ ← valuePart [.comma, .closeBrace] false false u
      let ⟨pairs, u, _⟩ ← bracePairs false u
      return ⟨(key, value) :: pairs, u, by omega⟩
    | _ => do
      let ⟨key, u, _⟩ ← node false false r
      let ⟨pairs, u, _⟩ ← bracePairs false u
      return ⟨(key, blank) :: pairs, u, by omega⟩
termination_by 4 * ts.length + 2
decreasing_by all_goals omega

end

end Readers

/-! ## Documents -/

/-- The tag handles that every document has. -/
def usualHandles : List (Text × Text) :=
  [(['!'], ['!']), (['!', '!'], "tag:yaml.org,2002:".toList)]

/-- **The directives in front of a document**: one version at most, which has to be 1.1 or 1.2, and
no tag handle twice. The handles come out with those that every document has. -/
def directives? (versioned : Bool) (handles : List (Text × Text)) :
    List Token → Option (List (Text × Text) × List Token)
  | .version major minor :: ts =>
    if versioned ∨ major ≠ 1 ∨ (minor ≠ 1 ∧ minor ≠ 2) then none else directives? true handles ts
  | .tagHandle handle expansion :: ts =>
    if (handles.lookup handle).isSome then none
    else directives? versioned (handles ++ [(handle, expansion)]) ts
  | ts => some (handles ++ usualHandles, ts)

/-- Whether only marks for the ends of documents come before the end of the text. -/
def finishes : List Token → Bool
  | .documentEnd :: ts => finishes ts
  | .streamEnd :: _ => true
  | _ => false

/-- Whether a document begins with directives or a mark. -/
def isMarked : List Token → Bool
  | .version .. :: _ => true
  | .tagHandle .. :: _ => true
  | .documentStart :: _ => true
  | _ => false

/-- Whether a document is over where its node would begin. -/
def isOver : List Token → Bool
  | .documentEnd :: _ => true
  | .streamEnd :: _ => true
  | ts => isMarked ts

/-- The node behind the mark for the beginning of a document, and what is left. -/
def markedNode? (ts : List Token) : Option (Written × List Token) := do
  let (handles, .documentStart :: ts) ← directives? false [] ts | none
  if isOver ts then return (blank, ts)
  else
    let ⟨n, ts, _⟩ ← node handles true false ts
    return (n, ts)

/-- **The only node of a text**, if there is one. It may stand behind directives and a mark. -/
def document? (ts : List Token) : Option (Option Written) := do
  if ts.head? = some .streamEnd then return none
  else
    let (n, ts) ←
      if isMarked ts then markedNode? ts
      else (node usualHandles true false ts).map fun x => (x.value, x.rest)
    if finishes ts then return some n else none

end Written

end Yaml

end LocaleWrap
