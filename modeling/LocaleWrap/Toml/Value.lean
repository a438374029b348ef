import LocaleWrap.Text.Basic

/-! # TOML values

* **`Toml.Value`** — a value of a TOML document. Tables and arrays remember how they came about,
  since that decides what later lines may add to them.
* **`Toml.assign`** — gives a dotted key its value.
* **`Toml.openTable`**, **`Toml.openItem`** — what a table header does to the document. -/

namespace LocaleWrap

namespace Toml

/-- **How a table came about.** -/
inductive Origin
  /-- By a longer header that passes through it. -/
  | implicit
  /-- By a dotted key. -/
  | dotted
  /-- By a header of its own. -/
  | header
  /-- In braces, after which nothing can be added. -/
  | closed
  deriving DecidableEq, Repr, Inhabited

/-- **A value of a document.** -/
inductive Value
  | string (t : Text)
  | boolean (b : Bool)
  | integer (n : Int)
  | float (written : Text)
  | moment (written : Text)
  /-- An array; one made by headers holds tables, and grows with each further header. -/
  | array (items : List Value) (byHeaders : Bool)
  | table (origin : Origin) (members : List (Text × Value))
  deriving Repr, Inhabited

/-- The members of a table. -/
abbrev Members := List (Text × Value)

/-- The members with a new value in the place of an old one. -/
def replaceMember (key : Text) (v : Value) : Members → Members
  | [] => []
  | (k, w) :: ms => if k = key then (k, v) :: ms else (k, w) :: replaceMember key v ms

/-- **Changes the table that keys lead to.** Missing tables come about on the way. Keys lead into
the last table of an array that headers made. With `dotted` the keys are a dotted key, which leads
through no table that has a header of its own. -/
def changeAt (dotted : Bool) (act : Origin → Members → Option Members) :
    List Text → Origin → Members → Option Members
  | [], origin, ms => act origin ms
  | key :: keys, _, ms =>
    match ms.lookup key with
    | none =>
      let origin := if dotted then .dotted else .implicit
      (changeAt dotted act keys origin []).map fun inner => ms ++ [(key, .table origin inner)]
    | some (.table origin inner) =>
      if origin = .closed ∨ (dotted ∧ origin = .header) then none
      else (changeAt dotted act keys origin inner).map fun inner' =>
        replaceMember key (.table origin inner') ms
    | some (.array items true) =>
      match items.getLast? with
      | some (.table origin inner) =>
        (changeAt dotted act keys origin inner).map fun inner' =>
          replaceMember key (.array (items.dropLast ++ [.table origin inner']) true) ms
      | _ => none
    | some _ => none

/-- **Gives a dotted key its value**, which it must not have yet. All tables on the way, the last
one too, have to be made by dotted keys. -/
def assign (keys : List Text) (v : Value) (origin : Origin) (ms : Members) : Option Members :=
  match keys.getLast? with
  | none => none
  | some key =>
    changeAt true (fun o inner =>
      if keys.length > 1 ∧ o ≠ .dotted then none
      else if (inner.lookup key).isSome then none
      else some (inner ++ [(key, v)])) keys.dropLast origin ms

/-- **A header for a table**, which has none yet. -/
def openTable (keys : List Text) (ms : Members) : Option Members :=
  match keys.getLast? with
  | none => none
  | some key =>
    changeAt false (fun _ inner =>
      match inner.lookup key with
      | none => some (inner ++ [(key, .table .header [])])
      | some (.table .implicit below) => some (replaceMember key (.table .header below) inner)
      | some _ => none) keys.dropLast .header ms

/-- **A header for the next table of an array.** -/
def openItem (keys : List Text) (ms : Members) : Option Members :=
  match keys.getLast? with
  | none => none
  | some key =>
    changeAt false (fun _ inner =>
      match inner.lookup key with
      | none => some (inner ++ [(key, .array [.table .header []] true)])
      | some (.array items true) =>
        some (replaceMember key (.array (items ++ [.table .header []]) true) inner)
      | some _ => none) keys.dropLast .header ms

end Toml

end LocaleWrap
