import LocaleWrap.Text.Quoted

/-! # The log

A run keeps a log of what it does. A filter says which part of it is shown.

* **`Log.Level`**, **`Log.Event`** — one entry; **`Log.Event.line`** as it is shown.
* **`Log.Filter`** — which entries are shown; **`Log.Filter.parse`** reads one, and
  **`Log.Filter.admits`** decides: of the directives that name a front part of an entry's source,
  the one that names most counts. -/

namespace LocaleWrap

namespace Log

/-! ## Entries -/

/-- How much an entry matters. -/
inductive Level
  | error
  | warn
  | info
  | debug
  | trace
  deriving DecidableEq, Repr, Inhabited

namespace Level

/-- The more an entry matters, the lower its rank. -/
def rank : Level → Nat
  | error => 1
  | warn => 2
  | info => 3
  | debug => 4
  | trace => 5

/-- The level as it is shown, five characters wide. -/
def label : Level → String
  | error => "ERROR"
  | warn => " WARN"
  | info => " INFO"
  | debug => "DEBUG"
  | trace => "TRACE"

end Level

/-- What an entry says of one of its subjects. -/
inductive Value
  /-- A number. -/
  | count (n : Nat)
  /-- A text in quotes. -/
  | quoted (t : Text)
  /-- A text as it is. -/
  | shown (s : String)
  deriving DecidableEq, Repr, Inhabited

/-- The value as it is shown. -/
def Value.text : Value → String
  | count n => toString n
  | quoted t => t.quote.asString
  | shown s => s

/-- **An entry of the log**: what happened where, and the subjects of it by name. -/
structure Event where
  level : Level
  source : String
  message : String
  values : List (String × Value)
  deriving DecidableEq, Repr, Inhabited

/-- **An entry as it is shown**, without the time. -/
def Event.line (e : Event) : String :=
  e.level.label ++ " " ++ e.source ++ ": " ++ e.message ++
    String.join (e.values.map fun (name, v) => " " ++ name ++ "=" ++ v.text)

/-! ## Filters -/

/-- **A directive**: entries whose source begins with a name are shown up to a rank. Without a name
it holds for all. -/
structure Directive where
  source : String
  rank : Nat
  deriving DecidableEq, Repr, Inhabited

/-- Which entries are shown. -/
structure Filter where
  directives : List Directive
  deriving DecidableEq, Repr, Inhabited

namespace Filter

/-- The rank that a word or digit names. -/
def rankOf? (word : String) : Option Nat :=
  match word.map Char.toLower with
  | "off" => some 0
  | "error" => some 1
  | "warn" => some 2
  | "info" => some 3
  | "debug" => some 4
  | "trace" => some 5
  | "0" => some 0
  | "1" => some 1
  | "2" => some 2
  | "3" => some 3
  | "4" => some 4
  | "5" => some 5
  | _ => none

/-- Whether a character may stand in the name of a source. -/
def isSourceChar (c : Char) : Bool := c.isAlphanum || c == '_' || c == ':' || c == '-'

/-- **One directive**: a rank, a source with a rank after an equals sign, or a source alone, of
which everything is shown. -/
def directive? (t : Text) : Option Directive :=
  match rankOf? t.asString with
  | some rank => some ⟨"", rank⟩
  | none =>
    let source : Text := t.takeWhile (· != '=')
    if source.isEmpty || !source.all isSourceChar then none
    else match t.drop source.length with
      | [] => some ⟨source.asString, 5⟩
      | ['='] => some ⟨source.asString, 5⟩
      | _ :: word => (rankOf? (Text.asString word)).map fun rank => ⟨source.asString, rank⟩

/-- Warnings and errors are shown unless something else is asked for. -/
def default : Filter := ⟨[⟨"", 2⟩]⟩

/-- **Reads a filter**: directives between commas. What is no directive is left out and complained
about. -/
def parse (s : String) : Filter × List String :=
  let parts := (Text.pieces ',' (Text.ofString s)).filter fun t => !t.isEmpty
  let directives := parts.filterMap directive?
  let complaints := (parts.filter fun t => (directive? t).isNone).map fun t =>
    "ignoring `" ++ t.asString ++ "`: invalid filter directive"
  (if directives.isEmpty then default else ⟨directives⟩, complaints)

/-- The directive with the longest source so far that an entry's source begins with. Of two for one
source the later counts. -/
def governing (f : Filter) (e : Event) : Option Directive :=
  f.directives.foldl (fun best d =>
    if e.source.startsWith d.source then
      match best with
      | some b => if d.source.length ≥ b.source.length then some d else best
      | none => some d
    else best) none

/-- **Whether an entry is shown.** -/
def admits (f : Filter) (e : Event) : Bool :=
  match f.governing e with
  | some d => e.level.rank ≤ d.rank
  | none => false

end Filter

end Log

end LocaleWrap
