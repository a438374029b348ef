/-! # Reports as JSON documents

* **`Json`** — a JSON value whose objects keep the order of their members.
* **`Json.member?`** — the value of a member.
* **`Json.pretty`** — the value as text, two spaces to a level. -/

namespace LocaleWrap

/-- **A JSON value.** Numbers are the counts that reports hold. -/
inductive Json
  | null
  | bool (b : Bool)
  | count (n : Nat)
  | string (s : String)
  | array (items : List Json)
  | object (members : List (String × Json))
  deriving Repr, Inhabited

namespace Json

/-- A text that may be absent. -/
def ofOption : Option String → Json
  | none => null
  | some s => string s

/-- The value of the first member with that name. -/
def member? (name : String) : Json → Option Json
  | object members => members.lookup name
  | _ => none

/-- A hexadecimal digit in lower case. -/
private def hexDigit (n : Nat) : Char :=
  if n < 10 then Char.ofNat (48 + n) else Char.ofNat (87 + n)

/-- **One character inside a JSON string.** Quotes, backslashes and the characters below the space
are written as escapes, the shortest there is. -/
def escapeChar (c : Char) : List Char :=
  match c with
  | '"' => ['\\', '"']
  | '\\' => ['\\', '\\']
  | '\n' => ['\\', 'n']
  | '\r' => ['\\', 'r']
  | '\t' => ['\\', 't']
  | c =>
    let n := c.toNat
    if n = 8 then ['\\', 'b']
    else if n = 12 then ['\\', 'f']
    else if n < 32 then ['\\', 'u', '0', '0', hexDigit (n / 16), hexDigit (n % 16)]
    else [c]

/-- A string in quotes. -/
def quote (s : String) : String := "\"" ++ String.ofList (s.toList.flatMap escapeChar) ++ "\""

/-- So many levels of two spaces. -/
def margin (depth : Nat) : String := String.ofList (List.replicate (2 * depth) ' ')

/-- The parts of an array or object between brackets, one to a line. -/
def enclose (depth : Nat) (opening closing : String) : List String → String
  | [] => opening ++ closing
  | parts =>
    opening ++ "\n" ++ ",\n".intercalate (parts.map (margin (depth + 1) ++ ·)) ++ "\n" ++
      margin depth ++ closing

mutual

/-- The value as text, inside `depth` levels. -/
def prettyAt (depth : Nat) : Json → String
  | null => "null"
  | bool b => if b then "true" else "false"
  | count n => toString n
  | string s => quote s
  | array items => enclose depth "[" "]" (prettyItems (depth + 1) items)
  | object members => enclose depth "\x7b" "\x7d" (prettyMembers (depth + 1) members)

/-- The items of an array as texts. -/
def prettyItems (depth : Nat) : List Json → List String
  | [] => []
  | j :: js => prettyAt depth j :: prettyItems depth js

/-- The members of an object as texts. -/
def prettyMembers (depth : Nat) : List (String × Json) → List String
  | [] => []
  | (name, j) :: ms => (quote name ++ ": " ++ prettyAt depth j) :: prettyMembers depth ms

end

/-- **The value as text**, two spaces to a level. -/
def pretty (j : Json) : String := prettyAt 0 j

end Json

end LocaleWrap
