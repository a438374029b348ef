import LocaleWrap.Text.Found
import LocaleWrap.Toml.Scalar

/-! # TOML documents

* **`Toml.parse`** — the members of the table that a document writes.
* **`Toml.string?`**, **`Toml.key?`**, **`Toml.value?`**, **`Toml.line?`** — the readers for the
  parts of a document.

Readers take a text and give back what they found with the rest of the text, which is shorter: each
of them goes on with what the one before has left, so all of them come to an end. -/

namespace LocaleWrap

namespace Toml

/-! ## Blanks and comments -/

/-- Whether a character is a blank inside a line. -/
def isGap (c : Char) : Bool := c == ' ' || c == '\t'

/-- A text without the blanks in front. -/
def skipGap (t : Text) : Skipped t := skipWhile isGap t

/-- Whether a character may stand in a comment or a literal string. -/
def isPlain (c : Char) : Bool := c == '\t' || (c.toNat ≥ 0x20 && c.toNat ≠ 0x7F)

/-- The rest of a text after a line break. -/
def lineBreak? (t : Text) : Option (Found Char Unit t.length) := do
  match ← next? t with
  | ⟨'\n', r, _⟩ => return ⟨(), r, by omega⟩
  | ⟨'\r', r, _⟩ => do
    let ⟨'\n', r, _⟩ ← next? r | none
    return ⟨(), r, by omega⟩
  | _ => none

/-- The rest of a text after blanks and a comment, if there is one. -/
def skipComment (t : Text) : Skipped t :=
  match skipGap t with
  | ⟨u, _⟩ =>
    match next? u with
    | some ⟨'#', r, _⟩ => (skipWhile isPlain r).mono (by omega)
    | _ => ⟨u, by omega⟩

/-- The rest of a text after blanks, comments and line breaks. -/
def skipLines (t : Text) : Skipped t :=
  match skipComment t with
  | ⟨u, _⟩ =>
    match lineBreak? u with
    | some ⟨_, r, _⟩ => (skipLines r).mono (by omega)
    | none => ⟨u, by omega⟩
termination_by t.length
decreasing_by omega

/-! ## Strings -/

/-- The character with a given number, unless it is half of a pair. -/
def charOf? (n : Nat) : Option Char := if n.isValidChar then some (Char.ofNat n) else none

/-- A character written with so many hexadecimal digits. -/
def hexChar? (width : Nat) (t : Text) : Option Char :=
  let ds : Text := t.take width
  if ds.length = width ∧ ds.all (isDigitOf 16) then charOf? (number 16 ds) else none

/-- **The character that an escape stands for**, read after its backslash. -/
def escape? (t : Text) : Option (Found Char Char t.length) := do
  let ⟨c, r, _⟩ ← next? t
  let found := fun d => some ⟨d, r, by omega⟩
  let hex := fun width =>
    (hexChar? width r).map fun d => ⟨d, r.drop width, by simp only [List.length_drop]; omega⟩
  match c with
  | 'b' => found '\x08'
  | 't' => found '\t'
  | 'n' => found '\n'
  | 'f' => found '\x0c'
  | 'r' => found '\r'
  | 'e' => found '\x1b'
  | '"' => found '"'
  | '\\' => found '\\'
  | 'x' => hex 2
  | 'u' => hex 4
  | 'U' => hex 8
  | _ => none

/-- A string in double quotes, read after the first of them. -/
def basicString? (t : Text) : Option (Found Char Text t.length) := do
  let ⟨c, r, _⟩ ← next? t
  if c = '"' then return ⟨[], r, by omega⟩
  else if c = '\\' then
    let ⟨d, r, _⟩ ← escape? r
    let ⟨s, r, _⟩ ← basicString? r
    return ⟨d :: s, r, by omega⟩
  else if isPlain c then
    let ⟨s, r, _⟩ ← basicString? r
    return ⟨c :: s, r, by omega⟩
  else none
termination_by t.length
decreasing_by all_goals omega

/-- A string in single quotes, read after the first of them. -/
def literalString? (t : Text) : Option (Found Char Text t.length) := do
  let ⟨c, r, _⟩ ← next? t
  if c = '\'' then return ⟨[], r, by omega⟩
  else if isPlain c then
    let ⟨s, r, _⟩ ← literalString? r
    return ⟨c :: s, r, by omega⟩
  else none
termination_by t.length
decreasing_by omega

/-- The rest of a text after the blanks and line breaks that an escaped line break takes with it. -/
def skipWhite (t : Text) : Skipped t := skipWhile (fun c => isGap c || c == '\n' || c == '\r') t

/-- Whether a backslash, which has been read, escapes a line break. -/
def escapesBreak (t : Text) : Bool := (lineBreak? (skipGap t).1).isSome

/-- **A string of several lines**, read after its opening quotes. Up to two quotes may stand right
before the closing ones. Only double quotes make escapes. -/
def longString? (q : Char) (t : Text) : Option (Found Char Text t.length) := do
  let ⟨c, r, _⟩ ← next? t
  let count := min (t.takeWhile (· == q)).length 5
  if _h : 3 ≤ count then
    return ⟨List.replicate (count - 3) q, t.drop count, by simp only [List.length_drop]; omega⟩
  else if c = '\\' ∧ q = '"' then
    if escapesBreak r then
      match skipWhite r with
      | ⟨u, _⟩ => (longString? q u).map (Found.mono (by omega))
    else
      let ⟨d, r, _⟩ ← escape? r
      let ⟨s, r, _⟩ ← longString? q r
      return ⟨d :: s, r, by omega⟩
  else if c = '\r' ∧ r.head? = some '\n' ∨ c = '\n' ∨ c = q ∨ isPlain c then
    let ⟨s, r, _⟩ ← longString? q r
    return ⟨c :: s, r, by omega⟩
  else none
termination_by t.length
decreasing_by all_goals omega

/-- A text without a line break in front. -/
def dropBreak (t : Text) : Skipped t :=
  match lineBreak? t with
  | some ⟨_, u, _⟩ => ⟨u, by omega⟩
  | none => ⟨t, by omega⟩

/-- **A string value.** Three quotes begin a string of several lines. -/
def string? (t : Text) : Option (Found Char Text t.length) := do
  let ⟨q, r, _⟩ ← next? t
  if q ≠ '"' ∧ q ≠ '\'' then none
  else if r.take 2 = [q, q] then
    match dropBreak (r.drop 2) with
    | ⟨u, _⟩ => (longString? q u).map (Found.mono (by simp only [List.length_drop] at *; omega))
  else if q = '"' then (basicString? r).map (Found.mono (by omega))
  else (literalString? r).map (Found.mono (by omega))

/-! ## Keys -/

/-- Whether a character may stand in a bare key. -/
def isKeyChar (c : Char) : Bool := c.isAlphanum || c == '_' || c == '-'

/-- One part of a key. -/
def keyPart? (t : Text) : Option (Found Char Text t.length) := do
  let ⟨c, r, _⟩ ← next? t
  if c = '"' then (basicString? r).map (Found.mono (by omega))
  else if c = '\'' then (literalString? r).map (Found.mono (by omega))
  else if isKeyChar c then
    match skipWhile isKeyChar r with
    | ⟨u, _⟩ => return ⟨c :: r.takeWhile isKeyChar, u, by omega⟩
  else none

/-- **A key**: parts with dots between them. The blanks after it are gone. -/
def key? (t : Text) : Option (Found Char (List Text) t.length) :=
  match skipGap t with
  | ⟨u, _⟩ => do
    let ⟨part, r, _⟩ ← keyPart? u
    match skipGap r with
    | ⟨u, _⟩ =>
      match next? u with
      | some ⟨'.', r, _⟩ => do
        let ⟨parts, r, _⟩ ← key? r
        return ⟨part :: parts, r, by omega⟩
      | _ => return ⟨[part], u, by omega⟩
termination_by t.length
decreasing_by omega

/-! ## Values -/

/-- Whether a character may stand in a bare word. -/
def isWordChar (c : Char) : Bool := isKeyChar c || c == '+' || c == '.' || c == ':'

/-- **A bare word.** A date and a time may have one space between them. -/
def word? (t : Text) : Option (Found Char Value t.length) := do
  let ⟨c, _, _⟩ ← next? t
  let first : Text := t.takeWhile isWordChar
  let rest : Text := t.drop first.length
  let second : Text := (rest.drop 1).takeWhile isWordChar
  let both : Text := first ++ ' ' :: second
  if _h : first.length = 0 then none
  else if rest.head? = some ' ' ∧ date? first = some [] ∧ isMoment both then
    return ⟨.moment both, t.drop (first.length + second.length + 1), by
      simp only [List.length_drop]; omega⟩
  else
    let v ← scalar? first
    return ⟨v, rest, by simp only [rest, List.length_drop]; omega⟩

mutual

/-- **A value.** -/
def value? (t : Text) : Option (Found Char Value t.length) := do
  let ⟨c, r, _⟩ ← next? t
  if c = '[' then
    let ⟨vs, r, _⟩ ← items? r
    return ⟨.array vs false, r, by omega⟩
  else if c = '\x7b' then
    let ⟨ms, r, _⟩ ← members? [] r
    return ⟨.table .closed ms, r, by omega⟩
  else if c = '"' ∨ c = '\'' then (string? t).map (Found.map .string)
  else word? t
termination_by 3 * t.length
decreasing_by all_goals omega

/-- The items of an array, up to its closing bracket. A comma may follow the last one. -/
def items? (t : Text) : Option (Found Char (List Value) t.length) :=
  match skipLines t with
  | ⟨u, _⟩ => do
    let ⟨c, r, _⟩ ← next? u
    if c = ']' then return ⟨[], r, by omega⟩
    else
      let ⟨v, r, _⟩ ← value? u
      match skipLines r with
      | ⟨u, _⟩ => do
        let ⟨c, r, _⟩ ← next? u
        if c = ',' then
          let ⟨vs, r, _⟩ ← items? r
          return ⟨v :: vs, r, by omega⟩
        else if c = ']' then return ⟨[v], r, by omega⟩
        else none
termination_by 3 * t.length + 1
decreasing_by all_goals omega

/-- The members of a table in braces, up to its closing brace. A comma may follow the last one. -/
def members? (ms : Members) (t : Text) : Option (Found Char Members t.length) :=
  match skipLines t with
  | ⟨u, _⟩ => do
    let ⟨c, r, _⟩ ← next? u
    if c = '\x7d' then return ⟨ms, r, by omega⟩
    else
      let ⟨(keys, v), r, _⟩ ← member? u
      let ms ← assign keys v .closed ms
      match skipLines r with
      | ⟨u, _⟩ => do
        let ⟨c, r, _⟩ ← next? u
        if c = ',' then (members? ms r).map (Found.mono (by omega))
        else if c = '\x7d' then return ⟨ms, r, by omega⟩
        else none
termination_by 3 * t.length + 2
decreasing_by all_goals omega

/-- A key with its value. -/
def member? (t : Text) : Option (Found Char (List Text × Value) t.length) := do
  let ⟨keys, r, _⟩ ← key? t
  let ⟨'=', r, _⟩ ← next? r | none
  match skipGap r with
  | ⟨u, _⟩ => do
    let ⟨v, r, _⟩ ← value? u
    return ⟨(keys, v), r, by omega⟩
termination_by 3 * t.length + 1
decreasing_by all_goals omega

end

/-! ## Lines -/

/-- The name in a header, up to the bracket that closes it. -/
def header? (t : Text) : Option (Found Char (List Text) t.length) := do
  let ⟨keys, r, _⟩ ← key? t
  let ⟨']', r, _⟩ ← next? r | none
  return ⟨keys, r, by omega⟩

/-- **One line of a document**: a header, a key with its value, or nothing. `path` leads to the
table that keys are for; the new path comes with the new members. -/
def line? (path : List Text) (ms : Members) (t : Text) :
    Option (Found Char (List Text × Members) (t.length + 1)) :=
  match skipGap t with
  | ⟨u, _⟩ =>
    match next? u with
    | none => some ⟨(path, ms), u, by omega⟩
    | some ⟨c, r, _⟩ => do
      if c = '#' ∨ c = '\n' ∨ c = '\r' then return ⟨(path, ms), u, by omega⟩
      else if c ≠ '[' then
        let ⟨(keys, v), r, _⟩ ← member? u
        let ms ← changeAt false (assign keys v) path .header ms
        return ⟨(path, ms), r, by omega⟩
      else if r.head? = some '[' then
        let ⟨_, r, _⟩ ← next? r
        let ⟨keys, r, _⟩ ← header? r
        let ⟨']', r, _⟩ ← next? r | none
        let ms ← openItem keys ms
        return ⟨(keys, ms), r, by omega⟩
      else
        let ⟨keys, r, _⟩ ← header? r
        let ms ← openTable keys ms
        return ⟨(keys, ms), r, by omega⟩

/-- The lines of a document, one after the other. -/
def lines? (path : List Text) (ms : Members) (t : Text) : Option Members := do
  let ⟨(path, ms), r, _⟩ ← line? path ms t
  match skipComment r with
  | ⟨[], _⟩ => return ms
  | ⟨u, _⟩ => do
    let ⟨_, r, _⟩ ← lineBreak? u
    lines? path ms r
termination_by t.length
decreasing_by omega

/-- **The members of the table that a document writes.** A byte order mark may stand in front. -/
def parse (t : Text) : Option Members :=
  match t with
  | '\uFEFF' :: t => lines? [] [] t
  | t => lines? [] [] t

end Toml

end LocaleWrap
