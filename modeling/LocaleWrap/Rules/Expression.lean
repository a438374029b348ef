import LocaleWrap.Text.Basic

/-! # Regular expressions as they are written

A listing of the rules shows them as regular expressions. These are put together here as trees, and
written out with as few brackets as they need.

* **`Expression`** — an expression without groups; **`Expression.text`** how it is written.
* **`Expression.word`**, **`Expression.oneOf`** — a given text, and one of several expressions.
* **`LinePattern`** — an expression for a whole line, cut into parts of which some are groups;
  **`LinePattern.text`** how it is written. -/

namespace LocaleWrap

/-- **A regular expression** without groups. -/
inductive Expression
  | empty
  | char (c : Char)
  /-- A character of white space. -/
  | blank
  /-- A character that is no line feed. -/
  | any
  /-- A character that is none of these. -/
  | except (cs : List Char)
  | seq (e f : Expression)
  /-- The first of the two that leads to a match. -/
  | either (e f : Expression)
  | optional (e : Expression)
  | star (e : Expression)
  | plus (e : Expression)
  | atLeast (n : Nat) (e : Expression)
  deriving DecidableEq, Repr, Inhabited

namespace Expression

/-- The characters that mean something in an expression. -/
def special : List Char :=
  ['\\', '.', '+', '*', '?', '(', ')', '|', '[', ']', '{', '}', '^', '$', '#', '&', '-', '~']

/-- **A text as an expression for just this text**: a backslash stands before each character that
would mean something else. -/
def escape (t : Text) : Text := t.flatMap fun c => if c ∈ special then ['\\', c] else [c]

/-- **How tightly an expression holds together**: a choice least, then a sequence, then what is
repeated, and a single character most. -/
inductive Strength
  | choice
  | sequence
  | repetition
  | atom
  deriving DecidableEq, Repr, Inhabited

/-- The strengths in their order. -/
def Strength.rank : Strength → Nat
  | choice => 0
  | sequence => 1
  | repetition => 2
  | atom => 3

/-- The strength of an expression. -/
def strength : Expression → Strength
  | either .. => .choice
  | empty => .sequence
  | seq .. => .sequence
  | optional _ => .repetition
  | star _ => .repetition
  | plus _ => .repetition
  | atLeast .. => .repetition
  | _ => .atom

/-- An expression's text where one of at least the given strength is wanted. -/
def bracketed (wanted found : Strength) (written : String) : String :=
  if found.rank < wanted.rank then "(?:" ++ written ++ ")" else written

/-- **An expression as it is written.** -/
def text : Expression → String
  | empty => ""
  | char c => (escape [c]).asString
  | blank => "\\s"
  | any => "."
  | except cs => "[^" ++ (escape cs).asString ++ "]"
  | seq e f => bracketed .sequence e.strength e.text ++ bracketed .sequence f.strength f.text
  | either e f => e.text ++ "|" ++ f.text
  | optional e => bracketed .atom e.strength e.text ++ "?"
  | star e => bracketed .atom e.strength e.text ++ "*"
  | plus e => bracketed .atom e.strength e.text ++ "+"
  | atLeast n e => bracketed .atom e.strength e.text ++ braced (toString n ++ ",")

/-- The expression for a given text. -/
def word (t : Text) : Expression := t.foldr (fun c e => seq (char c) e) empty

/-- The first of several expressions that leads to a match. Without any, the empty one. -/
def oneOf : List Expression → Expression
  | [] => empty
  | [e] => e
  | e :: f :: es => either e (oneOf (f :: es))

/-- **A word is written as the escaped text.** -/
@[simp] theorem text_word (t : Text) : (word t).text = (escape t).asString := by
  induction t with
  | nil => rfl
  | cons c t ih =>
    have hstrength : (word t).strength = .sequence := by cases t <;> rfl
    have hescape : escape (c :: t) = escape [c] ++ escape t := by simp [escape]
    have htext : (word (c :: t)).text = (escape [c]).asString ++
        bracketed .sequence (word t).strength (word t).text := rfl
    rw [htext, hstrength, ih, hescape]
    exact String.ofList_append.symm

end Expression

/-- **A part of a pattern**: what it matches counts as a group, or does not. -/
inductive LinePattern.Part
  | plain (e : Expression)
  | group (e : Expression)
  deriving DecidableEq, Repr, Inhabited

/-- **An expression for a whole line**, part by part. -/
abbrev LinePattern := List LinePattern.Part

namespace LinePattern

/-- A part as it is written. -/
def Part.text : Part → String
  | plain e => Expression.bracketed .sequence e.strength e.text
  | group e => "(" ++ e.text ++ ")"

/-- **A pattern as it is written**, between the marks for the ends of a line. -/
def text (p : LinePattern) : String := "^" ++ String.join (p.map Part.text) ++ "$"

end LinePattern

end LocaleWrap
