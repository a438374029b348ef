import LocaleWrap.Text.Basic

/-! # A place in a YAML text

* **`Yaml.Cursor`** — the rest of a text with the line and column where it begins.
* **`Yaml.Cursor.advance`**, **`Yaml.Cursor.advanceLine`** — the place after a character, and after
  a line break. Beside each move stands how much of the text it leaves: never more than there was,
  and less where there was something to pass. -/

namespace LocaleWrap

namespace Yaml

/-! ## Characters -/

/-- Whether a character breaks a line. -/
def isBreak (c : Char) : Bool :=
  c == '\n' || c == '\r' || c == '\x85' || c == '\u2028' || c == '\u2029'

/-- Whether a character is a blank inside a line. -/
def isGap (c : Char) : Bool := c == ' ' || c == '\t'

/-- Whether a character may stand in the name of an anchor, a tag handle or a directive. -/
def isNameChar (c : Char) : Bool := c.isAlphanum || c == '_' || c == '-'

/-- Whether a text may hold a character at all. -/
def isPrintable (c : Char) : Bool :=
  let n := c.toNat
  c == '\t' || c == '\n' || c == '\r' || (0x20 ≤ n && n ≤ 0x7E) || n == 0x85 ||
  (0xA0 ≤ n && n ≤ 0xFFFD) || 0x10000 ≤ n

/-! ## Places -/

/-- **A place in a text**: what is left, and where this begins. `index` counts characters from the
beginning of the text. -/
structure Cursor where
  rest : Text
  index : Nat
  line : Nat
  column : Nat
  deriving DecidableEq, Repr, Inhabited

namespace Cursor

/-- The beginning of a text. -/
def start (t : Text) : Cursor := ⟨t, 0, 0, 0⟩

/-- The character so many places ahead. -/
def peek (c : Cursor) (n : Nat) : Option Char := c.rest[n]?

/-- Whether a character stands so many places ahead. -/
def sees (c : Cursor) (n : Nat) (d : Char) : Bool := c.peek n == some d

/-- Whether a blank stands so many places ahead. -/
def seesGap (c : Cursor) (n : Nat) : Bool := (c.peek n).any isGap

/-- Whether a line break stands so many places ahead. -/
def seesBreak (c : Cursor) (n : Nat) : Bool := (c.peek n).any isBreak

/-- Whether the text ends so many places ahead. -/
def seesEnd (c : Cursor) (n : Nat) : Bool := (c.peek n).isNone

/-- Whether a line break or the end is so many places ahead. -/
def seesLineEnd (c : Cursor) (n : Nat) : Bool := c.seesBreak n || c.seesEnd n

/-- Whether a blank, a line break or the end is so many places ahead. -/
def seesSpace (c : Cursor) (n : Nat) : Bool := c.seesGap n || c.seesLineEnd n

/-- The place after one character of a line. -/
def advance (c : Cursor) : Cursor := ⟨c.rest.drop 1, c.index + 1, c.line, c.column + 1⟩

/-- The place after so many characters of a line. -/
def advanceBy (c : Cursor) (n : Nat) : Cursor :=
  ⟨c.rest.drop n, c.index + n, c.line, c.column + n⟩

/-- **The place after a line break**, and the break as it counts in a scalar. -/
def advanceLine (c : Cursor) : Text × Cursor :=
  match c.rest with
  | '\r' :: '\n' :: rest => (['\n'], ⟨rest, c.index + 2, c.line + 1, 0⟩)
  | d :: rest =>
    if isBreak d then
      (if d = '\u2028' ∨ d = '\u2029' then [d] else ['\n'], ⟨rest, c.index + 1, c.line + 1, 0⟩)
    else ([], c)
  | [] => ([], c)

/-- The place after all characters of a line that a class holds. -/
def skipWhile (c : Cursor) (p : Char → Bool) : Cursor := c.advanceBy (c.rest.takeWhile p).length

/-- The place at the end of the line. -/
def skipToLineEnd (c : Cursor) : Cursor := c.skipWhile fun d => !isBreak d

/-- The place behind all characters that a class holds, and behind a comment that follows. -/
def skipComment (c : Cursor) (p : Char → Bool) : Cursor :=
  let c := c.skipWhile p
  if c.sees 0 '#' then c.skipToLineEnd else c

/-- Whether a line begins here that separates documents. -/
def atDocumentMark (c : Cursor) : Bool :=
  c.column == 0 && c.seesSpace 3 &&
    (c.rest.take 3 == ['-', '-', '-'] || c.rest.take 3 == ['.', '.', '.'])

/-! ## What is left of the text -/

variable {c : Cursor} {d : Char} {t : Text}

@[simp] theorem length_advance (c : Cursor) :
    c.advance.rest.length = c.rest.length - 1 := List.length_drop

@[simp] theorem length_advanceBy (c : Cursor) (n : Nat) :
    (c.advanceBy n).rest.length = c.rest.length - n := List.length_drop

/-- A step leaves no more text than there was. -/
theorem length_advance_le (c : Cursor) : c.advance.rest.length ≤ c.rest.length := by simp

/-- Several steps leave no more text than there was. -/
theorem length_advanceBy_le (c : Cursor) (n : Nat) :
    (c.advanceBy n).rest.length ≤ c.rest.length := by simp

/-- Passing characters leaves no more text than there was. -/
theorem length_skipWhile_le (c : Cursor) (p : Char → Bool) :
    (c.skipWhile p).rest.length ≤ c.rest.length := by
  simp [skipWhile]

/-- Passing the rest of a line leaves no more text than there was. -/
theorem length_skipToLineEnd_le (c : Cursor) :
    c.skipToLineEnd.rest.length ≤ c.rest.length := length_skipWhile_le c _

/-- Passing a comment leaves no more text than there was. -/
theorem length_skipComment_le (c : Cursor) (p : Char → Bool) :
    (c.skipComment p).rest.length ≤ c.rest.length := by
  have hblanks := length_skipWhile_le c p
  dsimp only [skipComment]
  split
  · exact Nat.le_trans (length_skipToLineEnd_le _) hblanks
  · exact hblanks

/-- Whether a break comes next is said by the next character. -/
theorem seesBreak_zero (h : c.rest = d :: t) : c.seesBreak 0 = isBreak d := by
  simp [seesBreak, peek, h]

/-- A line break in front is passed. -/
theorem length_advanceLine_lt (h : c.rest = d :: t) (hd : isBreak d = true) :
    c.advanceLine.2.rest.length < c.rest.length := by
  unfold advanceLine
  split
  · next heq => grind
  · next e rest _ heq =>
    obtain ⟨rfl, rfl⟩ := List.cons.inj (h.symm.trans heq)
    rw [if_pos hd, h]
    simp
  · next heq => simp [heq] at h

/-- Without a line break in front the place stays as it is. -/
theorem advanceLine_of_not_isBreak (h : ∀ d ∈ c.rest.head?, isBreak d = false) :
    c.advanceLine = ([], c) := by
  unfold advanceLine
  split
  · next heq => exact absurd (h '\r' (by simp [heq])) (by decide)
  · next d rest _ heq => simp [h d (by simp [heq])]
  · rfl

/-- Passing a break leaves no more text than there was. -/
theorem length_advanceLine_le (c : Cursor) : c.advanceLine.2.rest.length ≤ c.rest.length := by
  cases hrest : c.rest with
  | nil => simp [advanceLine_of_not_isBreak, hrest]
  | cons d t =>
    cases hd : isBreak d with
    | false => simp [advanceLine_of_not_isBreak, hrest, hd]
    | true => exact hrest ▸ Nat.le_of_lt (length_advanceLine_lt hrest hd)

/-- A step takes a character where there is one. -/
theorem length_advance_lt (h : c.rest = d :: t) : c.advance.rest.length < c.rest.length := by
  simp [h]

/-- Several steps take a character where there is one. -/
theorem length_advanceBy_lt (h : c.rest = d :: t) {n : Nat} (hn : 0 < n) :
    (c.advanceBy n).rest.length < c.rest.length := by
  simp only [length_advanceBy, h, List.length_cons]
  omega

/-- A character is passed, and a line break behind it. -/
theorem length_advance_advanceLine_lt (h : c.rest = d :: t) :
    c.advance.advanceLine.2.rest.length < c.rest.length :=
  Nat.lt_of_le_of_lt (length_advanceLine_le _) (length_advance_lt h)

/-- **A whole line is passed** wherever the text goes on. -/
theorem length_skipLine_lt (h : c.rest ≠ []) :
    c.skipToLineEnd.advanceLine.2.rest.length < c.rest.length := by
  obtain ⟨d, t, hrest⟩ := List.exists_cons_of_ne_nil h
  cases hd : isBreak d with
  | false =>
    -- The line holds a character, which is passed on the way to its end.
    have hpassed : c.skipToLineEnd.rest.length < c.rest.length := by
      rw [skipToLineEnd, skipWhile, length_advanceBy, hrest,
        List.takeWhile_cons_of_pos (by simp [hd]), List.length_cons, List.length_cons]
      omega
    exact Nat.lt_of_le_of_lt (length_advanceLine_le _) hpassed
  | true =>
    have hnone : c.rest.takeWhile (fun d => !isBreak d) = [] := by simp [hrest, hd]
    have hstay : c.skipToLineEnd = c := by
      rw [skipToLineEnd, skipWhile, hnone]
      rfl
    rw [hstay]
    exact length_advanceLine_lt hrest hd

end Cursor

end Yaml

end LocaleWrap
