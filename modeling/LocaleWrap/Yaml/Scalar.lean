import LocaleWrap.Yaml.Cursor

/-! # YAML scalars

The texts of scalars in their three ways of writing, with the folding of their line breaks.

* **`Yaml.quoted?`** — a scalar in quotes.
* **`Yaml.plain?`** — a scalar without quotes.
* **`Yaml.block?`** — a scalar below a `|` or `>`.

Each reader passes a character or a line break before it goes on, so it ends with the text at the
latest. `length_quoted?_le`, `length_plain?_le` and `length_block?_le` say that no reader leaves
more of the text than it was given. -/

namespace LocaleWrap

namespace Yaml

/-! ## White space inside a scalar -/

/-- **White space that has been read but not used yet**: blanks of one line, or the first line break
and the further ones. -/
structure Space where
  /-- Whether a line break has been passed. -/
  broken : Bool
  blanks : Text
  first : Text
  further : Text
  deriving DecidableEq, Repr, Inhabited

namespace Space

/-- No white space. -/
def none : Space := ⟨false, [], [], []⟩

/-- A line break that stands for nothing. -/
def escapedBreak : Space := ⟨true, [], [], []⟩

/-- White space with one more blank. Blanks in front of a line do not count. -/
def addGap (s : Space) (d : Char) : Space :=
  if s.broken then s else { s with blanks := s.blanks ++ [d] }

/-- White space with one more line break. Blanks at the end of a line do not count. -/
def addBreak (s : Space) (b : Text) : Space :=
  if s.broken then { s with further := s.further ++ b } else ⟨true, [], b, []⟩

/-- **What white space stands for**: one line break is a space, further ones are kept. -/
def text (s : Space) : Text :=
  if s.broken then
    if s.first = ['\n'] then (if s.further = [] then [' '] else s.further) else s.first ++ s.further
  else s.blanks

end Space

/-! ## Quotes -/

/-- The value of a hexadecimal digit. -/
def hexValue? (c : Char) : Option Nat :=
  let n := c.toNat
  if 48 ≤ n ∧ n ≤ 57 then some (n - 48)
  else if 97 ≤ n ∧ n ≤ 102 then some (n - 87)
  else if 65 ≤ n ∧ n ≤ 70 then some (n - 55)
  else none

/-- The number that hexadecimal digits write. -/
def hexNumber? (ds : Text) : Option Nat :=
  ds.foldlM (fun n c => (hexValue? c).map (n * 16 + ·)) 0

/-- **The character that an escape stands for**, by the character after the backslash; or else how
many hexadecimal digits follow. -/
def escape? : Char → Option (Char ⊕ Nat)
  | '0' => some (.inl '\x00')
  | 'a' => some (.inl '\x07')
  | 'b' => some (.inl '\x08')
  | 't' => some (.inl '\t')
  | '\t' => some (.inl '\t')
  | 'n' => some (.inl '\n')
  | 'v' => some (.inl '\x0b')
  | 'f' => some (.inl '\x0c')
  | 'r' => some (.inl '\r')
  | 'e' => some (.inl '\x1b')
  | ' ' => some (.inl ' ')
  | '"' => some (.inl '"')
  | '/' => some (.inl '/')
  | '\\' => some (.inl '\\')
  | 'N' => some (.inl '\x85')
  | '_' => some (.inl '\xa0')
  | 'L' => some (.inl '\u2028')
  | 'P' => some (.inl '\u2029')
  | 'x' => some (.inr 2)
  | 'u' => some (.inr 4)
  | 'U' => some (.inr 8)
  | _ => none

/-- An escape, with the cursor at its backslash: its character, and how many characters write it
behind the backslash. -/
def readEscape? (c : Cursor) : Option (Char × Nat) := do
  match ← escape? (← c.peek 1) with
  | .inl d => return (d, 1)
  | .inr width =>
    let ds : Text := (c.rest.drop 2).take width
    let n ← hexNumber? ds
    if ds.length = width ∧ n.isValidChar then return (Char.ofNat n, 1 + width) else none

/-- **The rest of a scalar in quotes**, behind the text `acc` and white space that is not used
yet. -/
def quotedFrom? (single : Bool) (acc : Text) (s : Space) (c : Cursor) : Option (Text × Cursor) :=
  match _hrest : c.rest with
  | [] => none
  | d :: _ =>
    if c.atDocumentMark then none
    else if isGap d then quotedFrom? single acc (s.addGap d) c.advance
    else if _hbreak : isBreak d then
      quotedFrom? single acc (s.addBreak c.advanceLine.1) c.advanceLine.2
    else if single && d == '\'' then
      if c.sees 1 '\'' then quotedFrom? single (acc ++ s.text ++ ['\'']) .none (c.advanceBy 2)
      else some (acc ++ s.text, c.advance)
    else if !single && d == '"' then some (acc ++ s.text, c.advance)
    else if !single && d == '\\' then
      if c.seesBreak 1 then
        quotedFrom? single (acc ++ s.text) .escapedBreak c.advance.advanceLine.2
      else do
        let (e, width) ← readEscape? c
        quotedFrom? single (acc ++ s.text ++ [e]) .none (c.advanceBy (1 + width))
    else quotedFrom? single (acc ++ s.text ++ [d]) .none c.advance
termination_by c.rest.length
decreasing_by
  · exact Cursor.length_advance_lt _hrest
  · exact Cursor.length_advanceLine_lt _hrest _hbreak
  · exact Cursor.length_advanceBy_lt _hrest (by omega)
  · exact Cursor.length_advance_advanceLine_lt _hrest
  · exact Cursor.length_advanceBy_lt _hrest (by omega)
  · exact Cursor.length_advance_lt _hrest

/-- **A scalar in quotes**, with the cursor behind the first quote. -/
def quoted? (single : Bool) (c : Cursor) : Option (Text × Cursor) :=
  quotedFrom? single [] .none c

/-- The rest of a quoted scalar leaves no more text than there was. -/
theorem length_quotedFrom?_le {single : Bool} {acc t : Text} {s : Space} {c c' : Cursor}
    (h : quotedFrom? single acc s c = some (t, c')) : c'.rest.length ≤ c.rest.length := by
  fun_induction quotedFrom? single acc s c
  case case1 | case2 => cases h
  case case3 ih | case10 ih => exact Nat.le_trans (ih h) (Cursor.length_advance_le _)
  case case4 ih => exact Nat.le_trans (ih h) (Cursor.length_advanceLine_le _)
  case case5 ih => exact Nat.le_trans (ih h) (Cursor.length_advanceBy_le _ 2)
  case case6 | case7 =>
    -- the closing quote
    obtain ⟨-, rfl⟩ := by simpa using h
    exact Cursor.length_advance_le _
  case case8 ih =>
    exact Nat.le_trans (ih h)
      (Nat.le_trans (Cursor.length_advanceLine_le _) (Cursor.length_advance_le _))
  case case9 ih =>
    obtain ⟨⟨e, width⟩, -, h⟩ := Option.bind_eq_some_iff.mp h
    exact Nat.le_trans (ih e width h) (Cursor.length_advanceBy_le _ _)

/-! ## No quotes -/

/-- Whether a character ends a plain scalar inside brackets. -/
def isFlowMark (d : Char) : Bool := d == ',' || d == '[' || d == ']' || d == '\x7b' || d == '\x7d'

/-- **The rest of a plain scalar**, behind the text `acc` and white space that is not used yet. The
scalar ends at a comment, at a mark, and at a line that is not indented as far as `floor`. The mark
in the answer says whether a line break follows it. -/
def plainFrom? (flow : Bool) (floor : Int) (acc : Text) (s : Space) (c : Cursor) :
    Option (Text × Bool × Cursor) :=
  match _hrest : c.rest with
  | [] => some (acc, s.broken, c)
  | d :: _ =>
    if isGap d then
      if s.broken && (c.column : Int) < floor && d == '\t' then none
      else plainFrom? flow floor acc (s.addGap d) c.advance
    else if _hbreak : isBreak d then
      plainFrom? flow floor acc (s.addBreak c.advanceLine.1) c.advanceLine.2
    else if s ≠ .none ∧ (d = '#' ∨ c.atDocumentMark ∨ (!flow ∧ (c.column : Int) < floor)) then
      some (acc, s.broken, c)
    else if flow && d == ':' && (c.peek 1).any fun e => isFlowMark e || e == '?' then none
    else if (d == ':' && c.seesSpace 1) || (flow && isFlowMark d) then some (acc, s.broken, c)
    else plainFrom? flow floor (acc ++ s.text ++ [d]) .none c.advance
termination_by c.rest.length
decreasing_by
  · exact Cursor.length_advance_lt _hrest
  · exact Cursor.length_advanceLine_lt _hrest _hbreak
  · exact Cursor.length_advance_lt _hrest

/-- **A plain scalar** inside a block of the given indent, whose first character is taken as it
is. The mark says whether a line break follows it. -/
def plain? (flow : Bool) (indent : Int) (c : Cursor) : Option (Text × Bool × Cursor) :=
  plainFrom? flow (indent + 1) (c.rest.take 1) .none c.advance

/-- The rest of a plain scalar leaves no more text than there was. -/
theorem length_plainFrom?_le {flow b : Bool} {floor : Int} {acc t : Text} {s : Space}
    {c c' : Cursor} (h : plainFrom? flow floor acc s c = some (t, b, c')) :
    c'.rest.length ≤ c.rest.length := by
  fun_induction plainFrom? flow floor acc s c
  case case1 | case5 | case7 =>
    -- the end of the scalar
    obtain ⟨-, -, rfl⟩ := by simpa using h
    exact Nat.le_refl _
  case case2 | case6 => cases h
  case case3 ih | case8 ih => exact Nat.le_trans (ih h) (Cursor.length_advance_le _)
  case case4 ih => exact Nat.le_trans (ih h) (Cursor.length_advanceLine_le _)

/-! ## Blocks -/

/-- The indent of a block below `outer`: the one that is known, or else that of its first line,
whose column or the widest of the empty lines before it is given. -/
def blockIndent (outer : Int) (indent widest : Nat) : Nat :=
  if indent = 0 then max widest (max (outer + 1) 1).toNat else indent

/-- The line breaks before a line of a block, and the indent of the block, which the first line with
text decides where it is not known (zero). -/
def blockBreaks? (outer : Int) (indent widest : Nat) (breaks : Text) (c : Cursor) :
    Option (Text × Nat × Cursor) :=
  match _hrest : c.rest with
  | [] => some (breaks, blockIndent outer indent (max widest c.column), c)
  | d :: _ =>
    if (indent = 0 ∨ c.column < indent) ∧ d = ' ' then
      blockBreaks? outer indent widest breaks c.advance
    else if (indent = 0 ∨ c.column < indent) ∧ d = '\t' then none
    else if _hbreak : isBreak d then
      blockBreaks? outer indent (max widest c.column) (breaks ++ c.advanceLine.1) c.advanceLine.2
    else some (breaks, blockIndent outer indent (max widest c.column), c)
termination_by c.rest.length
decreasing_by
  · exact Cursor.length_advance_lt _hrest
  · exact Cursor.length_advanceLine_lt _hrest _hbreak

/-- The breaks in front of a block line leave no more text than there was. -/
theorem length_blockBreaks?_le {outer : Int} {indent widest n : Nat} {breaks t : Text}
    {c c' : Cursor} (h : blockBreaks? outer indent widest breaks c = some (t, n, c')) :
    c'.rest.length ≤ c.rest.length := by
  fun_induction blockBreaks? outer indent widest breaks c
  case case1 | case5 =>
    -- the line whose text comes next
    obtain ⟨-, -, rfl⟩ := by simpa using h
    exact Nat.le_refl _
  case case2 ih => exact Nat.le_trans (ih h) (Cursor.length_advance_le _)
  case case3 => cases h
  case case4 ih => exact Nat.le_trans (ih h) (Cursor.length_advanceLine_le _)

/-- **How a block ends**: without its last line break, with it, or with all line breaks. -/
inductive Chomp
  | strip
  | clip
  | keep
  deriving DecidableEq, Repr, Inhabited

/-- The lines of a block. `lead` is the line break before the line, `leadBlank` says whether the
line before began with a blank, and `breaks` are the empty lines in between. -/
def blockLines? (folded : Bool) (chomp : Chomp) (outer : Int) (indent : Nat)
    (acc lead breaks : Text) (leadBlank : Bool) (c : Cursor) : Option (Text × Cursor) :=
  if _hline : c.column = indent ∧ c.rest ≠ [] then
    let blank := c.seesGap 0
    let joint :=
      if folded && lead == ['\n'] && !leadBlank && !blank then (if breaks = [] then [' '] else [])
      else lead
    let run : Text := c.rest.takeWhile fun d => !isBreak d
    let next := c.skipToLineEnd.advanceLine
    match _hbreaks : blockBreaks? outer indent 0 [] next.2 with
    | none => none
    | some (breaks', _, c') =>
      blockLines? folded chomp outer indent (acc ++ joint ++ breaks ++ run) next.1 breaks' blank c'
  else
    let last := if chomp = .strip then [] else lead
    let tail := if chomp = .keep then breaks else []
    some (acc ++ last ++ tail, c)
termination_by c.rest.length
decreasing_by
  exact Nat.lt_of_le_of_lt (length_blockBreaks?_le _hbreaks) (Cursor.length_skipLine_lt _hline.2)

/-- The lines of a block leave no more text than there was. -/
theorem length_blockLines?_le {folded blank : Bool} {chomp : Chomp} {outer : Int} {indent : Nat}
    {acc lead breaks t : Text} {c c' : Cursor}
    (h : blockLines? folded chomp outer indent acc lead breaks blank c = some (t, c')) :
    c'.rest.length ≤ c.rest.length := by
  fun_induction blockLines? folded chomp outer indent acc lead breaks blank c
  case case1 => cases h
  case case2 hline _ _ _ _ _ _ _ hbreaks ih =>
    have hnext := Nat.lt_of_le_of_lt (length_blockBreaks?_le hbreaks)
      (Cursor.length_skipLine_lt hline.2)
    exact Nat.le_trans (ih h) (Nat.le_of_lt hnext)
  case case3 =>
    obtain ⟨-, rfl⟩ := by simpa using h
    exact Nat.le_refl _

/-- The mark of how a block ends. -/
def chomp? (c : Cursor) : Option Chomp :=
  if c.sees 0 '+' then some .keep else if c.sees 0 '-' then some .strip else none

/-- The mark of how far a block is indented: no digit means that its first line decides. -/
def blockIndent? (c : Cursor) : Option (Nat × Cursor) :=
  match c.peek 0 with
  | some d =>
    if d == '0' then none
    else if d.isDigit then some (d.toNat - 48, c.advance)
    else some (0, c)
  | none => some (0, c)

/-- The digit for the indent of a block leaves no more text than there was. -/
theorem length_blockIndent?_le {n : Nat} {c c' : Cursor} (h : blockIndent? c = some (n, c')) :
    c'.rest.length ≤ c.rest.length := by
  unfold blockIndent? at h
  split at h
  · split at h
    · cases h
    · split at h
      · cases h
        exact Cursor.length_advance_le c
      · cases h
        exact Nat.le_refl _
  · cases h
    exact Nat.le_refl _

/-- The marks after a `|` or `>`: how the block ends and how far it is indented, in either order. -/
def blockMarks? (c : Cursor) : Option (Chomp × Nat × Cursor) :=
  match chomp? c with
  | some chomp => do
    let (indent, c) ← blockIndent? c.advance
    return (chomp, indent, c)
  | none => do
    let (indent, c) ← blockIndent? c
    if indent = 0 then return (.clip, 0, c)
    else match chomp? c with
      | some chomp => return (chomp, indent, c.advance)
      | none => return (.clip, indent, c)

/-- The marks of a block leave no more text than there was. -/
theorem length_blockMarks?_le {chomp : Chomp} {n : Nat} {c c' : Cursor}
    (h : blockMarks? c = some (chomp, n, c')) : c'.rest.length ≤ c.rest.length := by
  unfold blockMarks? at h
  split at h
  · obtain ⟨⟨indent, r⟩, hindent, h⟩ := Option.bind_eq_some_iff.mp h
    cases h
    exact Nat.le_trans (length_blockIndent?_le hindent) (Cursor.length_advance_le c)
  · obtain ⟨⟨indent, r⟩, hindent, h⟩ := Option.bind_eq_some_iff.mp h
    have hr := length_blockIndent?_le hindent
    dsimp only at h
    split at h
    · cases h
      exact hr
    · split at h
      · cases h
        exact Nat.le_trans (Cursor.length_advance_le r) hr
      · cases h
        exact hr

/-- **A block scalar** inside a block of the given indent, with the cursor behind its `|` or `>`. -/
def block? (folded : Bool) (outer : Int) (c : Cursor) : Option (Text × Cursor) := do
  let (chomp, increment, c) ← blockMarks? c
  let c := c.skipComment isGap
  if !c.seesLineEnd 0 then none
  else do
    let known := if increment = 0 then 0 else (max outer 0).toNat + increment
    let (breaks, indent, c) ← blockBreaks? outer known 0 [] c.advanceLine.2
    blockLines? folded chomp outer indent [] [] breaks false c

/-- A block scalar leaves no more text than there was. -/
theorem length_block?_le {folded : Bool} {outer : Int} {t : Text} {c c' : Cursor}
    (h : block? folded outer c = some (t, c')) : c'.rest.length ≤ c.rest.length := by
  obtain ⟨⟨chomp, increment, r⟩, hmarks, h⟩ := Option.bind_eq_some_iff.mp h
  dsimp only at h
  split at h
  · cases h
  · obtain ⟨⟨breaks, indent, r'⟩, hbreaks, hlines⟩ := Option.bind_eq_some_iff.mp h
    calc c'.rest.length
      _ ≤ r'.rest.length := length_blockLines?_le hlines
      _ ≤ (r.skipComment isGap).advanceLine.2.rest.length := length_blockBreaks?_le hbreaks
      _ ≤ (r.skipComment isGap).rest.length := Cursor.length_advanceLine_le _
      _ ≤ r.rest.length := Cursor.length_skipComment_le r isGap
      _ ≤ c.rest.length := length_blockMarks?_le hmarks

end Yaml

end LocaleWrap
