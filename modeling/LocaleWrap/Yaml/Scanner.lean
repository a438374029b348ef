import LocaleWrap.Yaml.Token

/-! # Scanning YAML

Indentation and the place of simple keys are resolved here: what comes out is a list of tokens in
which the beginnings and ends of blocks and the keys of mappings are marked.

* **`Yaml.Scanner`** — what is known between two tokens.
* **`Yaml.Scanner.fetch`** — the next token; `length_fetch_lt` says that every token but the last
  takes something of the text.
* **`Yaml.Token.scan?`** — the tokens of a text.

A key may be marked only after its text has been read, when a colon follows. Until then the place
where the mark would go is kept as a **`Yaml.Candidate`**: on one line, and not more than 1024
characters long. -/

namespace LocaleWrap

namespace Yaml

/-- **A place where a key may have begun.** -/
structure Candidate where
  possible : Bool
  /-- Whether nothing but a key can stand there. -/
  required : Bool
  /-- The number of tokens before it. -/
  position : Nat
  cursor : Cursor
  deriving DecidableEq, Repr, Inhabited

/-- No key. -/
def Candidate.none : Candidate := ⟨false, false, 0, Cursor.start []⟩

/-- **What is known between two tokens**: the tokens so far, the indents of the open blocks with the
innermost first, whether a key may begin, and the candidates of the block and of each open bracket,
the innermost first. -/
structure Scanner where
  cursor : Cursor
  tokens : Array Token
  indent : Int
  indents : List Int
  keyAllowed : Bool
  candidate : Candidate
  outer : List Candidate
  deriving Repr, Inhabited

namespace Scanner

/-- The beginning of a text. -/
def start (t : Text) : Scanner := ⟨Cursor.start t, #[], -1, [], true, .none, []⟩

/-- Whether brackets are open. -/
def inFlow (s : Scanner) : Bool := !s.outer.isEmpty

/-- Adds a token. -/
def emit (s : Scanner) (t : Token) : Scanner := { s with tokens := s.tokens.push t }

/-- Adds a token of so many characters. -/
def emitOver (s : Scanner) (n : Nat) (t : Token) : Scanner :=
  { s.emit t with cursor := s.cursor.advanceBy n }

/-- Puts a token in front of those from a position on. -/
def emitAt (s : Scanner) (position : Nat) (t : Token) : Scanner :=
  { s with tokens := (s.tokens.toList.take position ++ t :: s.tokens.toList.drop position).toArray }

@[simp] theorem cursor_emit (s : Scanner) (t : Token) : (s.emit t).cursor = s.cursor := rfl

@[simp] theorem cursor_emitOver (s : Scanner) (n : Nat) (t : Token) :
    (s.emitOver n t).cursor = s.cursor.advanceBy n := rfl

@[simp] theorem cursor_emitAt (s : Scanner) (position : Nat) (t : Token) :
    (s.emitAt position t).cursor = s.cursor := rfl

/-! ## Indentation -/

/-- Closes the blocks that are indented further than a column. -/
def closeBlocks (column : Int) (s : Scanner) : Scanner :=
  if s.inFlow then s
  else go s.indents s
where
  /-- Closes blocks along the list of indents. -/
  go : List Int → Scanner → Scanner
    | [], s => s
    | i :: is, s =>
      if column < s.indent then go is { s.emit .blockEnd with indent := i, indents := is } else s

@[simp] theorem cursor_closeBlocks (column : Int) (s : Scanner) :
    (s.closeBlocks column).cursor = s.cursor := by
  have hgo : ∀ is s, (closeBlocks.go column is s).cursor = s.cursor := by
    intro is
    induction is with
    | nil => exact fun s => rfl
    | cons i is ih =>
      intro s
      rw [closeBlocks.go]
      split
      · exact ih _
      · rfl
  unfold closeBlocks
  split
  · rfl
  · exact hgo s.indents s

/-- Opens a block at a column that is indented further than the last, with its token at a
position. -/
def openBlock (column : Nat) (position : Nat) (t : Token) (s : Scanner) : Scanner :=
  if !s.inFlow && s.indent < column then
    { s.emitAt position t with indent := column, indents := s.indent :: s.indents }
  else s

@[simp] theorem cursor_openBlock (column position : Nat) (t : Token) (s : Scanner) :
    (s.openBlock column position t).cursor = s.cursor := by
  unfold openBlock
  split <;> rfl

/-! ## Candidates for keys -/

/-- Gives up the candidate, which must not be required. -/
def dropCandidate (s : Scanner) : Option Scanner :=
  if s.candidate.possible && s.candidate.required then none
  else some { s with candidate := { s.candidate with possible := false } }

/-- Giving up the candidate does not move the cursor. -/
theorem cursor_dropCandidate {s s' : Scanner} (h : s.dropCandidate = some s') :
    s'.cursor = s.cursor := by
  unfold dropCandidate at h
  split at h
  · cases h
  · cases h
    rfl

/-- Makes the place of the cursor the candidate, where a key may begin. -/
def saveCandidate (s : Scanner) : Option Scanner :=
  if s.keyAllowed then
    let required := !s.inFlow && s.indent == (s.cursor.column : Int)
    s.dropCandidate.map fun s =>
      { s with candidate := ⟨true, required, s.tokens.size, s.cursor⟩ }
  else some s

/-- Saving a candidate does not move the cursor. -/
theorem cursor_saveCandidate {s s' : Scanner} (h : s.saveCandidate = some s') :
    s'.cursor = s.cursor := by
  unfold saveCandidate at h
  split at h
  · obtain ⟨r, hdrop, rfl⟩ := Option.map_eq_some_iff.mp h
    exact @cursor_dropCandidate s r hdrop
  · cases h
    rfl

/-- Gives up a candidate that is too far behind the cursor. -/
def expire (c : Cursor) (k : Candidate) : Option Candidate :=
  if k.possible && (k.cursor.line < c.line || k.cursor.index + 1024 < c.index) then
    if k.required then none else some { k with possible := false }
  else some k

/-- Gives up all candidates that are too far behind. -/
def expireAll (s : Scanner) : Option Scanner := do
  let candidate ← expire s.cursor s.candidate
  let outer ← s.outer.mapM (expire s.cursor)
  return { s with candidate := candidate, outer := outer }

/-- Giving up candidates that are too far behind does not move the cursor. -/
theorem cursor_expireAll {s s' : Scanner} (h : s.expireAll = some s') :
    s'.cursor = s.cursor := by
  obtain ⟨candidate, -, h⟩ := Option.bind_eq_some_iff.mp h
  obtain ⟨outer, -, h⟩ := Option.bind_eq_some_iff.mp h
  cases h
  rfl

/-! ## Between tokens -/

/-- The place behind blanks and a comment, and at the beginning of a text behind a byte order mark.
Where a block may begin, tabs are no blanks. -/
def afterBlanks (s : Scanner) : Cursor :=
  let c := s.cursor
  let c := if c.index = 0 ∧ c.sees 0 '\uFEFF' then c.advance else c
  let tabs := s.inFlow || !s.keyAllowed
  c.skipComment fun d => d == ' ' || (tabs && d == '\t')

/-- Blanks and a comment leave no more text than there was. -/
theorem length_afterBlanks_le (s : Scanner) :
    s.afterBlanks.rest.length ≤ s.cursor.rest.length := by
  refine Nat.le_trans (Cursor.length_skipComment_le _ _) ?_
  split
  · exact Cursor.length_advance_le s.cursor
  · exact Nat.le_refl _

/-- Passes blanks, comments and line breaks. Outside brackets a key may begin on a new line. -/
def skipSpace (s : Scanner) : Scanner :=
  match _hrest : s.afterBlanks.rest with
  | [] => { s with cursor := s.afterBlanks }
  | d :: _ =>
    if _hbreak : isBreak d then
      skipSpace { s with
        cursor := s.afterBlanks.advanceLine.2, keyAllowed := s.keyAllowed || !s.inFlow }
    else { s with cursor := s.afterBlanks }
termination_by s.cursor.rest.length
decreasing_by
  exact Nat.lt_of_lt_of_le (Cursor.length_advanceLine_lt _hrest _hbreak) (length_afterBlanks_le s)

/-- The space between tokens leaves no more text than there was. -/
theorem length_skipSpace_le (s : Scanner) :
    s.skipSpace.cursor.rest.length ≤ s.cursor.rest.length := by
  fun_induction skipSpace s
  case case1 | case3 => exact length_afterBlanks_le _
  case case2 hrest hbreak ih =>
    have hline := Nat.le_of_lt (Cursor.length_advanceLine_lt hrest hbreak)
    exact Nat.le_trans ih (Nat.le_trans hline (length_afterBlanks_le _))

/-! ## One token -/

/-- The end of the text, which ends all blocks. -/
def fetchEnd (s : Scanner) : Option Scanner := do
  let s ← (s.closeBlocks (-1)).dropCandidate
  return s.emit .streamEnd

/-- A directive. -/
def fetchDirective (s : Scanner) : Option Scanner := do
  let s ← (s.closeBlocks (-1)).dropCandidate
  let (t, c) ← directive? s.cursor.advance
  return { s.emit t with cursor := c, keyAllowed := false }

/-- A line that separates documents. -/
def fetchDocumentMark (t : Token) (s : Scanner) : Option Scanner := do
  let s ← (s.closeBlocks (-1)).dropCandidate
  return { s.emitOver 3 t with keyAllowed := false }

/-- An opening bracket, which may begin a key. -/
def fetchOpening (t : Token) (s : Scanner) : Option Scanner := do
  let s ← s.saveCandidate
  return { s.emitOver 1 t with
    candidate := .none, outer := s.candidate :: s.outer, keyAllowed := true }

/-- A closing bracket. -/
def fetchClosing (t : Token) (s : Scanner) : Option Scanner := do
  let s ← s.dropCandidate
  let s := match s.outer with
    | [] => s
    | k :: ks => { s with candidate := k, outer := ks }
  return { s.emitOver 1 t with keyAllowed := false }

/-- A comma between brackets. -/
def fetchComma (s : Scanner) : Option Scanner := do
  let s ← s.dropCandidate
  return { s.emitOver 1 .comma with keyAllowed := true }

/-- A dash, which opens a block where there is none yet. -/
def fetchDash (s : Scanner) : Option Scanner := do
  if !s.inFlow && !s.keyAllowed then none
  else do
    let s ← (s.openBlock s.cursor.column s.tokens.size .sequenceBlock).dropCandidate
    return { s.emitOver 1 .dash with keyAllowed := true }

/-- A question mark in front of a key. -/
def fetchKey (s : Scanner) : Option Scanner := do
  if !s.inFlow && !s.keyAllowed then none
  else do
    let s ← (s.openBlock s.cursor.column s.tokens.size .mappingBlock).dropCandidate
    return { s.emitOver 1 .key with keyAllowed := !s.inFlow }

/-- **A colon in front of a value.** A candidate becomes a key now, and opens a block where there is
none yet. -/
def fetchValue (s : Scanner) : Option Scanner :=
  let k := s.candidate
  if k.possible then
    let s := s.emitAt k.position .key
    let s := s.openBlock k.cursor.column k.position .mappingBlock
    some { s.emitOver 1 .value with candidate := { k with possible := false }, keyAllowed := false }
  else if !s.inFlow && !s.keyAllowed then none
  else
    let s := s.openBlock s.cursor.column s.tokens.size .mappingBlock
    some { s.emitOver 1 .value with keyAllowed := !s.inFlow }

/-- The name of an anchor or alias. -/
def fetchAnchor (t : Text → Token) (s : Scanner) : Option Scanner := do
  let s ← s.saveCandidate
  let name : Text := (s.cursor.rest.drop 1).takeWhile isNameChar
  let c := s.cursor.advanceBy (name.length + 1)
  let closed := c.seesSpace 0 ||
    (c.peek 0).any fun d => d ∈ ['?', ':', ',', ']', '}', '%', '@', '`']
  if name = [] ∨ !closed then none
  else return { s.emit (t name) with cursor := c, keyAllowed := false }

/-- A tag. -/
def fetchTag (s : Scanner) : Option Scanner := do
  let s ← s.saveCandidate
  let (t, c) ← tag? s.inFlow s.cursor.advance
  return { s.emit t with cursor := c, keyAllowed := false }

/-- A block scalar. -/
def fetchBlock (folded : Bool) (s : Scanner) : Option Scanner := do
  let s ← s.dropCandidate
  let (t, c) ← block? folded s.indent s.cursor.advance
  return { s.emit (.scalar (if folded then .folded else .literal) t) with
    cursor := c, keyAllowed := true }

/-- A scalar in quotes. -/
def fetchQuoted (single : Bool) (s : Scanner) : Option Scanner := do
  let s ← s.saveCandidate
  let (t, c) ← quoted? single s.cursor.advance
  return { s.emit (.scalar (if single then .singleQuoted else .doubleQuoted) t) with
    cursor := c, keyAllowed := false }

/-- A plain scalar. -/
def fetchPlain (s : Scanner) : Option Scanner := do
  let s ← s.saveCandidate
  let (t, broken, c) ← plain? s.inFlow s.indent s.cursor
  return { s.emit (.scalar .plain t) with cursor := c, keyAllowed := broken }

/-- Whether a plain scalar begins at a place. -/
def beginsPlain (flow : Bool) (c : Cursor) : Bool :=
  let marks := ['-', '?', ':', ',', '[', ']', '\x7b', '\x7d', '#', '&', '*', '!', '|', '>', '\'',
    '"', '%', '@', '`']
  (!c.seesSpace 0 && !(c.peek 0).any (· ∈ marks)) ||
  (c.sees 0 '-' && !c.seesGap 1) ||
  (!flow && (c.sees 0 '?' || c.sees 0 ':') && !c.seesSpace 1)

/-- **The token that begins with a character**, which is the next one. -/
def fetchAt (d : Char) (s : Scanner) : Option Scanner :=
  let c := s.cursor
  let flow := s.inFlow
  if c.column = 0 ∧ d = '%' then s.fetchDirective
  else if c.atDocumentMark then
    s.fetchDocumentMark (if d = '-' then .documentStart else .documentEnd)
  else if d = '[' then s.fetchOpening .openBracket
  else if d = '\x7b' then s.fetchOpening .openBrace
  else if d = ']' then s.fetchClosing .closeBracket
  else if d = '\x7d' then s.fetchClosing .closeBrace
  else if d = ',' then s.fetchComma
  else if d = '-' ∧ c.seesSpace 1 then s.fetchDash
  else if d = '?' ∧ (flow || c.seesSpace 1) then s.fetchKey
  else if d = ':' ∧ (flow || c.seesSpace 1) then s.fetchValue
  else if d = '*' then s.fetchAnchor .alias
  else if d = '&' then s.fetchAnchor .anchor
  else if d = '!' then s.fetchTag
  else if d = '|' ∧ !flow then s.fetchBlock false
  else if d = '>' ∧ !flow then s.fetchBlock true
  else if d = '\'' then s.fetchQuoted true
  else if d = '"' then s.fetchQuoted false
  else if beginsPlain flow c then s.fetchPlain
  else none

/-- **The next token**, with the ends of blocks before it. -/
def fetch (s : Scanner) : Option Scanner := do
  let s ← s.skipSpace.expireAll
  let s := s.closeBlocks s.cursor.column
  match s.cursor.rest with
  | [] => s.fetchEnd
  | d :: _ => s.fetchAt d

/-! ## What tokens take of the text -/

/-- A scanner that moves something takes at least one character of the text. -/
def Moves (f : Scanner → Option Scanner) : Prop :=
  ∀ s s' d t, s.cursor.rest = d :: t → f s = some s' →
    s'.cursor.rest.length < s.cursor.rest.length

/-- Some characters are passed from where the scanner stands. -/
theorem length_advanceBy_lt {s r : Scanner} {d : Char} {t : Text} {n : Nat}
    (hs : s.cursor.rest = d :: t) (hr : r.cursor = s.cursor) (hn : 0 < n) :
    (r.cursor.advanceBy n).rest.length < s.cursor.rest.length := by
  rw [hr]
  exact Cursor.length_advanceBy_lt hs hn

/-- What is read behind the first character leaves less than the text that begins with it. -/
theorem length_lt_of_advance {s r : Scanner} {c : Cursor} {d : Char} {t : Text}
    (hs : s.cursor.rest = d :: t) (hr : r.cursor = s.cursor)
    (hc : c.rest.length ≤ r.cursor.advance.rest.length) :
    c.rest.length < s.cursor.rest.length := by
  rw [hr] at hc
  exact Nat.lt_of_le_of_lt hc (Cursor.length_advance_lt hs)

/-- A directive takes its percent sign. -/
theorem moves_fetchDirective : Moves fetchDirective := by
  intro s s' d t hs h
  obtain ⟨r, hdrop, h⟩ := Option.bind_eq_some_iff.mp h
  obtain ⟨⟨u, c⟩, hread, h⟩ := Option.bind_eq_some_iff.mp h
  cases h
  have hr : r.cursor = s.cursor := by simpa using cursor_dropCandidate hdrop
  exact length_lt_of_advance hs hr (length_directive?_le hread)

/-- A document mark takes its three characters. -/
theorem moves_fetchDocumentMark (u : Token) : Moves (fetchDocumentMark u) := by
  intro s s' d t hs h
  obtain ⟨r, hdrop, h⟩ := Option.bind_eq_some_iff.mp h
  cases h
  have hr : r.cursor = s.cursor := by simpa using cursor_dropCandidate hdrop
  exact length_advanceBy_lt hs hr (by omega)

/-- An opening bracket is taken. -/
theorem moves_fetchOpening (u : Token) : Moves (fetchOpening u) := by
  intro s s' d t hs h
  obtain ⟨r, hsave, h⟩ := Option.bind_eq_some_iff.mp h
  cases h
  exact length_advanceBy_lt hs (cursor_saveCandidate hsave) (by omega)

/-- A closing bracket is taken. -/
theorem moves_fetchClosing (u : Token) : Moves (fetchClosing u) := by
  intro s s' d t hs h
  obtain ⟨r, hdrop, h⟩ := Option.bind_eq_some_iff.mp h
  have hr := cursor_dropCandidate hdrop
  dsimp only at h
  split at h
  · cases h
    exact length_advanceBy_lt hs hr (by omega)
  · cases h
    exact length_advanceBy_lt hs hr (by omega)

/-- A comma is taken. -/
theorem moves_fetchComma : Moves fetchComma := by
  intro s s' d t hs h
  obtain ⟨r, hdrop, h⟩ := Option.bind_eq_some_iff.mp h
  cases h
  exact length_advanceBy_lt hs (cursor_dropCandidate hdrop) (by omega)

/-- The dash of an item is taken. -/
theorem moves_fetchDash : Moves fetchDash := by
  intro s s' d t hs h
  unfold fetchDash at h
  split at h
  · cases h
  · obtain ⟨r, hdrop, h⟩ := Option.bind_eq_some_iff.mp h
    cases h
    have hr : r.cursor = s.cursor := by simpa using cursor_dropCandidate hdrop
    exact length_advanceBy_lt hs hr (by omega)

/-- The mark of a key is taken. -/
theorem moves_fetchKey : Moves fetchKey := by
  intro s s' d t hs h
  unfold fetchKey at h
  split at h
  · cases h
  · obtain ⟨r, hdrop, h⟩ := Option.bind_eq_some_iff.mp h
    cases h
    have hr : r.cursor = s.cursor := by simpa using cursor_dropCandidate hdrop
    exact length_advanceBy_lt hs hr (by omega)

/-- The colon of a value is taken. -/
theorem moves_fetchValue : Moves fetchValue := by
  intro s s' d t hs h
  dsimp only [fetchValue] at h
  split at h
  · cases h
    exact length_advanceBy_lt hs (by simp) (by omega)
  · split at h
    · cases h
    · cases h
      exact length_advanceBy_lt hs (by simp) (by omega)

/-- An anchor or an alias takes its mark. -/
theorem moves_fetchAnchor (u : Text → Token) : Moves (fetchAnchor u) := by
  intro s s' d t hs h
  obtain ⟨r, hsave, h⟩ := Option.bind_eq_some_iff.mp h
  dsimp only at h
  split at h
  · cases h
  · cases h
    exact length_advanceBy_lt hs (cursor_saveCandidate hsave) (by omega)

/-- A tag takes its exclamation mark. -/
theorem moves_fetchTag : Moves fetchTag := by
  intro s s' d t hs h
  obtain ⟨r, hsave, h⟩ := Option.bind_eq_some_iff.mp h
  obtain ⟨⟨u, c⟩, hread, h⟩ := Option.bind_eq_some_iff.mp h
  cases h
  exact length_lt_of_advance hs (cursor_saveCandidate hsave) (length_tag?_le hread)

/-- A block scalar takes its mark. -/
theorem moves_fetchBlock (folded : Bool) : Moves (fetchBlock folded) := by
  intro s s' d t hs h
  obtain ⟨r, hdrop, h⟩ := Option.bind_eq_some_iff.mp h
  obtain ⟨⟨u, c⟩, hread, h⟩ := Option.bind_eq_some_iff.mp h
  cases h
  exact length_lt_of_advance hs (cursor_dropCandidate hdrop) (length_block?_le hread)

/-- A quoted scalar takes its first quote. -/
theorem moves_fetchQuoted (single : Bool) : Moves (fetchQuoted single) := by
  intro s s' d t hs h
  obtain ⟨r, hsave, h⟩ := Option.bind_eq_some_iff.mp h
  obtain ⟨⟨u, c⟩, hread, h⟩ := Option.bind_eq_some_iff.mp h
  cases h
  exact length_lt_of_advance hs (cursor_saveCandidate hsave) (length_quotedFrom?_le hread)

/-- A plain scalar takes its first character. -/
theorem moves_fetchPlain : Moves fetchPlain := by
  intro s s' d t hs h
  obtain ⟨r, hsave, h⟩ := Option.bind_eq_some_iff.mp h
  obtain ⟨⟨u, broken, c⟩, hread, h⟩ := Option.bind_eq_some_iff.mp h
  cases h
  exact length_lt_of_advance hs (cursor_saveCandidate hsave) (length_plainFrom?_le hread)

/-- A choice between scanners that move is one. -/
theorem Moves.ite {p : Scanner → Prop} {_ : ∀ s, Decidable (p s)} {f g : Scanner → Option Scanner}
    (hf : Moves f) (hg : Moves g) : Moves fun s => if p s then f s else g s := by
  intro s s' d t hs h
  dsimp only at h
  split at h
  · exact hf s s' d t hs h
  · exact hg s s' d t hs h

/-- **Whatever a token begins with, it takes something of the text.** -/
theorem moves_fetchAt (d : Char) : Moves (fetchAt d) := by
  have hnone : Moves fun _ => none := by
    intro s s' e t _ h
    cases h
  show Moves fun s => fetchAt d s
  dsimp only [fetchAt]
  -- one step for each kind of token, in the order in which they are tried
  refine .ite moves_fetchDirective ?_
  refine .ite (moves_fetchDocumentMark _) ?_
  refine .ite (moves_fetchOpening _) ?_
  refine .ite (moves_fetchOpening _) ?_
  refine .ite (moves_fetchClosing _) ?_
  refine .ite (moves_fetchClosing _) ?_
  refine .ite moves_fetchComma ?_
  refine .ite moves_fetchDash ?_
  refine .ite moves_fetchKey ?_
  refine .ite moves_fetchValue ?_
  refine .ite (moves_fetchAnchor _) ?_
  refine .ite (moves_fetchAnchor _) ?_
  refine .ite moves_fetchTag ?_
  refine .ite (moves_fetchBlock _) ?_
  refine .ite (moves_fetchBlock _) ?_
  refine .ite (moves_fetchQuoted _) ?_
  refine .ite (moves_fetchQuoted _) ?_
  exact .ite moves_fetchPlain hnone

/-- At the end of the text the last token comes. -/
theorem back?_fetchEnd {s s' : Scanner} (h : s.fetchEnd = some s') :
    s'.tokens.back? = some .streamEnd := by
  obtain ⟨r, -, h⟩ := Option.bind_eq_some_iff.mp h
  cases h
  exact Array.back?_push

/-- **Every token but the last takes something of the text.** -/
theorem length_fetch_lt {s s' : Scanner} (h : s.fetch = some s')
    (hend : s'.tokens.back? ≠ some .streamEnd) :
    s'.cursor.rest.length < s.cursor.rest.length := by
  obtain ⟨r, hexpire, h⟩ := Option.bind_eq_some_iff.mp h
  have hle : r.cursor.rest.length ≤ s.cursor.rest.length := by
    rw [cursor_expireAll hexpire]
    exact length_skipSpace_le s
  dsimp only at h
  split at h
  · exact absurd (back?_fetchEnd h) hend
  · next d t hrest =>
    have hlt := moves_fetchAt d _ _ d t hrest h
    rw [cursor_closeBlocks] at hlt
    exact Nat.lt_of_lt_of_le hlt hle

/-- **Tokens up to the end of the text.** -/
def run (s : Scanner) : Option Scanner :=
  match _hfetch : s.fetch with
  | none => none
  | some s' => if _hend : s'.tokens.back? = some .streamEnd then some s' else run s'
termination_by s.cursor.rest.length
decreasing_by exact length_fetch_lt _hfetch _hend

end Scanner

/-- **The tokens of a text**, which holds no control characters. A byte order mark may stand in
front. -/
def Token.scan? (t : Text) : Option (List Token) :=
  let t := match t with
    | '\uFEFF' :: t => t
    | t => t
  if t.all isPrintable then (Scanner.start t).run.map fun s => s.tokens.toList else none

end Yaml

end LocaleWrap
