import LocaleWrap.Yaml.Scalar

/-! # YAML tokens, tags and directives

* **`Yaml.Token`** — the tokens of a text.
* **`Yaml.tag?`** — a tag, of which characters may be written as octets.
* **`Yaml.directive?`** — a directive, which stands on a line of its own.

`length_tag?_le` and `length_directive?_le` say that these readers leave no more of the text than
they were given. -/

namespace LocaleWrap

namespace Yaml

/-- **How a scalar is written.** -/
inductive ScalarStyle
  | plain
  | singleQuoted
  | doubleQuoted
  | literal
  | folded
  deriving DecidableEq, Repr, Inhabited

/-- **A token.** -/
inductive Token
  | streamEnd
  | version (major minor : Nat)
  | tagHandle (handle expansion : Text)
  | documentStart
  | documentEnd
  | sequenceBlock
  | mappingBlock
  | blockEnd
  | openBracket
  | closeBracket
  | openBrace
  | closeBrace
  | dash
  | comma
  | key
  | value
  | alias (name : Text)
  | anchor (name : Text)
  | tag (handle suffix : Text)
  | scalar (style : ScalarStyle) (text : Text)
  deriving DecidableEq, Repr, Inhabited

/-! ## Tags -/

/-- Whether a character may stand in a tag; commas and brackets only between angle brackets. -/
def isTagChar (verbatim : Bool) (c : Char) : Bool :=
  isNameChar c || c ∈ [';', '/', '?', ':', '@', '&', '=', '+', '$', '.', '%', '!', '~', '*', '\'',
    '(', ')'] || (verbatim && c ∈ [',', '[', ']'])

/-- An octet written as a percent sign and two digits. -/
def octet? : Text → Option UInt8
  | '%' :: a :: b :: _ => (hexNumber? [a, b]).map UInt8.ofNat
  | _ => none

/-- How many further octets a character takes, by the first of them. -/
def furtherOctets? (o : UInt8) : Option Nat :=
  if o < 0x80 then some 0
  else if 0xC0 ≤ o ∧ o < 0xE0 then some 1
  else if 0xE0 ≤ o ∧ o < 0xF0 then some 2
  else if 0xF0 ≤ o ∧ o < 0xF8 then some 3
  else none

/-- So many further octets of a character. -/
def moreOctets? : Nat → Nat → Text → Option Nat
  | 0, acc, _ => some acc
  | n + 1, acc, t => do
    let o ← octet? t
    if o.toNat / 64 = 2 then moreOctets? n (acc * 64 + o.toNat % 64) (t.drop 3) else none

/-- A character written in octets, and how many octets follow the first. -/
def octetChar? (t : Text) : Option (Char × Nat) := do
  let o ← octet? t
  let further ← furtherOctets? o
  let first := if further = 0 then o.toNat else o.toNat % Nat.pow 2 (6 - further)
  let n ← moreOctets? further first (t.drop 3)
  return (Char.ofNat n, further)

/-- The characters of a tag, with the cursor behind them. -/
def tagText? (verbatim : Bool) (acc : Text) (c : Cursor) : Option (Text × Cursor) :=
  match _hrest : c.rest with
  | [] => some (acc, c)
  | d :: _ =>
    if !isTagChar verbatim d then some (acc, c)
    else if d == '%' then do
      let (e, further) ← octetChar? c.rest
      tagText? verbatim (acc ++ [e]) (c.advanceBy (3 * (further + 1)))
    else tagText? verbatim (acc ++ [d]) c.advance
termination_by c.rest.length
decreasing_by
  · exact Cursor.length_advanceBy_lt _hrest (by omega)
  · exact Cursor.length_advance_lt _hrest

/-- The text of a tag leaves no more text than there was. -/
theorem length_tagText?_le {verbatim : Bool} {acc t : Text} {c c' : Cursor}
    (h : tagText? verbatim acc c = some (t, c')) : c'.rest.length ≤ c.rest.length := by
  fun_induction tagText? verbatim acc c
  case case1 | case2 =>
    obtain ⟨-, rfl⟩ := by simpa using h
    exact Nat.le_refl _
  case case3 ih =>
    obtain ⟨⟨e, further⟩, -, h⟩ := Option.bind_eq_some_iff.mp h
    exact Nat.le_trans (ih e further h) (Cursor.length_advanceBy_le _ _)
  case case4 ih => exact Nat.le_trans (ih h) (Cursor.length_advance_le _)

/-- A tag's characters, of which there must be one at least after `front`. -/
def tagSuffix? (verbatim : Bool) (front : Text) (c : Cursor) : Option (Text × Cursor) := do
  let (t, c') ← tagText? verbatim [] c
  if front = [] ∧ t = [] then none else return (front.drop 1 ++ t, c')

/-- The suffix of a tag leaves no more text than there was. -/
theorem length_tagSuffix?_le {verbatim : Bool} {front t : Text} {c c' : Cursor}
    (h : tagSuffix? verbatim front c = some (t, c')) : c'.rest.length ≤ c.rest.length := by
  obtain ⟨⟨u, r⟩, htext, h⟩ := Option.bind_eq_some_iff.mp h
  dsimp only at h
  split at h
  · cases h
  · cases h
    exact length_tagText?_le htext

/-- The name after an exclamation mark, and a second mark if there is one: a handle, with the
marks. -/
def handle (c : Cursor) : Text × Cursor :=
  let name : Text := c.rest.takeWhile isNameChar
  let c := c.advanceBy name.length
  if c.sees 0 '!' then ('!' :: name ++ ['!'], c.advance) else ('!' :: name, c)

/-- A handle leaves no more text than there was. -/
theorem length_handle_le (c : Cursor) : (handle c).2.rest.length ≤ c.rest.length := by
  dsimp only [handle]
  split
  · exact Nat.le_trans (Cursor.length_advance_le _) (Cursor.length_advanceBy_le c _)
  · exact Cursor.length_advanceBy_le c _

/-- The handle and the suffix of a tag, with the cursor behind its exclamation mark. -/
def tagParts? (c : Cursor) : Option (Text × Text × Cursor) :=
  if c.sees 0 '<' then do
    let (suffix, c) ← tagSuffix? true [] c.advance
    if c.sees 0 '>' then return ([], suffix, c.advance) else none
  else
    let (front, c) := handle c
    if front.length > 1 ∧ front.getLast? = some '!' then do
      let (suffix, c) ← tagSuffix? false [] c
      return (front, suffix, c)
    else do
      let (suffix, c) ← tagSuffix? false front c
      if suffix = [] then return ([], ['!'], c) else return (['!'], suffix, c)

/-- The parts of a tag leave no more text than there was. -/
theorem length_tagParts?_le {front suffix : Text} {c c' : Cursor}
    (h : tagParts? c = some (front, suffix, c')) : c'.rest.length ≤ c.rest.length := by
  unfold tagParts? at h
  split at h
  · obtain ⟨⟨t, r⟩, hsuffix, h⟩ := Option.bind_eq_some_iff.mp h
    dsimp only at h
    split at h
    · cases h
      exact Nat.le_trans (Cursor.length_advance_le r)
        (Nat.le_trans (length_tagSuffix?_le hsuffix) (Cursor.length_advance_le c))
    · cases h
  · dsimp only at h
    split at h
    · obtain ⟨⟨t, r⟩, hsuffix, h⟩ := Option.bind_eq_some_iff.mp h
      cases h
      exact Nat.le_trans (length_tagSuffix?_le hsuffix) (length_handle_le c)
    · obtain ⟨⟨t, r⟩, hsuffix, h⟩ := Option.bind_eq_some_iff.mp h
      have hr := Nat.le_trans (length_tagSuffix?_le hsuffix) (length_handle_le c)
      dsimp only at h
      split at h
      · cases h
        exact hr
      · cases h
        exact hr

/-- **A tag**: handle and suffix, with the cursor behind its exclamation mark. -/
def tag? (flow : Bool) (c : Cursor) : Option (Token × Cursor) := do
  let (front, suffix, c) ← tagParts? c
  if (flow && c.sees 0 ',') || c.seesSpace 0 then return (.tag front suffix, c) else none

/-- A tag leaves no more text than there was. -/
theorem length_tag?_le {flow : Bool} {t : Token} {c c' : Cursor}
    (h : tag? flow c = some (t, c')) : c'.rest.length ≤ c.rest.length := by
  obtain ⟨⟨front, suffix, r⟩, hparts, h⟩ := Option.bind_eq_some_iff.mp h
  dsimp only at h
  split at h
  · cases h
    exact length_tagParts?_le hparts
  · cases h

/-! ## Directives -/

/-- A number of up to nine digits. -/
def versionNumber? (c : Cursor) : Option (Nat × Cursor) :=
  let ds : Text := c.rest.takeWhile Char.isDigit
  if ds = [] ∨ ds.length > 9 then none
  else some (ds.foldl (fun n d => n * 10 + (d.toNat - 48)) 0, c.advanceBy ds.length)

/-- A version number leaves no more text than there was. -/
theorem length_versionNumber?_le {n : Nat} {c c' : Cursor} (h : versionNumber? c = some (n, c')) :
    c'.rest.length ≤ c.rest.length := by
  dsimp only [versionNumber?] at h
  split at h
  · cases h
  · cases h
    exact Cursor.length_advanceBy_le c _

/-- A version: two numbers with a dot between them. -/
def version? (c : Cursor) : Option (Token × Cursor) := do
  let (major, c) ← versionNumber? c
  if !c.sees 0 '.' then none
  else do
    let (minor, c) ← versionNumber? c.advance
    return (.version major minor, c)

/-- A version leaves no more text than there was. -/
theorem length_version?_le {t : Token} {c c' : Cursor} (h : version? c = some (t, c')) :
    c'.rest.length ≤ c.rest.length := by
  obtain ⟨⟨major, r⟩, hmajor, h⟩ := Option.bind_eq_some_iff.mp h
  dsimp only at h
  split at h
  · cases h
  · obtain ⟨⟨minor, r'⟩, hminor, h⟩ := Option.bind_eq_some_iff.mp h
    cases h
    calc r'.rest.length
      _ ≤ r.advance.rest.length := length_versionNumber?_le hminor
      _ ≤ r.rest.length := Cursor.length_advance_le r
      _ ≤ c.rest.length := length_versionNumber?_le hmajor

/-- A tag handle with what it stands for. -/
def tagHandle? (c : Cursor) : Option (Token × Cursor) :=
  if !c.sees 0 '!' then none
  else
    let (front, c) := handle c.advance
    if (front.length > 1 ∧ front.getLast? ≠ some '!') ∨ !c.seesGap 0 then none
    else do
      let (expansion, c) ← tagSuffix? true [] (c.skipWhile isGap)
      if c.seesSpace 0 then return (.tagHandle front expansion, c) else none

/-- A directive for tags leaves no more text than there was. -/
theorem length_tagHandle?_le {t : Token} {c c' : Cursor} (h : tagHandle? c = some (t, c')) :
    c'.rest.length ≤ c.rest.length := by
  unfold tagHandle? at h
  split at h
  · cases h
  · dsimp only at h
    split at h
    · cases h
    · obtain ⟨⟨expansion, r⟩, hsuffix, h⟩ := Option.bind_eq_some_iff.mp h
      dsimp only at h
      split at h
      · cases h
        calc c'.rest.length
          _ ≤ ((handle c.advance).2.skipWhile isGap).rest.length := length_tagSuffix?_le hsuffix
          _ ≤ (handle c.advance).2.rest.length := Cursor.length_skipWhile_le _ isGap
          _ ≤ c.advance.rest.length := length_handle_le c.advance
          _ ≤ c.rest.length := Cursor.length_advance_le c
      · cases h

/-- What a directive says, by its name. -/
def directiveValue? (name : Text) (c : Cursor) : Option (Token × Cursor) :=
  if name = "YAML".toList then version? (c.skipWhile isGap)
  else if name = "TAG".toList then tagHandle? (c.skipWhile isGap)
  else none

/-- The value of a directive leaves no more text than there was. -/
theorem length_directiveValue?_le {name : Text} {t : Token} {c c' : Cursor}
    (h : directiveValue? name c = some (t, c')) : c'.rest.length ≤ c.rest.length := by
  have hblanks := Cursor.length_skipWhile_le c isGap
  unfold directiveValue? at h
  split at h
  · exact Nat.le_trans (length_version?_le h) hblanks
  · split at h
    · exact Nat.le_trans (length_tagHandle?_le h) hblanks
    · cases h

/-- **A directive**, with the cursor behind its percent sign. -/
def directive? (c : Cursor) : Option (Token × Cursor) :=
  let name : Text := c.rest.takeWhile isNameChar
  let c := c.advanceBy name.length
  if name = [] ∨ !c.seesSpace 0 then none
  else do
    let (t, c) ← directiveValue? name c
    let c := c.skipComment isGap
    if !c.seesLineEnd 0 then none else return (t, c.advanceLine.2)

/-- A directive leaves no more text than there was. -/
theorem length_directive?_le {t : Token} {c c' : Cursor} (h : directive? c = some (t, c')) :
    c'.rest.length ≤ c.rest.length := by
  dsimp only [directive?] at h
  split at h
  · cases h
  · obtain ⟨⟨u, r⟩, hvalue, h⟩ := Option.bind_eq_some_iff.mp h
    dsimp only at h
    split at h
    · cases h
    · cases h
      calc (r.skipComment isGap).advanceLine.2.rest.length
        _ ≤ (r.skipComment isGap).rest.length := Cursor.length_advanceLine_le _
        _ ≤ r.rest.length := Cursor.length_skipComment_le r isGap
        _ ≤ (c.advanceBy _).rest.length := length_directiveValue?_le hvalue
        _ ≤ c.rest.length := Cursor.length_advanceBy_le c _

end Yaml

end LocaleWrap
