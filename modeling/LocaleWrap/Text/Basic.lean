/-! # Text as a list of characters

Every reader of this library recurses on the characters of a text, so a text is the list of them.

* **`Text`** — a text, and **`Text.asString`** the string it stands for.
* **`Text.isBlank`** — the white space characters of the Unicode standard.
* **`Text.trimEnd`** — a text without the blanks at its end; `trimEnd_append_singleton` says that
  a text whose last character is not blank is left as it is.
* **`Text.joinWith`** — texts put together with a separator between them. -/

namespace LocaleWrap

/-- **A text** is the list of its characters. -/
abbrev Text := List Char

/-- A string in braces. -/
def braced (s : String) : String := "\x7b" ++ s ++ "\x7d"

namespace Text

/-- The string that a text stands for. -/
def asString (t : Text) : String := String.ofList t

/-- The text of a string. -/
def ofString (s : String) : Text := s.toList

@[simp] theorem asString_ofString (s : String) : asString (ofString s) = s := by
  simp [asString, ofString]

@[simp] theorem ofString_asString (t : Text) : ofString (asString t) = t := by
  simp [asString, ofString]

/-- The number of bytes that the text takes in UTF-8. -/
def byteLength (t : Text) : Nat := t.foldl (fun n c => n + c.utf8Size) 0

/-- Counting bytes may begin at any number. -/
theorem foldl_utf8Size (n : Nat) (t : Text) :
    t.foldl (fun n c => n + c.utf8Size) n = n + byteLength t := by
  induction t generalizing n with
  | nil => rfl
  | cons c t ih =>
      rw [byteLength, List.foldl_cons, List.foldl_cons, ih, ih (0 + c.utf8Size), Nat.zero_add,
        Nat.add_assoc]

@[simp] theorem byteLength_nil : byteLength [] = 0 := rfl

/-- One character more adds its bytes. -/
theorem byteLength_cons (c : Char) (t : Text) :
    byteLength (c :: t) = c.utf8Size + byteLength t := by
  rw [byteLength, List.foldl_cons, foldl_utf8Size, Nat.zero_add]

/-- **Bytes add up.** -/
@[simp] theorem byteLength_append (s t : Text) :
    byteLength (s ++ t) = byteLength s + byteLength t := by
  rw [byteLength, List.foldl_append, foldl_utf8Size]
  rfl

/-! ## Blanks -/

/-- **A blank** is a character of the Unicode class White_Space: tab to carriage return, the space,
next line, the no-break space, the spaces of general punctuation and the ideographic space. -/
def isBlank (c : Char) : Bool :=
  let n := c.toNat
  (0x09 ≤ n && n ≤ 0x0D) || n == 0x20 || n == 0x85 || n == 0xA0 || n == 0x1680 ||
  (0x2000 ≤ n && n ≤ 0x200A) || n == 0x2028 || n == 0x2029 || n == 0x202F || n == 0x205F ||
  n == 0x3000

/-- The blanks that a text begins with. -/
def leadingBlanks (t : Text) : Text := t.takeWhile isBlank

/-- A text without the blanks that it begins with. -/
def trimStart (t : Text) : Text := t.dropWhile isBlank

/-- The leading blanks and the rest are the whole text. -/
theorem leadingBlanks_append_trimStart (t : Text) : leadingBlanks t ++ trimStart t = t :=
  List.takeWhile_append_dropWhile

/-- A text without the blanks at its end. -/
def trimEnd (t : Text) : Text := (t.reverse.dropWhile isBlank).reverse

@[simp] theorem trimEnd_nil : trimEnd [] = [] := rfl

/-- **A text that ends in a character which is no blank** is left as it is. -/
theorem trimEnd_append_singleton {c : Char} (t : Text) (h : isBlank c = false) :
    trimEnd (t ++ [c]) = t ++ [c] := by
  simp [trimEnd, h]

/-! ## Joining -/

/-- **The texts put together**, with `sep` between each two of them. -/
def joinWith (sep : Text) : List Text → Text
  | [] => []
  | [t] => t
  | t :: u :: ts => t ++ sep ++ joinWith sep (u :: ts)

@[simp] theorem joinWith_nil (sep : Text) : joinWith sep [] = [] := rfl

@[simp] theorem joinWith_singleton (sep t : Text) : joinWith sep [t] = t := rfl

@[simp] theorem joinWith_cons_cons (sep t u : Text) (ts : List Text) :
    joinWith sep (t :: u :: ts) = t ++ sep ++ joinWith sep (u :: ts) := rfl

/-- **The pieces of a text between the separators `c`**, one more than there are separators. -/
def pieces (c : Char) (t : Text) : List Text :=
  t.foldr (fun d ps =>
    if d = c then [] :: ps
    else match ps with
      | [] => [[d]]
      | p :: ps => (d :: p) :: ps) [[]]

@[simp] theorem pieces_nil (c : Char) : pieces c [] = [[]] := rfl

/-- A separator in front puts an empty piece in front. -/
theorem pieces_cons_self (c : Char) (t : Text) : pieces c (c :: t) = [] :: pieces c t := by
  simp [pieces]

/-- A text has at least one piece. -/
theorem pieces_ne_nil (c : Char) (t : Text) : pieces c t ≠ [] := by
  cases t with
  | nil => simp
  | cons d t =>
    simp only [pieces, List.foldr_cons]
    split
    · simp
    · split <;> simp

/-- Any other character in front belongs to the first piece. -/
theorem pieces_cons_of_ne {c d : Char} (h : d ≠ c) (t : Text) :
    ∃ p ps, pieces c t = p :: ps ∧ pieces c (d :: t) = (d :: p) :: ps := by
  rcases hp : pieces c t with _ | ⟨p, ps⟩
  · exact absurd hp (pieces_ne_nil c t)
  · refine ⟨p, ps, rfl, ?_⟩
    have : pieces c (d :: t) = match pieces c t with
        | [] => [[d]]
        | p :: ps => (d :: p) :: ps := by
      simp [pieces, h]
    rw [this, hp]

/-- **Joining the pieces gives the text back.** -/
theorem joinWith_pieces (c : Char) (t : Text) : joinWith [c] (pieces c t) = t := by
  induction t with
  | nil => rfl
  | cons d t ih =>
    by_cases h : d = c
    · subst h
      rw [pieces_cons_self]
      rcases hp : pieces d t with _ | ⟨p, ps⟩
      · exact absurd hp (pieces_ne_nil d t)
      · rw [hp] at ih
        simp [ih]
    · obtain ⟨p, ps, h₁, h₂⟩ := pieces_cons_of_ne h t
      rw [h₁] at ih
      rw [h₂]
      cases ps with
      | nil => simpa using ih
      | cons q qs => simpa using ih

end Text

end LocaleWrap
