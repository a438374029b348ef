import LocaleWrap.Proofs.Text.Blank
import LocaleWrap.Proofs.Text.RawLine
import LocaleWrap.Report.Listing

/-! # Reading the listing of classified lines

The listing for readers has one row for each line of the document, with or without styles. What it
says of a line can be read off the row.

* **`Finding`** — what a report says of a line: its number, its kind, whether it was changed.
* **`Style.switch`**, **`Style.skip`** — the marks around a styled text, and passing over one.
* **`Listing.readRow`** — the finding that a row shows; `readRow_classifiedLine` reads what was
  written there.
* `Listing.split_classification` — the rows of a listing are its lines. -/

namespace LocaleWrap

/-- **What a report says of a line** of a document. -/
structure Finding where
  /-- The number of the line. -/
  line : Nat
  /-- The name of its role. -/
  kind : Text
  /-- Whether the line was changed. -/
  changed : Bool
  deriving DecidableEq, Repr

/-- What is found on a classified line. -/
def Report.ClassifiedLine.finding (l : Report.ClassifiedLine) : Finding :=
  ⟨l.line, l.role.label.toList, l.localized.isSome⟩

/-! ## Styles -/

namespace Style

/-- **The mark with a code**, which switches a style on or off, if styles are `on`. -/
def switch (on : Bool) (code : String) : Text :=
  if on then '\x1b' :: '[' :: (code.toList ++ ['m']) else []

/-- A styled text stands between two marks. -/
theorem toList_paint (on : Bool) (style : Style) (s : String) :
    (paint on style s).toList = switch on style.onCode ++ s.toList ++ switch on style.offCode := by
  cases on <;> simp [paint, switch]

/-- **A text without the mark in front**, if there is one. -/
def skip : Text → Text
  | '\x1b' :: t => (t.dropWhile (· != 'm')).drop 1
  | t => t

/-- Where no colour begins nothing is skipped. -/
theorem skip_cons {c : Char} (h : c ≠ '\x1b') (t : Text) : skip (c :: t) = c :: t := by
  rw [skip]
  intro _ heq
  exact h (List.cons.inj heq).1

/-- **A mark is passed over**, whether it is there or not. -/
theorem skip_switch {on : Bool} {code : String} {c : Char} (hcode : 'm' ∉ code.toList)
    (hc : c ≠ '\x1b') (t : Text) : skip (switch on code ++ c :: t) = c :: t := by
  cases on with
  | false => exact skip_cons hc t
  | true =>
      have hplain : ∀ d ∈ '[' :: code.toList, (d != 'm') = true := by
        intro d hd
        rw [bne_iff_ne]
        rintro rfl
        rcases List.mem_cons.mp hd with heq | hmem
        · exact absurd heq (by decide)
        · exact hcode hmem
      have hdrop : ('[' :: (code.toList ++ ['m']) ++ c :: t).dropWhile (· != 'm') =
          'm' :: c :: t := by
        have happend : ('[' :: code.toList ++ 'm' :: c :: t).dropWhile (· != 'm') =
            ('m' :: c :: t).dropWhile (· != 'm') := List.dropWhile_append_of_pos hplain
        simpa using happend
      rw [switch, if_pos rfl, List.cons_append, skip, hdrop]
      rfl

/-- No code holds the character that ends a mark. -/
theorem not_mem_code (style : Style) :
    'm' ∉ style.onCode.toList ∧ 'm' ∉ style.offCode.toList := by
  cases style <;> decide

end Style

/-! ## Rows -/

namespace Listing

open Style

/-- Whether a character can stand in the name of a kind: names end before a space or a style. -/
def isKindChar (c : Char) : Bool := c != ' ' && c != '\x1b'

/-- A row behind its number, without the style of the mark that follows. -/
def behindNumber (row : Text) : Text :=
  skip (((row.dropWhile (· == ' ')).dropWhile Char.isDigit).drop 1)

/-- A row behind its mark, without the style of the kind that follows. -/
def behindMark (row : Text) : Text := skip ((skip ((behindNumber row).drop 1)).drop 1)

/-- **Reads a row of the listing**: the number behind the spaces, the mark after it, the kind. -/
def readRow (row : Text) : Finding :=
  ⟨Nat.ofDigitChars 10 ((row.dropWhile (· == ' ')).takeWhile Char.isDigit) 0,
    (behindMark row).takeWhile isKindChar, (behindNumber row).head? == some '✎'⟩

/-- The character that marks a line as changed, or not. -/
def markOf (changed : Bool) : Char := if changed then '✎' else ' '

/-- **A row, part by part**: spaces, the number, the mark and the kind between styles, and the
line. -/
theorem toList_classifiedLine (color : Bool) (l : Report.ClassifiedLine) :
    ∃ style spaces filling, (∀ c ∈ spaces, c = ' ') ∧ (∀ c ∈ filling, c = ' ') ∧
      (classifiedLine color l).toList =
        spaces ++ (Nat.toDigits 10 l.line ++ ' ' :: (switch color green.onCode ++
          markOf l.localized.isSome :: (switch color green.offCode ++ ' ' ::
            (switch color (onCode style) ++ (l.role.label.toList ++ (filling ++
              (switch color style.offCode ++ ' ' :: '│' :: ' ' :: l.body))))))) := by
  refine ⟨if l.role = .unmatched then faint else cyan,
    List.replicate (5 - (toString l.line).length) ' ',
    List.replicate (12 - l.role.label.length) ' ', ?_, ?_, ?_⟩
  · intro c hc
    exact List.eq_of_mem_replicate hc
  · intro c hc
    exact List.eq_of_mem_replicate hc
  · have hmark :
        (if l.localized.isSome then "✎" else " ").toList = [markOf l.localized.isSome] := by
      rw [markOf]
      split <;> rfl
    simp [classifiedLine, toList_paint, padLeft, padRight, hmark, Text.asString]

/-- The number begins behind the spaces. -/
theorem dropWhile_spaces {spaces : Text} (hspaces : ∀ c ∈ spaces, c = ' ') (n : Nat) (t : Text) :
    (spaces ++ (Nat.toDigits 10 n ++ t)).dropWhile (· == ' ') = Nat.toDigits 10 n ++ t := by
  obtain ⟨d, ds, hd⟩ := List.exists_cons_of_ne_nil (Nat.toDigits_ne_nil (n := n) (b := 10))
  have hdigit : d.isDigit = true :=
    Nat.isDigit_of_mem_toDigits (by decide) (by decide) (hd ▸ List.mem_cons_self)
  have hne : (d == ' ') = false := by
    rw [beq_eq_false_iff_ne]
    rintro rfl
    exact absurd hdigit (by decide)
  rw [List.dropWhile_append_of_pos fun c hc => beq_iff_eq.mpr (hspaces c hc), hd, List.cons_append,
    List.dropWhile_cons_of_neg (by simp [hne])]

/-- **The parts of a row are read back.** -/
theorem readRow_append {color : Bool} {on₁ off₁ on₂ : String} {spaces kind rest : Text} {c : Char}
    (hspaces : ∀ d ∈ spaces, d = ' ') (hon₁ : 'm' ∉ on₁.toList) (hoff₁ : 'm' ∉ off₁.toList)
    (hon₂ : 'm' ∉ on₂.toList) (hne : kind ≠ []) (hkind : ∀ d ∈ kind, isKindChar d = true)
    (hc : isKindChar c = false) (n : Nat) (changed : Bool) :
    readRow (spaces ++ (Nat.toDigits 10 n ++ ' ' :: (switch color on₁ ++ markOf changed ::
      (switch color off₁ ++ ' ' :: (switch color on₂ ++ (kind ++ c :: rest)))))) =
      ⟨n, kind, changed⟩ := by
  have hdigits : ∀ d ∈ Nat.toDigits 10 n, d.isDigit = true :=
    fun d hd => Nat.isDigit_of_mem_toDigits (by decide) (by decide) hd
  have hmark : markOf changed ≠ '\x1b' := by cases changed <;> decide
  obtain ⟨k, ks, rfl⟩ := List.exists_cons_of_ne_nil hne
  have hk : k ≠ '\x1b' := by
    rintro rfl
    exact absurd (hkind '\x1b' (by simp)) (by decide)
  -- Behind the number stands the mark, and behind the mark the kind.
  have hnumber : behindNumber (spaces ++ (Nat.toDigits 10 n ++ ' ' :: (switch color on₁ ++
      markOf changed :: (switch color off₁ ++ ' ' :: (switch color on₂ ++
        (k :: ks ++ c :: rest)))))) =
      markOf changed ::
        (switch color off₁ ++ ' ' :: (switch color on₂ ++ (k :: ks ++ c :: rest))) := by
    rw [behindNumber, dropWhile_spaces hspaces,
      Text.dropWhile_of_stop hdigits (by simp), List.drop_succ_cons, List.drop_zero,
      skip_switch hon₁ hmark]
  have hmarked : behindMark (spaces ++ (Nat.toDigits 10 n ++ ' ' :: (switch color on₁ ++
      markOf changed :: (switch color off₁ ++ ' ' :: (switch color on₂ ++
        (k :: ks ++ c :: rest)))))) = k :: ks ++ c :: rest := by
    rw [behindMark, hnumber, List.drop_succ_cons, List.drop_zero, skip_switch hoff₁ (by decide),
      List.drop_succ_cons, List.drop_zero, List.cons_append, skip_switch hon₂ hk]
  rw [readRow, hnumber, hmarked, dropWhile_spaces hspaces,
    Text.takeWhile_of_stop hdigits (by simp),
    Nat.ofDigitChars_toDigits (by decide) (by decide),
    Text.takeWhile_of_stop hkind (by simpa using hc)]
  cases changed <;> rfl

/-- **A row shows what was found on its line**, whatever follows it. -/
theorem readRow_classifiedLine (color : Bool) (l : Report.ClassifiedLine) (rest : Text) :
    readRow ((classifiedLine color l).toList ++ rest) = l.finding := by
  obtain ⟨style, spaces, filling, hspaces, hfilling, hrow⟩ := toList_classifiedLine color l
  -- Behind the kind there is a space, or the mark that switches its style off.
  obtain ⟨c, t, ht, hc⟩ : ∃ c t, filling ++ (switch color style.offCode ++
      ' ' :: '│' :: ' ' :: (l.body ++ rest)) = c :: t ∧ isKindChar c = false := by
    cases filling with
    | nil =>
        cases color with
        | false => exact ⟨_, _, rfl, rfl⟩
        | true => exact ⟨_, _, rfl, rfl⟩
    | cons d ds =>
        obtain rfl : d = ' ' := hfilling d (by simp)
        exact ⟨_, _, rfl, rfl⟩
  have hne : l.role.label.toList ≠ [] := by cases l.role <;> decide
  have hkind : l.role.label.toList.all isKindChar = true := by cases l.role <;> rfl
  rw [hrow]
  simp only [List.append_assoc, List.cons_append]
  rw [ht, readRow_append hspaces (not_mem_code green).1 (not_mem_code green).2
    (not_mem_code style).1 hne (List.all_eq_true.mp hkind) hc, Report.ClassifiedLine.finding]

/-! ## Listings -/

/-- No row holds a line feed, unless its line does. -/
theorem newline_not_mem_classifiedLine (color : Bool) {l : Report.ClassifiedLine}
    (h : '\n' ∉ l.body) : '\n' ∉ (classifiedLine color l).toList := by
  obtain ⟨style, spaces, filling, hspaces, hfilling, hrow⟩ := toList_classifiedLine color l
  have hspaces' : '\n' ∉ spaces := fun hmem => absurd (hspaces _ hmem) (by decide)
  have hfilling' : '\n' ∉ filling := fun hmem => absurd (hfilling _ hmem) (by decide)
  have hdigits : '\n' ∉ Nat.toDigits 10 l.line := fun hmem =>
    absurd (Nat.isDigit_of_mem_toDigits (by decide) (by decide) hmem) (by decide)
  have hmark : '\n' ≠ markOf l.localized.isSome := by
    rw [markOf]
    split <;> decide
  have hlabel : '\n' ∉ l.role.label.toList := by cases l.role <;> decide
  have hswitch : ∀ style,
      '\n' ∉ switch color (onCode style) ∧ '\n' ∉ switch color style.offCode := by
    intro style
    cases color <;> cases style <;> decide
  rw [hrow]
  simp [hspaces', hfilling', hdigits, hmark, hlabel, hswitch, h]

/-- **The rows of a listing are its lines**, as long as no line of the document holds a line
feed. -/
theorem split_classification (color : Bool) {lines : List Report.ClassifiedLine}
    (h : ∀ l ∈ lines, '\n' ∉ l.body) :
    Lines.split (classification color lines).toList =
      lines.map fun l => (classifiedLine color l).toList ++ ['\n'] := by
  induction lines with
  | nil => rfl
  | cons l ls ih =>
      have hrow := newline_not_mem_classifiedLine color (h l (by simp))
      have hsplit := Lines.split_append hrow (classification color ls).toList
      rw [ih fun l hl => h l (by simp [hl])] at hsplit
      rw [List.map_cons, ← hsplit]
      simp [classification, unlines]

end Listing

end LocaleWrap
