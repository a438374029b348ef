import LocaleWrap.Rules.Literal
import LocaleWrap.Proofs.Text.Blank

/-! # The grammar of literals

A literal is a quote, a sequence of units and the same quote again, where a unit is a character
other than the quote and the backslash, or a backslash with one character other than a line feed.

* **`Literal.Units`**, **`Literal.IsLiteral`** — the grammar, on its own.
* `Literal.read_eq_some_iff` — `Literal.read` finds a literal exactly where the grammar has one.
* `IsLiteral.eq_nil_of_append` — inside a literal no other begins behind a blank and ends with it.
  By `IsLiteral.append_inj` a literal that ends a text and stands behind a blank is determined by
  the text. -/

namespace LocaleWrap

namespace Literal

/-- **What may stand between two quotes `q`.** -/
inductive Units (q : Char) : Text → Prop
  /-- Nothing. -/
  | nil : Units q []
  /-- One character that means nothing special, and more. -/
  | plain {c : Char} {u : Text} : c ≠ q → c ≠ '\\' → Units q u → Units q (c :: u)
  /-- A backslash with the character that it takes along, and more. -/
  | escaped {c : Char} {u : Text} : c ≠ '\n' → Units q u → Units q ('\\' :: c :: u)

/-- The characters that open and close a literal. -/
def IsQuote (q : Char) : Prop := q = '\'' ∨ q = '"'

/-- **A literal** with its two quotes. -/
def IsLiteral (l : Text) : Prop := ∃ q u, IsQuote q ∧ Units q u ∧ l = q :: (u ++ [q])

/-! ## Quotes -/

/-- A quote is no backslash. -/
theorem IsQuote.ne_backslash {q : Char} (h : IsQuote q) : q ≠ '\\' := by
  rcases h with rfl | rfl <;> decide

/-- A quote is not part of the margin. -/
theorem IsQuote.not_isMargin {q : Char} (h : IsQuote q) : ¬ Text.IsMargin q := by
  rcases h with rfl | rfl <;> decide

/-- A quote is no blank. -/
theorem IsQuote.isBlank_eq_false {q : Char} (h : IsQuote q) : Text.isBlank q = false := by
  rcases h with rfl | rfl <;> decide

/-! ## Reading literals -/

/-- **Reading goes through the units to the quote that follows them.** -/
theorem closing_append {q : Char} {u : Text} (hq : q ≠ '\\') (h : Units q u) (r : Text) :
    closing q (u ++ q :: r) = some (u ++ [q], r) := by
  induction h with
  | nil => simp
  | plain hc hb _ ih => simp [closing_cons_of_ne hc hb, ih]
  | escaped hn _ ih => simp [closing_backslash hq hn, ih]

/-- What is read up to the closing quote are units and that quote. -/
theorem exists_units_of_closing {q : Char} {t l r : Text} (h : closing q t = some (l, r)) :
    ∃ u, Units q u ∧ l = u ++ [q] := by
  fun_induction closing q t generalizing l r with
  | case1 => simp at h
  | case2 =>
    -- the closing quote
    obtain ⟨rfl, rfl⟩ := by simpa using h
    exact ⟨[], .nil, rfl⟩
  | case3 => simp at h
  | case4 => simp at h
  | case5 d ds hn _ ih =>
    -- a backslash, with a character that is no line feed behind it
    obtain ⟨p, hp, rfl, rfl⟩ := by simpa using h
    obtain ⟨u, hu, rfl⟩ := ih (l := p) hp
    exact ⟨'\\' :: d :: u, .escaped hn hu, rfl⟩
  | case6 c cs hq hb ih =>
    -- a character that means nothing special
    obtain ⟨p, hp, rfl, rfl⟩ := by simpa using h
    obtain ⟨u, hu, rfl⟩ := ih (l := p) hp
    exact ⟨c :: u, .plain hq hb hu, rfl⟩

/-- **A literal is read at the front of a text exactly when the grammar has one there**, and only
this one. -/
theorem read_eq_some_iff {t l r : Text} : read t = some (l, r) ↔ IsLiteral l ∧ t = l ++ r := by
  constructor
  · intro h
    refine ⟨?_, read_eq_append h⟩
    cases t with
    | nil => simp at h
    | cons q cs =>
      simp only [read] at h
      split at h
      · next hq =>
        obtain ⟨p, hp, rfl, rfl⟩ := by simpa using h
        obtain ⟨u, hu, rfl⟩ := exists_units_of_closing hp
        exact ⟨q, u, hq, hu, rfl⟩
      · simp at h
  · rintro ⟨⟨q, u, hq, hu, rfl⟩, rfl⟩
    have hclose : closing q (u ++ q :: r) = some (u ++ [q], r) :=
      closing_append hq.ne_backslash hu r
    have hquote : q = '\'' ∨ q = '"' := hq
    simp [read, hquote, hclose]

/-! ## Where literals begin and end -/

/-- A literal begins with a quote. -/
theorem IsLiteral.exists_cons {l : Text} (h : IsLiteral l) : ∃ q u, IsQuote q ∧ l = q :: u := by
  obtain ⟨q, u, hq, -, rfl⟩ := h
  exact ⟨q, u ++ [q], hq, rfl⟩

/-- A literal ends with a quote. -/
theorem IsLiteral.exists_concat {l : Text} (h : IsLiteral l) :
    ∃ q u, IsQuote q ∧ l = u ++ [q] := by
  obtain ⟨q, u, hq, -, rfl⟩ := h
  exact ⟨q, q :: u, hq, rfl⟩

/-- Whatever follows it, a literal does not begin with a blank. -/
theorem IsLiteral.isBlank_head {l : Text} (h : IsLiteral l) (t : Text) :
    ∀ c ∈ (l ++ t).head?, Text.isBlank c = false := by
  obtain ⟨q, u, hq, rfl⟩ := h.exists_cons
  intro c hc
  obtain rfl : q = c := by simpa using hc
  exact hq.isBlank_eq_false

/-- **A character that is no backslash ends a unit**, so units go on behind it. -/
theorem Units.of_append_cons {q c : Char} {x y : Text} (hc : c ≠ '\\')
    (h : Units q (x ++ c :: y)) : Units q y := by
  -- Induction on the units, for any distance `x` to the character.
  generalize ht : x ++ c :: y = t at h
  induction h generalizing x with
  | nil => simp at ht
  | plain _ _ hu ih =>
    cases x with
    | nil =>
      obtain ⟨rfl, rfl⟩ := List.cons.inj ht
      exact hu
    | cons _ x => exact ih (List.cons.inj ht).2
  | escaped _ hu ih =>
    cases x with
    | nil => exact absurd (List.cons.inj ht).1 hc
    | cons _ x =>
      cases x with
      | nil =>
        -- The character is the one that a backslash takes along.
        obtain ⟨rfl, rfl⟩ := List.cons.inj (List.cons.inj ht).2
        exact hu
      | cons _ x => exact ih (List.cons.inj (List.cons.inj ht).2).2

/-- No unit begins with the quote. -/
theorem Units.not_cons_self {q : Char} {u : Text} (hq : q ≠ '\\') : ¬ Units q (q :: u) := by
  intro h
  cases h with
  | plain hc => exact hc rfl
  | escaped => exact hq rfl

/-- **A literal that ends together with a longer one does not stand behind a blank**: its opening
quote would be an unescaped quote inside the longer literal. -/
theorem IsLiteral.eq_nil_of_append {a l : Text} (hal : IsLiteral (a ++ l)) (hl : IsLiteral l)
    (ha : ∀ c ∈ a.getLast?, Text.isBlank c = true) : a = [] := by
  rcases List.eq_nil_or_concat a with rfl | ⟨a, b, rfl⟩
  · rfl
  exfalso
  have hb : Text.isBlank b = true := ha b (by simp)
  obtain ⟨q, u, hq, hu, h⟩ := hal
  obtain ⟨q', v, hq', -, rfl⟩ := hl
  cases a with
  | nil =>
    -- The blank would be the opening quote.
    obtain rfl : b = q := by simpa using congrArg List.head? h
    rw [hq.isBlank_eq_false] at hb
    exact absurd hb (by decide)
  | cons p a =>
    -- The blank stands between the quotes of the longer literal, and the quote behind it opens
    -- the shorter one.
    have hsplit : (a ++ b :: q' :: v) ++ [q'] = u ++ [q] := by simpa using (List.cons.inj h).2
    obtain ⟨hunits, hquote⟩ := List.append_inj' hsplit rfl
    obtain rfl : q' = q := by simpa using hquote
    rw [← hunits] at hu
    have hb' : b ≠ '\\' := by
      rintro rfl
      exact absurd hb (by decide)
    exact Units.not_cons_self hq.ne_backslash (hu.of_append_cons hb')

/-- **A literal at the end of a text, with nothing or a blank in front, is determined by the
text.** -/
theorem IsLiteral.append_inj {a b l m : Text} (hl : IsLiteral l) (hm : IsLiteral m)
    (ha : ∀ c ∈ a.getLast?, Text.isBlank c = true) (hb : ∀ c ∈ b.getLast?, Text.isBlank c = true)
    (h : a ++ l = b ++ m) : a = b ∧ l = m := by
  rcases List.append_eq_append_iff.mp h with ⟨z, rfl, rfl⟩ | ⟨z, rfl, rfl⟩
  · have hz : z = [] := hl.eq_nil_of_append hm (by
      intro c hc
      exact hb c (by simp_all))
    simp [hz]
  · have hz : z = [] := hm.eq_nil_of_append hl (by
      intro c hc
      exact ha c (by simp_all))
    simp [hz]

end Literal

end LocaleWrap
