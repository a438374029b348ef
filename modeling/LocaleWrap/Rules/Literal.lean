import LocaleWrap.Text.Basic

/-! # Quoted literals

A literal is a text between two equal quotes in which a backslash takes the next character with it,
so that an escaped quote never ends it.

* **`Literal.closing`** — the literal's text up to its closing quote, and the rest of the line.
* **`Literal.read`** — a literal at the front of a text; `read_eq_append` says that nothing of the
  text is lost. -/

namespace LocaleWrap

namespace Literal

/-- **What is left of a literal once the quote `q` has been opened**: everything up to and with the
closing quote, and the text after it. A backslash in front of a line feed, or at the end, leaves
the literal open. -/
def closing (q : Char) : Text → Option (Text × Text)
  | [] => none
  | c :: cs =>
    if c = q then some ([c], cs)
    else if c = '\\' then
      match cs with
      | [] => none
      | d :: ds =>
        if d = '\n' then none
        else (closing q ds).map fun p => (c :: d :: p.1, p.2)
    else (closing q cs).map fun p => (c :: p.1, p.2)

/-- **A literal at the front of a text**: the literal with its quotes, and the text after it. -/
def read : Text → Option (Text × Text)
  | [] => none
  | q :: cs =>
    if q = '\'' ∨ q = '"' then (closing q cs).map fun p => (q :: p.1, p.2) else none

@[simp] theorem closing_nil (q : Char) : closing q [] = none := rfl

@[simp] theorem closing_cons_self (q : Char) (cs : Text) :
    closing q (q :: cs) = some ([q], cs) := by
  rw [closing.eq_def]
  simp

/-- A character that means nothing special is passed over. -/
theorem closing_cons_of_ne {q c : Char} (hq : c ≠ q) (hb : c ≠ '\\') (cs : Text) :
    closing q (c :: cs) = (closing q cs).map fun p => (c :: p.1, p.2) := by
  rw [closing.eq_def]
  simp [hq, hb]

/-- A backslash is passed over with the character that it takes along. -/
theorem closing_backslash {q d : Char} (hq : q ≠ '\\') (hd : d ≠ '\n') (ds : Text) :
    closing q ('\\' :: d :: ds) = (closing q ds).map fun p => ('\\' :: d :: p.1, p.2) := by
  rw [closing.eq_def]
  simp [hq.symm, hd]

@[simp] theorem read_nil : read [] = none := rfl

/-- The two parts that `closing` finds are the text. -/
theorem closing_eq_append {q : Char} {t l r : Text} (h : closing q t = some (l, r)) :
    t = l ++ r := by
  fun_induction closing q t generalizing l r with
  | case1 => simp at h
  | case2 =>
    obtain ⟨rfl, rfl⟩ := by simpa using h
    rfl
  | case3 => simp at h
  | case4 => simp at h
  | case5 d ds _ _ ih =>
    obtain ⟨p, hp, rfl, rfl⟩ := by simpa using h
    simp [ih (l := p) hp]
  | case6 c cs _ _ ih =>
    obtain ⟨p, hp, rfl, rfl⟩ := by simpa using h
    simp [ih (l := p) hp]

/-- **The literal and the rest are the text.** -/
theorem read_eq_append {t l r : Text} (h : read t = some (l, r)) : t = l ++ r := by
  cases t with
  | nil => simp at h
  | cons q cs =>
    simp only [read] at h
    split at h
    · obtain ⟨p, hp, rfl, rfl⟩ := by simpa using h
      simp [closing_eq_append hp]
    · simp at h

end Literal

end LocaleWrap
