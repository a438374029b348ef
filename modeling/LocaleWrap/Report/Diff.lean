import LocaleWrap.Ledger

/-! # Changed lines as a diff

* **`Diff.hunk`** — one change: its line number, the line before, the line after.
* **`Diff.render`** — a ledger as one text, without the blanks at its end. -/

namespace LocaleWrap

namespace Diff

/-- The number of a line in digits. -/
def digits (n : Nat) : Text := Nat.toDigits 10 n

/-- **One change as three lines.** -/
def hunk (c : Change) : Text :=
  "@@ ".toList ++ digits c.line ++ " @@\n-".toList ++ c.before ++ "\n+".toList ++ c.after ++ ['\n']

/-- **A ledger as one text.** Since lines are neither added nor removed, their numbers are the same
before and after. -/
def render (changes : List Change) : Text := Text.trimEnd (changes.flatMap hunk)

@[simp] theorem render_nil : render [] = [] := rfl

end Diff

end LocaleWrap
