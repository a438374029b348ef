import LocaleWrap.Text.Basic

/-! # What readers find

A reader takes a list from the front, and what it leaves for others is shorter than what it was
given. Readers that call themselves or each other end because of that, so the bound on what is left
is part of what a reader finds.

* **`Found`** — a value with what is left, and the bound on its length.
* **`Found.map`**, **`Found.mono`** — another value, and a weaker bound.
* **`next?`** — the first item of a list; **`skipWhile`** — what is left of a text behind some of
  its characters. -/

namespace LocaleWrap

/-- **What a reader finds** in front of a list: a value, and the rest with fewer than `n` items. -/
structure Found (τ α : Type) (n : Nat) where
  value : α
  rest : List τ
  length_rest_lt : rest.length < n

namespace Found

variable {τ α β : Type} {m n : Nat}

/-- The same rest with another value. -/
def map (f : α → β) (x : Found τ α n) : Found τ β n := ⟨f x.value, x.rest, x.length_rest_lt⟩

/-- The same with a weaker bound. -/
def mono (h : m ≤ n) (x : Found τ α m) : Found τ α n :=
  ⟨x.value, x.rest, Nat.lt_of_lt_of_le x.length_rest_lt h⟩

end Found

/-- The first item of a list. -/
def next? {τ : Type} : (ts : List τ) → Option (Found τ τ ts.length)
  | [] => none
  | t :: ts => some ⟨t, ts, Nat.lt_succ_self ts.length⟩

/-- **What is left of a text** when something in front has been passed, if it was there. -/
abbrev Skipped (t : Text) := {u : Text // u.length ≤ t.length}

/-- The same as what is left of a longer text. -/
def Skipped.mono {t u : Text} (h : u.length ≤ t.length) (s : Skipped u) : Skipped t :=
  ⟨s.1, Nat.le_trans s.2 h⟩

/-- What is left of a text behind all characters that a class holds. -/
def skipWhile (p : Char → Bool) (t : Text) : Skipped t :=
  ⟨t.dropWhile p, (List.dropWhile_sublist p).length_le⟩

end LocaleWrap
