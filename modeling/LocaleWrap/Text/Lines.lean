import LocaleWrap.Text.Basic

/-! # Documents as lines

A document is cut into raw lines, each with its own terminator, so that putting the raw lines
together gives the document back.

* **`Lines.split`** — the raw lines of a document; `flatten_split` is the way back.
* **`Lines.ending`**, **`Lines.body`** — a raw line's terminator and what stands before it;
  `body_append_ending` says that the two are the whole line. -/

namespace LocaleWrap

namespace Lines

/-! ## Cutting a document -/

/-- One character in front of a document that has been cut already: a line feed is a line of its
own, any other character goes to the first line. -/
def push (c : Char) (lines : List Text) : List Text :=
  if c = '\n' then [c] :: lines
  else match lines with
    | [] => [[c]]
    | l :: ls => (c :: l) :: ls

/-- **The raw lines of a document.** A line ends after its line feed; the last one may have none.
The empty document has no line. -/
def split (t : Text) : List Text := t.foldr push []

@[simp] theorem split_nil : split [] = [] := rfl

/-- Splitting goes character by character, from the last one on. -/
theorem split_cons (c : Char) (t : Text) : split (c :: t) = push c (split t) := rfl

/-- A line feed in front is a line of its own. -/
theorem push_newline (ls : List Text) : push '\n' ls = ['\n'] :: ls := rfl

/-- A character in front of nothing is a line. -/
theorem push_nil {c : Char} (h : c ≠ '\n') : push c [] = [[c]] := if_neg h

/-- Any other character in front belongs to the first line. -/
theorem push_cons {c : Char} (h : c ≠ '\n') (l : Text) (ls : List Text) :
    push c (l :: ls) = (c :: l) :: ls := if_neg h

/-- Pushing a character writes it in front of the text. -/
theorem flatten_push (c : Char) (ls : List Text) : (push c ls).flatten = c :: ls.flatten := by
  unfold push
  split
  · rfl
  · cases ls <;> rfl

/-- **The raw lines put together are the document.** -/
@[simp] theorem flatten_split (t : Text) : (split t).flatten = t := by
  induction t with
  | nil => rfl
  | cons c t ih => rw [split_cons, flatten_push, ih]

/-! ## A line's terminator -/

/-- **A raw line as body and terminator.** The terminator is one carriage return and line feed, one
line feed, or nothing; a further carriage return belongs to the body. -/
def cut : Text → Text × Text
  | [] => ([], [])
  | ['\n'] => ([], ['\n'])
  | ['\r', '\n'] => ([], ['\r', '\n'])
  | c :: cs => (c :: (cut cs).1, (cut cs).2)

/-- What stands before the terminator of a raw line. -/
def body (raw : Text) : Text := (cut raw).1

/-- The terminator of a raw line. -/
def ending (raw : Text) : Text := (cut raw).2

@[simp] theorem body_nil : body [] = [] := rfl

@[simp] theorem ending_nil : ending [] = [] := rfl

/-- **Body and terminator are the raw line.** -/
@[simp] theorem body_append_ending (raw : Text) : body raw ++ ending raw = raw := by
  unfold body ending
  fun_induction cut raw <;> simp_all

/-- The terminator is one of three texts. -/
theorem ending_mem (raw : Text) : ending raw ∈ [[], ['\n'], ['\r', '\n']] := by
  unfold ending
  fun_induction cut raw <;> simp_all

end Lines

end LocaleWrap
