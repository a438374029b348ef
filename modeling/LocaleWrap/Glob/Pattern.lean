import LocaleWrap.Text.Basic

/-! # Glob patterns

A glob pattern is a path with wildcards: `?` for one character, `*` for any run of them, a class in
brackets, and `**` as a name of its own for directories at any depth.

* **`Glob.Token`** — a character or wildcard inside a name; **`Glob.matchName`** compares a name.
* **`Glob.tokens`** — the tokens of a text, or the **`GlobFault`** with its position.
* **`Glob.Pattern`** — a pattern cut into names; **`Glob.Pattern.parse`** reads one. -/

namespace LocaleWrap

/-- **What is wrong with a glob pattern**, at a position counted in characters. -/
inductive GlobFault
  /-- More than two stars stand together. -/
  | tooManyStars (position : Nat)
  /-- Two stars do not stand alone between slashes. -/
  | starsInName (position : Nat)
  /-- A bracket opens no class. -/
  | badClass (position : Nat)
  deriving DecidableEq, Repr, Inhabited

namespace GlobFault

/-- Where the fault is. -/
def position : GlobFault → Nat
  | tooManyStars n => n
  | starsInName n => n
  | badClass n => n

/-- The rule that is broken. -/
def reason : GlobFault → String
  | tooManyStars _ => "wildcards are either regular `*` or recursive `**`"
  | starsInName _ => "recursive wildcards must form a single path component"
  | badClass _ => "invalid range pattern"

/-- **The fault in words.** -/
def message (f : GlobFault) : String :=
  "Pattern syntax error near position " ++ toString f.position ++ ": " ++ f.reason

end GlobFault

namespace Glob

/-- A member of a class: the characters from one to another. -/
structure Range where
  first : Char
  last : Char
  deriving DecidableEq, Repr, Inhabited

/-- **A token of a pattern.** -/
inductive Token
  /-- This character. -/
  | char (c : Char)
  /-- Any one character. -/
  | anyChar
  /-- Any run of characters. -/
  | anyRun
  /-- Directories at any depth. -/
  | anyDepth
  /-- A character of a class. -/
  | within (ranges : List Range)
  /-- A character outside a class. -/
  | outside (ranges : List Range)
  deriving DecidableEq, Repr, Inhabited

/-! ## Reading tokens -/

/-- **The ranges of a class.** A dash between two characters stands for all from one to the other;
anywhere else it stands for itself. -/
def ranges : List Char → List Range
  | a :: '-' :: b :: cs => ⟨a, b⟩ :: ranges cs
  | a :: cs => ⟨a, a⟩ :: ranges cs
  | [] => []

/-- **The class after an opening bracket**: its token, how many characters it takes, and the rest.
The first character of a class never closes it. -/
def readClass : List Char → Option (Token × Nat × List Char)
  | '!' :: first :: cs =>
    let more := cs.takeWhile (· != ']')
    match cs.dropWhile (· != ']') with
    | [] => none
    | _ :: rest => some (.outside (ranges (first :: more)), more.length + 3, rest)
  | '!' :: [] => none
  | first :: cs =>
    let more := cs.takeWhile (· != ']')
    match cs.dropWhile (· != ']') with
    | [] => none
    | _ :: rest => some (.within (ranges (first :: more)), more.length + 2, rest)
  | [] => none

/-- Dropping characters in front leaves no more characters than there were. -/
theorem length_dropWhile_le (p : Char → Bool) (cs : List Char) :
    (cs.dropWhile p).length ≤ cs.length := by
  induction cs with
  | nil => simp
  | cons c cs ih => grind [List.dropWhile_cons]

/-- A class takes at least one character. -/
theorem length_of_readClass {cs : List Char} {t : Token} {n : Nat} {rest : List Char}
    (h : readClass cs = some (t, n, rest)) : rest.length < cs.length := by
  have tail : ∀ {c : Char} {ds : List Char}, ds.dropWhile (· != ']') = c :: rest →
      rest.length < ds.length := by
    intro c ds hd
    have := length_dropWhile_le (· != ']') ds
    rw [hd, List.length_cons] at this
    omega
  unfold readClass at h
  split at h
  · split at h
    · simp at h
    · next heq =>
      obtain ⟨-, -, rfl⟩ := by simpa using h
      have := tail heq
      simp only [List.length_cons]
      omega
  · simp at h
  · split at h
    · simp at h
    · next heq =>
      obtain ⟨-, -, rfl⟩ := by simpa using h
      have := tail heq
      simp only [List.length_cons]
      omega
  · simp at h

/-- The tokens of a text that begins at a position; `opened` says whether a slash, or nothing,
stands before it. -/
def tokensFrom (position : Nat) (opened : Bool) : List Char → Except GlobFault (List Token)
  | [] => .ok []
  | '?' :: cs => (tokensFrom (position + 1) false cs).map (.anyChar :: ·)
  | '[' :: cs =>
    match h : readClass cs with
    | none => .error (.badClass position)
    | some (t, n, rest) =>
      have := length_of_readClass h
      (tokensFrom (position + n + 1) false rest).map (t :: ·)
  | '*' :: '*' :: '*' :: _ => .error (.tooManyStars (position + 2))
  | '*' :: '*' :: cs =>
    if !opened then .error (.starsInName (position - 1))
    else match cs with
      | [] => .ok [.anyDepth]
      | '/' :: rest => (tokensFrom (position + 3) true rest).map (.anyDepth :: ·)
      | _ => .error (.starsInName (position + 2))
  | '*' :: cs => (tokensFrom (position + 1) false cs).map (.anyRun :: ·)
  | c :: cs => (tokensFrom (position + 1) (c == '/') cs).map (.char c :: ·)
  termination_by cs => cs.length
  decreasing_by all_goals simp_wf <;> omega

/-- **The tokens of a text**, or the first fault in it. -/
def tokens (t : Text) : Except GlobFault (List Token) := tokensFrom 0 true t

/-! ## Comparing a name -/

/-- Whether a character is in one of the ranges. -/
def inRanges (rs : List Range) (c : Char) : Bool := rs.any fun r => r.first ≤ c && c ≤ r.last

/-- Whether a token stands for a character. -/
def Token.accepts : Token → Char → Bool
  | char d, c => c == d
  | anyChar, _ => true
  | within rs, c => inRanges rs c
  | outside rs, c => !inRanges rs c
  | anyRun, _ => true
  | anyDepth, _ => true

/-- Whether a token stands for a run of characters. -/
def Token.isRun : Token → Bool
  | anyRun => true
  | anyDepth => true
  | _ => false

/-- Whether some end of a name is one that `next` accepts. -/
def anyEnd (next : Text → Bool) : Text → Bool
  | [] => next []
  | c :: cs => next (c :: cs) || anyEnd next cs

/-- **Whether the tokens stand for a name** from its first character to its last. -/
def matchName : List Token → Text → Bool
  | [], name => name.isEmpty
  | t :: ts, name =>
    if t.isRun then anyEnd (matchName ts) name
    else match name with
      | [] => false
      | c :: cs => t.accepts c && matchName ts cs

/-! ## Patterns -/

/-- **A part of a pattern between slashes.** -/
inductive Part
  /-- Directories at any depth. -/
  | anyDepth
  /-- One name. -/
  | name (tokens : List Token)
  deriving DecidableEq, Repr, Inhabited

/-- The name that tokens without a wildcard stand for. -/
def literal? : List Token → Option Text
  | [] => some []
  | .char c :: ts => (literal? ts).map (c :: ·)
  | _ => none

/-- **A glob pattern**: whether it begins at the root, its parts, and whether it asks for a
directory by a slash at its end. -/
structure Pattern where
  absolute : Bool
  parts : List Part
  wantsDirectory : Bool
  deriving DecidableEq, Repr, Inhabited

/-- The part that a text between slashes stands for. -/
def Part.parse (t : Text) : Except GlobFault Part :=
  (tokens t).map fun ts => if ts = [.anyDepth] then .anyDepth else .name ts

/-- Parts in which no two that stand for any depth follow each other. -/
def collapse : List Part → List Part
  | .anyDepth :: .anyDepth :: ps => collapse (.anyDepth :: ps)
  | p :: ps => p :: collapse ps
  | [] => []

/-- The texts between the slashes, without an empty one after the last slash. -/
def cutParts (t : Text) : List Text :=
  let pieces := Text.pieces '/' t
  if pieces.getLast? = some [] then pieces.dropLast else pieces

/-- **Reads a pattern.** The whole text has to be free of faults, and then each part of it. -/
def Pattern.parse (t : Text) : Except GlobFault Pattern := do
  let _ ← tokens t
  let absolute := t.head? == some '/'
  let parts ← (cutParts (if absolute then t.drop 1 else t)).mapM Part.parse
  return ⟨absolute, collapse parts, t.getLast? == some '/'⟩

/-- Whether a text holds a character that makes it a pattern. -/
def isPattern (t : Text) : Bool := t.any fun c => c == '*' || c == '?' || c == '['

end Glob

end LocaleWrap
