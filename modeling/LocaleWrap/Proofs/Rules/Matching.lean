import LocaleWrap.Rules.Expression
import LocaleWrap.Proofs.Text.Blank

/-! # How expressions match

An expression can match at the front of a text in several ways, and it prefers some to others: a
choice prefers its first branch, a repetition one more round. A pattern takes, part by part, the
first way after which the rest of the pattern matches up to the end of the line.

* **`Expression.splits`** — the ways in which an expression matches, the preferred one first;
  **`LinePattern.first`** — what the groups of a pattern hold on a line.
* `Expression.sound_splits` — a match and what it leaves are the text.
* `Matcher.mem_andThen`, `Matcher.mem_many_one` — the matches without their order.
* `Matcher.findSome?_atLeast_one` — where nothing goes on with a character of the kind that is
  repeated, a repetition takes all of them. -/

namespace LocaleWrap

/-- **A matcher** gives the ways to match at the front of a text, the preferred one first: what is
matched, and what is left. -/
abbrev Matcher := Text → List (Text × Text)

namespace Matcher

/-- A match that begins with `m`, which has been matched before. -/
def prepend (m : Text) (p : Text × Text) : Text × Text := (m ++ p.1, p.2)

/-- Matches nothing. -/
def nothing : Matcher := fun t => [([], t)]

/-- Matches one character. -/
def one (p : Char → Bool) : Matcher
  | [] => []
  | c :: t => if p c then [([c], t)] else []

/-- Matches with `f` and then with `g`. -/
def andThen (f g : Matcher) : Matcher := fun t => (f t).flatMap fun p => (g p.2).map (prepend p.1)

/-- **Matches as often as possible.** A round that matches nothing is not made. -/
def many (f : Matcher) (t : Text) : List (Text × Text) :=
  ((f t).flatMap fun p =>
    if p.2.length < t.length then (many f p.2).map (prepend p.1) else []) ++ [([], t)]
termination_by t.length

/-- Matches as often as possible, but not less often than so many times. -/
def atLeast (f : Matcher) : Nat → Matcher
  | 0 => f.many
  | n + 1 => f.andThen (f.atLeast n)

end Matcher

/-- **The ways in which an expression matches at the front of a text**, the preferred one first. -/
def Expression.splits : Expression → Matcher
  | empty => .nothing
  | char c => .one (· == c)
  | blank => .one Text.isBlank
  | any => .one (· != '\n')
  | except cs => .one (! cs.contains ·)
  | seq e f => e.splits.andThen f.splits
  | either e f => fun t => e.splits t ++ f.splits t
  | optional e => fun t => e.splits t ++ [([], t)]
  | star e => e.splits.many
  | plus e => e.splits.atLeast 1
  | atLeast n e => e.splits.atLeast n

/-- **What the groups of a pattern hold on a line**, by the preferred way in which all of the line
is matched. -/
def LinePattern.first : LinePattern → Text → Option (List Text)
  | [], t => if t = [] then some [] else none
  | .plain e :: ps, t => (e.splits t).findSome? fun p => first ps p.2
  | .group e :: ps, t => (e.splits t).findSome? fun p => (first ps p.2).map (p.1 :: ·)

namespace Matcher

variable {f g : Matcher} {p : Char → Bool} {m r t : Text}

@[simp] theorem prepend_nil : prepend [] = id := rfl

@[simp] theorem prepend_append (m n : Text) : prepend (m ++ n) = prepend m ∘ prepend n := by
  funext p
  simp [prepend]

@[simp] theorem one_nil : one p [] = [] := rfl

/-- A character of the class is matched alone. -/
theorem one_cons_of_pos {c : Char} (h : p c = true) : one p (c :: t) = [([c], t)] := if_pos h

/-- A character outside the class is not matched. -/
theorem one_cons_of_neg {c : Char} (h : p c = false) : one p (c :: t) = [] :=
  if_neg (by simp [h])

/-- Matching is over where there is no further round. -/
theorem many_of_nil (h : f t = []) : many f t = [([], t)] := by
  rw [many, h]
  rfl

/-- **A round that can be made in one way only** is made first, and is left out last. -/
theorem many_of_singleton (h : f t = [(m, r)]) (hr : r.length < t.length) :
    many f t = (many f r).map (prepend m) ++ [([], t)] := by
  rw [many, h]
  simp [hr]

/-- Where there is no further round, what follows the rounds decides. -/
theorem many_andThen_of_nil (h : f t = []) : andThen (many f) g t = g t := by
  rw [andThen, many_of_nil h]
  simp

/-- **Where a round can be made in one way only and nothing follows in its place**, it is made. -/
theorem many_andThen_of_singleton (h : f t = [(m, r)]) (hr : r.length < t.length)
    (hg : g t = []) : andThen (many f) g t = (andThen (many f) g r).map (prepend m) := by
  rw [andThen, many_of_singleton h hr]
  simp [andThen, List.flatMap_map, List.map_flatMap, prepend, hg]

/-- A repeated character is matched once more, or not at all. -/
theorem many_one (t : Text) : many (one p) t = (one p).atLeast 1 t ++ [([], t)] := by
  cases t with
  | nil => exact many_of_nil rfl
  | cons c t =>
    cases h : p c with
    | false =>
      rw [many_of_nil (one_cons_of_neg h), atLeast, andThen, one_cons_of_neg h]
      rfl
    | true =>
      rw [many_of_singleton (one_cons_of_pos h) (by simp), atLeast, andThen, one_cons_of_pos h]
      simp [atLeast]

/-- At the end of the text a class is not matched once more. -/
theorem atLeast_succ_one_nil (n : Nat) : (one p).atLeast (n + 1) [] = [] := rfl

/-- Of the characters that have to be there, the first is matched first. -/
theorem atLeast_succ_one_cons_of_pos {c : Char} (h : p c = true) (n : Nat) (t : Text) :
    (one p).atLeast (n + 1) (c :: t) = ((one p).atLeast n t).map (prepend [c]) := by
  rw [atLeast, andThen, one_cons_of_pos h]
  simp

/-- In front of a character outside the class it is not matched once more. -/
theorem atLeast_succ_one_cons_of_neg {c : Char} (h : p c = false) (n : Nat) (t : Text) :
    (one p).atLeast (n + 1) (c :: t) = [] := by
  rw [atLeast, andThen, one_cons_of_neg h]
  rfl

/-! ## The matches without their order -/

/-- **Matching one after the other** is matching two neighbouring parts. -/
theorem mem_andThen :
    (m, r) ∈ f.andThen g t ↔ ∃ a b s, (a, s) ∈ f t ∧ (b, r) ∈ g s ∧ m = a ++ b := by
  simp only [andThen, List.mem_flatMap, List.mem_map, Prod.exists, prepend, Prod.mk.injEq]
  constructor
  · rintro ⟨a, s, ha, b, r, hb, rfl, rfl⟩
    exact ⟨a, b, s, ha, hb, rfl⟩
  · rintro ⟨a, b, s, ha, hb, rfl⟩
    exact ⟨a, s, ha, b, r, hb, rfl, rfl⟩

/-- **A repeated character matches any run of such characters** at the front of a text. -/
theorem mem_many_one : (m, r) ∈ many (one p) t ↔ (∀ c ∈ m, p c = true) ∧ t = m ++ r := by
  induction t generalizing m with
  | nil =>
    rw [many_of_nil one_nil, List.mem_singleton, Prod.mk.injEq, List.nil_eq_append_iff]
    constructor
    · rintro ⟨rfl, rfl⟩
      simp
    · exact And.right
  | cons c t ih =>
    cases m with
    | nil =>
      -- No round at all is the last of the ways.
      have hnone : ([], r) ∈ many (one p) (c :: t) ↔ r = c :: t := by
        cases h : p c with
        | false => simp [many_of_nil (one_cons_of_neg h)]
        | true => simp [many_of_singleton (one_cons_of_pos h), prepend]
      rw [hnone]
      constructor
      · rintro rfl
        simp
      · rintro ⟨-, rfl⟩
        rfl
    | cons d m =>
      have hmore : (d :: m, r) ∈ many (one p) (c :: t) ↔
          p c = true ∧ c = d ∧ (m, r) ∈ many (one p) t := by
        cases h : p c with
        | false => simp [many_of_nil (one_cons_of_neg h)]
        | true =>
          rw [many_of_singleton (one_cons_of_pos h) (by simp)]
          simp only [List.mem_append, List.mem_map, Prod.exists, prepend, Prod.mk.injEq,
            List.cons_append, List.nil_append, List.cons.injEq, List.mem_singleton, reduceCtorEq,
            false_and, or_false, true_and]
          constructor
          · rintro ⟨a, b, hab, ⟨rfl, rfl⟩, rfl⟩
            exact ⟨rfl, hab⟩
          · rintro ⟨rfl, hm⟩
            exact ⟨m, r, hm, ⟨rfl, rfl⟩, rfl⟩
      rw [hmore, ih]
      constructor
      · rintro ⟨hc, rfl, hm, rfl⟩
        exact ⟨by simpa [hc] using hm, rfl⟩
      · rintro ⟨hm, h⟩
        obtain ⟨rfl, rfl⟩ := List.cons.inj h
        exact ⟨hm c (by simp), rfl, fun x hx => hm x (by simp [hx]), rfl⟩

/-! ## Runs that are taken whole -/

/-- **Where nothing goes on with a character of the kind, a repetition takes all of them.** -/
theorem findSome?_atLeast_one {α : Type} {next : Text × Text → Option α}
    (hnext : ∀ m c r, p c = true → next (m, c :: r) = none) (n : Nat) (t : Text) :
    ((one p).atLeast n t).findSome? next =
      if n ≤ (t.takeWhile p).length then next (t.takeWhile p, t.dropWhile p) else none := by
  induction t generalizing n next with
  | nil =>
    cases n with
    | zero => simp [atLeast, many_of_nil one_nil]
    | succ n => simp [atLeast_succ_one_nil]
  | cons c t ih =>
    cases h : p c with
    | false =>
      cases n with
      | zero => simp [atLeast, many_of_nil (one_cons_of_neg h), h]
      | succ n => simp [atLeast_succ_one_cons_of_neg h, h]
    | true =>
      -- What follows is matched with this character put in front.
      have hcons : ∀ m d r, p d = true → (next ∘ prepend [c]) (m, d :: r) = none :=
        fun m d r hd => hnext (c :: m) d r hd
      have htail : ∀ n, (((one p).atLeast n t).map (prepend [c])).findSome? next =
          if n ≤ (t.takeWhile p).length then next (c :: t.takeWhile p, t.dropWhile p)
          else none := by
        intro n
        rw [List.findSome?_map, ih hcons n]
        rfl
      cases n with
      | zero =>
        have hmany := htail 0
        rw [atLeast, if_pos (Nat.zero_le _)] at hmany
        rw [atLeast, many_of_singleton (one_cons_of_pos h) (by simp), List.findSome?_append,
          hmany]
        simp [h, hnext [] c t h]
      | succ n =>
        rw [atLeast_succ_one_cons_of_pos h, htail n]
        simp [h]

/-! ## Matches and the text -/

/-- **A matcher is sound** when each match and what it leaves are the text. -/
def Sound (f : Matcher) : Prop := ∀ m r t, (m, r) ∈ f t → t = m ++ r

/-- Matching nothing is sound. -/
theorem sound_nothing : Sound nothing := by
  intro m r t h
  obtain ⟨rfl, rfl⟩ : m = [] ∧ r = t := by simpa [nothing] using h
  rfl

/-- A class of characters is a sound matcher. -/
theorem sound_one (p : Char → Bool) : Sound (one p) := by
  intro m r t h
  cases t with
  | nil => cases h
  | cons c t =>
    cases hc : p c with
    | false =>
      rw [one_cons_of_neg hc] at h
      cases h
    | true =>
      rw [one_cons_of_pos hc] at h
      obtain ⟨rfl, rfl⟩ := by simpa using h
      rfl

/-- Sound matchers in a row are sound. -/
theorem Sound.andThen (hf : Sound f) (hg : Sound g) : Sound (f.andThen g) := by
  intro m r t h
  obtain ⟨a, b, s, ha, hb, rfl⟩ := mem_andThen.mp h
  rw [hf a s t ha, hg b r s hb, List.append_assoc]

/-- A choice between sound matchers is sound. -/
theorem Sound.or (hf : Sound f) (hg : Sound g) : Sound fun t => f t ++ g t := by
  intro m r t h
  rcases List.mem_append.mp h with h | h
  · exact hf m r t h
  · exact hg m r t h

/-- Repeating a sound matcher is sound. -/
theorem Sound.many (hf : Sound f) : Sound (many f) := by
  intro m r t h
  -- The induction goes along the rounds, each of which leaves less.
  fun_induction Matcher.many f t generalizing m r with
  | case1 t ih =>
    rcases List.mem_append.mp h with h | h
    · obtain ⟨⟨a, s⟩, ha, h⟩ := List.mem_flatMap.mp h
      split at h
      · next hshorter =>
        obtain ⟨⟨b, r'⟩, hb, heq⟩ := List.mem_map.mp h
        obtain ⟨rfl, rfl⟩ := Prod.mk.inj heq
        rw [hf a s t ha, List.append_assoc, ← ih (a, s) hshorter b r' hb]
      · cases h
    · exact sound_nothing m r t h

/-- Repeating a sound matcher a least number of times is sound. -/
theorem Sound.atLeast (hf : Sound f) (n : Nat) : Sound (f.atLeast n) := by
  induction n with
  | zero => exact hf.many
  | succ n ih => exact hf.andThen ih

end Matcher

/-- **A match of an expression and what it leaves are the text.** -/
theorem Expression.sound_splits (e : Expression) : Matcher.Sound e.splits := by
  induction e with
  | empty => exact Matcher.sound_nothing
  | char c => exact Matcher.sound_one _
  | blank => exact Matcher.sound_one _
  | any => exact Matcher.sound_one _
  | except cs => exact Matcher.sound_one _
  | seq e f he hf => exact he.andThen hf
  | either e f he hf => exact he.or hf
  | optional e he => exact he.or Matcher.sound_nothing
  | star e he => exact he.many
  | plus e he => exact he.atLeast 1
  | atLeast n e he => exact he.atLeast n

/-! ## The last part of a pattern -/

namespace LinePattern

variable {e : Expression} {t : Text}

/-- A part that is no group matches like a group whose text is dropped. -/
theorem first_plain (ps : LinePattern) :
    first (.plain e :: ps) t = (first (.group e :: ps) t).map List.tail := by
  rw [first, first, List.map_findSome?]
  congr
  funext p
  cases h : first ps p.2 <;> simp [h]

/-- **The last group of a pattern holds the rest of the line**, if its expression matches that. -/
theorem first_group_last :
    first [.group e] t = if (t, []) ∈ e.splits t then some [t] else none := by
  -- A match that leaves nothing is the whole text.
  have hfound : ∀ p ∈ e.splits t, ∀ gs, (first [] p.2).map (p.1 :: ·) = some gs →
      p = (t, []) ∧ gs = [t] := by
    intro (m, r) hp gs h
    obtain ⟨gs', hend, rfl⟩ := Option.map_eq_some_iff.mp h
    obtain ⟨rfl, rfl⟩ : r = [] ∧ gs' = [] := by simpa [first, eq_comm] using hend
    obtain rfl : t = m := by simpa using e.sound_splits m [] t hp
    exact ⟨rfl, rfl⟩
  rw [first]
  split
  · next hmem =>
    have hsome : ((e.splits t).findSome? fun p => (first [] p.2).map (p.1 :: ·)).isSome :=
      List.findSome?_isSome_iff.mpr ⟨(t, []), hmem, rfl⟩
    obtain ⟨gs, hgs⟩ := Option.isSome_iff_exists.mp hsome
    obtain ⟨p, hp, h⟩ := List.exists_of_findSome?_eq_some hgs
    rw [hgs, (hfound p hp gs h).2]
  · next hmem =>
    rw [List.findSome?_eq_none_iff]
    intro p hp
    cases h : (first [] p.2).map (p.1 :: ·) with
    | none => rfl
    | some gs => exact absurd ((hfound p hp gs h).1 ▸ hp) hmem

end LinePattern

end LocaleWrap
