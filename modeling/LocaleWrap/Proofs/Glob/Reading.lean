import LocaleWrap.Glob.Pattern
import LocaleWrap.Proofs.Path.Names
import Mathlib.Data.List.Forall2

/-! # Patterns behind a plain path

A text without wildcards in front of a pattern adds names to it, and changes neither what the rest
of it stands for nor whether it can be read.

* `Glob.toOption_tokensFrom` — the tokens of a text do not hang on its position.
* `Glob.eq_of_tokensFrom_eq_chars` — only characters stand for characters.
* **`Glob.IsFront`**, **`Glob.steps`** — a text that more can be written behind, and the texts that
  a path is cut into as a pattern.
* `Glob.Pattern.parse_eq_ok_iff` — what it takes to read a pattern;
  `Glob.Pattern.parse_front_append` reads one behind a plain front. -/

namespace LocaleWrap

namespace Glob

open Text

variable {t u : Text} {ts : List Token} {o : Bool} {n m : Nat}

/-! ## Tokens -/

/-- Forgetting the error commutes with a function on the value. -/
theorem toOption_map {ε α β : Type} (f : α → β) (x : Except ε α) :
    (x.map f).toOption = x.toOption.map f := by
  cases x <;> rfl

/-- A character that is no wildcard stands for itself. -/
theorem tokensFrom_cons_plain {c : Char} (hstar : c ≠ '*') (hone : c ≠ '?') (hclass : c ≠ '[')
    (n : Nat) (o : Bool) (cs : Text) :
    tokensFrom n o (c :: cs) = (tokensFrom (n + 1) (c == '/') cs).map (.char c :: ·) := by
  rw [tokensFrom] <;> simp_all

/-- Two stars inside a name are a fault, whatever comes after them. -/
theorem toOption_tokensFrom_stars {cs : Text} (h : ∀ tail, cs = '*' :: tail → False) :
    (tokensFrom n false ('*' :: '*' :: cs)).toOption = none := by
  cases cs with
  | nil =>
      rw [tokensFrom]
      rfl
  | cons c cs =>
      by_cases hc : c = '/'
      · rw [hc, tokensFrom]
        rfl
      · rw [tokensFrom]
        · rfl
        · exact h
        · exact List.cons_ne_nil c cs
        · exact fun rest heq => hc (List.cons.inj heq).1

/-- **The tokens of a text do not hang on its position**, which only tells where a fault is. -/
theorem toOption_tokensFrom (n m : Nat) (o : Bool) (cs : Text) :
    (tokensFrom n o cs).toOption = (tokensFrom m o cs).toOption := by
  fun_induction tokensFrom n o cs generalizing m with
  | case1 => rw [tokensFrom]
  | case2 n o cs ih => rw [tokensFrom, toOption_map, toOption_map, ih]
  | case3 n o cs hclass =>
      -- a bracket that opens no class
      rw [tokensFrom]
      split
      · rfl
      · next hsome => cases hclass.symm.trans hsome
  | case4 n o cs token k rest hclass _ ih =>
      rw [tokensFrom]
      split
      · next hnone => cases hclass.symm.trans hnone
      · next hsome =>
        cases hclass.symm.trans hsome
        rw [toOption_map, toOption_map, ih]
  | case5 n o cs =>
      rw [tokensFrom]
      rfl
  | case6 n o cs h hopened =>
      obtain rfl : o = false := by simpa using hopened
      exact (toOption_tokensFrom_stars h).symm
  | case7 n o hopened h => rw [tokensFrom, if_neg hopened]
  | case8 n o hopened rest h ih =>
      rw [tokensFrom, if_neg hopened, toOption_map, toOption_map, ih]
  | case9 n o cs h hopened hnil hslash =>
      rw [tokensFrom, if_neg hopened]
      · rfl
      · exact h
      · exact hnil
      · exact hslash
  | case10 n o cs h h' ih =>
      rw [tokensFrom, toOption_map, toOption_map, ih]
      · exact h
      · exact h'
  | case11 n o c cs hone hclass _ _ hstar ih =>
      rw [tokensFrom_cons_plain hstar hone hclass, toOption_map, toOption_map, ih]

/-- A token in front of others is one of characters only if it is one itself. -/
theorem map_cons_eq_chars {ε : Type} {x : Except ε (List Token)} {token : Token}
    (h : x.map (token :: ·) = .ok (u.map .char)) :
    ∃ c cs, token = .char c ∧ u = c :: cs ∧ x = .ok (cs.map .char) := by
  cases x with
  | error fault => cases h
  | ok ts =>
      have hcons : token :: ts = u.map .char := Except.ok.inj h
      obtain ⟨c, cs, rfl, rfl, rfl⟩ := List.map_eq_cons_iff.mp hcons.symm
      exact ⟨c, cs, rfl, rfl, rfl⟩

/-- A class is no character. -/
theorem readClass_ne_char {c : Char} {k : Nat} {rest : Text} :
    readClass t ≠ some (.char c, k, rest) := by
  intro h
  unfold readClass at h
  split at h
  · split at h <;> cases h
  · cases h
  · split at h <;> cases h
  · cases h

/-- **Only characters stand for characters.** -/
theorem eq_of_tokensFrom_eq_chars (h : tokensFrom n o t = .ok (u.map .char)) : t = u := by
  fun_induction tokensFrom n o t generalizing u with
  | case1 => exact (List.map_eq_nil_iff.mp (Except.ok.inj h).symm).symm
  | case2 n o cs ih =>
      obtain ⟨c, cs', htoken, -, -⟩ := map_cons_eq_chars h
      cases htoken
  | case3 n o cs hclass => cases h
  | case4 n o cs token k rest hclass _ ih =>
      obtain ⟨c, cs', rfl, -, -⟩ := map_cons_eq_chars h
      exact absurd hclass readClass_ne_char
  | case5 n o cs => cases h
  | case6 n o cs _ hopened => cases h
  | case7 n o hopened _ =>
      obtain ⟨c, cs, -, hchar, -⟩ := List.map_eq_cons_iff.mp (Except.ok.inj h).symm
      cases hchar
  | case8 n o hopened rest _ ih =>
      obtain ⟨c, cs', htoken, -, -⟩ := map_cons_eq_chars h
      cases htoken
  | case9 n o cs _ hopened hnil hslash => cases h
  | case10 n o cs _ _ ih =>
      obtain ⟨c, cs', htoken, -, -⟩ := map_cons_eq_chars h
      cases htoken
  | case11 n o c cs _ _ _ _ _ ih =>
      obtain ⟨c', cs', hchar, rfl, hrest⟩ := map_cons_eq_chars h
      obtain rfl := Token.char.inj hchar
      rw [ih hrest]

/-! ## Plain texts -/

/-- A text has no wildcard when its first character is none and the rest has none. -/
theorem isPattern_cons (c : Char) (t : Text) :
    isPattern (c :: t) = false ↔ (c ≠ '*' ∧ c ≠ '?' ∧ c ≠ '[') ∧ isPattern t = false := by
  simp [isPattern, and_assoc]

/-- Two texts have a wildcard together when one of them has. -/
theorem isPattern_append (s t : Text) : isPattern (s ++ t) = (isPattern s || isPattern t) :=
  List.any_append

/-- **A plain text stands for its characters.** -/
theorem tokensFrom_plain (h : isPattern t = false) (n : Nat) (o : Bool) :
    tokensFrom n o t = .ok (t.map .char) := by
  induction t generalizing n o with
  | nil => rw [tokensFrom]; rfl
  | cons c t ih =>
      obtain ⟨⟨hstar, hone, hclass⟩, htail⟩ := (isPattern_cons c t).mp h
      rw [tokensFrom_cons_plain hstar hone hclass, ih htail]
      rfl

/-- **A plain text in front**, up to a slash, stands for its characters as well, and what comes
after it stands for what it does by itself. -/
theorem toOption_tokensFrom_append {s : Text} (hplain : isPattern s = false)
    (hs : s.getLast? = some '/' ∨ s = [] ∧ o = true) (n : Nat) (t : Text) :
    (tokensFrom n o (s ++ t)).toOption =
      (tokensFrom 0 true t).toOption.map (s.map Token.char ++ ·) := by
  induction s generalizing n o with
  | nil =>
      obtain ⟨-, rfl⟩ := hs.resolve_left (by simp)
      rw [List.nil_append, toOption_tokensFrom n 0]
      simp
  | cons c s ih =>
      obtain ⟨⟨hstar, hone, hclass⟩, htail⟩ := (isPattern_cons c s).mp hplain
      have hlast : (c :: s).getLast? = some '/' := hs.resolve_right (by simp)
      have hs' : s.getLast? = some '/' ∨ s = [] ∧ (c == '/') = true := by
        cases s with
        | nil => exact Or.inr ⟨rfl, by simpa using hlast⟩
        | cons d s => exact Or.inl (by simpa using hlast)
      rw [List.cons_append, tokensFrom_cons_plain hstar hone hclass, toOption_map, ih htail hs',
        Option.map_map]
      rfl

/-! ## Parts of a pattern -/

/-- The part that a plain name is. -/
def plainPart (name : Text) : Part := .name (name.map .char)

/-- A text without wildcards is read as the part for that name. -/
theorem Part.parse_plain (h : isPattern t = false) : Part.parse t = .ok (plainPart t) := by
  have hchars : t.map Token.char ≠ [.anyDepth] := by
    cases t <;> simp
  rw [Part.parse, tokens, tokensFrom_plain h, Except.map, if_neg hchars]
  rfl

/-- A part for names holds the tokens of its text. -/
theorem tokens_of_parse (h : Part.parse t = .ok (.name ts)) : tokens t = .ok ts := by
  rw [Part.parse] at h
  cases htokens : tokens t with
  | error fault => rw [htokens] at h; cases h
  | ok ts' =>
      rw [htokens] at h
      have hpart : (if ts' = [.anyDepth] then Part.anyDepth else .name ts') = .name ts :=
        Except.ok.inj h
      split_ifs at hpart
      rw [Part.name.inj hpart]

/-- **Only a plain text is read as a plain name.** -/
theorem eq_of_parse_eq_plainPart (h : Part.parse t = .ok (plainPart u)) : t = u :=
  eq_of_tokensFrom_eq_chars (tokens_of_parse h)

/-- Tokens that stand for one character each spell a name. -/
theorem literal?_chars (name : Text) : literal? (name.map .char) = some name := by
  induction name with
  | nil => rfl
  | cons c name ih => rw [List.map_cons, literal?, ih]; rfl

/-- Tokens without a wildcard are characters. -/
theorem eq_chars_of_literal? {name : Text} (h : literal? ts = some name) :
    ts = name.map .char := by
  fun_induction literal? ts generalizing name with
  | case1 =>
      obtain rfl := Option.some.inj h
      rfl
  | case2 c ts ih =>
      obtain ⟨rest, hrest, rfl⟩ := Option.map_eq_some_iff.mp h
      rw [ih hrest, List.map_cons]
  | case3 => cases h

/-- Collapsing only leaves parts out. -/
theorem collapse_sublist (ps : List Part) : (collapse ps).Sublist ps := by
  fun_induction collapse ps with
  | case1 ps ih => exact ih.trans (List.sublist_cons_self _ _)
  | case2 p ps _ ih => exact ih.cons_cons p
  | case3 => exact List.nil_sublist _

/-- Collapsing leaves a part where there was one. -/
theorem collapse_ne_nil {ps : List Part} (h : ps ≠ []) : collapse ps ≠ [] := by
  fun_induction collapse ps with
  | case1 ps ih => exact ih (List.cons_ne_nil _ _)
  | case2 p ps => exact List.cons_ne_nil _ _
  | case3 => exact absurd rfl h

/-- Plain parts in front are kept by collapsing. -/
theorem collapse_plain (names : List Text) (ps : List Part) :
    collapse (names.map plainPart ++ ps) = names.map plainPart ++ collapse ps := by
  induction names with
  | nil => rfl
  | cons name names ih =>
      rw [List.map_cons, List.cons_append, collapse, ih, List.cons_append]
      intro ps' hparts
      cases hparts

/-! ## Cutting a text into parts -/

/-- **A text that more can be written behind**: it is empty, or has a slash at its end. -/
def IsFront (s : Text) : Prop := s = [] ∨ s.getLast? = some '/'

/-- **A front is cut for itself.** -/
theorem pieces_front_append {s : Text} (hs : IsFront s) (t : Text) :
    pieces '/' (s ++ t) = cutParts s ++ pieces '/' t := by
  rcases hs with rfl | hlast
  · rfl
  · obtain ⟨u, rfl⟩ := List.getLast?_eq_some_iff.mp hlast
    have hfront : pieces '/' (u ++ ['/']) = pieces '/' u ++ [[]] := pieces_append '/' u []
    have hcut : cutParts (u ++ ['/']) = pieces '/' u := by
      rw [cutParts, hfront, List.getLast?_concat, if_pos rfl, List.dropLast_concat]
    rw [hcut, List.append_assoc, List.singleton_append, pieces_append]

/-- Behind a text that ends in a slash, the parts are those of both texts. -/
theorem cutParts_front_append {s : Text} (hs : IsFront s) (t : Text) :
    cutParts (s ++ t) = cutParts s ++ cutParts t := by
  have hne := pieces_ne_nil '/' t
  simp only [cutParts.eq_def (s ++ t), cutParts.eq_def t, pieces_front_append hs]
  rw [List.getLast?_append_of_ne_nil _ hne, List.dropLast_append_of_ne_nil hne]
  split <;> rfl

/-- Each part is one of the pieces between slashes. -/
theorem mem_pieces_of_mem_cutParts {piece : Text} (h : piece ∈ cutParts t) :
    piece ∈ pieces '/' t := by
  rw [cutParts] at h
  split at h
  · exact (List.dropLast_sublist _).subset h
  · exact h

/-- A text that is not empty has a part. -/
theorem cutParts_ne_nil (h : t ≠ []) : cutParts t ≠ [] := by
  have hjoin := joinWith_pieces '/' t
  intro hcut
  rw [cutParts] at hcut
  split at hcut
  · next hlast =>
    -- Only the empty text has nothing but an empty piece.
    rw [← List.dropLast_append_getLast? _ hlast, hcut] at hjoin
    exact h hjoin.symm
  · exact pieces_ne_nil '/' t hcut

/-- There are no more parts than pieces between slashes. -/
theorem length_cutParts_le (t : Text) : (cutParts t).length ≤ (pieces '/' t).length := by
  rw [cutParts]
  split
  · exact (List.dropLast_sublist _).length_le
  · exact Nat.le_refl _

/-- **The texts between the slashes of a path**, as a pattern is cut into parts. -/
def steps (p : Path) : List Text := cutParts (if p.isAbsolute then p.text.drop 1 else p.text)

/-- The steps of a relative path are the parts of its text. -/
theorem steps_of_relative {p : Path} (h : p.isAbsolute = false) : steps p = cutParts p.text := by
  rw [steps, if_neg (by simp [h])]

/-- Behind a text that ends in a slash, the steps of a relative path follow its own. -/
theorem steps_front_append {s : Text} (hs : IsFront s) (ht : (⟨t⟩ : Path).isAbsolute = false) :
    steps ⟨s ++ t⟩ = steps ⟨s⟩ ++ steps ⟨t⟩ := by
  cases s with
  | nil => rfl
  | cons c s =>
      by_cases hc : c = '/'
      · have hs' : IsFront s := by
          cases s with
          | nil => exact Or.inl rfl
          | cons d s => exact Or.inr (by simpa using hs.resolve_left (by simp))
        rw [hc, steps_of_relative ht]
        exact cutParts_front_append hs' t
      · have hrelative : ∀ u : Text, (⟨c :: u⟩ : Path).isAbsolute = false := by
          simp [Path.isAbsolute, hc]
        rw [List.cons_append, steps_of_relative (hrelative _), steps_of_relative (hrelative _),
          steps_of_relative ht]
        exact cutParts_front_append hs t

/-- The pieces of a text without wildcards have none. -/
theorem not_isPattern_of_mem_pieces {piece : Text} (h : isPattern t = false)
    (hpiece : piece ∈ pieces '/' t) : isPattern piece = false := by
  simp only [isPattern, List.any_eq_false] at h ⊢
  intro c hc hspecial
  have hslash : c ≠ '/' := by
    rintro rfl
    exact absurd hspecial (by decide)
  exact h c ((mem_iff_exists_mem_pieces hslash).mpr ⟨piece, hpiece, hc⟩) hspecial

/-- **The pieces of a front** are its steps, between the empty ones at its ends. -/
theorem pieces_eq_steps {p : Path} (h : IsFront p.text) :
    pieces '/' p.text = (if p.isAbsolute then [[]] else []) ++ steps p ++ [[]] := by
  have hcut : ∀ {s : Text}, IsFront s → pieces '/' s = cutParts s ++ [[]] := by
    intro s hs
    simpa using pieces_front_append hs []
  by_cases habsolute : p.isAbsolute = true
  · obtain ⟨rest, hrest⟩ := List.head?_eq_some_iff.mp (beq_iff_eq.mp habsolute)
    have hfront : IsFront rest := by
      rw [hrest] at h
      cases rest with
      | nil => exact Or.inl rfl
      | cons c rest => exact Or.inr (by simpa using h.resolve_left (by simp))
    rw [if_pos habsolute, steps, if_pos habsolute, hrest, pieces_cons_self, List.drop_one,
      List.tail_cons, hcut hfront]
    rfl
  · rw [if_neg habsolute, steps, if_neg habsolute, hcut h]
    rfl

/-- The steps of a path without wildcards have none. -/
theorem not_isPattern_of_mem_steps {p : Path} {step : Text} (h : isPattern p.text = false)
    (hstep : step ∈ steps p) : isPattern step = false := by
  have hdrop : isPattern (p.text.drop 1) = false := by
    cases hp : p.text with
    | nil => rfl
    | cons c t => exact ((isPattern_cons c t).mp (hp ▸ h)).2
  rw [steps] at hstep
  refine not_isPattern_of_mem_pieces ?_ (mem_pieces_of_mem_cutParts hstep)
  split_ifs
  · exact hdrop
  · exact h

/-! ## Reading a pattern -/

/-- **Reading a list** is reading each of its members. -/
theorem mapM_eq_ok_iff {ε α β : Type} {f : α → Except ε β} {as : List α} {bs : List β} :
    as.mapM f = .ok bs ↔ List.Forall₂ (fun a b => f a = .ok b) as bs := by
  induction as generalizing bs with
  | nil => cases bs <;> simp [pure, Except.pure]
  | cons a as ih =>
      cases hhead : f a with
      | error fault => cases bs <;> simp [List.mapM_cons, bind, Except.bind, hhead]
      | ok b =>
          cases htail : as.mapM f with
          | error fault => cases bs <;> simp [List.mapM_cons, bind, Except.bind, hhead, htail, ← ih]
          | ok bs' =>
              cases bs <;>
                simp [List.mapM_cons, bind, Except.bind, pure, Except.pure, hhead, htail, ← ih]

/-- What members of related lists have in common with a partner. -/
theorem forall_mem_left {α β : Type} {R : α → β → Prop} {P : α → Prop} {as : List α} {bs : List β}
    (h : List.Forall₂ R as bs) (hP : ∀ a b, R a b → P a) : ∀ a ∈ as, P a :=
  ((List.forall₂_and_left as bs).mp (h.imp fun a b hab => ⟨hP a b hab, hab⟩)).1

/-- What a relation says about its second member holds throughout the second list. -/
theorem forall_mem_right {α β : Type} {R : α → β → Prop} {P : β → Prop} {as : List α} {bs : List β}
    (h : List.Forall₂ R as bs) (hP : ∀ a b, R a b → P b) : ∀ b ∈ bs, P b :=
  forall_mem_left (List.Forall₂.flip h) fun b a hab => hP a b hab

/-- **What it takes to read a pattern.** -/
theorem Pattern.parse_eq_ok_iff {P : Pattern} :
    Pattern.parse t = .ok P ↔ (tokens t).toOption.isSome ∧
      ∃ parts, List.Forall₂ (fun piece part => Part.parse piece = .ok part) (steps ⟨t⟩) parts ∧
        P = ⟨(⟨t⟩ : Path).isAbsolute, collapse parts, t.getLast? == some '/'⟩ := by
  have hparse : Pattern.parse t = (tokens t).bind fun _ =>
      ((steps ⟨t⟩).mapM Part.parse).bind fun parts =>
        .ok ⟨(⟨t⟩ : Path).isAbsolute, collapse parts, t.getLast? == some '/'⟩ := rfl
  simp only [← mapM_eq_ok_iff]
  rw [hparse]
  cases tokens t with
  | error fault => simp [Except.bind, Except.toOption]
  | ok ts =>
      cases (steps ⟨t⟩).mapM Part.parse with
      | error fault => simp [Except.bind]
      | ok parts => simp [Except.bind, Except.toOption, eq_comm]

/-- Plain names stand for themselves. -/
theorem forall₂_parse_plain_append {names ts : List Text} {parts : List Part}
    (h : ∀ name ∈ names, isPattern name = false) :
    List.Forall₂ (fun piece part => Part.parse piece = .ok part) (names ++ ts) parts ↔
      ∃ qs, List.Forall₂ (fun piece part => Part.parse piece = .ok part) ts qs ∧
        parts = names.map plainPart ++ qs := by
  induction names generalizing parts with
  | nil => simp
  | cons name names ih =>
      obtain ⟨hname, hnames⟩ := List.forall_mem_cons.mp h
      rw [List.cons_append, List.forall₂_cons_left_iff]
      constructor
      · rintro ⟨part, parts', hpart, hparts, rfl⟩
        obtain ⟨qs, hqs, rfl⟩ := (ih hnames).mp hparts
        obtain rfl := Except.ok.inj ((Part.parse_plain hname).symm.trans hpart)
        exact ⟨qs, hqs, rfl⟩
      · rintro ⟨qs, hqs, rfl⟩
        exact ⟨plainPart name, _, Part.parse_plain hname, (ih hnames).mpr ⟨qs, hqs, rfl⟩, rfl⟩

/-- **A pattern behind a plain front** is read as it is by itself. The front adds its names. -/
theorem Pattern.parse_front_append {s : Text} {P : Pattern} (hplain : isPattern s = false)
    (hs : IsFront s) (ht : (⟨t⟩ : Path).isAbsolute = false) (hne : t ≠ []) :
    Pattern.parse (s ++ t) = .ok P ↔ ∃ Q, Pattern.parse t = .ok Q ∧
      P = ⟨(⟨s⟩ : Path).isAbsolute, (steps ⟨s⟩).map plainPart ++ Q.parts, Q.wantsDirectory⟩ := by
  have htokens : (tokens (s ++ t)).toOption.isSome = (tokens t).toOption.isSome := by
    have hfront : s.getLast? = some '/' ∨ s = [] ∧ true = true := hs.symm.imp_right (⟨·, rfl⟩)
    rw [tokens, tokens, toOption_tokensFrom_append hplain hfront, Option.isSome_map]
  have habsolute : (⟨s ++ t⟩ : Path).isAbsolute = (⟨s⟩ : Path).isAbsolute := by
    cases s with
    | nil => exact ht
    | cons c s => rfl
  have hlast : (s ++ t).getLast? = t.getLast? := List.getLast?_append_of_ne_nil s hne
  have hsteps : ∀ step ∈ steps ⟨s⟩, isPattern step = false := fun step hstep =>
    not_isPattern_of_mem_steps hplain hstep
  simp only [Pattern.parse_eq_ok_iff, htokens, habsolute, hlast, steps_front_append hs ht,
    forall₂_parse_plain_append hsteps]
  constructor
  · rintro ⟨hsome, _, ⟨parts, hparts, rfl⟩, rfl⟩
    exact ⟨_, ⟨hsome, parts, hparts, rfl⟩, by rw [collapse_plain]⟩
  · rintro ⟨_, ⟨hsome, parts, hparts, rfl⟩, rfl⟩
    exact ⟨hsome, _, ⟨parts, hparts, rfl⟩, by rw [collapse_plain]⟩

end Glob

end LocaleWrap
