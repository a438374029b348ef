import LocaleWrap.Proofs.Text.Blank
import LocaleWrap.Toml.Document
import Mathlib.Data.List.Basic
import Mathlib.Tactic.Common

/-! # Values written in TOML

Texts, words and arrays have a written form, and where something that ends a value comes behind it,
the reader finds the value and leaves what comes behind.

* **`Reads`** — what a reader finds, whatever the bound on what it leaves.
* **`Toml.quoted`** — a text in double quotes, with an escape for each character that needs one;
  **`Toml.writtenArray`** — an array, with a comma behind each item.
* **`Toml.Writes`** — a text stands for a value, whatever comes behind.
* `Toml.writes_quoted`, `Toml.writes_word`, `Toml.writes_array` — what stands for texts, for bare
  words, and for arrays of what can be written. -/

namespace LocaleWrap

/-- **What a reader finds**: a value and the rest, with some bound on its length. -/
def Reads {τ α : Type} {n : Nat} (x : Option (Found τ α n)) (a : α) (r : List τ) : Prop :=
  ∃ h, x = some ⟨a, r, h⟩

namespace Reads

variable {τ α β : Type} {m n : Nat} {x : Option (Found τ α n)} {a : α} {r : List τ}

/-- A weaker bound leaves what is found. -/
theorem map_mono (h : Reads x a r) (hmn : n ≤ m) : Reads (x.map (Found.mono hmn)) a r := by
  obtain ⟨hlt, rfl⟩ := h
  exact ⟨Nat.lt_of_lt_of_le hlt hmn, rfl⟩

/-- A function on the value leaves the rest. -/
theorem map_value (h : Reads x a r) (f : α → β) : Reads (x.map (Found.map f)) (f a) r := by
  obtain ⟨hlt, rfl⟩ := h
  exact ⟨hlt, rfl⟩

end Reads

namespace Toml

variable {c d : Char} {s t u r w : Text} {v : Value}

/-! ## Hexadecimal digits -/

/-- So many hexadecimal digits for a number. -/
def hexDigits : Nat → Nat → Text
  | 0, _ => []
  | width + 1, n => hexDigits width (n / 16) ++ [Nat.digitChar (n % 16)]

/-- Each digit is one of its base, with the value it was written for. -/
theorem digit_digitChar : ∀ n < 16,
    isDigitOf 16 n.digitChar = true ∧ digitValue n.digitChar = n := by
  decide

@[simp] theorem length_hexDigits (width n : Nat) : (hexDigits width n).length = width := by
  induction width generalizing n with
  | zero => rfl
  | succ width ih =>
      rw [hexDigits, List.length_append, ih]
      rfl

/-- Hexadecimal digits are digits. -/
theorem isDigitOf_of_mem_hexDigits {width n : Nat} (h : c ∈ hexDigits width n) :
    isDigitOf 16 c = true := by
  induction width generalizing n with
  | zero => simp [hexDigits] at h
  | succ width ih =>
      rcases List.mem_append.mp h with hfront | hlast
      · exact ih hfront
      · rw [List.mem_singleton.mp hlast]
        exact (digit_digitChar _ (Nat.mod_lt n (by decide))).1

/-- The digits for a number are read as the number, as far as there are enough of them. -/
theorem number_hexDigits (width n : Nat) :
    number 16 (hexDigits width n) = n % Nat.pow 16 width := by
  unfold number
  induction width generalizing n with
  | zero => exact (Nat.mod_one n).symm
  | succ width ih =>
      have hlast := (digit_digitChar _ (Nat.mod_lt n (by decide : 0 < 16))).2
      have hpow : Nat.pow 16 (width + 1) = 16 * Nat.pow 16 width := Nat.mul_comm _ _
      rw [hexDigits, List.foldl_append, ih, List.foldl_cons, List.foldl_nil, hlast, hpow,
        Nat.mod_mul]
      omega

/-- The number of a character has at most eight hexadecimal digits. -/
theorem toNat_lt (c : Char) : c.toNat < Nat.pow 16 8 := c.val.toNat_lt

/-- **Eight digits for a character** are read as the character. -/
theorem hexChar?_hexDigits (c : Char) (r : Text) :
    hexChar? 8 (hexDigits 8 c.toNat ++ r) = some c := by
  have htake : (hexDigits 8 c.toNat ++ r).take 8 = hexDigits 8 c.toNat :=
    List.take_left' (length_hexDigits 8 c.toNat)
  have hdigits : (hexDigits 8 c.toNat).all (isDigitOf 16) = true :=
    List.all_eq_true.mpr fun _ => isDigitOf_of_mem_hexDigits
  unfold hexChar?
  rw [htake, if_pos ⟨length_hexDigits 8 c.toNat, hdigits⟩, number_hexDigits,
    Nat.mod_eq_of_lt (toNat_lt c)]
  unfold charOf?
  rw [if_pos (show c.toNat.isValidChar from c.valid), Char.ofNat_toNat]

/-! ## Texts between quotes -/

/-- **A character as it is written between double quotes.** -/
def writtenChar (c : Char) : Text :=
  if c = '"' ∨ c = '\\' then ['\\', c]
  else if isPlain c then [c]
  else '\\' :: 'U' :: hexDigits 8 c.toNat

/-- **A text in double quotes.** -/
def quoted (s : Text) : Text := '"' :: (s.flatMap writtenChar ++ ['"'])

/-- The closing quote ends the text. -/
theorem basicString?_quote (r : Text) : Reads (basicString? ('"' :: r)) [] r := by
  rw [basicString?]
  exact ⟨_, rfl⟩

/-- A plain character stands for itself. -/
theorem basicString?_plain (hquote : c ≠ '"') (hbackslash : c ≠ '\\') (hplain : isPlain c = true)
    (h : Reads (basicString? t) s r) : Reads (basicString? (c :: t)) (c :: s) r := by
  obtain ⟨hlt, h⟩ := h
  rw [basicString?]
  refine ⟨by simp only [List.length_cons]; omega, ?_⟩
  simp [next?, hquote, hbackslash, hplain, h]

/-- An escape stands for its character. -/
theorem basicString?_escaped (hescape : Reads (escape? t) d u) (h : Reads (basicString? u) s r) :
    Reads (basicString? ('\\' :: t)) (d :: s) r := by
  obtain ⟨hlt, hescape⟩ := hescape
  obtain ⟨hlt', h⟩ := h
  rw [basicString?]
  refine ⟨by simp only [List.length_cons]; omega, ?_⟩
  simp [next?, hescape, h]

/-- Behind its mark, eight digits are the escape for a character. -/
theorem escape?_hexDigits (c : Char) (t : Text) :
    Reads (escape? ('U' :: (hexDigits 8 c.toNat ++ t))) c t := by
  have hdrop : (hexDigits 8 c.toNat ++ t).drop 8 = t :=
    List.drop_left' (length_hexDigits 8 c.toNat)
  refine ⟨by simp only [List.length_cons, List.length_append]; omega, ?_⟩
  unfold escape?
  simp [next?, hexChar?_hexDigits, hdrop]

/-- **A written character is read back**, whatever comes behind. -/
theorem basicString?_writtenChar (c : Char) (h : Reads (basicString? t) s r) :
    Reads (basicString? (writtenChar c ++ t)) (c :: s) r := by
  by_cases hmark : c = '"' ∨ c = '\\'
  · rw [writtenChar, if_pos hmark]
    refine basicString?_escaped ⟨Nat.lt_succ_self t.length, ?_⟩ h
    rcases hmark with rfl | rfl <;> rfl
  · have hne := not_or.mp hmark
    by_cases hplain : isPlain c = true
    · rw [writtenChar, if_neg hmark, if_pos hplain]
      exact basicString?_plain hne.1 hne.2 hplain h
    · rw [writtenChar, if_neg hmark, if_neg hplain]
      exact basicString?_escaped (escape?_hexDigits c t) h

/-- A written text is read back up to its closing quote. -/
theorem basicString?_written (s r : Text) :
    Reads (basicString? (s.flatMap writtenChar ++ '"' :: r)) s r := by
  induction s with
  | nil => exact basicString?_quote r
  | cons c s ih =>
      rw [List.flatMap_cons, List.append_assoc]
      exact basicString?_writtenChar c ih

/-- No written character begins with a quote. -/
theorem head?_writtenChar (c : Char) (t : Text) : (writtenChar c ++ t).head? ≠ some '"' := by
  by_cases hmark : c = '"' ∨ c = '\\'
  · rw [writtenChar, if_pos hmark]
    simp
  · by_cases hplain : isPlain c = true
    · rw [writtenChar, if_neg hmark, if_pos hplain]
      simpa using (not_or.mp hmark).1
    · rw [writtenChar, if_neg hmark, if_neg hplain]
      simp

/-- Where no three quotes stand together, a string ends on its line. -/
theorem string?_of_basicString? (ht : t.take 2 ≠ ['"', '"']) (h : Reads (basicString? t) s r) :
    Reads (string? ('"' :: t)) s r := by
  have hread : string? ('"' :: t) = (basicString? t).map (Found.mono (Nat.le_succ _)) := by
    unfold string?
    simp only [next?, Option.bind_eq_bind, Option.bind_some, ne_eq, not_true_eq_false, false_and,
      if_false, if_neg ht, if_true]
  rw [hread]
  exact h.map_mono _

/-- **A quoted text is read back**, if no further quote comes behind. -/
theorem string?_quoted (s : Text) (hr : r.head? ≠ some '"') :
    Reads (string? (quoted s ++ r)) s r := by
  rw [quoted, List.cons_append, List.append_assoc, List.singleton_append]
  refine string?_of_basicString? ?_ (basicString?_written s r)
  -- Behind the opening quote there is not a second one with a third.
  intro h
  cases s with
  | nil =>
      rw [List.flatMap_nil, List.nil_append, List.take_succ_cons, List.cons.injEq] at h
      refine hr ?_
      cases r with
      | nil => exact absurd h.2 (by simp)
      | cons c r => simpa using h.2
  | cons c s =>
      have hhead := congrArg List.head? h
      rw [List.head?_take, if_neg (by decide), List.flatMap_cons, List.append_assoc] at hhead
      exact head?_writtenChar c _ hhead

/-! ## Characters between values -/

/-- **A character that is no space between lines**: no blank, no line break and no comment. -/
def Stays (c : Char) : Prop := c ∉ [' ', '\t', '\n', '\r', '#']

instance : DecidablePred Stays := fun c => inferInstanceAs (Decidable (c ∉ _))

/-- **A character that begins a value** and does not close an array. -/
def Opens (c : Char) : Prop := c ≠ ']' ∧ Stays c

instance : DecidablePred Opens := fun c => inferInstanceAs (Decidable (_ ∧ Stays c))

/-- **A text that ends a value**: it begins with a line break or a comma. -/
def Ends (r : Text) : Prop := r.head? = some '\n' ∨ r.head? = some ','

/-- Where no blank comes first, none is skipped. -/
theorem skipGap_of_head? (h : ∀ c ∈ t.head?, isGap c = false) :
    skipGap t = ⟨t, Nat.le_refl _⟩ := by
  have hnone : ∀ c ∈ ([] : Text), isGap c = true := fun _ hc => absurd hc List.not_mem_nil
  exact Subtype.ext (Text.dropWhile_of_stop hnone h)

namespace Stays

/-- What stays is no blank. -/
theorem isGap_eq_false (hc : Stays c) : isGap c = false := by
  rw [isGap, Bool.or_eq_false_iff, beq_eq_false_iff_ne, beq_eq_false_iff_ne]
  refine ⟨?_, ?_⟩ <;> rintro rfl <;> exact absurd hc (by decide)

/-- In front of what stays there are no blanks to skip. -/
theorem skipGap (hc : Stays c) (t : Text) : skipGap (c :: t) = ⟨c :: t, Nat.le_refl _⟩ :=
  skipGap_of_head? (by simpa using hc.isGap_eq_false)

/-- In front of what stays there is no comment to skip. -/
theorem skipComment (hc : Stays c) (t : Text) :
    skipComment (c :: t) = ⟨c :: t, Nat.le_refl _⟩ := by
  rw [Toml.skipComment, hc.skipGap]
  simp only [next?]
  split
  · rename_i heq
    cases heq
    exact absurd hc (by decide)
  · rfl

/-- What stays is no line break. -/
theorem lineBreak? (hc : Stays c) (t : Text) : lineBreak? (c :: t) = none := by
  unfold Toml.lineBreak?
  simp only [next?, Option.bind_eq_bind, Option.bind_some]
  split
  · rename_i heq
    cases heq
    exact absurd hc (by decide)
  · rename_i heq
    cases heq
    exact absurd hc (by decide)
  · rfl

/-- In front of what stays there are no lines to skip. -/
theorem skipLines (hc : Stays c) (t : Text) :
    skipLines (c :: t) = ⟨c :: t, Nat.le_refl _⟩ := by
  rw [Toml.skipLines, hc.skipComment]
  simp only [hc.lineBreak?]

end Stays

/-! ## Values -/

/-- **A text stands for a value**: it begins one, and is read as this value where a text that ends
values comes behind. -/
structure Writes (w : Text) (v : Value) : Prop where
  opens : ∃ c t, w = c :: t ∧ Opens c
  reads : ∀ r, Ends r → Reads (value? (w ++ r)) v r

/-- **A quoted text stands for a string.** -/
theorem writes_quoted (s : Text) : Writes (quoted s) (.string s) where
  opens := ⟨_, _, rfl, by decide⟩
  reads r hr := by
    have hquote : r.head? ≠ some '"' := by
      rcases hr with h | h <;> rw [h] <;> decide
    have hread : value? (quoted s ++ r) = (string? (quoted s ++ r)).map (Found.map .string) := by
      rw [value?]
      rfl
    rw [hread]
    exact (string?_quoted s hquote).map_value Value.string

/-- What ends a value does not go on with a bare word. -/
theorem Ends.isWordChar_eq_false (h : Ends r) : ∀ c ∈ r.head?, isWordChar c = false := by
  intro c hc
  rcases h with h | h
  · obtain rfl : '\n' = c := by simpa [h] using hc
    decide
  · obtain rfl : ',' = c := by simpa [h] using hc
    decide

/-- Neither what cannot begin a value nor a quote or bracket belongs to a bare word. -/
theorem isWordChar_eq_false (h : ¬ Opens c ∨ c ∈ ['[', '\x7b', '"', '\'']) :
    isWordChar c = false := by
  rw [Opens, Stays, ← not_or, not_not] at h
  revert h
  simp only [List.mem_cons, List.not_mem_nil, or_false]
  rintro ((rfl | rfl | rfl | rfl | rfl | rfl) | (rfl | rfl | rfl | rfl)) <;> decide

/-- A bare word is read up to the end of the value. -/
theorem word?_of_scalar? (hne : w ≠ []) (hw : ∀ c ∈ w, isWordChar c = true)
    (hv : scalar? w = some v) (hr : Ends r) : Reads (word? (w ++ r)) v r := by
  obtain ⟨c, w, rfl⟩ := List.exists_cons_of_ne_nil hne
  have htake := Text.takeWhile_of_stop hw hr.isWordChar_eq_false
  have hrest : (c :: w ++ r).drop (c :: w).length = r := List.drop_left
  -- No time comes behind a date, since no space does.
  have hspace : ¬ r.head? = some ' ' := by
    rcases hr with h | h <;> rw [h] <;> decide
  have hlength : r.length < (c :: w ++ r).length := by
    simp only [List.cons_append, List.length_cons, List.length_append]
    omega
  refine ⟨hlength, ?_⟩
  unfold word?
  simp only [List.cons_append, next?, Option.bind_eq_bind, Option.bind_some]
  rw [List.cons_append] at htake hrest
  simp only [htake, hrest]
  rw [dif_neg (by simp), if_neg (fun h => hspace h.1)]
  simp [hv]

/-- What begins like a bare word is read as one. -/
theorem value?_of_isWordChar (hc : isWordChar c = true) : value? (c :: t) = word? (c :: t) := by
  have hne : ∀ d, isWordChar d = false → ¬ c = d := by
    rintro d hd rfl
    rw [hc] at hd
    cases hd
  rw [value?]
  simp only [next?, Option.bind_eq_bind, Option.bind_some]
  rw [if_neg (hne _ (by decide)), if_neg (hne _ (by decide)),
    if_neg (not_or.mpr ⟨hne _ (by decide), hne _ (by decide)⟩)]

/-- **A bare word stands for its value.** -/
theorem writes_word (hne : w ≠ []) (hw : w.all isWordChar = true) (hv : scalar? w = some v) :
    Writes w v where
  opens := by
    obtain ⟨c, t, rfl⟩ := List.exists_cons_of_ne_nil hne
    refine ⟨c, t, rfl, ?_⟩
    by_contra hopens
    have hc := List.all_eq_true.mp hw c List.mem_cons_self
    rw [isWordChar_eq_false (Or.inl hopens)] at hc
    cases hc
  reads r hr := by
    have hword := List.all_eq_true.mp hw
    have h := word?_of_scalar? hne hword hv hr
    obtain ⟨c, t, rfl⟩ := List.exists_cons_of_ne_nil hne
    rw [List.cons_append] at h ⊢
    rwa [value?_of_isWordChar (hword c List.mem_cons_self)]

/-- A truth value as it is written. -/
def writtenBoolean (b : Bool) : Text := if b then "true".toList else "false".toList

/-- The names of the truth values stand for them. -/
theorem writes_boolean (b : Bool) : Writes (writtenBoolean b) (.boolean b) := by
  cases b with
  | true => exact writes_word (by decide) (by decide) rfl
  | false => exact writes_word (by decide) (by decide) rfl

/-! ## Arrays -/

/-- **An array of written items**, with a comma behind each. -/
def writtenArray (ws : List Text) : Text := '[' :: (ws.flatMap (· ++ [',']) ++ [']'])

/-- The closing bracket ends the items. -/
theorem items?_nil (r : Text) : Reads (items? (']' :: r)) [] r := by
  rw [items?, Stays.skipLines (by decide)]
  exact ⟨_, rfl⟩

/-- A written item is read, and then the others. -/
theorem items?_cons {vs : List Value} (hw : Writes w v) (ht : Reads (items? t) vs r) :
    Reads (items? (w ++ ',' :: t)) (v :: vs) r := by
  have hread := hw.reads (',' :: t) (Or.inr rfl)
  obtain ⟨c, w, rfl, hbracket, hstays⟩ := hw.opens
  rw [List.cons_append] at hread ⊢
  obtain ⟨hlt, hv⟩ := hread
  obtain ⟨hlt', hvs⟩ := ht
  rw [items?, hstays.skipLines]
  simp only [next?, Option.bind_eq_bind, Option.bind_some]
  rw [if_neg hbracket, hv]
  simp only [Option.bind_some]
  rw [Stays.skipLines (by decide)]
  refine ⟨by simp only [List.length_cons, List.length_append]; omega, ?_⟩
  simp [hvs]

/-- The written items are read one by one. -/
theorem items?_written {ws : List Text} {vs : List Value} (h : List.Forall₂ Writes ws vs)
    (r : Text) : Reads (items? (ws.flatMap (· ++ [',']) ++ ']' :: r)) vs r := by
  induction h with
  | nil => exact items?_nil r
  | cons hw _ ih =>
      rw [List.flatMap_cons, List.append_assoc, List.append_assoc]
      exact items?_cons hw ih

/-- **An array of written items stands for the array of their values.** -/
theorem writes_array {ws : List Text} {vs : List Value} (h : List.Forall₂ Writes ws vs) :
    Writes (writtenArray ws) (.array vs false) where
  opens := ⟨_, _, rfl, by decide⟩
  reads r _ := by
    obtain ⟨hlt, hitems⟩ := items?_written h r
    rw [writtenArray, List.cons_append, List.append_assoc, List.singleton_append, value?]
    refine ⟨by simp only [List.length_cons]; omega, ?_⟩
    simp [next?, hitems]

end Toml

end LocaleWrap
