import LocaleWrap.Text.Basic

/-! # Runs of blanks and the margin of a line

Around the value on a line stand only blanks, and after it possibly a comma.

* **`Text.Blank`** — a text of blanks only; `leadingBlanks_append` and `trimStart_append` say how
  such a run is cut off the front of a text.
* `trimEnd_append_cons` — only the part behind a character that is no blank loses blanks at its
  end; `trimEnd_eq_self_iff` says when nothing is lost.
* **`Text.IsMargin`** — a blank or a comma; **`Text.HasMark`** — the last character of a line
  outside the margin. By `append_cons_inj_of_margin` this character, and with it what stands before
  and after, is determined by the line. -/

namespace LocaleWrap

namespace Text

/-! ## Characters of a class -/

/-- **The characters of a class** are taken up to the first one outside of it. -/
theorem takeWhile_of_stop {p : Char → Bool} {s t : Text} (hs : ∀ c ∈ s, p c = true)
    (ht : ∀ c ∈ t.head?, p c = false) : (s ++ t).takeWhile p = s := by
  rw [List.takeWhile_append_of_pos hs]
  cases t with
  | nil => simp
  | cons c t => simp [ht c rfl]

/-- Behind the characters of a class the text goes on with the first one outside of it. -/
theorem dropWhile_of_stop {p : Char → Bool} {s t : Text} (hs : ∀ c ∈ s, p c = true)
    (ht : ∀ c ∈ t.head?, p c = false) : (s ++ t).dropWhile p = t := by
  rw [List.dropWhile_append_of_pos hs]
  cases t with
  | nil => simp
  | cons c t => simp [ht c rfl]

/-! ## Blank texts -/

/-- **A blank text** holds blanks only; it may be empty. -/
def Blank (t : Text) : Prop := ∀ c ∈ t, isBlank c = true

instance (t : Text) : Decidable (Blank t) :=
  inferInstanceAs (Decidable (∀ c ∈ t, isBlank c = true))

@[simp] theorem blank_nil : Blank [] := by simp [Blank]

@[simp] theorem blank_cons {c : Char} {t : Text} :
    Blank (c :: t) ↔ isBlank c = true ∧ Blank t := by
  simp [Blank]

@[simp] theorem blank_append {t u : Text} : Blank (t ++ u) ↔ Blank t ∧ Blank u := by
  simp only [Blank, List.mem_append]
  constructor
  · intro h
    exact ⟨fun c hc => h c (Or.inl hc), fun c hc => h c (Or.inr hc)⟩
  · rintro ⟨ht, hu⟩ c (hc | hc)
    · exact ht c hc
    · exact hu c hc

/-- A text is blank when the test for blanks holds of all its characters. -/
theorem all_isBlank_iff {t : Text} : t.all isBlank = true ↔ Blank t := List.all_eq_true

/-- The blanks that a text begins with are blank. -/
theorem blank_leadingBlanks (t : Text) : Blank (leadingBlanks t) := by
  intro c hc
  exact List.all_eq_true.mp (List.all_takeWhile (p := isBlank) (l := t)) c hc

/-- **A blank run in front of another character** is what the text begins with. -/
theorem leadingBlanks_append {b t : Text} (hb : Blank b)
    (ht : ∀ c ∈ t.head?, isBlank c = false) : leadingBlanks (b ++ t) = b :=
  takeWhile_of_stop hb ht

/-- **Behind a blank run** the text goes on with its first other character. -/
theorem trimStart_append {b t : Text} (hb : Blank b)
    (ht : ∀ c ∈ t.head?, isBlank c = false) : trimStart (b ++ t) = t :=
  dropWhile_of_stop hb ht

/-- **A character that is no blank** protects what stands in front of it. -/
theorem trimEnd_append_cons {c : Char} (h : isBlank c = false) (s t : Text) :
    trimEnd (s ++ c :: t) = s ++ c :: trimEnd t := by
  have hfront : (c :: s.reverse).dropWhile isBlank = c :: s.reverse :=
    List.dropWhile_cons_of_neg (by simp [h])
  have hdrop : (t.reverse ++ c :: s.reverse).dropWhile isBlank =
      t.reverse.dropWhile isBlank ++ c :: s.reverse := by
    rw [List.dropWhile_append, hfront]
    split
    · next hnil => rw [List.isEmpty_iff.mp hnil, List.nil_append]
    · rfl
  have hreverse : (s ++ c :: t).reverse = t.reverse ++ c :: s.reverse := by simp
  rw [trimEnd, hreverse, hdrop, trimEnd]
  simp

/-- **Nothing is lost** where a text does not end in a blank. -/
theorem trimEnd_eq_self_iff {t : Text} :
    trimEnd t = t ↔ ∀ c ∈ t.getLast?, isBlank c = false := by
  rcases List.eq_nil_or_concat t with rfl | ⟨s, c, rfl⟩
  · simp
  · rw [List.concat_eq_append]
    cases hc : isBlank c with
    | false => simp [trimEnd_append_singleton s hc, hc]
    | true =>
        have hlength : (trimEnd (s ++ [c])).length ≤ s.length := by
          simpa [trimEnd, hc] using (List.dropWhile_sublist isBlank (l := s.reverse)).length_le
        have hne : trimEnd (s ++ [c]) ≠ s ++ [c] := by
          intro heq
          rw [heq, List.length_append, List.length_singleton] at hlength
          omega
        simp [hne, hc]

/-- A trimmed text has no other characters than the text. -/
theorem mem_of_mem_trimEnd {c : Char} {t : Text} (h : c ∈ trimEnd t) : c ∈ t := by
  rw [trimEnd, List.mem_reverse] at h
  simpa using (List.dropWhile_sublist isBlank).subset h

/-! ## The margin -/

/-- **What may stand after a value**: a blank or a comma. -/
def IsMargin (c : Char) : Prop := isBlank c = true ∨ c = ','

instance : DecidablePred IsMargin := fun c =>
  inferInstanceAs (Decidable (isBlank c = true ∨ c = ','))

/-- Blank texts are margin. -/
theorem Blank.isMargin {t : Text} (h : Blank t) : ∀ c ∈ t, IsMargin c :=
  fun c hc => Or.inl (h c hc)

/-- **The last character outside the margin is determined by the line**, and with it what stands
before and after. -/
theorem append_cons_inj_of_margin {a b t s : Text} {c d : Char} (hc : ¬ IsMargin c)
    (hd : ¬ IsMargin d) (ht : ∀ x ∈ t, IsMargin x) (hs : ∀ x ∈ s, IsMargin x)
    (h : a ++ c :: t = b ++ d :: s) : a = b ∧ c = d ∧ t = s := by
  -- If one of the two stood further left, the other would lie in its margin.
  rcases List.append_eq_append_iff.mp h with ⟨z, hb, hz⟩ | ⟨z, ha, hz⟩
  · cases z with
    | nil =>
        obtain ⟨rfl, rfl⟩ := List.cons.inj hz
        exact ⟨by simp [hb], rfl, rfl⟩
    | cons y z =>
        obtain ⟨rfl, rfl⟩ := List.cons.inj hz
        exact absurd (ht d (by simp)) hd
  · cases z with
    | nil =>
        obtain ⟨rfl, rfl⟩ := List.cons.inj hz
        exact ⟨by simp [ha], rfl, rfl⟩
    | cons y z =>
        obtain ⟨rfl, rfl⟩ := List.cons.inj hz
        exact absurd (hs c (by simp)) hc

/-- **The mark of a line** is its last character outside the margin. -/
def HasMark (line : Text) (c : Char) : Prop :=
  ¬ IsMargin c ∧ ∃ x t, line = x ++ c :: t ∧ ∀ d ∈ t, IsMargin d

/-- **A line has one mark only.** -/
theorem HasMark.unique {line : Text} {c d : Char} (h : HasMark line c) (h' : HasMark line d) :
    c = d := by
  obtain ⟨hc, x, t, hx, ht⟩ := h
  obtain ⟨hd, y, s, hy, hs⟩ := h'
  exact (append_cons_inj_of_margin hc hd ht hs (hx.symm.trans hy)).2.1

end Text

end LocaleWrap
