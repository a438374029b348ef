import LocaleWrap.Text.Lines

/-! # Raw lines put together

Where a body and a terminator may be put together so that they are found again, and where lines may
be put together so that cutting the document gives these lines again.

* **`Lines.Separable`** — `cut_append` and `separable_cut`: the bodies and terminators that a raw
  line is cut into are exactly those that can be told apart.
* **`Lines.IsCut`** — `isCut_split` and `split_flatten`: the lists of lines that a document is cut
  into are exactly those that can be put together and cut again; `isCut_iff` says which these are
  by their characters.
* `ending_ne_nil_iff`, `getLast?_flatten_iff` — a line, and a document of lines, that ends in a line
  feed. -/

namespace LocaleWrap

namespace Lines

/-! ## Bodies and terminators -/

/-- **A body and a terminator that can be told apart**: none of the terminator's characters is left
at the end of the body. -/
def Separable (b e : Text) : Prop :=
  (e = [] ∧ b.getLast? ≠ some '\n') ∨ (e = ['\n'] ∧ b.getLast? ≠ some '\r') ∨ e = ['\r', '\n']

/-- Body and terminator are the two parts of a cut line. -/
theorem body_ending_of_cut {l b e : Text} (h : cut l = (b, e)) : body l = b ∧ ending l = e := by
  rw [body, ending, h]
  exact ⟨rfl, rfl⟩

/-- The first character of a line belongs to the body unless the line is only a terminator. -/
theorem cut_cons {c : Char} {cs : Text} (h : c :: cs ≠ ['\n']) (h' : c :: cs ≠ ['\r', '\n']) :
    cut (c :: cs) = (c :: (cut cs).1, (cut cs).2) := by
  rw [cut]
  · simpa using h
  · simpa using h'

/-- **What can be told apart is found again.** -/
theorem cut_append {b e : Text} (h : Separable b e) : cut (b ++ e) = (b, e) := by
  induction b with
  | nil => rcases h with ⟨rfl, -⟩ | ⟨rfl, -⟩ | rfl <;> rfl
  | cons c b ih =>
      have hrest : Separable b e := by
        rcases h with ⟨rfl, hb⟩ | ⟨rfl, hb⟩ | rfl
        · exact Or.inl ⟨rfl, fun hlast => hb (by simp [List.getLast?_cons, hlast])⟩
        · exact Or.inr (Or.inl ⟨rfl, fun hlast => hb (by simp [List.getLast?_cons, hlast])⟩)
        · exact Or.inr (Or.inr rfl)
      -- The whole is no terminator: its last characters would be left in the body.
      have hlf : c :: (b ++ e) ≠ ['\n'] := by
        rintro heq
        obtain ⟨rfl, hbe⟩ := List.cons.inj heq
        obtain ⟨rfl, rfl⟩ := List.append_eq_nil_iff.mp hbe
        simp [Separable] at h
      have hcrlf : c :: (b ++ e) ≠ ['\r', '\n'] := by
        rintro heq
        obtain ⟨rfl, hbe⟩ := List.cons.inj heq
        rcases h with ⟨rfl, hb⟩ | ⟨rfl, hb⟩ | rfl
        · rw [List.append_nil] at hbe
          exact hb (by simp [hbe])
        · obtain rfl : b = [] := by simpa using hbe
          exact hb rfl
        · simpa using congrArg List.length hbe
      rw [List.cons_append, cut_cons hlf hcrlf, ih hrest]

/-- **The parts of a raw line can be told apart.** -/
theorem separable_cut (raw : Text) : Separable (body raw) (ending raw) := by
  unfold body ending
  fun_induction cut raw with
  | case1 => simp [Separable]
  | case2 => simp [Separable]
  | case3 => simp [Separable]
  | case4 c cs hlf hcrlf ih =>
      -- The first character is the last of the body only where the rest is a terminator.
      have hparts : (cut cs).1 ++ (cut cs).2 = cs := body_append_ending cs
      rcases ih with ⟨he, hb⟩ | ⟨he, hb⟩ | he
      · refine Or.inl ⟨he, ?_⟩
        rw [he, List.append_nil] at hparts
        rw [hparts] at hb ⊢
        cases cs with
        | nil =>
            intro hlast
            exact hlf (by simpa using hlast) rfl
        | cons d ds => simpa [List.getLast?_cons] using hb
      · refine Or.inr (Or.inl ⟨he, ?_⟩)
        rw [he] at hparts
        cases hbody : (cut cs).1 with
        | nil =>
            rw [hbody] at hparts
            intro hlast
            exact hcrlf (by simpa using hlast) hparts.symm
        | cons d ds =>
            rw [hbody] at hb
            simpa [List.getLast?_cons] using hb
      · exact Or.inr (Or.inr he)

/-- **A raw line has a terminator** just when it ends in a line feed. -/
theorem ending_ne_nil_iff {l : Text} : ending l ≠ [] ↔ l.getLast? = some '\n' := by
  have hparts := body_append_ending l
  have hsep := separable_cut l
  generalize body l = b at hparts hsep
  generalize ending l = e at hparts hsep ⊢
  subst hparts
  rcases hsep with ⟨rfl, hb⟩ | ⟨rfl, -⟩ | rfl
  · simp [hb]
  · simp
  · simp

/-- **The body of a raw line has no line feed** just when the line has none but as its last
character. -/
theorem newline_not_mem_body_iff {l : Text} : '\n' ∉ body l ↔ '\n' ∉ l.dropLast := by
  have hparts := body_append_ending l
  have hsep := separable_cut l
  generalize body l = b at hparts hsep ⊢
  generalize ending l = e at hparts hsep
  subst hparts
  rcases hsep with ⟨rfl, hb⟩ | ⟨rfl, -⟩ | rfl
  · -- Without a terminator the last character belongs to the body, and is no line feed.
    rcases List.eq_nil_or_concat b with rfl | ⟨b, c, rfl⟩
    · simp
    · have hc : '\n' ≠ c := by simpa using Ne.symm hb
      simp [hc]
  · simp
  · simp

/-! ## Documents -/

/-- **The lines of a cut document**: each holds one line feed at most, as its last character, and
only the last line may do without. -/
inductive IsCut : List Text → Prop
  /-- The empty document. -/
  | nil : IsCut []
  /-- The last line. -/
  | last {l : Text} : l ≠ [] → '\n' ∉ body l → IsCut [l]
  /-- A line with its terminator, and more. -/
  | cons {l : Text} {ls : List Text} : '\n' ∉ body l → ending l ≠ [] → IsCut ls → IsCut (l :: ls)

/-- Line feeds stand in terminators only. -/
theorem IsCut.newline_not_mem_body {ls : List Text} (h : IsCut ls) : ∀ l ∈ ls, '\n' ∉ body l := by
  induction h with
  | nil => simp
  | last _ hb => simpa using hb
  | cons hb _ _ ih => simpa [hb] using ih

/-- A terminated line ends in a line feed. -/
theorem exists_of_ending_ne_nil {l : Text} (hb : '\n' ∉ body l) (he : ending l ≠ []) :
    ∃ b, '\n' ∉ b ∧ l = b ++ ['\n'] := by
  have hparts := body_append_ending l
  have hmem := ending_mem l
  simp only [List.mem_cons, List.not_mem_nil, or_false] at hmem
  rcases hmem with hnil | hlf | hcrlf
  · exact absurd hnil he
  · exact ⟨body l, hb, by rw [← hlf, hparts]⟩
  · refine ⟨body l ++ ['\r'], by simp [hb], ?_⟩
    rw [List.append_assoc, List.singleton_append, ← hcrlf, hparts]

/-- **Cutting ends the first line behind the first line feed.** -/
theorem split_append {b : Text} (hb : '\n' ∉ b) (t : Text) :
    split (b ++ '\n' :: t) = (b ++ ['\n']) :: split t := by
  induction b with
  | nil => rw [List.nil_append, split_cons, push_newline, List.nil_append]
  | cons c b ih =>
      obtain ⟨hc, hb⟩ : '\n' ≠ c ∧ '\n' ∉ b := by simpa using hb
      rw [List.cons_append, split_cons, ih hb, push_cons hc.symm, List.cons_append]

/-- A text without line feeds is one line. -/
theorem split_of_not_mem {b : Text} (hne : b ≠ []) (hb : '\n' ∉ b) : split b = [b] := by
  induction b with
  | nil => exact absurd rfl hne
  | cons c b ih =>
      obtain ⟨hc, hb⟩ : '\n' ≠ c ∧ '\n' ∉ b := by simpa using hb
      rw [split_cons]
      cases b with
      | nil => rw [split_nil, push_nil hc.symm]
      | cons d ds => rw [ih (List.cons_ne_nil d ds) hb, push_cons hc.symm]

/-- **Lines of a cut document, put together, are cut into the same lines.** -/
theorem split_flatten {ls : List Text} (h : IsCut ls) : split ls.flatten = ls := by
  induction h with
  | nil => rfl
  | @last l hne hb =>
      rw [List.flatten_cons, List.flatten_nil, List.append_nil]
      -- The last line may end without a terminator.
      by_cases he : ending l = []
      · have hl : body l = l := by simpa [he] using body_append_ending l
        exact split_of_not_mem hne (hl ▸ hb)
      · obtain ⟨b, hb', rfl⟩ := exists_of_ending_ne_nil hb he
        rw [split_append hb', split_nil]
  | @cons l ls hb he _ ih =>
      obtain ⟨b, hb', rfl⟩ := exists_of_ending_ne_nil hb he
      rw [List.flatten_cons, List.append_assoc, List.singleton_append, split_append hb', ih]

/-- One character in front of a line leaves its terminator, and comes to its body or, as a carriage
return, to its terminator. -/
theorem not_mem_body_cons {c : Char} {l : Text} (hc : c ≠ '\n') (hb : '\n' ∉ body l) :
    '\n' ∉ body (c :: l) ∧ (ending l ≠ [] → ending (c :: l) ≠ []) := by
  by_cases hcrlf : c :: l = ['\r', '\n']
  · rw [hcrlf]
    exact ⟨by decide, fun _ => by decide⟩
  · have hlf : c :: l ≠ ['\n'] := by
      intro h
      exact hc (List.cons.inj h).1
    have hcut : cut (c :: l) = (c :: body l, ending l) := cut_cons hlf hcrlf
    obtain ⟨hbody, hending⟩ := body_ending_of_cut hcut
    rw [hbody, hending]
    exact ⟨by simp [hc.symm, hb], id⟩

/-- **A document is cut into the lines of a cut document.** -/
theorem isCut_split (t : Text) : IsCut (split t) := by
  induction t with
  | nil => exact .nil
  | cons c t ih =>
      rw [split_cons]
      by_cases hc : c = '\n'
      · rw [hc, push_newline]
        exact .cons (by decide) (by decide) ih
      · cases hlines : split t with
        | nil =>
            rw [push_nil hc]
            exact .last (List.cons_ne_nil c []) (not_mem_body_cons hc (by decide)).1
        | cons l ls =>
            -- The character goes to the first line, which stays what it was in the document.
            rw [push_cons hc]
            rw [hlines] at ih
            cases ih with
            | last _ hb => exact .last (List.cons_ne_nil c l) (not_mem_body_cons hc hb).1
            | cons hb he hls =>
                obtain ⟨hb', he'⟩ := not_mem_body_cons hc hb
                exact .cons hb' (he' he) hls

/-- **The lines of a cut document, by their characters**: none is empty or holds a line feed but as
its last character, and all but the last have one there. -/
theorem isCut_iff {ls : List Text} :
    IsCut ls ↔ (∀ l ∈ ls, l ≠ [] ∧ '\n' ∉ l.dropLast) ∧
      ∀ l ∈ ls.dropLast, l.getLast? = some '\n' := by
  constructor
  · intro h
    induction h with
    | nil => simp
    | last hne hb => simpa using ⟨hne, newline_not_mem_body_iff.mp hb⟩
    | @cons l ls hb he _ ih =>
        obtain ⟨hlines, hends⟩ := ih
        have hne : l ≠ [] := by
          rintro rfl
          exact he rfl
        refine ⟨?_, ?_⟩
        · rw [List.forall_mem_cons]
          exact ⟨⟨hne, newline_not_mem_body_iff.mp hb⟩, hlines⟩
        · cases ls with
          | nil => simp
          | cons k ks =>
              rw [List.dropLast_cons_cons, List.forall_mem_cons]
              exact ⟨ending_ne_nil_iff.mp he, hends⟩
  · rintro ⟨hlines, hends⟩
    induction ls with
    | nil => exact .nil
    | cons l ls ih =>
        obtain ⟨⟨hne, hnot⟩, hlines⟩ := List.forall_mem_cons.mp hlines
        have hb : '\n' ∉ body l := newline_not_mem_body_iff.mpr hnot
        cases ls with
        | nil => exact .last hne hb
        | cons k ks =>
            rw [List.dropLast_cons_cons, List.forall_mem_cons] at hends
            exact .cons hb (ending_ne_nil_iff.mpr hends.1) (ih hlines hends.2)

/-- **Lines are cut out of the document that they make** just when they are the lines of a cut
document. -/
theorem split_flatten_iff {ls : List Text} : split ls.flatten = ls ↔ IsCut ls :=
  ⟨fun h => h ▸ isCut_split ls.flatten, split_flatten⟩

/-- **A document ends in a line feed** when its last line has a terminator. -/
theorem getLast?_flatten_iff {ls : List Text} (h : IsCut ls) :
    ls.flatten.getLast? = some '\n' ↔ ∃ l, ls.getLast? = some l ∧ ending l ≠ [] := by
  rcases List.eq_nil_or_concat ls with rfl | ⟨front, l, rfl⟩
  · simp
  · rw [List.concat_eq_append] at h ⊢
    have hne : l ≠ [] := ((isCut_iff.mp h).1 l (by simp)).1
    have hlast : (front.flatten ++ l).getLast? = l.getLast? := by
      rw [List.getLast?_append, Option.or_of_isSome (by simpa using hne)]
    rw [List.flatten_append, List.flatten_singleton, hlast, ← ending_ne_nil_iff]
    simp

end Lines

end LocaleWrap
