import LocaleWrap.Text.Basic

/-! # Pieces of a text

Cutting a text at a separator and joining texts with it undo each other, as long as the texts are
free of the separator.

* `pieces_append` — a text with a separator in it is cut there.
* `pieces_joinWith` — joined texts are cut into what was joined; `not_mem_of_mem_pieces` says that
  every piece is such a text.
* `mem_iff_exists_mem_pieces` — the characters of a text are those of its pieces.
* `joinWith_append`, `joinWith_concat` — joining in two parts, and before the last text. -/

namespace LocaleWrap.Text

variable {c : Char} {t : Text}

/-- Cutting a text into pieces is splitting a list. -/
theorem pieces_eq_splitOn (c : Char) (t : Text) : pieces c t = t.splitOn c := by
  induction t with
  | nil => rfl
  | cons d t ih =>
      rw [List.splitOn_cons_eq_if_modifyHead, ← ih]
      by_cases hd : d = c
      · rw [hd, pieces_cons_self, if_pos (beq_self_eq_true c)]
      · obtain ⟨p, ps, htail, hwhole⟩ := pieces_cons_of_ne hd t
        rw [if_neg (by simpa using hd), hwhole, htail, List.modifyHead_cons]

/-- Joining with a separator is putting a list between lists. -/
theorem joinWith_eq_intercalate (sep : Text) (ts : List Text) :
    joinWith sep ts = sep.intercalate ts := by
  fun_induction joinWith sep ts <;> simp_all

/-- **A text with a separator in it** is cut there. -/
theorem pieces_append (c : Char) (s t : Text) :
    pieces c (s ++ c :: t) = pieces c s ++ pieces c t := by
  rw [pieces_eq_splitOn, pieces_eq_splitOn, pieces_eq_splitOn, List.splitOn_append_cons_self]

/-- **Cutting joined texts** gives them back. -/
theorem pieces_joinWith {ts : List Text} (h : ∀ t ∈ ts, c ∉ t) (hne : ts ≠ []) :
    pieces c (joinWith [c] ts) = ts := by
  rw [pieces_eq_splitOn, joinWith_eq_intercalate, List.splitOn_intercalate c h hne]

/-- **No separator is left** in a piece. -/
theorem not_mem_of_mem_pieces {p : Text} (h : p ∈ pieces c t) : c ∉ p := by
  induction t generalizing p with
  | nil =>
      rw [pieces_nil, List.mem_singleton] at h
      rw [h]
      exact List.not_mem_nil
  | cons d t ih =>
      by_cases hd : d = c
      · rw [hd, pieces_cons_self, List.mem_cons] at h
        rcases h with rfl | h
        · exact List.not_mem_nil
        · exact ih h
      · obtain ⟨q, qs, htail, hwhole⟩ := pieces_cons_of_ne hd t
        rw [hwhole, List.mem_cons] at h
        rcases h with rfl | h
        · rw [List.mem_cons, not_or]
          exact ⟨fun hcd => hd hcd.symm, ih (htail ▸ List.mem_cons_self)⟩
        · exact ih (htail ▸ List.mem_cons_of_mem q h)

/-- **The characters of a text**, apart from the separator, are those of its pieces. -/
theorem mem_iff_exists_mem_pieces {d : Char} (hd : d ≠ c) :
    d ∈ t ↔ ∃ p ∈ pieces c t, d ∈ p := by
  induction t with
  | nil => simp
  | cons b t ih =>
      by_cases hb : b = c
      · simp [hb, pieces_cons_self, hd, ih]
      · obtain ⟨p, ps, htail, hwhole⟩ := pieces_cons_of_ne hb t
        rw [htail] at ih
        simp [hwhole, ih, or_assoc]

/-- **Joining in two parts.** -/
theorem joinWith_append (sep : Text) {ss ts : List Text} (hs : ss ≠ []) (ht : ts ≠ []) :
    joinWith sep (ss ++ ts) = joinWith sep ss ++ sep ++ joinWith sep ts := by
  induction ss with
  | nil => exact absurd rfl hs
  | cons u us ih =>
      cases us with
      | nil =>
          obtain ⟨v, vs, rfl⟩ := List.exists_cons_of_ne_nil ht
          rfl
      | cons v vs =>
          rw [List.cons_append, List.cons_append, joinWith_cons_cons, ← List.cons_append,
            ih (List.cons_ne_nil v vs), joinWith_cons_cons]
          simp only [List.append_assoc]

/-- **Joining before the last text**: each text in front of it is followed by the separator. -/
theorem joinWith_concat (sep : Text) (ts : List Text) (t : Text) :
    joinWith sep (ts ++ [t]) = ts.flatMap (· ++ sep) ++ t := by
  induction ts with
  | nil => rfl
  | cons u us ih =>
      rw [List.cons_append, List.flatMap_cons, List.append_assoc, ← ih]
      cases us with
      | nil => rfl
      | cons v vs => rfl

end LocaleWrap.Text
