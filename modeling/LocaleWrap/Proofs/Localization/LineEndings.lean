import LocaleWrap.Proofs.Localization.Idempotence

/-! # Line endings

The pass looks at the bodies of lines only. It neither moves the end of a line nor changes how it is
written, and what it does is the same for every way of writing it.

* `Rules.map_ending_localizeEach` — every line keeps its terminator.
* `Rules.localizeEach_congr` — the edits depend on the bodies of the lines alone.
* `Rules.split_inverse_flatten` — cutting a document and putting lines together, before the pass
  and after it.
* **`Lines.toCrlf`** — a document with a carriage return before each line feed; `split_toCrlf` and
  `cut_toCrlf` say what its lines are.
* `Rules.localizeLines_endings` — the pass over lines with other terminators, and over a document
  with carriage returns. -/

namespace LocaleWrap

namespace Rules

variable {rules : Rules} {before before' : Option Text} {raw raw' : Text}

/-! ## Terminators are kept -/

/-- An edit keeps the terminator of its line. -/
theorem ending_applied_edit (rules : Rules) (before : Option Text) (raw : Text) :
    Lines.ending (Edit.applied raw (rules.edit before raw)) = Lines.ending raw := by
  cases he : rules.edit before raw with
  | none => rfl
  | some e => exact (cut_applied_edit he).2

/-- Behind an edit the body of the line is the text that the edit gives; without one it is as it
was. -/
theorem body_applied_edit (rules : Rules) (before : Option Text) (raw : Text) :
    Lines.body (Edit.applied raw (rules.edit before raw)) =
      (rules.edit before raw).elim (Lines.body raw) Edit.after := by
  cases he : rules.edit before raw with
  | none => rfl
  | some e => exact (cut_applied_edit he).1

/-- **Every line keeps its terminator.** -/
theorem map_ending_localizeEach (rules : Rules) (before : Option Text) (index : Nat)
    (lines : List Text) :
    (rules.localizeEach before index lines).lines.map Lines.ending = lines.map Lines.ending := by
  induction lines generalizing before index with
  | nil => rfl
  | cons raw rest ih =>
      rw [localizeEach, Localized.put, List.map_cons, List.map_cons, ending_applied_edit, ih]

/-- Localizing keeps the terminators of all lines. -/
theorem map_ending_localizeLines (rules : Rules) (lines : List Text) :
    (rules.localizeLines lines).lines.map Lines.ending = lines.map Lines.ending := by
  rw [localizeLines_eq_localizeEach]
  exact map_ending_localizeEach rules none 0 lines

/-- The localized document ends in a line feed when the document does. -/
theorem getLast?_text_localize_iff (rules : Rules) (text : Text) :
    (rules.localize text).text.getLast? = some '\n' ↔ text.getLast? = some '\n' := by
  have hin := Lines.isCut_split text
  have hout : Lines.IsCut (rules.localize text).lines := by
    rw [← split_text_localize]
    exact Lines.isCut_split _
  have hlast : (rules.localize text).lines.getLast?.map Lines.ending =
      (Lines.split text).getLast?.map Lines.ending := by
    rw [← List.getLast?_map, ← List.getLast?_map, localize, map_ending_localizeLines]
  have hends : ∀ {ls : List Text}, Lines.IsCut ls →
      (ls.flatten.getLast? = some '\n' ↔ ∃ e, ls.getLast?.map Lines.ending = some e ∧ e ≠ []) := by
    intro ls h
    rw [Lines.getLast?_flatten_iff h]
    simp
  rw [Localized.text, hends hout, hlast, ← hends hin, Lines.flatten_split]

/-- **Cutting a document and putting lines together are inverse**, before the pass and after it.
The lines that a document is cut into make the document. Lines are cut out of the document that they
make just when none is empty or holds a line feed but as its last character, and all but the last
have one there. And the text that comes out of the pass is cut into the lines that come out: as many
as went in, each the line that went in after its edit, with the terminator that it had; so both
texts end in a line feed, or neither. -/
theorem split_inverse_flatten (rules : Rules) :
    (∀ text, (Lines.split text).flatten = text) ∧
    (∀ lines, Lines.split lines.flatten = lines ↔
      (∀ l ∈ lines, l ≠ [] ∧ '\n' ∉ l.dropLast) ∧
        ∀ l ∈ lines.dropLast, l.getLast? = some '\n') ∧
    ∀ text,
      Lines.split (rules.localize text).text = (rules.localize text).lines ∧
      (Lines.split (rules.localize text).text).length = (Lines.split text).length ∧
      (∀ i, (Lines.split (rules.localize text).text)[i]? = (Lines.split text)[i]?.map fun raw =>
        Edit.applied raw (rules.edit (lineBefore none (Lines.split text) i) raw)) ∧
      (Lines.split (rules.localize text).text).map Lines.ending =
        (Lines.split text).map Lines.ending ∧
      ((rules.localize text).text.getLast? = some '\n' ↔ text.getLast? = some '\n') := by
  refine ⟨Lines.flatten_split, ?_, ?_⟩
  · intro lines
    rw [Lines.split_flatten_iff, Lines.isCut_iff]
  · intro text
    rw [split_text_localize]
    refine ⟨rfl, length_lines_localizeFrom rules 0 (Lines.split text), ?_,
      map_ending_localizeLines rules (Lines.split text), getLast?_text_localize_iff rules text⟩
    intro i
    rw [localize, localizeLines_eq_localizeEach, getElem?_lines_localizeEach]

/-- A blank line, a line that ends in a stray carriage return, and one that is only a terminator. -/
theorem split_inverse_flatten_stray_return :
    Lines.split ["  \r\r\n".toList, "\n".toList, " 'a'\r".toList].flatten =
      ["  \r\r\n".toList, "\n".toList, " 'a'\r".toList] :=
  ((split_inverse_flatten standard).2.1 _).mpr (by decide)

/-! ## The pass does not look at terminators -/

/-- **The edit of a line** depends on its body and on that of the line before. -/
theorem edit_congr_body (hbefore : before.map Lines.body = before'.map Lines.body)
    (hraw : Lines.body raw = Lines.body raw') :
    rules.edit before raw = rules.edit before' raw' := by
  have hheader : ∀ before : Option Text, rules.isHeader before =
      (before.map Lines.body).any fun body => (rules.classify body).role == .fieldHeader := by
    intro before
    cases before <;> rfl
  rw [edit, edit, hheader before, hheader before', hbefore, hraw]

/-- **Lines with the same bodies** have the same changes, and come out with the same bodies. -/
theorem localizeEach_congr (rules : Rules) (index : Nat) {lines lines' : List Text}
    (hbefore : before.map Lines.body = before'.map Lines.body)
    (hlines : lines.map Lines.body = lines'.map Lines.body) :
    (rules.localizeEach before index lines).changes =
        (rules.localizeEach before' index lines').changes ∧
      (rules.localizeEach before index lines).lines.map Lines.body =
        (rules.localizeEach before' index lines').lines.map Lines.body := by
  induction lines generalizing before before' index lines' with
  | nil =>
      obtain rfl : lines' = [] := by simpa using hlines.symm
      exact ⟨rfl, rfl⟩
  | cons raw rest ih =>
      cases lines' with
      | nil => cases hlines
      | cons raw' rest' =>
          obtain ⟨hraw, hrest⟩ := List.cons.inj hlines
          have hedit : rules.edit before raw = rules.edit before' raw' :=
            edit_congr_body hbefore hraw
          have hentry : Edit.entry index raw = Edit.entry index raw' := by
            funext e
            rw [Edit.entry, Edit.entry, hraw]
          have hnext : (some raw).map Lines.body = (some raw').map Lines.body := congrArg some hraw
          obtain ⟨hchanges, hbodies⟩ := ih (index + 1) hnext hrest
          rw [localizeEach, localizeEach, Localized.put, Localized.put]
          constructor
          · rw [hedit, hentry, hchanges]
          · rw [List.map_cons, List.map_cons, body_applied_edit, body_applied_edit, hedit, hraw,
              hbodies]

/-- Lines with the same bodies give the same ledger and, again, lines with the same bodies. -/
theorem localizeLines_congr (rules : Rules) {lines lines' : List Text}
    (h : lines.map Lines.body = lines'.map Lines.body) :
    (rules.localizeLines lines).changes = (rules.localizeLines lines').changes ∧
      (rules.localizeLines lines).lines.map Lines.body =
        (rules.localizeLines lines').lines.map Lines.body := by
  rw [localizeLines_eq_localizeEach, localizeLines_eq_localizeEach]
  exact localizeEach_congr rules 0 rfl h

end Rules

/-! ## Carriage returns before line feeds -/

namespace Lines

/-- **A document with a carriage return before each line feed.** -/
def toCrlf (t : Text) : Text := t.flatMap fun c => if c = '\n' then ['\r', '\n'] else [c]

/-- Converting two texts in a row converts each of them. -/
theorem toCrlf_append (s t : Text) : toCrlf (s ++ t) = toCrlf s ++ toCrlf t := List.flatMap_append

/-- A line feed becomes a carriage return and a line feed. -/
theorem toCrlf_newline (t : Text) : toCrlf ('\n' :: t) = '\r' :: '\n' :: toCrlf t := rfl

/-- Any other character stays as it is. -/
theorem toCrlf_cons {c : Char} (h : c ≠ '\n') (t : Text) : toCrlf (c :: t) = c :: toCrlf t := by
  simp [toCrlf, h]

/-- A text without line feeds stays as it is. -/
theorem toCrlf_of_not_mem {t : Text} (h : '\n' ∉ t) : toCrlf t = t := by
  induction t with
  | nil => rfl
  | cons c t ih =>
      obtain ⟨hc, ht⟩ : '\n' ≠ c ∧ '\n' ∉ t := by simpa using h
      rw [toCrlf_cons hc.symm, ih ht]

/-- Converting joined lines converts each of them. -/
theorem toCrlf_flatten (ls : List Text) : toCrlf ls.flatten = (ls.map toCrlf).flatten := by
  induction ls with
  | nil => rfl
  | cons l ls ih => rw [List.flatten_cons, toCrlf_append, ih, List.map_cons, List.flatten_cons]

/-- **The lines of a document with carriage returns** are the lines of the document with them. -/
theorem split_toCrlf (t : Text) : split (toCrlf t) = (split t).map toCrlf := by
  induction t with
  | nil => rfl
  | cons c t ih =>
      by_cases hc : c = '\n'
      · rw [hc, toCrlf_newline, split_cons, split_cons, push_newline,
          push_cons (by decide), split_cons, push_newline, List.map_cons, ih]
        rfl
      · rw [toCrlf_cons hc, split_cons, split_cons, ih]
        cases split t with
        | nil => rw [List.map_nil, push_nil hc, List.map_singleton, toCrlf_cons hc]; rfl
        | cons l ls => rw [List.map_cons, push_cons hc, push_cons hc, List.map_cons, toCrlf_cons hc]

/-- A line with a carriage return before its line feed has the body of the line, and its terminator
with the carriage return. -/
theorem toCrlf_eq {l : Text} (hb : '\n' ∉ body l) : toCrlf l = body l ++ toCrlf (ending l) := by
  conv_lhs => rw [← body_append_ending l]
  rw [toCrlf_append, toCrlf_of_not_mem hb]

/-- **The body of a line is found again** in the line with a carriage return, unless there has been
one already. -/
theorem cut_toCrlf {l : Text} (hb : '\n' ∉ body l) (hr : '\r' ∉ l) :
    cut (toCrlf l) = (body l, toCrlf (ending l)) := by
  rw [toCrlf_eq hb]
  refine cut_append ?_
  rcases separable_cut l with ⟨he, hlast⟩ | ⟨he, -⟩ | he
  · exact Or.inl ⟨by rw [he]; rfl, hlast⟩
  · exact Or.inr (Or.inr (by rw [he]; rfl))
  · refine absurd ?_ hr
    rw [← body_append_ending l, he]
    simp

end Lines

namespace Rules

/-- **Carriage returns come through the pass**: the document with them has the changes of the
document without them, and the text that comes out is the same but for them. -/
theorem localize_toCrlf (rules : Rules) {text : Text} (h : '\r' ∉ text) :
    (rules.localize (Lines.toCrlf text)).changes = (rules.localize text).changes ∧
      (rules.localize (Lines.toCrlf text)).text = Lines.toCrlf (rules.localize text).text := by
  have hcut : ∀ l ∈ Lines.split text,
      Lines.cut (Lines.toCrlf l) = (Lines.body l, Lines.toCrlf (Lines.ending l)) := by
    intro l hl
    refine Lines.cut_toCrlf ((Lines.isCut_split text).newline_not_mem_body l hl) fun hr => h ?_
    rw [← Lines.flatten_split text]
    exact List.mem_flatten.mpr ⟨l, hl, hr⟩
  have hbodies : ((Lines.split text).map Lines.toCrlf).map Lines.body =
      (Lines.split text).map Lines.body := by
    rw [List.map_map]
    exact List.map_congr_left fun l hl => (Lines.body_ending_of_cut (hcut l hl)).1
  have hendings : ((Lines.split text).map Lines.toCrlf).map Lines.ending =
      ((Lines.split text).map Lines.ending).map Lines.toCrlf := by
    rw [List.map_map, List.map_map]
    exact List.map_congr_left fun l hl => (Lines.body_ending_of_cut (hcut l hl)).2
  obtain ⟨hchanges, hout⟩ := localizeLines_congr rules hbodies
  refine ⟨by rw [localize, Lines.split_toCrlf, hchanges, localize], ?_⟩
  -- The lines that come out have the bodies of the one pass and the terminators of the other.
  have hjoin : ∀ ls : List Text, List.zipWith (· ++ ·) (ls.map Lines.body) (ls.map Lines.ending) =
      ls := by
    intro ls
    simp [List.zipWith_map, List.zipWith_self]
  have hlines : (rules.localizeLines ((Lines.split text).map Lines.toCrlf)).lines =
      (rules.localize text).lines.map Lines.toCrlf := by
    have hcutOut := Lines.isCut_split (rules.localize text).text
    rw [split_text_localize] at hcutOut
    rw [← hjoin (rules.localizeLines _).lines, hout, map_ending_localizeLines, hendings,
      ← map_ending_localizeLines rules (Lines.split text), List.map_map, List.zipWith_map,
      List.zipWith_self]
    refine List.map_congr_left fun l hl => ?_
    exact (Lines.toCrlf_eq (hcutOut.newline_not_mem_body l hl)).symm
  rw [Localized.text, localize, Lines.split_toCrlf, hlines, ← Lines.toCrlf_flatten, Localized.text]

/-- **The pass does not look at terminators.** Lines with the same bodies have the same changes and
come out with the same bodies, each with the terminator that it went in with. So a document without
carriage returns has the same changes when it is written with them, and the text that comes out is
then written with them too. -/
theorem localizeLines_endings (rules : Rules) :
    (∀ lines lines', lines.map Lines.body = lines'.map Lines.body →
      (rules.localizeLines lines).changes = (rules.localizeLines lines').changes ∧
      (rules.localizeLines lines).lines.map Lines.body =
        (rules.localizeLines lines').lines.map Lines.body ∧
      (rules.localizeLines lines).lines.map Lines.ending = lines.map Lines.ending ∧
      (rules.localizeLines lines').lines.map Lines.ending = lines'.map Lines.ending) ∧
    ∀ text, '\r' ∉ text →
      (rules.localize (Lines.toCrlf text)).changes = (rules.localize text).changes ∧
      (rules.localize (Lines.toCrlf text)).text = Lines.toCrlf (rules.localize text).text := by
  constructor
  · intro lines lines' h
    obtain ⟨hchanges, hbodies⟩ := localizeLines_congr rules h
    exact ⟨hchanges, hbodies, map_ending_localizeLines rules lines,
      map_ending_localizeLines rules lines'⟩
  · intro text h
    exact localize_toCrlf rules h

/-- A deferred value with a stray carriage return, before one terminator and before another; and a
document that is written with carriage returns. -/
theorem localizeLines_endings_mixed :
    (["  setup:\r\n", " 'a'\r"].map String.toList).map Lines.body =
      (["  setup:\n", " 'a'\r\r\n"].map String.toList).map Lines.body ∧
    (standard.localizeLines (["  setup:\r\n", " 'a'\r"].map String.toList)).changes =
      [⟨2, .fieldHeader, " 'a'\r".toList, (" " ++ braced " en: 'a' " ++ "\r").toList⟩] ∧
    (standard.localizeLines (["  setup:\n", " 'a'\r\r\n"].map String.toList)).changes =
      [⟨2, .fieldHeader, " 'a'\r".toList, (" " ++ braced " en: 'a' " ++ "\r").toList⟩] ∧
    '\r' ∉ "  setup:\n 'a'\n".toList ∧
    (standard.localize (Lines.toCrlf "  setup:\n 'a'\n".toList)).text =
      Lines.toCrlf ("  setup:\n " ++ braced " en: 'a' " ++ "\n").toList := by
  have hbodies : (["  setup:\r\n", " 'a'\r"].map String.toList).map Lines.body =
      (["  setup:\n", " 'a'\r\r\n"].map String.toList).map Lines.body := by cbv
  have hchanges : (standard.localizeLines (["  setup:\r\n", " 'a'\r"].map String.toList)).changes =
      [⟨2, .fieldHeader, " 'a'\r".toList, (" " ++ braced " en: 'a' " ++ "\r").toList⟩] := by cbv
  have htext : (standard.localize "  setup:\n 'a'\n".toList).text =
      ("  setup:\n " ++ braced " en: 'a' " ++ "\n").toList := by cbv
  obtain ⟨hlines, hcrlf⟩ := localizeLines_endings standard
  have hfree : '\r' ∉ "  setup:\n 'a'\n".toList := by decide
  refine ⟨hbodies, hchanges, ?_, hfree, ?_⟩
  · rw [← (hlines _ _ hbodies).1, hchanges]
  · rw [(hcrlf _ hfree).2, htext]

end Rules

end LocaleWrap
