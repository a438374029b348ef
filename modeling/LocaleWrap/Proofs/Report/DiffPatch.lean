import LocaleWrap.Proofs.Localization.LineEndings
import LocaleWrap.Proofs.Text.Pieces
import LocaleWrap.Report.Document

/-! # Diffs as patches

A diff is read back and applied to the document that it was made from. What comes out is the
localized document, except that a diff ends without blanks and so loses those of its last line.

* **`Diff.Hunk`** — what a diff says of a line, and **`Hunk.rows`** how it says so.
* **`Diff.parse?`** — reads a diff; by `parse?_eq_some_iff` it reads the rows of hunks and nothing
  else.
* **`Diff.shown`** — the hunks that a rendered ledger shows; `pieces_render` says that its rows are
  theirs.
* **`Hunk.patch?`**, **`Diff.patch?`** — a document with the lines of a diff in place of its own.
* `Rules.foldlM_patch?_localizeEach` — the hunks of a pass lead to the lines that come out of it.
* `Report.diff_patches` — the diff in the report on a localized document. -/

namespace LocaleWrap

namespace Lines

/-! ## Blanks at the end of a line -/

/-- A raw line without the blanks in front of its terminator. -/
def trimBody (raw : Text) : Text := Text.trimEnd (body raw) ++ ending raw

/-- Trimming changes a raw line exactly when its body ends in white space. -/
theorem trimBody_eq_self_iff {raw : Text} :
    trimBody raw = raw ↔ Text.trimEnd (body raw) = body raw := by
  conv_lhs => rhs; rw [← body_append_ending raw]
  rw [trimBody, List.append_cancel_right_eq]

/-- Changing a line changes the document. -/
theorem flatten_modify_eq_iff {ls : List Text} {i : Nat} {l : Text} (h : ls[i]? = some l)
    (f : Text → Text) : (ls.modify i f).flatten = ls.flatten ↔ f l = l := by
  obtain ⟨hi, rfl⟩ := List.getElem?_eq_some_iff.mp h
  have hflatten : ls.flatten = (ls.take i ++ ls[i] :: ls.drop (i + 1)).flatten := by
    rw [List.getElem_cons_drop, List.take_append_drop]
  rw [List.modify_eq_take_cons_drop hi, hflatten, List.flatten_append, List.flatten_append,
    List.flatten_cons, List.flatten_cons, List.append_cancel_left_eq, List.append_cancel_right_eq]

end Lines

namespace Diff

/-! ## Hunks -/

/-- **What a diff says of a line**: its number, and its text before and after. -/
structure Hunk where
  line : Nat
  before : Text
  after : Text
  deriving DecidableEq, Repr

namespace Hunk

/-- The hunk of a change. The rule is not shown. -/
def ofChange (c : Change) : Hunk := ⟨c.line, c.before, c.after⟩

/-- A hunk without the blanks at its end. -/
def trimmed (h : Hunk) : Hunk := { h with after := Text.trimEnd h.after }

/-- The row that begins a hunk for the line with the given number. -/
def header (n : Nat) : Text := "@@ ".toList ++ digits n ++ " @@".toList

/-- **A hunk in three rows.** -/
def rows (h : Hunk) : List Text := [header h.line, '-' :: h.before, '+' :: h.after]

/-- The number in a row that begins a hunk. -/
def lineNumber? (row : Text) : Option Nat :=
  let n := Nat.ofDigitChars 10 ((row.drop 3).takeWhile Char.isDigit) 0
  if row = header n then some n else none

/-- A number is read from the header with that number, and from nothing else. -/
theorem lineNumber?_eq_some_iff {row : Text} {n : Nat} :
    lineNumber? row = some n ↔ row = header n := by
  constructor
  · intro h
    rw [lineNumber?, Option.ite_none_right_eq_some] at h
    obtain ⟨hrow, hn⟩ := h
    rw [hrow, Option.some.inj hn]
  · rintro rfl
    have hdigits : ∀ d ∈ digits n, d.isDigit = true :=
      fun d hd => Nat.isDigit_of_mem_toDigits (by decide) (by decide) hd
    have hrest : (header n).drop 3 = digits n ++ " @@".toList := rfl
    have hstop : " @@".toList.takeWhile Char.isDigit = [] := by decide
    have hread : Nat.ofDigitChars 10 (((header n).drop 3).takeWhile Char.isDigit) 0 = n := by
      rw [hrest, List.takeWhile_append_of_pos hdigits, hstop, List.append_nil]
      exact Nat.ofDigitChars_toDigits (by decide) (by decide)
    rw [lineNumber?, hread, if_pos rfl]

/-- A row without the mark in front of it. -/
def unmark? (mark : Char) : Text → Option Text
  | [] => none
  | c :: t => if c = mark then some t else none

/-- A row has a text behind a mark exactly when it is the mark and the text. -/
theorem unmark?_eq_some_iff {mark : Char} {row t : Text} :
    unmark? mark row = some t ↔ row = mark :: t := by
  cases row <;> simp [unmark?]

/-- Three rows as a hunk. -/
def ofRows? (first second third : Text) : Option Hunk := do
  let n ← lineNumber? first
  let before ← unmark? '-' second
  let after ← unmark? '+' third
  return ⟨n, before, after⟩

/-- Three rows are read as a hunk exactly when they are its rows. -/
theorem ofRows?_eq_some_iff {first second third : Text} {h : Hunk} :
    ofRows? first second third = some h ↔ [first, second, third] = h.rows := by
  simp only [ofRows?, Option.bind_eq_bind, Option.bind_eq_some_iff, Option.pure_def,
    Option.some_inj, lineNumber?_eq_some_iff, unmark?_eq_some_iff]
  constructor
  · rintro ⟨n, rfl, before, rfl, after, rfl, rfl⟩
    rfl
  · intro hrows
    obtain ⟨rfl, rfl, rfl⟩ : first = header h.line ∧ second = '-' :: h.before ∧
        third = '+' :: h.after := by simpa [rows] using hrows
    exact ⟨h.line, rfl, h.before, rfl, h.after, rfl, rfl⟩

/-- Rows, three at a time, as hunks. -/
def allOfRows? : List Text → Option (List Hunk)
  | [] => some []
  | first :: second :: third :: rest => do
    let h ← ofRows? first second third
    let hs ← allOfRows? rest
    return h :: hs
  | _ => none

/-- Rows are read as hunks exactly when they are the rows of these hunks in turn. -/
theorem allOfRows?_eq_some_iff {ts : List Text} {hs : List Hunk} :
    allOfRows? ts = some hs ↔ ts = hs.flatMap rows := by
  fun_induction allOfRows? ts generalizing hs with
  | case1 => cases hs <;> simp [rows]
  | case2 first second third rest ih =>
      simp only [Option.bind_eq_bind, Option.bind_eq_some_iff, Option.pure_def, Option.some_inj,
        ofRows?_eq_some_iff, ih]
      constructor
      · rintro ⟨h, hrows, hs, rfl, rfl⟩
        rw [List.flatMap_cons, ← hrows]
        rfl
      · intro hts
        cases hs with
        | nil => cases hts
        | cons h hs =>
            obtain ⟨hrows, hrest⟩ : [first, second, third] = h.rows ∧ rest = hs.flatMap rows :=
              List.append_inj hts rfl
            exact ⟨h, hrows, hs, hrest, rfl⟩
  | case3 ts hnil hcons =>
      -- No list of hunks has one row or two.
      refine iff_of_false (by simp) ?_
      rintro rfl
      cases hs with
      | nil => exact hnil rfl
      | cons h hs => exact hcons _ _ _ _ rfl

end Hunk

/-- **Reads a diff**: every row must have its place in a hunk. -/
def parse? (diff : Text) : Option (List Hunk) := Hunk.allOfRows? (Text.pieces '\n' diff)

/-- **A diff is read** as the hunks whose rows it consists of. -/
theorem parse?_eq_some_iff {diff : Text} {hs : List Hunk} :
    parse? diff = some hs ↔ Text.pieces '\n' diff = hs.flatMap Hunk.rows :=
  Hunk.allOfRows?_eq_some_iff

/-! ## Rendered ledgers -/

/-- **The hunks that a rendered ledger shows**: those of its changes, the last one without the
blanks at its end. -/
def shown (front : List Change) (last : Change) : List Hunk :=
  front.map Hunk.ofChange ++ [(Hunk.ofChange last).trimmed]

/-- A change is written as the rows of its hunk. -/
theorem hunk_eq_flatMap_rows (c : Change) :
    hunk c = (Hunk.ofChange c).rows.flatMap (· ++ ['\n']) := by
  show "@@ ".toList ++ digits c.line ++ " @@\n-".toList ++ c.before ++ "\n+".toList ++ c.after ++
      ['\n'] =
    ["@@ ".toList ++ digits c.line ++ " @@".toList, '-' :: c.before, '+' :: c.after].flatMap
      (· ++ ['\n'])
  simp

/-- **A ledger is rendered** as the rows of its hunks, without the blanks at the end of the last. -/
theorem render_concat (front : List Change) (last : Change) :
    render (front ++ [last]) = Text.joinWith ['\n'] ((shown front last).flatMap Hunk.rows) := by
  have hfront : front.flatMap hunk =
      ((front.map Hunk.ofChange).flatMap Hunk.rows).flatMap (· ++ ['\n']) := by
    rw [List.flatMap_map, List.flatMap_assoc]
    exact List.flatMap_congr fun c _ => hunk_eq_flatMap_rows c
  have hlast : hunk last = [Hunk.header last.line, '-' :: last.before].flatMap (· ++ ['\n']) ++
      '+' :: (last.after ++ ['\n']) := by
    rw [hunk_eq_flatMap_rows]
    simp [Hunk.rows, Hunk.ofChange]
  have htrim : Text.trimEnd (last.after ++ ['\n']) = Text.trimEnd last.after := by
    simp [Text.trimEnd, show Text.isBlank '\n' = true by decide]
  have hrows : (shown front last).flatMap Hunk.rows =
      ((front.map Hunk.ofChange).flatMap Hunk.rows ++
        [Hunk.header last.line, '-' :: last.before]) ++ ['+' :: Text.trimEnd last.after] := by
    simp [shown, Hunk.rows, Hunk.trimmed, Hunk.ofChange]
  rw [render, List.flatMap_append, List.flatMap_singleton, hlast, ← List.append_assoc,
    Text.trimEnd_append_cons (by decide), htrim, hrows, Text.joinWith_concat, List.flatMap_append,
    hfront]

/-- A row of a hunk ends where its line does. -/
theorem newline_not_mem_rows {h : Hunk} (hbefore : '\n' ∉ h.before) (hafter : '\n' ∉ h.after) :
    ∀ row ∈ h.rows, '\n' ∉ row := by
  have hdigits : '\n' ∉ digits h.line := fun hmem =>
    absurd (Nat.isDigit_of_mem_toDigits (by decide) (by decide) hmem) (by decide)
  simp [Hunk.rows, Hunk.header, hbefore, hafter, hdigits]

/-- **The rows of a rendered ledger** are those of the hunks that it shows, as long as its lines
hold no line feeds. -/
theorem pieces_render {front : List Change} {last : Change}
    (h : ∀ c ∈ front ++ [last], '\n' ∉ c.before ∧ '\n' ∉ c.after) :
    Text.pieces '\n' (render (front ++ [last])) = (shown front last).flatMap Hunk.rows := by
  have hshown : ∀ d ∈ shown front last, '\n' ∉ d.before ∧ '\n' ∉ d.after := by
    intro d hd
    rw [shown, List.mem_append, List.mem_map, List.mem_singleton] at hd
    rcases hd with ⟨c, hc, rfl⟩ | rfl
    · exact h c (List.mem_append_left _ hc)
    · obtain ⟨hbefore, hafter⟩ := h last (by simp)
      exact ⟨hbefore, fun hmem => hafter (Text.mem_of_mem_trimEnd hmem)⟩
  rw [render_concat]
  refine Text.pieces_joinWith ?_ (by simp [shown, Hunk.rows])
  intro row hrow
  obtain ⟨d, hd, hrow⟩ := List.mem_flatMap.mp hrow
  exact newline_not_mem_rows (hshown d hd).1 (hshown d hd).2 row hrow

/-! ## Applying a diff -/

/-- **The lines of a document after a hunk**: the line with its number, which must have the text
before, has the text after in its place and keeps its terminator. -/
def Hunk.patch? (lines : List Text) (h : Hunk) : Option (List Text) :=
  match h.line with
  | 0 => none
  | i + 1 => lines[i]?.bind fun raw =>
    if Lines.body raw = h.before then some (lines.set i (h.after ++ Lines.ending raw)) else none

/-- A hunk that says of a line what it is can be applied. -/
theorem Hunk.patch?_of_getElem? {lines : List Text} {i : Nat} {raw : Text}
    (hraw : lines[i]? = some raw) (after : Text) :
    patch? lines ⟨i + 1, Lines.body raw, after⟩ =
      some (lines.set i (after ++ Lines.ending raw)) := by
  simp [patch?, hraw]

/-- A hunk that can be applied names a line that is there and its body, and replaces that line
alone. -/
theorem Hunk.exists_of_patch? {lines out : List Text} {h : Hunk}
    (hpatch : patch? lines h = some out) :
    ∃ i raw, lines[i]? = some raw ∧ h = ⟨i + 1, Lines.body raw, h.after⟩ ∧
      out = lines.set i (h.after ++ Lines.ending raw) := by
  obtain ⟨line, before, after⟩ := h
  cases line with
  | zero => cases hpatch
  | succ i =>
      obtain ⟨raw, hraw, hset⟩ := Option.bind_eq_some_iff.mp hpatch
      rw [Option.ite_none_right_eq_some] at hset
      obtain ⟨rfl, hout⟩ := hset
      exact ⟨i, raw, hraw, rfl, (Option.some.inj hout).symm⟩

/-- **A hunk without the blanks at its end** leads to the same lines but for these blanks. -/
theorem Hunk.patch?_trimmed {lines out : List Text} {h : Hunk}
    (hpatch : patch? lines h = some out) {l : Text} (hl : out[h.line - 1]? = some l)
    (hbody : Lines.body l = h.after) :
    patch? lines h.trimmed = some (out.modify (h.line - 1) Lines.trimBody) := by
  obtain ⟨i, raw, hraw, hh, rfl⟩ := exists_of_patch? hpatch
  have hi : i < lines.length := (List.getElem?_eq_some_iff.mp hraw).1
  have hline : h.line - 1 = i := by
    rw [hh]
    rfl
  obtain rfl : h.after ++ Lines.ending raw = l := by
    rwa [hline, List.getElem?_set_self hi, Option.some_inj] at hl
  have hending : Lines.ending (h.after ++ Lines.ending raw) = Lines.ending raw := by
    have hparts := Lines.body_append_ending (h.after ++ Lines.ending raw)
    rw [hbody] at hparts
    exact List.append_cancel_left hparts
  have htrimmed : h.trimmed = ⟨i + 1, Lines.body raw, Text.trimEnd h.after⟩ := by
    rw [trimmed, hh]
  have hmodify : (lines.set i (h.after ++ Lines.ending raw)).modify i Lines.trimBody =
      lines.set i (Lines.trimBody (h.after ++ Lines.ending raw)) := by
    rw [List.modify_eq_set_getElem?, List.getElem?_set_self hi, Option.map_eq_map, Option.map_some,
      Option.getD_some, List.set_set]
  rw [htrimmed, patch?_of_getElem? hraw, hline, hmodify, Lines.trimBody, hbody, hending]

/-- **A document after a diff.** -/
def patch? (diff text : Text) : Option Text := do
  let hs ← parse? diff
  let lines ← hs.foldlM Hunk.patch? (Lines.split text)
  return lines.flatten

end Diff

namespace Rules

open Diff

/-- **The hunks of a pass lead to the lines that come out of it**, whatever lines stand in front. -/
theorem foldlM_patch?_localizeEach (rules : Rules) (before : Option Text)
    (front lines : List Text) :
    ((rules.localizeEach before front.length lines).changes.map Hunk.ofChange).foldlM Hunk.patch?
        (front ++ lines) =
      some (front ++ (rules.localizeEach before front.length lines).lines) := by
  induction lines generalizing before front with
  | nil => rfl
  | cons raw rest ih =>
      -- What came of the first line stands in front of the others.
      have hnext : ∀ out : Text,
          ((rules.localizeEach (some raw) (front.length + 1) rest).changes.map
              Hunk.ofChange).foldlM Hunk.patch? (front ++ out :: rest) =
            some (front ++
              out :: (rules.localizeEach (some raw) (front.length + 1) rest).lines) := by
        intro out
        simpa using ih (some raw) (front ++ [out])
      rw [localizeEach, Localized.put]
      cases rules.edit before raw with
      | none => exact hnext raw
      | some e =>
          have hraw : (front ++ raw :: rest)[front.length]? = some raw := by simp
          have hfirst := Hunk.patch?_of_getElem? hraw e.after
          rw [List.set_append_right _ _ le_rfl, Nat.sub_self, List.set_cons_zero] at hfirst
          have hentry : Hunk.ofChange (e.entry front.length raw) =
              ⟨front.length + 1, Lines.body raw, e.after⟩ := rfl
          rw [Option.map_some, Option.toList_some, List.singleton_append, List.map_cons,
            List.foldlM_cons, hentry, hfirst]
          exact hnext (e.after ++ Lines.ending raw)

/-- The hunks of a ledger, applied in turn, turn the lines into the localized ones. -/
theorem foldlM_patch?_localizeLines (rules : Rules) (lines : List Text) :
    ((rules.localizeLines lines).changes.map Hunk.ofChange).foldlM Hunk.patch? lines =
      some (rules.localizeLines lines).lines := by
  rw [localizeLines_eq_localizeEach]
  exact rules.foldlM_patch?_localizeEach none [] lines

variable {rules : Rules} {text : Text} {front : List Change} {last : Change}

/-- No line in the ledger of a document holds a line feed. -/
theorem newline_not_mem_of_mem_changes {c : Change} (h : c ∈ (rules.localize text).changes) :
    '\n' ∉ c.before ∧ '\n' ∉ c.after := by
  obtain ⟨raw, hraw, -, hbefore, hwraps, -⟩ := wraps_of_mem_changes h
  have hbody : '\n' ∉ Lines.body raw :=
    (Lines.isCut_split text).newline_not_mem_body raw (List.mem_of_getElem? hraw)
  exact ⟨hbefore ▸ hbody, hwraps.newline_not_mem hbody⟩

/-- **The diff of a pass is read** as what it shows of the changes. -/
theorem parse?_render_localize (h : (rules.localize text).changes = front ++ [last]) :
    parse? (render (rules.localize text).changes) = some (shown front last) := by
  rw [parse?_eq_some_iff, h]
  exact pieces_render fun c hc => newline_not_mem_of_mem_changes (h ▸ hc)

/-- A changed line comes out with the text that its entry says. -/
theorem exists_line_of_mem_changes {c : Change} (h : c ∈ (rules.localize text).changes) :
    ∃ l, (rules.localize text).lines[c.line - 1]? = some l ∧ Lines.body l = c.after := by
  obtain ⟨raw, -, hout, -, hwraps, -⟩ := wraps_of_mem_changes h
  exact ⟨_, hout, (Lines.body_ending_of_cut hwraps.cut_append).1⟩

/-- **The diff of a pass leads to the localized document**, but for the blanks at the end of the
last changed line. -/
theorem patch?_render_localize (h : (rules.localize text).changes = front ++ [last]) :
    patch? (render (rules.localize text).changes) text =
      some ((rules.localize text).lines.modify (last.line - 1) Lines.trimBody).flatten := by
  have hlast : last ∈ (rules.localize text).changes := by simp [h]
  obtain ⟨l, hl, hbody⟩ := exists_line_of_mem_changes hlast
  -- All hunks but the last are those of the changes, and lead up to the same lines.
  have hall := foldlM_patch?_localizeLines rules (Lines.split text)
  rw [← localize, h, List.map_append, List.foldlM_append] at hall
  obtain ⟨lines, hfront, hpatch⟩ := Option.bind_eq_some_iff.mp hall
  rw [List.map_singleton, List.foldlM_cons] at hpatch
  obtain ⟨out, hpatch, hnil⟩ := Option.bind_eq_some_iff.mp hpatch
  obtain rfl : out = (rules.localize text).lines := Option.some.inj hnil
  have htrimmed : Hunk.patch? lines (Hunk.ofChange last).trimmed =
      some ((rules.localize text).lines.modify (last.line - 1) Lines.trimBody) :=
    Hunk.patch?_trimmed hpatch hl hbody
  simp [patch?, parse?_render_localize h, shown, hfront, htrimmed]

/-- **Nothing is lost** where the last changed line does not end in a blank. -/
theorem trimEnd_after_eq_self_iff {c : Change} (h : c ∈ (rules.localize text).changes) :
    Text.trimEnd c.after = c.after ↔ ∀ b ∈ c.before.getLast?, Text.isBlank b = false := by
  obtain ⟨raw, -, -, hbefore, hwraps, -⟩ := wraps_of_mem_changes h
  rw [hwraps.trimEnd_eq_self_iff, Text.trimEnd_eq_self_iff, hbefore]

end Rules

/-! ## The diff in a report -/

section Localized

variable (l : Localized) (cwd : Option Path) (root p : Path) (target : Option Path)

/-- The report says whether the text was changed. -/
theorem Localized.changed_report : (l.report cwd root p target).changed = l.changed := rfl

/-- The report has the ledger of the text. -/
theorem Localized.changes_report : (l.report cwd root p target).changes = l.changes := rfl

end Localized

namespace Report

open Diff

/-- **The diff that a report shows** for the file with the given index. -/
def diffAt? (report : Json) (i : Nat) : Option Text :=
  match report.member? "results" with
  | some (.array entries) =>
    match entries[i]?.bind (Json.member? "diff") with
    | some (.string s) => some (Text.ofString s)
    | _ => none
  | _ => none

/-- The diff shown for a changed file is the one of its ledger. -/
theorem diffAt?_run {reports : List FileReport} {i : Nat} {r : FileReport} (error : Option Error)
    (hr : reports[i]? = some r) (hchanged : r.changed = true) :
    diffAt? (run reports true error) i = some (render r.changes) := by
  have hresults : (run reports true error).member? "results" =
      some (.array (reports.map (file true))) := rfl
  have hdiff : (file true r).member? "diff" =
      some (.ofOption ((diffOf true r).map Text.asString)) := rfl
  have hshown : diffOf true r = some (render r.changes) := by simp [diffOf, hchanged]
  rw [diffAt?, hresults]
  simp only [List.getElem?_map, hr, Option.map_some, Option.bind_some, hdiff, hshown]
  exact congrArg some (Text.ofString_asString _)

/-- **The diff in a report is a patch**, but for the blanks at its end. The diff of a localized
document consists of three rows for each change, and applying it to the document gives the localized
one; only the last changed line loses the blanks at its end. So the diff says what the ledger says
just when that line has none. -/
theorem diff_patches (rules : Rules) (text : Text) {reports : List FileReport} {i : Nat}
    {r : FileReport} (error : Option Error) {front : List Change} {last : Change}
    (hr : reports[i]? = some r) (hchanged : r.changed = (rules.localize text).changed)
    (hchanges : r.changes = (rules.localize text).changes)
    (hlast : (rules.localize text).changes = front ++ [last]) :
    ∃ diff, diffAt? (run reports true error) i = some diff ∧
      Text.pieces '\n' diff = (shown front last).flatMap Hunk.rows ∧
      patch? diff text =
        some ((rules.localize text).lines.modify (last.line - 1) Lines.trimBody).flatten ∧
      (parse? diff = some ((rules.localize text).changes.map Hunk.ofChange) ↔
        ∀ b ∈ last.before.getLast?, Text.isBlank b = false) ∧
      (patch? diff text = some (rules.localize text).text ↔
        ∀ b ∈ last.before.getLast?, Text.isBlank b = false) := by
  have hmem : last ∈ (rules.localize text).changes := by simp [hlast]
  have hparse := Rules.parse?_render_localize hlast
  have hpatch := Rules.patch?_render_localize hlast
  have hsome : r.changed = true := by simp [hchanged, Localized.changed, hlast]
  refine ⟨render r.changes, diffAt?_run error hr hsome, ?_, ?_, ?_, ?_⟩
  · rw [hchanges]
    exact parse?_eq_some_iff.mp hparse
  · rw [hchanges, hpatch]
  · rw [hchanges, hparse, ← Rules.trimEnd_after_eq_self_iff hmem, hlast]
    simp [shown, Hunk.trimmed, Hunk.ofChange]
  · obtain ⟨l, hl, hbody⟩ := Rules.exists_line_of_mem_changes hmem
    rw [hchanges, hpatch, ← Rules.trimEnd_after_eq_self_iff hmem, Localized.text, Option.some_inj,
      Lines.flatten_modify_eq_iff hl, Lines.trimBody_eq_self_iff, hbody]

/-- A literal that looks like the beginning of a hunk, on a line with a blank at its end, and a
changed line behind it. -/
theorem diff_patches_mark_in_literal :
    (Rules.standard.localize "  setup:\n '@@ 3 @@' \n  name: 'A',\r\n".toList).changes =
      [⟨2, .fieldHeader, " '@@ 3 @@' ".toList, (" " ++ braced " en: '@@ 3 @@' " ++ " ").toList⟩] ++
        [⟨3, .fieldInline, "  name: 'A',".toList,
          ("  name: " ++ braced " en: 'A' " ++ ",").toList⟩] ∧
    ∃ diff, diffAt? (run [(Rules.standard.localize
          "  setup:\n '@@ 3 @@' \n  name: 'A',\r\n".toList).report none ⟨".".toList⟩
            ⟨"x.ts".toList⟩ none] true none) 0 = some diff ∧
      parse? diff = some [
        ⟨2, " '@@ 3 @@' ".toList, (" " ++ braced " en: '@@ 3 @@' " ++ " ").toList⟩,
        ⟨3, "  name: 'A',".toList, ("  name: " ++ braced " en: 'A' " ++ ",").toList⟩] ∧
      patch? diff "  setup:\n '@@ 3 @@' \n  name: 'A',\r\n".toList =
        some ("  setup:\n " ++ braced " en: '@@ 3 @@' " ++ " \n  name: " ++ braced " en: 'A' " ++
          ",\r\n").toList := by
  have hlast : (Rules.standard.localize
      "  setup:\n '@@ 3 @@' \n  name: 'A',\r\n".toList).changes =
      [⟨2, .fieldHeader, " '@@ 3 @@' ".toList, (" " ++ braced " en: '@@ 3 @@' " ++ " ").toList⟩] ++
        [⟨3, .fieldInline, "  name: 'A',".toList,
          ("  name: " ++ braced " en: 'A' " ++ ",").toList⟩] := by cbv
  have htext : (Rules.standard.localize
      "  setup:\n '@@ 3 @@' \n  name: 'A',\r\n".toList).text =
      ("  setup:\n " ++ braced " en: '@@ 3 @@' " ++ " \n  name: " ++ braced " en: 'A' " ++
        ",\r\n").toList := by cbv
  have hends : ∀ b ∈ "  name: 'A',".toList.getLast?, Text.isBlank b = false := by
    intro b hb
    obtain rfl : ',' = b := by simpa using hb
    decide
  refine ⟨hlast, ?_⟩
  obtain ⟨diff, hdiff, -, -, hparse, hpatch⟩ := diff_patches Rules.standard
    "  setup:\n '@@ 3 @@' \n  name: 'A',\r\n".toList none List.getElem?_cons_zero
    (Localized.changed_report ..) (Localized.changes_report ..) hlast
  rw [htext] at hpatch
  rw [hlast] at hparse
  exact ⟨diff, hdiff, hparse.mpr hends, hpatch.mpr hends⟩

/-- **The blank at the end of the last changed line is lost**: the diff does not say what the ledger
says, and leads to another document. -/
theorem diff_loses_last_blank :
    (Rules.standard.localize "  name: 'A' \n".toList).changes =
      [⟨1, .fieldInline, "  name: 'A' ".toList, ("  name: " ++ braced " en: 'A' " ++ " ").toList⟩] ∧
    ∃ diff, diffAt? (run [(Rules.standard.localize "  name: 'A' \n".toList).report none
          ⟨".".toList⟩ ⟨"x.ts".toList⟩ none] true none) 0 = some diff ∧
      diff = ("@@ 1 @@\n-  name: 'A' \n+  name: " ++ braced " en: 'A' ").toList ∧
      parse? diff ≠
        some ((Rules.standard.localize "  name: 'A' \n".toList).changes.map Hunk.ofChange) ∧
      patch? diff "  name: 'A' \n".toList ≠
        some (Rules.standard.localize "  name: 'A' \n".toList).text := by
  have hchanges : (Rules.standard.localize "  name: 'A' \n".toList).changes =
      [⟨1, .fieldInline, "  name: 'A' ".toList,
        ("  name: " ++ braced " en: 'A' " ++ " ").toList⟩] := by cbv
  have htext : (Rules.standard.localize "  name: 'A' \n".toList).text =
      ("  name: " ++ braced " en: 'A' " ++ " \n").toList := by cbv
  have hparse : parse? ("@@ 1 @@\n-  name: 'A' \n+  name: " ++ braced " en: 'A' ").toList =
      some [⟨1, "  name: 'A' ".toList, ("  name: " ++ braced " en: 'A' ").toList⟩] :=
    parse?_eq_some_iff.mpr (by rfl)
  have hpatch : patch? ("@@ 1 @@\n-  name: 'A' \n+  name: " ++ braced " en: 'A' ").toList
      "  name: 'A' \n".toList = some ("  name: " ++ braced " en: 'A' " ++ "\n").toList := by
    rw [patch?, hparse]
    rfl
  refine ⟨hchanges, _, ?_, rfl, ?_, ?_⟩
  · have hchanged : (Rules.standard.localize "  name: 'A' \n".toList).changed = true := by
      rw [Localized.changed, hchanges]
      rfl
    rw [diffAt?_run none List.getElem?_cons_zero ((Localized.changed_report ..).trans hchanged),
      Localized.changes_report, hchanges]
    rfl
  · rw [hparse, hchanges]
    decide
  · rw [hpatch, htext]
    decide

end Report

end LocaleWrap
