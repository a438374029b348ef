import LocaleWrap.Proofs.Localization.Locality
import LocaleWrap.Proofs.Report.ListingRow

/-! # Reports on lines agree with the pass

The reports on the classes of lines look at each line by itself and take what became of it from the
ledger. What they say is what the pass did.

* `Report.changeAt?_localizeLines` — the entry for a line is that of the line's edit, if it has
  one.
* **`Report.lineAt`** — a raw line with its class and its edit; `Report.getElem?_classified` says
  that the classified lines of a document are these.
* **`Report.rewritten?`**, **`Report.patch`**, **`Report.finding?`** — reading the entries of the
  JSON report.
* `Report.classification_agrees` — the two reports and the localized document. -/

namespace LocaleWrap

namespace Report

open Rules

/-! ## Classified lines -/

/-- **The ledger's entry for a line** is that of the line's edit, if it has one. -/
theorem changeAt?_localizeLines (rules : Rules) (lines : List Text) (i : Nat) :
    changeAt? (rules.localizeLines lines).changes (i + 1) =
      lines[i]?.bind fun raw =>
        (rules.edit (lineBefore none lines i) raw).map (Edit.entry i raw) := by
  have hfilter := filter_changes_localizeEach rules none 0 lines i
  have hlast : ∀ o : Option Change, o.toList.getLast? = o := by
    intro o
    cases o <;> rfl
  rw [← localizeLines_eq_localizeEach, Nat.zero_add] at hfilter
  rw [changeAt?, ← List.getLast?_filter]
  simp only [beq_eq_decide, hfilter, hlast]

/-- Each row of a listing is about the line at its place: the number, the role, the body and the
rewritten text, if there is one. -/
theorem getElem?_classifiedFrom (rules : Rules) (changes : List Change) (n : Nat)
    (lines : List Text) (i : Nat) :
    (classifiedFrom rules changes n lines)[i]? = lines[i]?.map fun raw =>
      ⟨n + i, (rules.classify (Lines.body raw)).role, Lines.body raw,
        (changeAt? changes (n + i)).map Change.after⟩ := by
  induction lines generalizing n i with
  | nil => rfl
  | cons raw rest ih =>
      cases i with
      | zero => rfl
      | succ i =>
          have hindex : n + (i + 1) = n + 1 + i := by omega
          rw [classifiedFrom, List.getElem?_cons_succ, List.getElem?_cons_succ, ih, hindex]

/-- **A raw line, classified by itself**, with the text of its edit behind the line `before`. -/
def lineAt (rules : Rules) (before : Option Text) (i : Nat) (raw : Text) : ClassifiedLine :=
  ⟨i + 1, (rules.classify (Lines.body raw)).role, Lines.body raw,
    (rules.edit before raw).map Edit.after⟩

/-- **The classified lines of a document**, position by position. -/
theorem getElem?_classified (rules : Rules) (text : Text) (i : Nat) :
    (classified rules text (rules.localize text).changes)[i]? =
      (Lines.split text)[i]?.map (lineAt rules (lineBefore none (Lines.split text) i) i) := by
  rw [classified, getElem?_classifiedFrom, Nat.add_comm 1 i, localize, changeAt?_localizeLines]
  cases (Lines.split text)[i]? with
  | none => rfl
  | some raw =>
      rw [Option.map_some, Option.map_some, Option.bind_some, Option.map_map]
      rfl

/-- A listing has a row for each line of the text. -/
theorem length_classified (rules : Rules) (text : Text) (changes : List Change) :
    (classified rules text changes).length = (Lines.split text).length := by
  have hlength : ∀ n lines, (classifiedFrom rules changes n lines).length = lines.length := by
    intro n lines
    induction lines generalizing n with
    | nil => rfl
    | cons raw rest ih => rw [classifiedFrom, List.length_cons, ih, List.length_cons]
  exact hlength 1 (Lines.split text)

/-- No classified line holds a line feed. -/
theorem newline_not_mem_body_classified (rules : Rules) (text : Text) :
    ∀ l ∈ classified rules text (rules.localize text).changes, '\n' ∉ l.body := by
  intro l hl
  obtain ⟨i, hi⟩ := List.mem_iff_getElem?.mp hl
  rw [getElem?_classified, Option.map_eq_some_iff] at hi
  obtain ⟨raw, hraw, rfl⟩ := hi
  exact (Lines.isCut_split text).newline_not_mem_body raw (List.mem_of_getElem? hraw)

/-! ## Entries of the JSON report -/

/-- The text that an entry says its line was rewritten to. -/
def rewritten? (entry : Json) : Option Text :=
  match entry.member? "rewritten" with
  | some (.string s) => some (Text.ofString s)
  | _ => none

/-- **A raw line as its entry says**: the rewritten text with the line's own terminator, or the line
itself. -/
def patch (raw : Text) (entry : Json) : Text :=
  match rewritten? entry with
  | some t => t ++ Lines.ending raw
  | none => raw

/-- What an entry says of its line. -/
def finding? (entry : Json) : Option Finding :=
  match entry.member? "line", entry.member? "kind" with
  | some (.count n), some (.string kind) => some ⟨n, kind.toList, (rewritten? entry).isSome⟩
  | _, _ => none

/-- **An entry has a text or null** as what its line was rewritten to. -/
theorem member?_rewritten (l : ClassifiedLine) :
    ((classifiedLine l).member? "rewritten" = some .null ∧ l.localized = none) ∨
      ∃ t, (classifiedLine l).member? "rewritten" = some (.string t.asString) ∧
        l.localized = some t := by
  have hmember : (classifiedLine l).member? "rewritten" =
      some (.ofOption (l.localized.map Text.asString)) := rfl
  rw [hmember]
  cases l.localized with
  | none => exact Or.inl ⟨rfl, rfl⟩
  | some t => exact Or.inr ⟨t, rfl, rfl⟩

/-- The rewritten text is read back from the entry of a line. -/
theorem rewritten?_classifiedLine (l : ClassifiedLine) :
    rewritten? (classifiedLine l) = l.localized := by
  rcases member?_rewritten l with ⟨hmember, hl⟩ | ⟨t, hmember, hl⟩
  · rw [rewritten?, hmember, hl]
  · rw [rewritten?, hmember, hl]
    exact congrArg some (Text.ofString_asString t)

/-- The finding of a line is read back from its entry. -/
theorem finding?_classifiedLine (l : ClassifiedLine) :
    finding? (classifiedLine l) = some l.finding := by
  have hline : (classifiedLine l).member? "line" = some (.count l.line) := rfl
  have hkind : (classifiedLine l).member? "kind" = some (.string l.role.label) := rfl
  rw [finding?, hline, hkind, rewritten?_classifiedLine]
  rfl

/-- An entry names its kind. -/
theorem member?_kind_iff (l : ClassifiedLine) (role : LineRole) :
    (classifiedLine l).member? "kind" = some (.string role.label) ↔ l.role = role := by
  have hkind : (classifiedLine l).member? "kind" = some (.string l.role.label) := rfl
  rw [hkind]
  constructor
  · intro h
    have hlabel : l.role.label = role.label := by simpa using h
    simpa using congrArg LineRole.ofLabel? hlabel
  · rintro rfl
    rfl

/-! ## The reports and the pass -/

/-- **The entries of the report**, position by position. -/
theorem getElem?_entries (rules : Rules) (text : Text) (i : Nat) :
    ((classified rules text (rules.localize text).changes).map classifiedLine)[i]? =
      (Lines.split text)[i]?.map fun raw =>
        classifiedLine (lineAt rules (lineBefore none (Lines.split text) i) i raw) := by
  rw [List.getElem?_map, getElem?_classified, Option.map_map]
  rfl

/-- An entry stands behind that of a field header where its line stands behind a field header. -/
theorem behind_header_iff (rules : Rules) (text : Text) (i : Nat) :
    (∃ j prev, i = j + 1 ∧
        ((classified rules text (rules.localize text).changes).map classifiedLine)[j]? =
          some prev ∧ prev.member? "kind" = some (.string "field-header")) ↔
      rules.AfterHeader (Lines.split text) i := by
  have hkind := fun j raw => member?_kind_iff
    (lineAt rules (lineBefore none (Lines.split text) j) j raw) .fieldHeader
  constructor
  · rintro ⟨j, prev, rfl, hprev, hheader⟩
    rw [getElem?_entries, Option.map_eq_some_iff] at hprev
    obtain ⟨raw, hraw, rfl⟩ := hprev
    exact ⟨j, raw, rfl, hraw, (hkind j raw).mp hheader⟩
  · rintro ⟨j, raw, rfl, hraw, hheader⟩
    refine ⟨j, _, rfl, ?_, (hkind j raw).mpr hheader⟩
    rw [getElem?_entries, hraw, Option.map_some]

/-- **A line has a rewritten text** where its role is that of a value, and where it is a bare
literal behind a field header. -/
theorem isSome_localized_lineAt_iff (rules : Rules) (lines : List Text) (i : Nat) (raw : Text) :
    (lineAt rules (lineBefore none lines i) i raw).localized.isSome ↔
      (lineAt rules (lineBefore none lines i) i raw).role = .fieldInline ∨
        (lineAt rules (lineBefore none lines i) i raw).role = .arrayItem ∨
        rules.AfterHeader lines i ∧ (rules.deferredValue (Lines.body raw)).isSome := by
  rw [lineAt, Option.isSome_map, isSome_edit_iff, isHeader_lineBefore_iff]

/-- An entry has a rewritten text where its line has one. -/
theorem exists_member?_rewritten_iff (l : ClassifiedLine) :
    (∃ s, (classifiedLine l).member? "rewritten" = some (.string s)) ↔ l.localized.isSome := by
  rcases member?_rewritten l with ⟨hmember, hl⟩ | ⟨t, hmember, hl⟩
  · simp [hmember, hl]
  · simp [hmember, hl]

/-- **Patching every line as its entry says** is the pass. -/
theorem zipWith_patch (rules : Rules) (text : Text) :
    List.zipWith patch (Lines.split text)
      ((classified rules text (rules.localize text).changes).map classifiedLine) =
      (rules.localize text).lines := by
  apply List.ext_getElem?
  intro i
  rw [List.getElem?_zipWith, List.getElem?_map, getElem?_classified, localize,
    localizeLines_eq_localizeEach, getElem?_lines_localizeEach]
  cases hraw : (Lines.split text)[i]? with
  | none => rfl
  | some raw =>
      simp only [Option.map_some, patch, rewritten?_classifiedLine, lineAt]
      cases rules.edit (lineBefore none (Lines.split text) i) raw <;> rfl

/-- **The rows of the listing show what the entries of the JSON report say.** -/
theorem readRow_split_classification (rules : Rules) (text : Text) (color : Bool) :
    (Lines.split (Listing.classification color
        (classified rules text (rules.localize text).changes)).toList).map
          (fun row => some (Listing.readRow row)) =
      ((classified rules text (rules.localize text).changes).map classifiedLine).map finding? := by
  rw [Listing.split_classification color (newline_not_mem_body_classified rules text),
    List.map_map, List.map_map]
  apply List.map_congr_left
  intro l _
  rw [Function.comp_apply, Function.comp_apply, Listing.readRow_classifiedLine,
    finding?_classifiedLine]

/-- **The reports on classes agree with the pass.** There is one entry for each line, numbered from
one. Rewritten are the inline fields, the array items, and the bare literals behind an entry of a
field header; with each line patched as its entry says, the document is the localized one. The
listing marks the same lines with the same kinds. -/
theorem classification_agrees (rules : Rules) (text : Text) (file : Path) :
    ∃ entries : List Json,
      (classification file (classified rules text (rules.localize text).changes)).member? "lines" =
        some (.array entries) ∧
      entries.length = (Lines.split text).length ∧
      (∀ i raw entry, (Lines.split text)[i]? = some raw → entries[i]? = some entry →
        entry.member? "line" = some (.count (i + 1)) ∧
        entry.member? "kind" = some (.string (rules.classify (Lines.body raw)).role.label) ∧
        ((∃ s, entry.member? "rewritten" = some (.string s)) ↔
          entry.member? "kind" = some (.string "field-inline") ∨
            entry.member? "kind" = some (.string "array-item") ∨
            (∃ j prev, i = j + 1 ∧ entries[j]? = some prev ∧
              prev.member? "kind" = some (.string "field-header")) ∧
              (rules.deferredValue (Lines.body raw)).isSome) ∧
        ((¬ ∃ s, entry.member? "rewritten" = some (.string s)) →
          entry.member? "rewritten" = some .null)) ∧
      (List.zipWith patch (Lines.split text) entries).flatten = (rules.localize text).text ∧
      ∀ color,
        (Lines.split (Listing.classification color
          (classified rules text (rules.localize text).changes)).toList).map
            (fun row => some (Listing.readRow row)) = entries.map finding? := by
  refine ⟨(classified rules text (rules.localize text).changes).map classifiedLine, rfl, ?_, ?_,
    ?_, readRow_split_classification rules text⟩
  · rw [List.length_map, length_classified]
  · intro i raw entry hraw hentry
    rw [getElem?_entries, hraw, Option.map_some, Option.some_inj] at hentry
    subst hentry
    have hkind := member?_kind_iff (lineAt rules (lineBefore none (Lines.split text) i) i raw)
    refine ⟨rfl, rfl, ?_, ?_⟩
    · rw [exists_member?_rewritten_iff, behind_header_iff, isSome_localized_lineAt_iff]
      exact or_congr (hkind .fieldInline).symm (or_congr (hkind .arrayItem).symm Iff.rfl)
    · intro hnone
      rcases member?_rewritten (lineAt rules (lineBefore none (Lines.split text) i) i raw) with
        ⟨hnull, -⟩ | ⟨t, ht, -⟩
      · exact hnull
      · exact absurd ⟨_, ht⟩ hnone
  · rw [zipWith_patch, Localized.text]

/-- Behind two headers, a literal with a stray carriage return is unmatched by itself, and is
rewritten. -/
theorem classification_agrees_header_chain :
    (Lines.split "  setup:\n  setup:\r\n 'a'\r\r\n'b',\n".toList)[2]? =
      some " 'a'\r\r\n".toList ∧
    ∃ entry : Json, entry.member? "line" = some (.count 3) ∧
      entry.member? "kind" = some (.string "unmatched") ∧
      ∃ s, entry.member? "rewritten" = some (.string s) := by
  have hheader : (Lines.split "  setup:\n  setup:\r\n 'a'\r\r\n'b',\n".toList)[1]? =
      some "  setup:\r\n".toList := by cbv
  have hraw : (Lines.split "  setup:\n  setup:\r\n 'a'\r\r\n'b',\n".toList)[2]? =
      some " 'a'\r\r\n".toList := by cbv
  refine ⟨hraw, ?_⟩
  obtain ⟨entries, -, hlength, hentries, -, -⟩ := classification_agrees ⟨["setup".toList], 0⟩
    "  setup:\n  setup:\r\n 'a'\r\r\n'b',\n".toList ⟨"d.ts".toList⟩
  replace hlength : entries.length = 4 := hlength.trans (by cbv)
  have hprev : entries[1]? = some entries[1] := List.getElem?_eq_getElem (by omega)
  have hentry : entries[2]? = some entries[2] := List.getElem?_eq_getElem (by omega)
  obtain ⟨-, hkindPrev, -, -⟩ := hentries 1 _ _ hheader hprev
  obtain ⟨hline, hkind, hrewritten, -⟩ := hentries 2 _ _ hraw hentry
  refine ⟨entries[2], hline, hkind.trans (by cbv), hrewritten.mpr (Or.inr (Or.inr ⟨?_, by cbv⟩))⟩
  exact ⟨1, entries[1], rfl, hprev, hkindPrev.trans (by cbv)⟩

end Report

end LocaleWrap
