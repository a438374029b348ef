import LocaleWrap.Proofs.Localization.Locality

/-! # Patching a document by a ledger

A ledger says of each changed line what it is afterwards. Together with the document that went in it
is as good as the document that came out.

* **`Ledger.patchLine`**, **`Ledger.patch`** — a raw line, and a document, as a ledger says they
  become.
* `Rules.find?_changes_localizeLines` — the first entry for a line is that of the line's edit.
* `Rules.patch_localize` — the document patched by the ledger of its localization is the localized
  document. -/

namespace LocaleWrap

namespace Ledger

/-- **A raw line as a ledger says it becomes**: the text of its entry with the line's own
terminator, or the line itself where there is no entry. -/
def patchLine (changes : List Change) (index : Nat) (raw : Text) : Text :=
  match changes.find? fun c => c.line = index + 1 with
  | some c => c.after ++ Lines.ending raw
  | none => raw

/-- **A document as a ledger says it becomes**, line by line. -/
def patch (changes : List Change) (text : Text) : Text :=
  ((Lines.split text).mapIdx (patchLine changes)).flatten

end Ledger

namespace Rules

/-- **The first entry for a line** is that of the line's edit, if it has one. -/
theorem find?_changes_localizeLines (rules : Rules) (lines : List Text) (i : Nat) :
    (rules.localizeLines lines).changes.find? (fun c => c.line = i + 1) =
      lines[i]?.bind fun raw =>
        (rules.edit (lineBefore none lines i) raw).map (Edit.entry i raw) := by
  have hfilter := filter_changes_localizeEach rules none 0 lines i
  rw [Nat.zero_add, ← localizeLines_eq_localizeEach] at hfilter
  rw [← List.head?_filter, hfilter, Option.head?_toList]

/-- **The ledger tells the localized document**: put into the lines of the document that went in,
its texts give the document that comes out. -/
theorem patch_localize (rules : Rules) (text : Text) :
    Ledger.patch (rules.localize text).changes text = (rules.localize text).text := by
  have hlines : (Lines.split text).mapIdx (Ledger.patchLine (rules.localize text).changes) =
      (rules.localize text).lines := by
    apply List.ext_getElem?
    intro i
    have hlines := getElem?_lines_localizeEach rules none 0 (Lines.split text) i
    rw [← localizeLines_eq_localizeEach] at hlines
    rw [List.getElem?_mapIdx, localize, hlines]
    cases hraw : (Lines.split text)[i]? with
    | none => rfl
    | some raw =>
        rw [Option.map_some, Option.map_some, Ledger.patchLine, find?_changes_localizeLines, hraw,
          Option.bind_some]
        cases rules.edit (lineBefore none (Lines.split text) i) raw with
        | none => rfl
        | some e => rfl
  rw [Ledger.patch, hlines, Localized.text]

end Rules

end LocaleWrap
