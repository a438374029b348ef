import LocaleWrap.Settings.Config
import LocaleWrap.Toml.Document

/-! # Settings in TOML

* **`Config.ofToml?`** — the settings that a TOML document gives. Members without a meaning are
  passed over; a member of the wrong kind spoils the document. -/

namespace LocaleWrap

namespace Toml

/-- The text of a string. -/
def Value.text? : Value → Option Text
  | string t => some t
  | _ => none

/-- A truth value. -/
def Value.boolean? : Value → Option Bool
  | boolean b => some b
  | _ => none

/-- The texts of an array of strings. -/
def Value.texts? : Value → Option (List Text)
  | array items _ => items.mapM Value.text?
  | _ => none

/-- **A member that may be missing**, but has to be of the kind that is asked for. -/
def optional? {α : Type} (kind : Value → Option α) (name : String) (ms : Members) :
    Option (Option α) :=
  match ms.lookup name.toList with
  | none => some none
  | some v => (kind v).map some

/-- **The section on localizing**: a table, or the array of its members' values in their order. A
moment is a table too, with no member that means anything here. -/
def Value.section? : Value → Option WrapSection
  | table _ ms => do
    let mode ← optional? Value.text? "mode" ms
    let outDir ← optional? Value.text? "out_dir" ms
    let diff ← optional? Value.boolean? "diff" ms
    let check ← optional? Value.boolean? "check" ms
    return ⟨mode, outDir, diff, check⟩
  | array (mode :: outDir :: diff :: check :: _) _ => do
    let mode ← mode.text?
    let outDir ← outDir.text?
    let diff ← diff.boolean?
    let check ← check.boolean?
    return ⟨some mode, some outDir, some diff, some check⟩
  | moment _ => some .empty
  | _ => none

end Toml

/-- **The settings that a TOML document gives.** -/
def Config.ofToml? (t : Text) : Option Config := do
  let ms ← Toml.parse t
  let output ← Toml.optional? Toml.Value.text? "output" ms
  let patterns ← Toml.optional? Toml.Value.texts? "patterns" ms
  let wrap ← Toml.optional? Toml.Value.section? "wrap" ms
  return ⟨output, patterns, wrap⟩

end LocaleWrap
