import LocaleWrap.Text.Basic

/-! # What a configuration file says

* **`WrapSection`**, **`Config`** — the settings of a configuration file, each of which may be
  missing. -/

namespace LocaleWrap

/-- **The section on localizing.** -/
structure WrapSection where
  /-- The name of the mode. -/
  mode : Option Text
  /-- The directory for results, from the repository root. -/
  outDir : Option Text
  diff : Option Bool
  check : Option Bool
  deriving DecidableEq, Repr, Inhabited

/-- A section that says nothing. -/
def WrapSection.empty : WrapSection := ⟨none, none, none, none⟩

/-- **The settings of a configuration file.** -/
structure Config where
  /-- The name of the output form. -/
  output : Option Text
  /-- Glob patterns from the repository root, for runs without paths. -/
  patterns : Option (List Text)
  wrap : Option WrapSection
  deriving DecidableEq, Repr, Inhabited

/-- A configuration that says nothing. -/
def Config.empty : Config := ⟨none, none, none⟩

end LocaleWrap
