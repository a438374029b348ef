import LocaleWrap.Glob.Pattern
import LocaleWrap.Path.Basic
import LocaleWrap.Rules.Pattern
import LocaleWrap.Tree.Fault

/-! # What can stop a run

A line that matches no rule is no error. What remains are the files, the rules, the patterns for
files and the settings.

* **`Error`** — the causes, **`Error.message`** their wording, **`Error.exitCode`** the exit status
  of a run that they stop. -/

namespace LocaleWrap

/-- **Which setting cannot be used.** -/
inductive SettingFault
  /-- The output form has no such name. -/
  | unknownOutput (name : Text)
  /-- The mode has no such name. -/
  | unknownMode (name : Text)
  /-- Results are to go below another directory, and none is given. -/
  | missingOutDir
  /-- Another reason, given in words. -/
  | other (text : Text)
  deriving DecidableEq, Repr, Inhabited

/-- The reason in words. -/
def SettingFault.message : SettingFault → String
  | unknownOutput name => "unknown output `" ++ name.asString ++ "` (expected human|json)"
  | unknownMode name =>
    "unknown wrap.mode `" ++ name.asString ++ "` (expected overwrite|dry-run|new-path)"
  | missingOutDir => "wrap.mode = \"new-path\" requires wrap.out_dir"
  | other text => text.asString

/-- **What stops a run.** -/
inductive Error
  /-- An operation on the file at a path. -/
  | io (path : Path) (fault : FileFault)
  /-- A rule set for which there is no expression. -/
  | pattern (fault : PatternFault)
  /-- A glob pattern. -/
  | glob (pattern : Text) (fault : GlobFault)
  /-- A setting. -/
  | config (fault : SettingFault)
  /-- There is nothing to work on. -/
  | noInputs
  deriving DecidableEq, Repr, Inhabited

namespace Error

/-- **The error in words.** -/
def message : Error → String
  | io path fault => s!"I/O error on {path}: {fault.message}"
  | pattern fault => "invalid line pattern: " ++ fault.message
  | glob text fault => "invalid glob pattern `" ++ text.asString ++ "`: " ++ fault.message
  | config fault => "invalid configuration: " ++ fault.message
  | noInputs => "no input files: pass paths or set `patterns` in locwrap.toml"

/-- **The exit status**: two where the run was asked for in a wrong way, one where it failed. -/
def exitCode : Error → Nat
  | config _ => 2
  | noInputs => 2
  | glob .. => 2
  | io .. => 1
  | pattern _ => 1

end Error

end LocaleWrap
