import LocaleWrap.Text.Basic

/-! # The grammar of the command line

* **`OptionSpec`** and **`OperandSpec`** — what a command takes, by name and by place.
* **`Grammar`** — a command with its options and operands, and what help says about it.
* **`Grammar.root`**, **`Grammar.subcommands`** — the program and its commands. -/

namespace LocaleWrap

namespace CommandLine

/-- **An option**, which takes a value if the value has a name. -/
structure OptionSpec where
  /-- The option's name without its dashes. -/
  name : String
  /-- The letter that stands for the option after one dash. -/
  letter : Option Char
  valueName : Option String
  help : String
  deriving DecidableEq, Repr, Inhabited

/-- **An operand**, given by its place. -/
structure OperandSpec where
  name : String
  required : Bool
  many : Bool
  help : String
  deriving DecidableEq, Repr, Inhabited

/-- **What a command takes and what help says about it.** -/
structure Grammar where
  name : String
  /-- The words that call the command. -/
  call : String
  about : String
  longAbout : Option String
  /-- Examples below the help text. -/
  examples : Option String
  options : List OptionSpec
  operand : Option OperandSpec
  hasHelp : Bool
  hasVersion : Bool
  /-- The commands below this one, with what they are about. -/
  commands : List (String × String)
  deriving DecidableEq, Repr, Inhabited

namespace OptionSpec

/-- The option as it is shown in help and complaints. -/
def shown (o : OptionSpec) : String :=
  "--" ++ o.name ++
    match o.valueName with
    | some v => " <" ++ v ++ ">"
    | none => ""

end OptionSpec

namespace OperandSpec

/-- The operand as it is shown, in angle brackets where it is required. -/
def shownAs (required : Bool) (o : OperandSpec) : String :=
  (if required then "<" ++ o.name ++ ">" else "[" ++ o.name ++ "]") ++
    (if o.many then "..." else "")

/-- The operand as it is shown in help. -/
def shown (o : OperandSpec) : String := o.shownAs o.required

end OperandSpec

/-! ## The program -/

/-- The name and version of the program. -/
def programName : String := "locwrap"

/-- The version of the program. -/
def programVersion : String := "0.1.0"

namespace Grammar

/-- The option for the form of reports. -/
def outputOption : OptionSpec :=
  ⟨"output", none, some "OUTPUT", "Output mode: human|json (default: human)"⟩

/-- The option for the root of the repository. -/
def repoRootOption : OptionSpec :=
  ⟨"repo-root", none, some "REPO_ROOT", "Repository root (default: current dir)"⟩

/-- The command that shows the version. -/
def version : Grammar where
  name := "version"
  call := "locwrap version"
  about := "Show version"
  longAbout := some "Print the current locwrap version."
  examples := none
  options := []
  operand := none
  hasHelp := true
  hasVersion := false
  commands := []

/-- The command that localizes files. -/
def wrap : Grammar where
  name := "wrap"
  call := "locwrap wrap"
  about := "Wrap string fields in files"
  longAbout := some (
    "Rewrite each file so recognised string literals become `" ++ braced " en: ... " ++ "`. " ++
    "Files are overwritten in place unless --dry-run, --diff, --check or --out-dir is given.")
  examples := some ("Examples:\n  locwrap wrap src/data/drills.ts\n  locwrap wrap --check\n" ++
    "  locwrap wrap 'src/data/*.ts' --output json --dry-run")
  options := [repoRootOption,
    ⟨"dry-run", none, none, "Report changes without writing"⟩,
    ⟨"out-dir", none, some "OUT_DIR", "Write results under this directory instead of in place"⟩,
    ⟨"diff", none, none, "Show changed lines (implies --dry-run)"⟩,
    ⟨"check", none, none, "Exit non-zero if changes would occur (implies --dry-run)"⟩,
    outputOption]
  operand := some ⟨"PATHS", false, true,
    "Files or glob patterns (default: `patterns` from locwrap.toml)"⟩
  hasHelp := true
  hasVersion := false
  commands := []

/-- The command that shows the classes of lines. -/
def classify : Grammar where
  name := "classify"
  call := "locwrap classify"
  about := "Classify lines of a file"
  longAbout := some ("Print the structural class of every line and mark the lines that would be " ++
    "rewritten. Never writes.")
  examples := none
  options := [repoRootOption, outputOption]
  operand := some ⟨"PATH", true, false, "File to inspect"⟩
  hasHelp := true
  hasVersion := false
  commands := []

/-- The command that shows the rules. -/
def rules : Grammar where
  name := "rules"
  call := "locwrap rules"
  about := "List line rules"
  longAbout := some "Print the line matchers in the order they are tried."
  examples := none
  options := [outputOption]
  operand := none
  hasHelp := true
  hasVersion := false
  commands := []

/-- The command that shows help on commands. -/
def help : Grammar where
  name := "help"
  call := "locwrap help"
  about := "Print this message or the help of the given subcommand(s)"
  longAbout := none
  examples := none
  options := []
  operand := some ⟨"COMMAND", false, true, "Print help for the subcommand(s)"⟩
  hasHelp := false
  hasVersion := false
  commands := []

/-- **The commands of the program.** -/
def subcommands : List Grammar := [version, wrap, classify, rules, help]

/-- **The program itself.** -/
def root : Grammar where
  name := programName
  call := programName
  about := "Wrap drill string fields as localized values"
  longAbout := some ("locwrap — rewrite drill / training-focus record files so that `name`, " ++
    "`description` and `setup` strings and array string items become `" ++
    braced " en: '...' " ++ "` " ++
    "localized values.\n\nConfiguration precedence: CLI > locwrap.toml > defaults.")
  examples := some ("Examples:\n" ++
    "  locwrap wrap src/data/drills.ts src/data/training-focuses.ts\n" ++
    "  locwrap wrap 'src/data/*.ts' --diff\n" ++
    "  locwrap wrap --out-dir build/localized\n" ++
    "  locwrap classify src/data/drills.ts")
  options := []
  operand := none
  hasHelp := true
  hasVersion := true
  commands := subcommands.map fun g => (g.name, g.about)

/-- The command with a given name below another one. -/
def command? (g : Grammar) (name : String) : Option Grammar :=
  if g.commands.isEmpty then none else subcommands.find? fun c => c.name == name

end Grammar

end CommandLine

end LocaleWrap
