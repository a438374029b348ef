import LocaleWrap.CommandLine.Grammar

/-! # Help texts

* **`Grammar.usage`** — how a command is called.
* **`Grammar.helpText`** — the help text of a command, short or long. -/

namespace LocaleWrap

namespace CommandLine

namespace Grammar

/-- **How a command is called.** -/
def usage (g : Grammar) : String :=
  g.call ++ (if g.options.isEmpty then "" else " [OPTIONS]") ++
    (match g.operand with
      | some o => " " ++ o.shown
      | none => "") ++
    (if g.commands.isEmpty then "" else " <COMMAND>")

/-- How a command is called with the parts that are in use already. An operand that is in use counts
as required. -/
def usageWith (g : Grammar) (used : List String) : String :=
  let options := used.filterMap fun name =>
    (g.options.find? fun o => o.name == name).map OptionSpec.shown
  let operand := match g.operand with
    | some o => [o.shownAs (o.required || used.contains o.name)]
    | none => []
  " ".intercalate (g.call :: options ++ operand)

/-- The left and right sides of the lines on options. -/
def optionLines (g : Grammar) (long : Bool) : List (String × String) :=
  let left := fun (o : OptionSpec) =>
    (match o.letter with
      | some c => "-" ++ c.toString ++ ", "
      | none => "    ") ++ o.shown
  let hint :=
    if g.longAbout.isNone then ""
    else if long then " (see a summary with '-h')" else " (see more with '--help')"
  let helpOption : OptionSpec := ⟨"help", some 'h', none, "Print help" ++ hint⟩
  let versionOption : OptionSpec := ⟨"version", some 'V', none, "Print version"⟩
  (g.options ++ (if g.hasHelp then [helpOption] else []) ++
    (if g.hasVersion then [versionOption] else [])).map fun o => (left o, o.help)

/-- Left and right sides in two columns. -/
def columns (lines : List (String × String)) : String :=
  let width := lines.foldl (fun w l => max w l.1.length) 0
  String.join (lines.map fun (left, right) =>
    "  " ++ left ++ String.ofList (List.replicate (width - left.length + 2) ' ') ++ right ++ "\n")

/-- The right side of each line below its left side. -/
def stacked (lines : List (String × String)) : String :=
  "\n".intercalate (lines.map fun (left, right) => "  " ++ left ++ "\n          " ++ right ++ "\n")

/-- A part of a help text below its title. -/
def titled (title : String) (body : String) : String :=
  if body.isEmpty then "" else "\n" ++ title ++ ":\n" ++ body

/-- **The help text of a command.** The long one says more where there is more to say. -/
def helpText (g : Grammar) (long : Bool) : String :=
  let long := long && g.longAbout.isSome
  let lay := if long then stacked else columns
  let operands := match g.operand with
    | some o => [(o.shown, o.help)]
    | none => []
  (if long then g.longAbout.getD g.about else g.about) ++ "\n\nUsage: " ++ g.usage ++ "\n" ++
    titled "Commands" (columns g.commands) ++
    titled "Arguments" (lay operands) ++
    titled "Options" (lay (g.optionLines long)) ++
    (match g.examples with
      | some t => "\n" ++ t ++ "\n"
      | none => "")

end Grammar

end CommandLine

end LocaleWrap
