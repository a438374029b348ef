import LocaleWrap.CommandLine.Complaint
import LocaleWrap.Settings.Resolution

/-! # Reading the command line

* **`Request`** — what a command line asks for.
* **`Progress`** — what is known while the arguments of a command are read.
* **`Request.parse`** — the request of a command line, or the complaint about it. -/

namespace LocaleWrap

namespace CommandLine

/-- **What a command line asks for.** -/
inductive Request
  /-- The version. -/
  | version
  /-- To localize files. -/
  | wrap (paths : List Text) (overrides : Overrides)
  /-- To show the classes of the lines of a file. -/
  | classify (path : Text) (overrides : Overrides)
  /-- To show the rules. -/
  | rules (output : Option Text)
  deriving DecidableEq, Repr, Inhabited

/-! ## Reading arguments -/

/-- **What is known while the arguments of a command are read.** An option whose value is to come is
`pending`; it is entered once its value has come, and complained about when something else does. -/
structure Progress where
  grammar : Grammar
  /-- Options and operands with their values, in the order in which they were entered. -/
  entered : List (String × List Text)
  pending : Option (OptionSpec × List Text)
  /-- Whether two dashes have been passed, after which all is operands. -/
  dashes : Bool
  deriving Repr, Inhabited

namespace Progress

/-- The beginning of a command. -/
def start (g : Grammar) : Progress := ⟨g, [], none, false⟩

/-- The names of what has been entered, each once. -/
def used (p : Progress) : List String := (p.entered.map (·.1)).eraseDups

/-- A complaint that shows the usage of the command. -/
def complain {α : Type} (p : Progress) (cause : Cause) : Except Complaint α :=
  .error ⟨cause, p.grammar, []⟩

/-- Enters an option, which must not be there yet. -/
def enter (p : Progress) (o : OptionSpec) (values : List Text) : Except Complaint Progress :=
  if p.used.contains o.name then p.complain (.repeated o.shown)
  else .ok { p with entered := p.entered ++ [(o.name, values)] }

/-- **Enters the pending option**, whose value must have come. -/
def settle (p : Progress) : Except Complaint Progress :=
  match p.pending with
  | none => .ok p
  | some (o, []) => p.complain (.missingValue o.shown)
  | some (o, values) => { p with pending := none }.enter o values

/-- The pending option entered if it can be. -/
def settled (p : Progress) : Progress := p.settle.toOption.getD p

/-- An operand, where one more is taken. -/
def operand (p : Progress) (t : Text) : Except Complaint Progress :=
  match p.grammar.operand with
  | some o =>
    if o.many || !p.used.contains o.name then
      p.settle.map fun p => { p with entered := p.entered ++ [(o.name, [t])] }
    else p.complain (.unknownArgument t.asString false)
  | none => p.complain (.unknownArgument t.asString false)

/-- An option by its name, with the value that is attached to it. -/
def option (p : Progress) (name : Text) (attached : Option Text) : Except Complaint Progress :=
  let isHelp := p.grammar.hasHelp && name == "help".toList
  let isVersion := p.grammar.hasVersion && name == "version".toList
  match p.grammar.options.find? fun o => o.name.toList == name with
  | some o =>
    match o.valueName, attached with
    | some _, some v => p.settle.bind fun p => p.enter o [v]
    | some _, none => p.settle.map fun p => { p with pending := some (o, []) }
    | none, some v => .error ⟨.unexpectedValue v.asString o.shown, p.grammar, p.used⟩
    | none, none => p.settle.bind fun p => p.enter o []
  | none =>
    if isHelp || isVersion then
      match attached with
      | some v => .error ⟨.unexpectedValue v.asString ("--" ++ name.asString), p.grammar, p.used⟩
      | none => p.settle.bind fun p => p.complain (if isHelp then .help true else .version)
    else
      .error ⟨.unknownArgument ("--" ++ name.asString) p.grammar.operand.isSome, p.grammar,
        p.settled.used⟩

/-- An option by its letter. -/
def letter (p : Progress) (c : Char) : Except Complaint Progress :=
  if p.grammar.hasHelp && c == 'h' then p.settle.bind fun p => p.complain (.help false)
  else if p.grammar.hasVersion && c == 'V' then p.settle.bind fun p => p.complain .version
  else p.complain (.unknownArgument ("-" ++ c.toString) p.grammar.operand.isSome)

/-- **One argument.** Before two dashes it may be an option, or the value of a pending one. -/
def argument (p : Progress) (t : Text) : Except Complaint Progress :=
  if p.dashes then p.operand t
  else match t with
    | ['-', '-'] => .ok { p with dashes := true }
    | '-' :: '-' :: rest =>
      let name : Text := rest.takeWhile (· != '=')
      p.option name (if name.length < rest.length then some (rest.drop (name.length + 1)) else none)
    | '-' :: c :: _ => p.letter c
    | t =>
      match p.pending with
      | some (o, []) => .ok { p with pending := some (o, [t]) }
      | _ => p.operand t

/-- The arguments of a command, one after the other. A required operand must have come. -/
def finish (p : Progress) : Except Complaint Progress := do
  let p ← p.settle
  match p.grammar.operand with
  | some o =>
    if o.required && !p.used.contains o.name then
      .error ⟨.missingOperand o.shown, p.grammar, p.used ++ [o.name]⟩
    else return p
  | none => return p

/-- Whether a flag was entered. -/
def flag (p : Progress) (name : String) : Bool := p.used.contains name

/-- The values that were entered for a name. -/
def values (p : Progress) (name : String) : List Text :=
  (p.entered.filter fun e => e.1 == name).flatMap (·.2)

/-- The value that was entered for a name. -/
def value? (p : Progress) (name : String) : Option Text := (p.values name).head?

/-- A flag that was entered is set. -/
def set? (p : Progress) (name : String) : Option Bool := if p.flag name then some true else none

end Progress

/-! ## Commands -/

/-- The arguments of a command. -/
def readCommand (g : Grammar) (arguments : List Text) : Except Complaint Progress :=
  (arguments.foldlM Progress.argument (Progress.start g)).bind Progress.finish

/-- The request that the arguments of a command amount to. A report on classes never writes. -/
def requestOf (p : Progress) : Request :=
  match p.grammar.name with
  | "wrap" =>
    .wrap (p.values "PATHS") ⟨p.value? "repo-root", p.value? "output", p.set? "dry-run",
      p.value? "out-dir", p.set? "diff", p.set? "check"⟩
  | "classify" =>
    .classify ((p.value? "PATH").getD [])
      ⟨p.value? "repo-root", p.value? "output", some true, none, none, none⟩
  | "rules" => .rules (p.value? "output")
  | _ => .version

/-- Help on the command that names lead to. -/
def helpOn (g : Grammar) : List Text → Complaint
  | [] => ⟨.help true, g, []⟩
  | name :: names =>
    match g.command? name.asString with
    | some c => helpOn c names
    | none => ⟨.unknownCommand name.asString, g, []⟩

/-- Arguments before the command, of which only help and version mean anything. -/
def readRoot : List Text → Except Complaint Request
  | [] => .error ⟨.missingCommand, .root, []⟩
  | t :: ts =>
    match Grammar.root.command? t.asString with
    | some g =>
      if g.name = "help" then .error (helpOn .root ts)
      else (readCommand g ts).map requestOf
    | none =>
      match t with
      | ['-', '-'] =>
        match ts with
        | [] => .error ⟨.missingCommand, .root, []⟩
        | u :: _ =>
          if (Grammar.root.command? u.asString).isSome then
            .error ⟨.commandAfterDashes u.asString, .root, []⟩
          else .error ⟨.unknownCommand u.asString, .root, []⟩
      | '-' :: _ :: _ =>
        match (Progress.start .root).argument t with
        | .error c => .error c
        | .ok _ => .error ⟨.missingCommand, .root, []⟩
      | _ => .error ⟨.unknownCommand t.asString, .root, []⟩

/-- **The request of a command line**, given by the arguments after the program's name. -/
def Request.parse (arguments : List String) : Except Complaint Request :=
  readRoot (arguments.map Text.ofString)

end CommandLine

end LocaleWrap
