import LocaleWrap.CommandLine.Help

/-! # Command lines that ask for nothing to be run

* **`Cause`** — why nothing is run: a wrong command line, or one that asks for help.
* **`Complaint`** — the cause with the command that was being read; **`Complaint.text`** what is
  said about it, **`Complaint.exitCode`** the exit status. -/

namespace LocaleWrap

namespace CommandLine

/-- **Why nothing is run.** -/
inductive Cause
  /-- Help is asked for. -/
  | help (long : Bool)
  /-- The version is asked for. -/
  | version
  /-- There is no command. -/
  | missingCommand
  /-- There is no such command. -/
  | unknownCommand (name : String)
  /-- There is no such option, or nothing more is taken. `asValue` says whether it could be passed
  as a value. -/
  | unknownArgument (argument : String) (asValue : Bool)
  /-- A command stands after two dashes. -/
  | commandAfterDashes (name : String)
  /-- An operand is missing. -/
  | missingOperand (shown : String)
  /-- An option has no value. -/
  | missingValue (shown : String)
  /-- A flag has a value. -/
  | unexpectedValue (value shown : String)
  /-- An option is there twice. -/
  | repeated (shown : String)
  deriving DecidableEq, Repr, Inhabited

namespace Cause

/-- What is wrong, in words. -/
def message : Cause → String
  | help _ => ""
  | version => ""
  | missingCommand => ""
  | unknownCommand name => "unrecognized subcommand '" ++ name ++ "'"
  | unknownArgument argument _ => "unexpected argument '" ++ argument ++ "' found"
  | commandAfterDashes name => "unexpected argument '" ++ name ++ "' found"
  | missingOperand shown => "the following required arguments were not provided:\n  " ++ shown
  | missingValue shown => "a value is required for '" ++ shown ++ "' but none was supplied"
  | unexpectedValue value shown =>
    "unexpected value '" ++ value ++ "' for '" ++ shown ++ "' found; no more were expected"
  | repeated shown => "the argument '" ++ shown ++ "' cannot be used multiple times"

/-- What could be done about it. -/
def tip? : Cause → Option String
  | unknownArgument argument true =>
    some ("to pass '" ++ argument ++ "' as a value, use '-- " ++ argument ++ "'")
  | commandAfterDashes name =>
    some ("subcommand '" ++ name ++ "' exists; to use it, remove the '--' before it")
  | _ => none

/-- Whether a reminder of the usage helps. -/
def showsUsage : Cause → Bool
  | missingValue _ => false
  | _ => true

end Cause

/-- **A cause with the command that was being read**, and the names of the options and operands that
had been read when it came up. -/
structure Complaint where
  cause : Cause
  grammar : Grammar
  used : List String
  deriving DecidableEq, Repr, Inhabited

namespace Complaint

/-- **What is said.** -/
def text (c : Complaint) : String :=
  match c.cause with
  | .help long => c.grammar.helpText long
  | .missingCommand => c.grammar.helpText false
  | .version => programName ++ " " ++ programVersion ++ "\n"
  | cause =>
    "error: " ++ cause.message ++
      (match cause.tip? with
        | some tip => "\n\n  tip: " ++ tip
        | none => "") ++
      (if cause.showsUsage then
        "\n\nUsage: " ++ (if c.used.isEmpty then c.grammar.usage else c.grammar.usageWith c.used)
        else "") ++
      (if c.grammar.hasHelp then "\n\nFor more information, try '--help'.\n" else "\n")

/-- Whether the command line was right and the text is what it asked for. -/
def isAnswer (c : Complaint) : Bool :=
  match c.cause with
  | .help _ => true
  | .version => true
  | _ => false

/-- **The exit status.** -/
def exitCode (c : Complaint) : Nat := if c.isAnswer then 0 else 2

end Complaint

end CommandLine

end LocaleWrap
