/-!
# Usage errors

What is wrong with a command line, and how it is said. `usage` is the summary of the command that
was given.
-/

namespace Mutagen.Command

inductive UsageError
  | unexpected (argument usage : String) (mayBeOperand : Bool)
  | valueRequired (option : String)
  | valueUnexpected (value option usage : String)
  | repeated (option usage : String)
  | operandRequired (operand usage : String)
  | unknownCommand (name usage : String)
  | noCommand (usage : String)
  deriving BEq, DecidableEq, Repr

namespace UsageError

def complaint : UsageError → String
  | .unexpected argument _ _ => s!"unexpected argument '{argument}' found"
  | .valueRequired option => s!"a value is required for '{option}' but none was supplied"
  | .valueUnexpected value option _ =>
    s!"unexpected value '{value}' for '{option}' found; no more were expected"
  | .repeated option _ => s!"the argument '{option}' cannot be used multiple times"
  | .operandRequired operand _ =>
    s!"the following required arguments were not provided:\n  {operand}"
  | .unknownCommand name _ => s!"unrecognized subcommand '{name}'"
  | .noCommand _ => "a subcommand is required but none was provided"

def usage? : UsageError → Option String
  | .unexpected _ usage _ => some usage
  | .valueRequired _ => none
  | .valueUnexpected _ _ usage => some usage
  | .repeated _ usage => some usage
  | .operandRequired _ usage => some usage
  | .unknownCommand _ usage => some usage
  | .noCommand usage => some usage

def tip? : UsageError → Option String
  | .unexpected argument _ true =>
    some s!"tip: to pass '{argument}' as a value, use '-- {argument}'"
  | _ => none

def message (e : UsageError) : String :=
  "error: " ++ e.complaint ++ "\n\n" ++
    (match e.tip? with
      | some tip => "  " ++ tip ++ "\n\n"
      | none => "") ++
    (match e.usage? with
      | some usage => "Usage: " ++ usage ++ "\n\n"
      | none => "") ++
    "For more information, try '--help'.\n"

end UsageError

end Mutagen.Command
