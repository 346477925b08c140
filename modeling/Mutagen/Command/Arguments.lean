import Mutagen.Command.Usage

/-!
# Command lines

Options may stand anywhere after the name of the command, and `--` ends them. The value of an
option is the next argument or what follows a `=`; behind a short name it may also follow at once.
-/

namespace Mutagen.Command

structure MutateOptions where
  files : List String
  operators : List String
  parallel : Bool
  json : Bool
  diff : Bool
  deriving BEq, DecidableEq, Repr

structure InstrumentOptions where
  file : String
  object : Option String
  output : Option String
  map : Option String
  deriving BEq, DecidableEq, Repr

inductive Request
  | mutate (options : MutateOptions)
  | instrument (options : InstrumentOptions)
  | operators
  | version
  deriving BEq, DecidableEq, Repr

namespace Request

def inputs : Request → List String
  | .mutate options => options.files
  | .instrument options => [options.file]
  | .operators | .version => []

def outputs : Request → List String
  | .instrument options => options.output.toList ++ options.map.toList
  | .mutate _ | .operators | .version => []

end Request

-- ---------------------------------------------------------------------------
-- Forms of commands
-- ---------------------------------------------------------------------------

/-- An option; one with a placeholder takes a value, any other is a switch. -/
structure OptionForm where
  long : String
  short : Option Char
  placeholder : Option String
  repeatable : Bool
  deriving BEq, DecidableEq, Repr

def OptionForm.shown (o : OptionForm) : String :=
  match o.placeholder with
  | some placeholder => "--" ++ o.long ++ " <" ++ placeholder ++ ">"
  | none => "--" ++ o.long

/-- `operands` is the number of operands that a command takes at most. -/
structure Form where
  usage : String
  options : List OptionForm
  operands : Option Nat
  deriving BEq, DecidableEq, Repr

inductive Item
  | operand (text : String)
  | option (long : String) (value : Option String)
  deriving BEq, DecidableEq, Repr

namespace Form

structure Spelling where
  name : String
  form? : Option OptionForm
  value : Option String

def long (form : Form) (body : List Char) : Spelling :=
  let name := String.ofList (body.takeWhile (· != '='))
  { name := "--" ++ name
    form? := form.options.find? (·.long == name)
    value := match body.dropWhile (· != '=') with
      | [] => none
      | _ :: value => some (String.ofList value) }

def short (form : Form) (letter : Char) (rest : List Char) : Spelling :=
  { name := String.ofList ['-', letter]
    form? := form.options.find? (·.short == some letter)
    value := match rest with
      | [] => none
      | '=' :: value => some (String.ofList value)
      | value => some (String.ofList value) }

/-- The option that an argument spells, or none if the argument is an operand. -/
def spelling? (form : Form) (argument : String) : Option Spelling :=
  match argument.toList with
  | '-' :: '-' :: body => some (form.long body)
  | '-' :: letter :: rest => some (form.short letter rest)
  | _ => none

def isValue (argument : String) : Bool := !argument.startsWith "-" || argument == "-"

def operand (form : Form) (used : Nat) (text : String) : Except UsageError Item :=
  if form.operands.all (used < ·) then .ok (.operand text)
  else .error (.unexpected text form.usage false)

def onlyOperands (form : Form) : Nat → List String → Except UsageError (List Item)
  | _, [] => .ok []
  | used, text :: rest => do
    let item ← form.operand used text
    return item :: (← onlyOperands form (used + 1) rest)

/-- Cuts the arguments of a command into items. `used` counts the operands so far and `seen` holds
the options so far. -/
def items (form : Form) (used : Nat) (seen : List String) :
    List String → Except UsageError (List Item)
  | [] => .ok []
  | "--" :: rest => onlyOperands form used rest
  | argument :: rest =>
    match form.spelling? argument with
    | none => do
      let item ← form.operand used argument
      return item :: (← items form (used + 1) seen rest)
    | some spelling =>
      match spelling.form? with
      | none => .error (.unexpected spelling.name form.usage (form.operands != some 0))
      | some o =>
        if seen.contains o.long && !o.repeatable then .error (.repeated o.shown form.usage)
        else match o.placeholder, spelling.value, rest with
          | none, none, rest => do
            return .option o.long none :: (← items form used (o.long :: seen) rest)
          | none, some value, _ => .error (.valueUnexpected value o.shown form.usage)
          | some _, some value, rest => do
            return .option o.long (some value) :: (← items form used (o.long :: seen) rest)
          | some _, none, value :: rest =>
            if isValue value then do
              return .option o.long (some value) :: (← items form used (o.long :: seen) rest)
            else .error (.valueRequired o.shown)
          | some _, none, [] => .error (.valueRequired o.shown)

end Form

namespace Item

def operands (items : List Item) : List String :=
  items.filterMap fun
    | .operand text => some text
    | .option .. => none

def values (items : List Item) (long : String) : List String :=
  items.filterMap fun
    | .operand _ => none
    | .option name value => if name = long then value else none

def isSet (items : List Item) (long : String) : Bool := items.contains (.option long none)

end Item

-- ---------------------------------------------------------------------------
-- The commands
-- ---------------------------------------------------------------------------

def usage : String := "jsmutate <COMMAND>"

def mutateForm : Form where
  usage := "jsmutate mutate [OPTIONS] [FILES]..."
  options := [
    ⟨"operator", some 'o', some "OPERATORS", true⟩,
    ⟨"parallel", none, none, false⟩,
    ⟨"json", none, none, false⟩,
    ⟨"diff", none, none, false⟩]
  operands := none

def instrumentForm : Form where
  usage := "jsmutate instrument [OPTIONS] <FILE>"
  options := [
    ⟨"coverage-variable", none, some "COVERAGE_VARIABLE", false⟩,
    ⟨"output", some 'o', some "OUTPUT", false⟩,
    ⟨"statement-map", none, some "STATEMENT_MAP", false⟩]
  operands := some 1

def operatorsForm : Form where
  usage := "jsmutate operators"
  options := []
  operands := some 0

def mutateRequest (arguments : List String) : Except UsageError Request := do
  let items ← mutateForm.items 0 [] arguments
  return .mutate {
    files := Item.operands items
    operators := Item.values items "operator"
    parallel := Item.isSet items "parallel"
    json := Item.isSet items "json"
    diff := Item.isSet items "diff" }

def instrumentRequest (arguments : List String) : Except UsageError Request := do
  let items ← instrumentForm.items 0 [] arguments
  match Item.operands items with
  | [] => .error (.operandRequired "<FILE>" "jsmutate instrument <FILE>")
  | file :: _ => return .instrument {
      file
      object := (Item.values items "coverage-variable").head?
      output := (Item.values items "output").head?
      map := (Item.values items "statement-map").head? }

def request : List String → Except UsageError Request
  | [] => .error (.noCommand usage)
  | "--version" :: _ | "-V" :: _ => .ok .version
  | "mutate" :: rest => mutateRequest rest
  | "instrument" :: rest => instrumentRequest rest
  | "operators" :: rest => (operatorsForm.items 0 [] rest).map fun _ => .operators
  | argument :: _ =>
    if argument.startsWith "-" && argument != "-" then
      .error (.unexpected argument usage false)
    else .error (.unknownCommand argument usage)

end Mutagen.Command
