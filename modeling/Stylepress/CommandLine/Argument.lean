import Stylepress.Css.Level
import Stylepress.Text.Integer
import Stylepress.Text.Pieces

/-!
The arguments of a command. An option is written `--name`, with its value behind `=` or as the next
argument, or by its letter, as `-n`, with the value right behind it, behind `=`, or as the next
argument. A value that is an argument of its own does not start with a hyphen, unless it is the hyphen
alone. Behind `--` everything is an operand. Arguments are read from the left: a call for help is heard
if nothing is wrong before it, and nothing behind it is read.
-/
namespace Stylepress.CommandLine

open Css (Level)

/-- A level as an argument: a number, where all but four mean the mildest, or a name. -/
def level? (t : Text) : Option Level :=
  match Text.integer? t with
  | some number => some (Level.coerce number)
  | none => Level.ofName? t

/-- What a value has to be. -/
inductive Kind where
  | text
  /-- A path on disk, which is not empty. -/
  | path
  | level
deriving DecidableEq, Repr

def Kind.accepts : Kind → Text → Bool
  | .text, _ => true
  | .path, value => !value.isEmpty
  | .level, value => (level? value).isSome

/-- A value that an option or an operand has. -/
structure Slot where
  /-- How help calls it. -/
  label : String
  kind : Kind
deriving DecidableEq, Repr

/-- An option that a command knows. -/
structure Known where
  name : Text
  letter : Option Char := none
  /-- Its value, if it has one. -/
  slot : Option Slot := none
  about : String
deriving DecidableEq, Repr

/-- The call for help. -/
def Known.help : Known where
  name := "help".toList
  letter := some 'h'
  about := "Print help"

/-- The operands of a command. -/
structure Operands where
  slot : Slot
  isRequired : Bool := false
  areSeveral : Bool := false
  about : String
deriving DecidableEq, Repr

/-- What a command takes. -/
structure Form where
  name : Text
  about : String
  operands : Operands
  options : List Known
deriving DecidableEq, Repr

/-- An argument as a command understands it. -/
inductive Argument where
  | flag (name : Text)
  | option (name value : Text)
  | operand (text : Text)
  | help
deriving DecidableEq, Repr

/-- What one argument says about itself. -/
inductive Reading where
  | operand
  | unknown
  | help
  | complete (argument : Argument)
  /-- An option whose value is the next argument. -/
  | awaiting (name : Text)
deriving DecidableEq, Repr

/-- The reading of a known option with the value attached to it, if any. -/
def Known.reading (option : Known) (attached : Option Text) : Reading :=
  match option.slot, attached with
  | none, none => if option = .help then .help else .complete (.flag option.name)
  | none, some _ => .unknown
  | some _, none => .awaiting option.name
  | some _, some value => .complete (.option option.name value)

/-- The reading of an option given by its name, behind the two hyphens. -/
def readName (known : List Known) (body : Text) : Reading :=
  let (name, value) :=
    match Text.splitFirst '=' body with
    | some (name, value) => (name, some value)
    | none => (body, none)
  match known.find? (·.name == name) with
  | some option => option.reading value
  | none => .unknown

/-- The reading of an option given by its letter, behind the hyphen. -/
def readLetter (known : List Known) (letter : Char) (attached : Text) : Reading :=
  match known.find? (·.letter == some letter) with
  | some option =>
    match option.slot, attached with
    -- Help is the one option with a letter and no value, and what is attached to it is not read.
    | none, _ => option.reading none
    | some _, [] => option.reading none
    | some _, '=' :: value => option.reading (some value)
    | some _, value => option.reading (some value)
  | none => .unknown

def readOne (known : List Known) : Text → Reading
  | '-' :: '-' :: body => readName known body
  | '-' :: letter :: attached => readLetter known letter attached
  | _ => .operand

/-- Whether an argument cannot be the value of the option before it. -/
def isHyphenated : Text → Bool
  | '-' :: _ :: _ => true
  | _ => false

/-- The arguments as a command understands them, up to a call for help; none if some are not its own. -/
def read? (known : List Known) : List Text → Option (List Argument)
  | [] => some []
  | [argument] =>
    if argument = ['-', '-'] then some []
    else
      match readOne known argument with
      | .operand => some [.operand argument]
      | .complete understood => some [understood]
      | .help => some [.help]
      | .unknown | .awaiting _ => none
  | argument :: next :: rest =>
    if argument = ['-', '-'] then some ((next :: rest).map .operand)
    else
      match readOne known argument with
      | .operand => (read? known (next :: rest)).map (.operand argument :: ·)
      | .complete understood => (read? known (next :: rest)).map (understood :: ·)
      | .help => some [.help]
      | .unknown => none
      | .awaiting name =>
        if isHyphenated next then none
        else (read? known rest).map (.option name next :: ·)

def operands (arguments : List Argument) : List Text :=
  arguments.filterMap fun
    | .operand text => some text
    | _ => none

def optionNames (arguments : List Argument) : List Text :=
  arguments.filterMap fun
    | .flag name => some name
    | .option name _ => some name
    | .operand _ | .help => none

def hasFlag (arguments : List Argument) (name : Text) : Bool := arguments.contains (.flag name)

def asksHelp (arguments : List Argument) : Bool := arguments.contains .help

def value? (arguments : List Argument) (name : Text) : Option Text :=
  arguments.findSome? fun
    | .option other value => if other = name then some value else none
    | _ => none

/-- Whether no element of a list is there twice. -/
def areDistinct : List Text → Bool
  | [] => true
  | name :: rest => !rest.contains name && areDistinct rest

namespace Form

/-- Whether the value of an argument is of its kind. -/
def accepts (form : Form) : Argument → Bool
  | .option name value =>
    match (form.options.find? (·.name == name)).bind (·.slot) with
    | some slot => slot.kind.accepts value
    | none => false
  | .operand text => form.operands.slot.kind.accepts text
  | .flag _ | .help => true

/-- Whether there are no more operands than the command takes. -/
def hasRoom (form : Form) (arguments : List Argument) : Bool :=
  form.operands.areSeveral || (CommandLine.operands arguments).length ≤ 1

/-- The arguments as the command understands them, up to a call for help: each of its options at most
    once, and every value of its kind. What has to be there, and what may not go together, is not asked
    yet. -/
def understand? (form : Form) (arguments : List Text) : Option (List Argument) :=
  match read? form.options arguments with
  | some understood =>
    if areDistinct (optionNames understood) && understood.all form.accepts && form.hasRoom understood
    then some understood
    else none
  | none => none

end Form

end Stylepress.CommandLine
