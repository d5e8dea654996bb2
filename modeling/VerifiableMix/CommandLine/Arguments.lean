import VerifiableMix.Config
import VerifiableMix.Group.Builtin

/-!
# Command-line arguments

Every option has a long name and a value, given behind an equals sign or as the
next argument; the next argument is a value unless it begins with a dash and
goes on.  An option may be given once.  Requests for help or for the version
are answered as soon as they are met, unless an earlier argument is wrong.
-/

namespace VerifiableMix.CommandLine

/-- The groups that can be asked for. -/
inductive GroupChoice where
  | test
  | production
deriving DecidableEq, Repr

/-- The parameters of a choice. -/
def GroupChoice.group : GroupChoice → Group
  | test => Group.test
  | production => Group.production

/-- What a run of the mix is asked to do. -/
structure Options where
  /-- The name of the mix. -/
  mix : String
  /-- The width of demonstration rows. -/
  width : Nat
  /-- The number of demonstration rows. -/
  rows : Nat
  /-- The row set to shuffle; without one, demonstration rows are made. -/
  input : Option String
  /-- The directory for the output. -/
  out : String
  /-- The number of workers; goes before the environment. -/
  workers : Option Nat
  /-- The backend; goes before the environment. -/
  backend : Option Backend
  group : GroupChoice
deriving DecidableEq, Repr

/-- What the arguments ask for. -/
inductive Request where
  | run (options : Options)
  | help
  | version
  /-- The arguments are not understood. -/
  | usageError
deriving DecidableEq, Repr

/-- The options by name. -/
inductive OptionName where
  | mix
  | width
  | rows
  | input
  | out
  | threads
  | prodpow
  | group
deriving DecidableEq, Repr

/-- The option with a long name. -/
def OptionName.ofLong? : String → Option OptionName
  | "mix" => some .mix
  | "width" => some .width
  | "rows" => some .rows
  | "input" => some .input
  | "out" => some .out
  | "threads" => some .threads
  | "prodpow" => some .prodpow
  | "group" => some .group
  | _ => none

/-- The options given so far. -/
structure Given where
  mix : Option String := none
  width : Option Nat := none
  rows : Option Nat := none
  input : Option String := none
  out : Option String := none
  workers : Option Nat := none
  backend : Option Backend := none
  group : Option GroupChoice := none

/-- Sets a value that was not set before. -/
def setOnce {α : Type} (old : Option α) (value : Option α) : Option (Option α) :=
  match old, value with
  | none, some value => some (some value)
  | _, _ => none

/-- A path; the empty text is none. -/
def pathOfText? (text : String) : Option String :=
  if text.isEmpty then none else some text

/-- The group with a name. -/
def groupOfText? : String → Option GroupChoice
  | "test" => some .test
  | "production" => some .production
  | _ => none

/-- Takes note of an option, unless its value is wrong or it was given before. -/
def Given.set (given : Given) (name : OptionName) (text : String) : Option Given := do
  match name with
  | .mix => return { given with mix := ← setOnce given.mix (some text) }
  | .width => return { given with width := ← setOnce given.width (readWordNumber text).toOption }
  | .rows => return { given with rows := ← setOnce given.rows (readWordNumber text).toOption }
  | .input => return { given with input := ← setOnce given.input (pathOfText? text) }
  | .out => return { given with out := ← setOnce given.out (pathOfText? text) }
  | .threads =>
    return { given with workers := ← setOnce given.workers (readWordNumber text).toOption }
  | .prodpow =>
    return { given with backend := ← setOnce given.backend (Backend.ofName text).toOption }
  | .group => return { given with group := ← setOnce given.group (groupOfText? text) }

/-- The options with defaults for what was not given; the name of the mix has
none. -/
def Given.request (given : Given) : Request :=
  match given.mix with
  | none => .usageError
  | some mix =>
    .run
      { mix
        width := given.width.getD 1
        rows := given.rows.getD 10
        input := given.input
        out := given.out.getD "."
        workers := given.workers
        backend := given.backend
        group := given.group.getD .test }

/-- Splits the text behind the two dashes of a long option at the first equals
sign. -/
def splitLong (text : List Char) : String × Option String :=
  let name := String.ofList (text.takeWhile (· ≠ '='))
  match text.dropWhile (· ≠ '=') with
  | [] => (name, none)
  | _ :: value => (name, some (String.ofList value))

/-- Does the argument begin with a dash and go on? -/
def isFlag (argument : String) : Bool :=
  match argument.toList with
  | '-' :: _ :: _ => true
  | _ => false

/-- Reads the arguments one after the other. -/
def readFrom (given : Given) : List String → Request
  | [] => given.request
  | argument :: rest =>
    match argument.toList with
    | ['-', '-'] => if rest.isEmpty then given.request else .usageError
    | '-' :: '-' :: long =>
      match splitLong long with
      | ("help", none) => .help
      | ("version", none) => .version
      | (long, attached) =>
        match OptionName.ofLong? long, attached, rest with
        | some name, some value, rest =>
          match given.set name value with
          | some given => readFrom given rest
          | none => .usageError
        | some name, none, value :: rest =>
          if isFlag value then .usageError
          else
            match given.set name value with
            | some given => readFrom given rest
            | none => .usageError
        | _, _, _ => .usageError
    | '-' :: 'h' :: _ => .help
    | '-' :: 'V' :: _ => .version
    | _ => .usageError

/-- What a list of arguments asks for. -/
def Request.ofArguments (arguments : List String) : Request :=
  readFrom {} arguments

end VerifiableMix.CommandLine
