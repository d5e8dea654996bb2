import VerifiableMix.Engine
import VerifiableMix.Json.Reader

/-!
# Configuration

The settings of the engine: the number of workers, if it is fixed, and the
backend.  They come from environment variables or from a JSON record; what is
missing keeps its default.

The value of a variable may be surrounded by white space of any script.

The default number of workers depends on the machine, and so does whether workers
can be started at all; a `Machine` says both.
-/

namespace VerifiableMix

/-! ## Numbers and white space -/

/-- Is the character white space by the property White_Space? -/
def isWhiteSpace (c : Char) : Bool :=
  let n := c.toNat
  (9 ≤ n && n ≤ 13) || n = 0x20 || n = 0x85 || n = 0xA0 || n = 0x1680 ||
    (0x2000 ≤ n && n ≤ 0x200A) || n = 0x2028 || n = 0x2029 || n = 0x202F || n = 0x205F ||
    n = 0x3000

/-- A text without the white space around it. -/
def trimWhiteSpace (text : String) : String :=
  let front := text.toList.dropWhile isWhiteSpace
  String.ofList (front.reverse.dropWhile isWhiteSpace).reverse

/-- The number that decimal digits stand for, behind a given number; it fits a
64-bit word.  A digit that does not fit is reported before a later character that is no digit. -/
def readDecimal (value : Nat) : List Char → Except NumberFault Nat
  | [] => .ok value
  | c :: rest =>
    if c.isDigit then
      let next := 10 * value + (c.toNat - 48)
      if next < UInt64.size then readDecimal next rest else .error .tooLarge
    else .error .invalidDigit

/-- The number that a text stands for: digits, perhaps behind a plus sign. -/
def readWordNumber (text : String) : Except NumberFault Nat :=
  match text.toList with
  | [] => .error .empty
  | ['+'] => .error .invalidDigit
  | '+' :: digits => readDecimal 0 digits
  | digits => readDecimal 0 digits

/-! ## The machine -/

/-- What an engine depends on besides its settings. -/
structure Machine where
  /-- The number of cores, if it is known. -/
  cores : Option Nat := none
  /-- Why that many workers cannot be started side by side, if they cannot. -/
  refusal : Nat → Option String := fun _ => none
  /-- Which one of several failing units the workers meet first. -/
  race : Nat := 0

/-- A machine of which only the number of cores matters. -/
instance : Coe Nat Machine :=
  ⟨fun cores => { cores := some cores }⟩

/-- The number of workers when none is set: three quarters of the cores, and at least
one.  A machine with an unknown number of cores counts as one with a single core. -/
def Machine.workers (machine : Machine) : Nat :=
  max (machine.cores.getD 1 * 3 / 4) 1

/-! ## Settings -/

/-- The settings of the engine. -/
structure Config where
  /-- The number of workers; if missing, it depends on the machine. -/
  workers : Option Nat
  backend : Backend
deriving DecidableEq, Repr

namespace Config

/-- The settings when nothing is set. -/
def standard : Config :=
  { workers := none, backend := Backend.standard }

/-- The values of the environment variables, where they are set. -/
structure Environment where
  workers : Option String
  backend : Option String

/-- The settings that an environment makes. -/
def ofEnvironment (environment : Environment) : Except Error Config := do
  let workers ← match environment.workers with
    | none => pure none
    | some text =>
      match readWordNumber (trimWhiteSpace text) with
      | .ok n => pure (some n)
      | .error fault => throw (.configuration (.workers text fault))
  let backend ← match environment.backend with
    | none => pure Backend.standard
    | some text => Backend.ofName (trimWhiteSpace text)
  return { workers, backend }

/-- The engine with these settings on a machine, or why its workers cannot be started.
A single worker needs no start. -/
def engine (config : Config) (machine : Machine) : Except String Engine := do
  let workers := config.workers.getD machine.workers
  if 2 ≤ workers then
    if let some reason := machine.refusal workers then throw reason
  return { Engine.create workers config.backend with race := machine.race }

/-- The form of settings in diagnostics. -/
def describe (config : Config) : String :=
  let workers := match config.workers with
    | none => "None"
    | some n => "Some(" ++ toString n ++ ")"
  let backend := match config.backend with
    | .direct => "Direct"
    | .windowed => "Windowed"
  "MixnetConfig \x7b nthreads: " ++ workers ++ ", prodpow: " ++ backend ++ " \x7d"

/-! ## JSON -/

/-- The machine number that a JSON value stands for: decimal digits alone. -/
def wordOfJson? : Json → Option Nat
  | .number literal =>
    if literal.startsWith "-" then none else (readDecimal 0 literal.toList).toOption
  | _ => none

/-- The number of workers that a JSON value stands for; null leaves it open. -/
def workersOfJson? : Json → Option (Option Nat)
  | .null => some none
  | value => (wordOfJson? value).map some

/-- The backend with an exact name. -/
def backendOfExactName? (name : String) : Option Backend :=
  if name = Backend.direct.name then some .direct
  else if name = Backend.windowed.name then some .windowed
  else none

/-- The backend that a JSON value stands for: its name, or an object whose only
field has that name and the value null. -/
def backendOfJson? : Json → Option Backend
  | .string (some name) => backendOfExactName? name
  | .object [(some name, .null)] => backendOfExactName? name
  | _ => none

/-- The settings that a JSON value stands for. -/
def ofJsonValue? (value : Json) : Option Config := do
  let [workers, backend] ← value.optionalFields? ["nthreads", "prodpow"] | none
  return {
    workers := ← (workers.map workersOfJson?).getD (some none)
    backend := ← (backend.map backendOfJson?).getD (some Backend.standard) }

/-- The settings that a JSON text stands for. -/
def ofJson (text : String) : Except Error Config :=
  match Json.parse text >>= ofJsonValue? with
  | some config => .ok config
  | none => .error .serialization

end Config

end VerifiableMix
