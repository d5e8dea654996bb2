import VerifiableMix.CommandLine.Arguments
import VerifiableMix.Mix
import VerifiableMix.RowSet

/-!
# A run of the mix

A run takes a row set, shuffles it, proves the shuffle, verifies the proof and
gives the mixed row set and the proof for output.  The row set is read from the
bytes of a file, or made up for a demonstration.

A run is a function of the machine, its options, the environment, the bytes of
the input file and a source of random bytes; reading and writing files is left
to the program.  It takes its random choices from the source before it mixes:
`mixWith` is the mix with fixed draws.
-/

namespace VerifiableMix.CommandLine

/-- Why a run ends without output. -/
inductive Failure where
  | error (cause : Error)
  /-- The workers cannot be started. -/
  | workerPool (reason : String)
  /-- The input file cannot be read. -/
  | unreadable (path : String)
  /-- The input file holds no row set. -/
  | undecodable (path : String)
  /-- Demonstration rows were asked for without number or width. -/
  | emptyDemonstration
  /-- The proof of the shuffle was rejected. -/
  | unverified
deriving DecidableEq, Repr

/-- The wording of a failure. -/
def Failure.message : Failure → String
  | error cause => cause.message
  | workerPool reason => "worker pool error: " ++ reason
  | unreadable path => "reading " ++ path
  | undecodable path => "decoding " ++ path
  | emptyDemonstration => "--rows and --width must be positive"
  | unverified => "proof of shuffle did not verify"

/-- A step of a run: it draws random values and may fail. -/
abbrev Step := ExceptT Failure (StateM ByteSource)

/-- A sampler as a step. -/
def sampled {α : Type} (sampler : Sampler α) : Step α :=
  ExceptT.mk do
    match ← sampler.run with
    | .ok value => return .ok value
    | .error cause => return .error (.error cause)

/-- A result as a step. -/
def result {α : Type} (value : Except Error α) : Step α :=
  sampled (liftM value)

/-- What a run writes. -/
structure Output where
  rowSet : RowSet
  proof : ShuffleProof
deriving DecidableEq, Repr

/-! ## Input -/

/-- Encrypts the rows `first, …, first + count - 1` of a demonstration: row `i`
holds the exponents from `i * width` on. -/
def demonstrationRows (G : Group) (pk : PublicKey) (width : Nat) :
    Nat → Nat → Sampler (List Row)
  | 0, _ => return []
  | count + 1, first => do
    let ms := ScalarVector.ofNats ((List.range width).map fun k => first * width + k)
    let rs ← Sampler.scalars width
    let row ← liftM (Row.encrypt G pk ms rs)
    let rest ← demonstrationRows G pk width count (first + 1)
    return row :: rest

/-- A row set made up for a demonstration, under a fresh key. -/
def demonstration (G : Group) (count width : Nat) : Step RowSet := do
  if count = 0 ∨ width = 0 then throw .emptyDemonstration
  let keys ← sampled (KeyPair.sample G)
  let rows ← sampled (demonstrationRows G keys.publicKey width count 0)
  return { publicKey := keys.publicKey, rows }

/-- The row set in the bytes of a file, checked. -/
def readRowSet (G : Group) (path : String) (bytes : Bytes) : Except Failure RowSet := do
  let some set := RowSet.ofBytes? bytes | throw (.undecodable path)
  (set.validate G).mapError Failure.error
  return set

/-! ## The run -/

/-- Shuffles a row set with given draws, proves and verifies. -/
def mixWith (O : Oracle) (engine : Engine) (G : Group) (mixName : String) (set : RowSet)
    (draws : Draws) : Except Failure Output := do
  let (mixed, proof) ←
    (proveShuffle O engine G mixName set.publicKey set.rows draws).mapError Failure.error
  let statement : Statement := { pk := set.publicKey, rows := set.rows, mixed }
  match ← (verifyShuffle O engine G statement proof).mapError Failure.error with
  | .accepted => return { rowSet := { publicKey := set.publicKey, rows := mixed }, proof }
  | .rejected _ => throw .unverified

/-- Draws what the rows need, and mixes them. -/
def mix (O : Oracle) (engine : Engine) (G : Group) (mixName : String) (set : RowSet) :
    Step Output := do
  let width ← result (rowWidth set.rows)
  let draws ← sampled (Draws.sample set.rows.length width)
  liftM (mixWith O engine G mixName set draws)

/-- The settings of a run: those of the environment, and the options before
them. -/
def settings (environment : Config.Environment) (options : Options) : Except Error Config := do
  let config ← Config.ofEnvironment environment
  return {
    workers := options.workers.or config.workers
    backend := options.backend.getD config.backend }

/-- The row set to shuffle: that of the input file, if one is named, or one made
up for a demonstration.  `file` is what the named file holds; nothing if it
cannot be read. -/
def inputRows (G : Group) (options : Options) (file : Option Bytes) : Step RowSet :=
  match options.input with
  | none => demonstration G options.rows options.width
  | some path =>
    match file with
    | none => throw (.unreadable path)
    | some bytes => liftM (readRowSet G path bytes)

/-- The engine of a run on a machine. -/
def startEngine (machine : Machine) (environment : Config.Environment) (options : Options) :
    Except Failure Engine := do
  let config ← (settings environment options).mapError Failure.error
  (config.engine machine).mapError Failure.workerPool

/-- A run over a group; `file` is what the named input file holds. -/
def runIn (O : Oracle) (G : Group) (machine : Machine) (environment : Config.Environment)
    (options : Options) (file : Option Bytes) : Step Output := do
  let engine ← liftM (startEngine machine environment options)
  let set ← inputRows G options file
  mix O engine G options.mix set

/-- A run with the given options, over the group that they name. -/
def run (O : Oracle) (machine : Machine) (environment : Config.Environment)
    (options : Options) (file : Option Bytes) : Step Output :=
  runIn O options.group.group machine environment options file

end VerifiableMix.CommandLine
