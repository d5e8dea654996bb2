import VerifiableMix.CommandLine
import VerifiableMix.Proof.Json

/-!
# The command

Reads the arguments, the environment and the input file, runs the mix with
random bytes of the system, and writes `Shuffled.bin` and `Proof.json`.
-/

namespace VerifiableMix.CommandLine

/-- The answer to a request for help. -/
def helpText : String :=
  "Verifiable re-encryption mix node\n\n" ++
  "Usage: mixnetbin [OPTIONS] --mix <MIX>\n\n" ++
  "Options:\n" ++
  "      --mix <MIX>          Mix identifier; binds the generators and the proof\n" ++
  "      --width <WIDTH>      Row width W (ciphertexts per row) of generated demo rows [default: 1]\n" ++
  "      --rows <ROWS>        Number of demo rows to encrypt when no input is given [default: 10]\n" ++
  "      --input <INPUT>      Bincode row set (public key and rows) to shuffle\n" ++
  "      --out <OUT>          Output directory for Shuffled.bin and Proof.json [default: .]\n" ++
  "      --threads <THREADS>  Worker threads; overrides MIXNET_THREADS\n" ++
  "      --prodpow <PRODPOW>  Exponentiation backend (direct or windowed); overrides MIXNET_PRODPOW\n" ++
  "      --group <GROUP>      Group parameters [default: test] [possible values: test, production]\n" ++
  "  -h, --help               Print help\n" ++
  "  -V, --version            Print version\n"

/-- The machine that the command takes itself to run on.  The number of cores is not asked
for, so without a setting there is one worker.  Whatever their number, the units run one
after the other: no worker is refused, and the first unit that fails is met first. -/
def machine : Machine := {}

/-- Writes the output into a directory. -/
def writeOutput (directory : String) (output : Output) : IO Unit := do
  IO.FS.createDirAll directory
  IO.FS.writeBinFile (directory ++ "/Shuffled.bin") ⟨output.rowSet.toBytes.toArray⟩
  IO.FS.writeFile (directory ++ "/Proof.json") output.proof.toJson

/-- The bytes of a file; nothing if it cannot be read. -/
def readFile? (path : String) : IO (Option Bytes) := do
  try
    let bytes ← IO.FS.readBinFile path
    return some bytes.data.toList
  catch _ => return none

/-- Runs the mix with the given options. -/
def runOptions (options : Options) : IO UInt32 := do
  let environment : Config.Environment :=
    { workers := ← IO.getEnv workersVariable, backend := ← IO.getEnv backendVariable }
  let file ← match options.input with
    | none => pure none
    | some path => readFile? path
  let seed ← IO.getRandomBytes 64
  let source := ByteSource.ofTape [] seed.data.toList
  match (run Oracle.standard machine environment options file).run.run source with
  | (.error failure, _) =>
    IO.eprintln ("Error: " ++ failure.message)
    return 1
  | (.ok output, _) =>
    writeOutput options.out output
    return 0

end VerifiableMix.CommandLine

open VerifiableMix.CommandLine in
/-- The command. -/
def main (arguments : List String) : IO UInt32 := do
  match Request.ofArguments arguments with
  | .run options => runOptions options
  | .help =>
    IO.print helpText
    return 0
  | .version =>
    IO.println "mixnetbin 0.1.0"
    return 0
  | .usageError =>
    IO.eprintln "error: the arguments are not understood; --help shows the usage"
    return 2
