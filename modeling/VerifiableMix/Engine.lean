import VerifiableMix.PowerProduct
import VerifiableMix.Ciphertext.Row

/-!
# The exponentiation engine

An engine is a backend and a number of workers.  Work is split into units whose
results are put together in their order, so the number of workers never shows in
a result.  It can show in an error: workers that run side by side can meet
several failing units, and report the one that they meet first.

`Engine.powerProduct` raises a vector of elements to a vector of scalars and
multiplies, with one unit for each batch.  `Engine.columnPower` does so for
every column of a row set.  Its units are batches too, of the pads or of the
datas of one column: they are numbered column by column, in a column the pads
before the datas, and in a component batch by batch.

`plainColumnPower` computes the same columns one power at a time.
-/

namespace VerifiableMix

/-- A backend and the number of workers that share its work. -/
structure Engine where
  workers : Nat
  backend : Backend
  /-- Which one of several failing units is met first, when workers run side by
  side.  It depends on the machine and not on the work: the units are numbered
  in their order, and the number is counted round. -/
  race : Nat := 0
deriving DecidableEq, Repr

namespace Engine

/-- An engine with the given number of workers; there is always at least one. -/
def create (workers : Nat) (backend : Backend) : Engine :=
  { workers := max 1 workers, backend }

/-- The form of an engine in diagnostics. -/
def describe (engine : Engine) : String :=
  "Engine \x7b nthreads: " ++ toString engine.workers ++ ", prodpow: \"" ++
    engine.backend.name ++ "\" \x7d"

/-! ## Workers -/

/-- The errors of the units that fail, in the order of their inputs. -/
def faults {α β : Type} (inputs : List β) (unit : β → Except Error α) : List Error :=
  inputs.filterMap fun input =>
    match unit input with
    | .ok _ => none
    | .error error => some error

/-- The one of several errors that is reported: the first in order if there is a
single worker, and any of them if there are more. -/
def reported? (engine : Engine) (errors : List Error) : Option Error :=
  if engine.workers < 2 then errors.head? else errors[engine.race % errors.length]?

/-- Runs a unit on each of the inputs; the results in order, or the error that is
reported if units fail. -/
def runEach {α β : Type} (engine : Engine) (inputs : List β) (unit : β → Except Error α) :
    Except Error (List α) :=
  (inputs.mapM unit).mapError fun first =>
    (engine.reported? (faults inputs unit)).getD first

/-- Runs the units `0, …, n - 1`. -/
def runUnits {α : Type} (engine : Engine) (n : Nat) (unit : Nat → Except Error α) :
    Except Error (List α) :=
  engine.runEach (List.range n) unit

/-- The product of the results of batches, as an element. -/
def reduce (G : Group) (partials : List Nat) : Element :=
  G.prod (partials.map G.element)

/-! ## Batches -/

/-- The number of batches of `n` entries. -/
def batchCount (n : Nat) : Nat :=
  (n + (PowerProduct.maxBatch - 1)) / PowerProduct.maxBatch

/-- The entries of a batch; the last batch may be shorter. -/
def batch {α : Type} (xs : List α) (k : Nat) : List α :=
  (xs.drop (k * PowerProduct.maxBatch)).take PowerProduct.maxBatch

/-- The product of the powers of elements. -/
def powerProduct (engine : Engine) (G : Group) (bases : ElementVector) (exps : ScalarVector) :
    Except Error Element := do
  checkLength .vectorPower bases.length exps.length
  let bases := bases.values
  let exps := exps.map Scalar.val
  let partials ← engine.runUnits (batchCount bases.length) fun k =>
    engine.backend.powerProduct (batch bases k) (batch exps k) G.p
  return reduce G partials

/-! ## Columns -/

/-- A unit of a column product: a batch of one component of one column. -/
structure ColumnUnit where
  column : Nat
  isData : Bool
  batch : Nat
deriving DecidableEq, Repr

namespace ColumnUnit

/-- The unit with a number, when a column has the given number of batches. -/
def ofNumber (batches k : Nat) : ColumnUnit :=
  { column := k / (2 * batches)
    isData := k / batches % 2 = 1
    batch := k % batches }

/-- The bases of a unit. -/
def bases (unit : ColumnUnit) (rows : List Row) : List Nat :=
  (rowColumn (Engine.batch rows unit.batch) unit.column).map fun x =>
    if unit.isData then x.data.value else x.pad.value

end ColumnUnit

/-- Entries two by two; an entry without a partner is dropped. -/
def pairs {α : Type} : List α → List (α × α)
  | x :: y :: rest => (x, y) :: pairs rest
  | _ => []

/-- For every column of a row set, the product of its ciphertexts raised to the
exponents of their rows. -/
def columnPower (engine : Engine) (G : Group) (rows : List Row) (exps : ScalarVector) :
    Except Error Row := do
  let width ← rowWidth rows
  checkLength .columnPower rows.length exps.length
  let exps := exps.map Scalar.val
  let batches := batchCount rows.length
  let partials ← engine.runUnits (width * 2 * batches) fun k =>
    let unit := ColumnUnit.ofNumber batches k
    engine.backend.powerProduct (unit.bases rows) (batch exps unit.batch) G.p
  let components := (chunks batches partials).map (reduce G)
  return (pairs components).map fun (pad, data) => { pad, data }

end Engine

/-- The column products of a row set, one power at a time. -/
def plainColumnPower (G : Group) (rows : List Row) (exps : ScalarVector) : Except Error Row := do
  let width ← rowWidth rows
  checkLength .plainColumnPower rows.length exps.length
  return (List.range width).map fun k =>
    ((rowColumn rows k).zip exps).foldl
      (fun acc (x, e) => Ciphertext.mul G acc (x.pow G e)) (Ciphertext.one G)

end VerifiableMix
