import VerifiableMix.PowerProduct.Windowed

/-!
# Products of powers

A `Backend` computes the product of powers of one batch; the two backends agree
on every batch that both accept.  `batched` takes lists of any length batch by
batch, and `ofBytes` does the same over byte strings of fixed widths, the form
in which an accelerator is called.
-/

namespace VerifiableMix

/-- The ways to compute a product of powers. -/
inductive Backend where
  | direct
  | windowed
deriving DecidableEq, Repr

namespace Backend

/-- The backend that is used unless another is asked for. -/
def standard : Backend := .windowed

/-- The name of a backend. -/
def name : Backend → String
  | direct => "direct"
  | windowed => "windowed"

/-- A text with its ASCII capitals made small. -/
def lowerAscii (text : String) : String :=
  text.map Char.toLower

/-- The backend with a name, in capitals or not. -/
def ofName (text : String) : Except Error Backend :=
  let name := lowerAscii text
  if name = "direct" then .ok .direct
  else if name = "windowed" then .ok .windowed
  else .error (.configuration (.unknownBackend name))

/-- The product of powers of one batch. -/
def powerProduct : Backend → List Nat → List Nat → Nat → Except Error Nat
  | direct => PowerProduct.direct
  | windowed => PowerProduct.windowed

end Backend

namespace PowerProduct

/-- The product of powers of lists of any length, one batch after the other. -/
def batched (backend : Backend) (bases exps : List Nat) (modulus : Nat) : Except Error Nat := do
  checkLength .batchedPower bases.length exps.length
  checkModulus modulus
  ((chunks maxBatch bases).zip (chunks maxBatch exps)).foldlM
    (fun acc (b, e) => do return acc * (← backend.powerProduct b e modulus) % modulus)
    (1 % modulus)

/-- The number of bytes of an exponent. -/
def exponentBytes : Nat := exponentBits / 8

/-- Fails at the first byte string that does not have the width. -/
def checkWidths (width : Nat) (strings : List Bytes) : Except Error Unit :=
  strings.forM fun bytes =>
    if bytes.length = width then .ok () else .error (.invalidEncoding width bytes.length)

/-- The product of powers over byte strings: bases and result are as wide as
the modulus, exponents are 32 bytes. -/
def ofBytes (backend : Backend) (bases exps : List Bytes) (modulus : Bytes) :
    Except Error Bytes := do
  checkLength .bytePower bases.length exps.length
  if modulus.isEmpty then throw (.emptyInput .modulus)
  checkWidths modulus.length bases
  checkWidths exponentBytes exps
  let m := Bytes.toNatBE modulus
  checkModulus m
  let result ← batched backend (bases.map Bytes.toNatBE) (exps.map Bytes.toNatBE) m
  return Bytes.padded modulus.length result

end PowerProduct

end VerifiableMix
