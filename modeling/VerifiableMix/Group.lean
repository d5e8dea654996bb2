import VerifiableMix.PowMod
import VerifiableMix.Scalar

/-!
# Groups and their elements

A group is the subgroup of order `q` of the units modulo `p`, where
`p = q * r + 1`; it is given by `p`, the cofactor `r` and a generator `g`.  The
type `Group` holds exactly the parameters that pass the checks of
`Group.create`; that `p` is prime is for the caller to know.

An `Element` is a number with the width of its encoding.  It is *not* checked
against any group: elements that were read from outside can be unreduced,
outside the subgroup or of a foreign width until `checkElement` has accepted
them.  All results of group operations are reduced and have the group's width.

Two elements are compared by value; the width plays no part.

## Main results

* `create_eq_ok` — a group is created from its own parameters.
* `val_mul` — products are those of numbers modulo `p`.
-/

namespace VerifiableMix

/-! ## Elements -/

/-- A number together with the width of its encoding in bytes. -/
structure Element where
  value : Nat
  width : Nat
deriving DecidableEq, Repr, Inhabited

namespace Element

/-- Equality of the numbers, whatever the widths. -/
def sameValue (x y : Element) : Bool :=
  x.value == y.value

/-- The encoding: big-endian, filled up to the width.  A number too large for
the width is written out in full. -/
def toBytes (x : Element) : Bytes :=
  Bytes.padded x.width x.value

/-- The element whose width is the length of its encoding. -/
def ofBytes (bytes : Bytes) : Element :=
  { value := Bytes.toNatBE bytes, width := bytes.length }

/-- The text of an element: the hexadecimal digits of its encoding. -/
def toHex (x : Element) : String :=
  Hex.encode x.toBytes

/-- The element that a text stands for. -/
def ofHex (text : String) : Except TextFault Element :=
  match Hex.decode text with
  | .error fault => .error (.hex fault)
  | .ok bytes => .ok (ofBytes bytes)

/-- The form of an element in diagnostics: at most 16 digits of the number. -/
def describe (x : Element) : String :=
  let digits := (Bytes.shortest x.value).flatMap Hex.digits
  let shown := if digits.length ≤ 16 then digits else digits.take 16 ++ ['.', '.']
  "ElementModP(" ++ String.ofList shown ++ ")"

end Element

/-! ## Groups -/

/-- The parameters of a subgroup of order `q`. -/
structure Group where
  name : String
  p : Nat
  r : Nat
  g : Nat
  p_eq : p = Scalar.order * r + 1
  one_lt_g : 1 < g
  g_lt_p : g < p
  g_pow_order : powMod g Scalar.order p = 1

namespace Group

/-- Checks three numbers and makes them a group. -/
def create (name : String) (p r g : Nat) : Except Error Group :=
  if hp : p = Scalar.order * r + 1 then
    if hg : 1 < g ∧ g < p then
      if hq : powMod g Scalar.order p = 1 then
        .ok { name, p, r, g, p_eq := hp, one_lt_g := hg.1, g_lt_p := hg.2, g_pow_order := hq }
      else .error (.invalidGroup .generatorOrder)
    else .error (.invalidGroup .generatorRange)
  else .error (.invalidGroup .modulus)

/-- A group passes the checks again. -/
theorem create_eq_ok (G : Group) : create G.name G.p G.r G.g = .ok G := by
  simp only [create, ← G.p_eq, G.one_lt_g, G.g_lt_p, G.g_pow_order, and_self, dite_true]

theorem one_lt_p (G : Group) : 1 < G.p :=
  Nat.lt_trans G.one_lt_g G.g_lt_p

/-- The width of the group's elements in bytes. -/
def width (G : Group) : Nat :=
  Bytes.byteLength G.p

/-- A number as an element of the group's width. -/
def element (G : Group) (value : Nat) : Element :=
  { value, width := G.width }

/-- The generator as an element. -/
def generator (G : Group) : Element :=
  G.element G.g

/-- The identity. -/
def one (G : Group) : Element :=
  G.element 1

/-- Product. -/
def mul (G : Group) (x y : Element) : Element :=
  G.element (x.value * y.value % G.p)

/-- Power with a number as exponent. -/
def powNat (G : Group) (x : Element) (k : Nat) : Element :=
  G.element (powMod x.value k G.p)

/-- Power. -/
def pow (G : Group) (x : Element) (k : Scalar) : Element :=
  G.powNat x k.val

/-- Power of the generator. -/
def gpow (G : Group) (k : Scalar) : Element :=
  G.pow G.generator k

/-- The power with exponent `p - 2`, the inverse when `p` is prime. -/
def inv (G : Group) (x : Element) : Element :=
  G.powNat x (G.p - 2)

/-- Product with the inverse. -/
def div (G : Group) (x y : Element) : Element :=
  G.mul x (G.inv y)

/-- Product of a list. -/
def prod (G : Group) (xs : List Element) : Element :=
  xs.foldl G.mul G.one

theorem val_mul (G : Group) (x y : Element) : (G.mul x y).value = x.value * y.value % G.p := rfl

/-! ## Membership -/

/-- Members are the numbers between 0 and `p` whose power `q` is 1. -/
def isMember (G : Group) (value : Nat) : Bool :=
  0 < value && value < G.p && powMod value Scalar.order G.p == 1

/-- A number as an element, if it is a member. -/
def member (G : Group) (value : Nat) : Except Error Element :=
  if G.isMember value then .ok (G.element value) else .error .notInSubgroup

/-- Fails unless the element has the group's width and is a member. -/
def checkElement (G : Group) (x : Element) : Except Error Unit :=
  if x.width = G.width then
    if G.isMember x.value then .ok () else .error .notInSubgroup
  else .error (.invalidEncoding G.width x.width)

/-! ## Bytes -/

/-- The encoding of an element at the group's width. -/
def toBytes (G : Group) (x : Element) : Bytes :=
  Bytes.padded G.width x.value

/-- The member that a byte string of the group's width encodes. -/
def ofBytes (G : Group) (bytes : Bytes) : Except Error Element :=
  if bytes.length = G.width then G.member (Bytes.toNatBE bytes)
  else .error (.invalidEncoding G.width bytes.length)

end Group

end VerifiableMix
