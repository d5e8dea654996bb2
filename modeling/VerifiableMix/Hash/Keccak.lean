import VerifiableMix.Bytes

/-!
# The permutation Keccak-f[1600]

The state is 25 lanes of 64 bits; lane `(x, y)` stands at place `x + 5 y`.
A round is the composition of the five step maps of the standard, written
lane by lane; the round constants are listed, the rotation offsets too.

`State.toBytes` and `State.ofBytes` give the state as 200 bytes, lane after
lane, each lane least significant byte first.
-/

namespace VerifiableMix.Keccak

/-- The 25 lanes of the state. -/
abbrev State := Vector UInt64 25

/-- A lane rotated to the left. -/
def rotateLeft (lane : UInt64) (amount : UInt64) : UInt64 :=
  if amount = 0 then lane else (lane <<< amount) ||| (lane >>> (64 - amount))

/-- Rotation offset of each lane. -/
def offsets : Vector UInt64 25 :=
  #v[0, 1, 62, 28, 27,
     36, 44, 6, 55, 20,
     3, 10, 43, 25, 39,
     41, 45, 15, 21, 8,
     18, 2, 61, 56, 14]

/-- Constant of each of the 24 rounds. -/
def roundConstants : List UInt64 :=
  [0x0000000000000001, 0x0000000000008082, 0x800000000000808A, 0x8000000080008000,
   0x000000000000808B, 0x0000000080000001, 0x8000000080008081, 0x8000000000008009,
   0x000000000000008A, 0x0000000000000088, 0x0000000080008009, 0x000000008000000A,
   0x000000008000808B, 0x800000000000008B, 0x8000000000008089, 0x8000000000008003,
   0x8000000000008002, 0x8000000000000080, 0x000000000000800A, 0x800000008000000A,
   0x8000000080008081, 0x8000000000008080, 0x0000000080000001, 0x8000000080008008]

/-- The lane at column `x` and row `y`, both taken modulo 5. -/
def lane (s : State) (x y : Nat) : UInt64 :=
  have : x % 5 + 5 * (y % 5) < 25 := by omega
  s[x % 5 + 5 * (y % 5)]

/-- Adds to every lane the parities of two neighbouring columns. -/
def theta (s : State) : State :=
  let parity : Vector UInt64 5 := Vector.ofFn fun x =>
    lane s x 0 ^^^ lane s x 1 ^^^ lane s x 2 ^^^ lane s x 3 ^^^ lane s x 4
  let effect : Vector UInt64 5 := Vector.ofFn fun x =>
    parity[(x.val + 4) % 5] ^^^ rotateLeft parity[(x.val + 1) % 5] 1
  Vector.ofFn fun i => s[i] ^^^ effect[i.val % 5]

/-- Rotates every lane by its offset. -/
def rho (s : State) : State :=
  Vector.ofFn fun i => rotateLeft s[i] offsets[i]

/-- Moves the lanes: place `(x, y)` receives lane `(x + 3 y, x)`. -/
def pi (s : State) : State :=
  Vector.ofFn fun i => lane s (i.val % 5 + 3 * (i.val / 5)) (i.val % 5)

/-- Combines every lane with the two that follow it in its row. -/
def chi (s : State) : State :=
  Vector.ofFn fun i =>
    let x := i.val % 5
    let y := i.val / 5
    s[i] ^^^ (~~~ lane s (x + 1) y &&& lane s (x + 2) y)

/-- Adds a round constant to the first lane. -/
def iota (constant : UInt64) (s : State) : State :=
  s.set 0 (s[0] ^^^ constant)

/-- The permutation: 24 rounds. -/
def permute (s : State) : State :=
  roundConstants.foldl (fun state constant => iota constant (chi (pi (rho (theta state))))) s

/-! ## The state as bytes -/

/-- Byte `i` of a lane, least significant first. -/
def laneByte (word : UInt64) (i : Nat) : UInt8 :=
  (word >>> UInt64.ofNat (8 * i)).toUInt8

/-- The 200 bytes of the state. -/
def toBytes (s : State) : Vector UInt8 200 :=
  Vector.ofFn fun i =>
    have : i.val / 8 < 25 := by omega
    laneByte s[i.val / 8] (i.val % 8)

/-- The lane whose bytes stand from place `8 i` on. -/
def laneOfBytes (bytes : Vector UInt8 200) (i : Fin 25) : UInt64 :=
  (List.range 8).foldr
    (fun k word => (word <<< 8) ||| (bytes.getD (8 * i.val + k) 0).toUInt64) 0

/-- The state with the given bytes. -/
def ofBytes (bytes : Vector UInt8 200) : State :=
  Vector.ofFn (laneOfBytes bytes)

/-- The permutation on the state as bytes. -/
def permuteBytes (bytes : Vector UInt8 200) : Vector UInt8 200 :=
  toBytes (permute (ofBytes bytes))

/-- Adds a byte to the byte at place `i`; outside the state nothing happens. -/
def addByte (bytes : Vector UInt8 200) (i : Nat) (b : UInt8) : Vector UInt8 200 :=
  if h : i < 200 then bytes.set i (bytes[i] ^^^ b) else bytes

/-- Adds a byte string from place `i` on. -/
def addBytes (bytes : Vector UInt8 200) (i : Nat) : Bytes → Vector UInt8 200
  | [] => bytes
  | b :: rest => addBytes (addByte bytes i b) (i + 1) rest

end VerifiableMix.Keccak
