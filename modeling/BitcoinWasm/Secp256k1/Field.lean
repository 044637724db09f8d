import BitcoinWasm.Numbers.Word

/-! Field elements of `secp256k1` in five limbs of 52 bits.

A limb is a 64-bit word and may hold more than 52 bits. How much more is the
magnitude of the element, which only a `VERIFY` build keeps next to the limbs.
-/

set_option autoImplicit false

namespace BitcoinWasm.Secp256k1

/-- `secp256k1_fe`. -/
structure Fe where
  n0 : UInt64
  n1 : UInt64
  n2 : UInt64
  n3 : UInt64
  n4 : UInt64
  deriving DecidableEq, Repr

/-- `secp256k1_fe_storage`. -/
structure FeStorage where
  n0 : UInt64
  n1 : UInt64
  n2 : UInt64
  n3 : UInt64
  deriving DecidableEq, Repr

/-- The characteristic of the field. -/
@[irreducible] def p : Nat := 2 ^ 256 - 0x1000003D1

/-- What `2 ^ 256` is worth modulo `p`. -/
def fold : UInt64 := 0x1000003D1

def mask52 : UInt64 := 0xFFFFFFFFFFFFF
def mask48 : UInt64 := 0x0FFFFFFFFFFFF

/-- The lowest limb of `p`. The limbs above it are the two masks. -/
def lowest : UInt64 := 0xFFFFEFFFFFC2F

/-- The number that the limbs stand for. -/
def Fe.value (r : Fe) : Nat :=
  r.n0.toNat + r.n1.toNat * 2 ^ 52 + r.n2.toNat * 2 ^ 104 + r.n3.toNat * 2 ^ 156 + r.n4.toNat * 2 ^ 208

/-! ## Reduction -/

/-- `t0 += x * 0x1000003D1`, with the carries up to `t4`. -/
def carry (t : Fe) (x : UInt64) : Fe :=
  let t0 := t.n0 + x * fold
  let t1 := t.n1 + (t0 >>> 52)
  let t2 := t.n2 + (t1 >>> 52)
  let t3 := t.n3 + (t2 >>> 52)
  let t4 := t.n4 + (t3 >>> 52)
  ⟨t0 &&& mask52, t1 &&& mask52, t2 &&& mask52, t3 &&& mask52, t4⟩

/-- The first pass: `t4` is cut at bit 48, and what it held above goes in at `t0`. -/
def firstPass (r : Fe) : Fe := carry { r with n4 := r.n4 &&& mask48 } (r.n4 >>> 48)

/-- A comparison as an `int`. -/
def flag (holds : Bool) : UInt64 := if holds then 1 else 0

/-- Whether a final reduction is needed. -/
def finalReduction (t : Fe) : UInt64 :=
  (t.n4 >>> 48) |||
    (flag (t.n4 == mask48) &&& flag ((t.n1 &&& t.n2 &&& t.n3) == mask52) &&& flag (decide (lowest ≤ t.n0)))

def feNormalize (r : Fe) : Fe :=
  let t := firstPass r
  let t := carry t (finalReduction t)
  { t with n4 := t.n4 &&& mask48 }

def feNormalizeWeak (r : Fe) : Fe := firstPass r

def feNormalizeVar (r : Fe) : Fe :=
  let t := firstPass r
  if finalReduction t ≠ 0 then
    let t := carry t 1
    { t with n4 := t.n4 &&& mask48 }
  else t

/-- The two possible raw values of zero. -/
def rawZero (z0 z1 : UInt64) : Bool := z0 == 0 || z1 == mask52

def feNormalizesToZero (r : Fe) : Bool :=
  let t := firstPass r
  let z0 := t.n0 ||| t.n1 ||| t.n2 ||| t.n3 ||| t.n4
  let z1 := (t.n0 ^^^ 0x1000003D0) &&& t.n1 &&& t.n2 &&& t.n3 &&& (t.n4 ^^^ 0xF000000000000)
  rawZero z0 z1

def feNormalizesToZeroVar (r : Fe) : Bool :=
  let t0 := r.n0 + (r.n4 >>> 48) * fold
  let z0 := t0 &&& mask52
  let z1 := z0 ^^^ 0x1000003D0
  -- The limbs above are looked at only if the lowest one is that of 0 or of `p`.
  if z0 != 0 && z1 != mask52 then false
  else
    let t4 := r.n4 &&& mask48
    let t1 := r.n1 + (t0 >>> 52)
    let t2 := r.n2 + (t1 >>> 52)
    let t1 := t1 &&& mask52
    let z0 := z0 ||| t1
    let z1 := z1 &&& t1
    let t3 := r.n3 + (t2 >>> 52)
    let t2 := t2 &&& mask52
    let z0 := z0 ||| t2
    let z1 := z1 &&& t2
    let t4 := t4 + (t3 >>> 52)
    let t3 := t3 &&& mask52
    let z0 := z0 ||| t3
    let z1 := z1 &&& t3
    rawZero (z0 ||| t4) (z1 &&& (t4 ^^^ 0xF000000000000))

/-! ## Tests and assignments -/

def feSetInt (a : Int) : Fe := ⟨UInt64.ofInt a, 0, 0, 0, 0⟩

def feClear : Fe := ⟨0, 0, 0, 0, 0⟩

def feIsZero (a : Fe) : Bool := (a.n0 ||| a.n1 ||| a.n2 ||| a.n3 ||| a.n4) == 0

def feIsOdd (a : Fe) : Bool := a.n0 &&& 1 == 1

/-- The largest limb at magnitude `m`. -/
def limbBound (limb : UInt64) (m : Int) : UInt64 := limb * 2 * UInt64.ofInt m

def feGetBounds (m : Int) : Fe :=
  ⟨limbBound mask52 m, limbBound mask52 m, limbBound mask52 m, limbBound mask52 m, limbBound mask48 m⟩

/-- The loop of `secp256k1_fe_cmp_var`, over pairs of limbs from the top. -/
def cmpLimbs : List (UInt64 × UInt64) → Ordering
  | [] => .eq
  | (a, b) :: rest => if b < a then .gt else if a < b then .lt else cmpLimbs rest

def feCmpVar (a b : Fe) : Ordering :=
  cmpLimbs [(a.n4, b.n4), (a.n3, b.n3), (a.n2, b.n2), (a.n1, b.n1), (a.n0, b.n0)]

/-! ## Arithmetic -/

def feNegate (a : Fe) (m : Int) : Fe :=
  ⟨limbBound lowest (m + 1) - a.n0, limbBound mask52 (m + 1) - a.n1, limbBound mask52 (m + 1) - a.n2,
    limbBound mask52 (m + 1) - a.n3, limbBound mask48 (m + 1) - a.n4⟩

def feMulInt (r : Fe) (a : Int) : Fe :=
  let a := UInt64.ofInt a
  ⟨r.n0 * a, r.n1 * a, r.n2 * a, r.n3 * a, r.n4 * a⟩

def feAdd (r a : Fe) : Fe := ⟨r.n0 + a.n0, r.n1 + a.n1, r.n2 + a.n2, r.n3 + a.n3, r.n4 + a.n4⟩

/-- One limb of a conditional move. -/
def cmovLimb (r a : UInt64) (flag : Int) : UInt64 :=
  let mask0 := UInt64.ofInt flag + ~~~0
  let mask1 := ~~~mask0
  (r &&& mask0) ||| (a &&& mask1)

def feCmov (r a : Fe) (flag : Int) : Fe :=
  ⟨cmovLimb r.n0 a.n0 flag, cmovLimb r.n1 a.n1 flag, cmovLimb r.n2 a.n2 flag, cmovLimb r.n3 a.n3 flag,
    cmovLimb r.n4 a.n4 flag⟩

def feStorageCmov (r a : FeStorage) (flag : Int) : FeStorage :=
  ⟨cmovLimb r.n0 a.n0 flag, cmovLimb r.n1 a.n1 flag, cmovLimb r.n2 a.n2 flag, cmovLimb r.n3 a.n3 flag⟩

def feHalf (r : Fe) : Fe :=
  -- All ones in 52 bits if the lowest limb is odd.
  let mask := (0 - (r.n0 &&& 1)) >>> 12
  let t0 := r.n0 + (lowest &&& mask)
  let t1 := r.n1 + mask
  let t2 := r.n2 + mask
  let t3 := r.n3 + mask
  let t4 := r.n4 + (mask >>> 4)
  ⟨(t0 >>> 1) + ((t1 &&& 1) <<< 51), (t1 >>> 1) + ((t2 &&& 1) <<< 51), (t2 >>> 1) + ((t3 &&& 1) <<< 51),
    (t3 >>> 1) + ((t4 &&& 1) <<< 51), t4 >>> 1⟩

def feEqual (a b : Fe) : Bool := feNormalizesToZero (feAdd (feNegate a 1) b)

def feEqualVar (a b : Fe) : Bool := feNormalizesToZeroVar (feAdd (feNegate a 1) b)

end BitcoinWasm.Secp256k1
