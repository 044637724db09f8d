import BitcoinWasm.Numbers.Signed
import BitcoinWasm.Secp256k1.Checked

/-! Numbers of five signed limbs of 62 bits, in a `VERIFY` build.

The results of a batch of division steps are applied to such numbers: a row of the
matrix to a pair of them, without the 62 bits that are zero. Carries have 128 bits. A
run without a result has failed a check, or a signed operation in it has overflowed.
-/

set_option autoImplicit false

namespace BitcoinWasm.Secp256k1

open Numbers

/-- `secp256k1_modinv64_signed62`. -/
structure Signed62 where
  v0 : ℤ
  v1 : ℤ
  v2 : ℤ
  v3 : ℤ
  v4 : ℤ
  deriving DecidableEq, Repr

def Signed62.limbs (a : Signed62) : List ℤ := [a.v0, a.v1, a.v2, a.v3, a.v4]

/-- `secp256k1_modinv64_trans2x2`. -/
structure Trans2x2 where
  u : ℤ
  v : ℤ
  q : ℤ
  r : ℤ
  deriving DecidableEq, Repr

/-- `secp256k1_modinv64_modinfo`. -/
structure Modinfo where
  modulus : Signed62
  modulusInv62 : UInt64
  deriving DecidableEq, Repr

def mask62 : ℤ := 2 ^ 62 - 1

/-- `(int64_t)c & M62`. -/
def low62 (c : ℤ) : ℤ := Int.land (toInt64 c) mask62

/-! ## Comparisons -/

def abs64 (v : ℤ) : Option ℤ := do
  verifyCheck (-2 ^ 63 < v)
  if v < 0 then int64 (-v) else return v

/-- `c += (int128_t)a->v[i] * factor`, for the limbs that there are. -/
def mulLimb (a : List ℤ) (factor : ℤ) (i : ℕ) (c : ℤ) : Option ℤ :=
  match a[i]? with
  | some x => do int128 (c + (← int128 (x * factor)))
  | none => some c

def mul62 (a : List ℤ) (factor : ℤ) : Option Signed62 := do
  let c ← mulLimb a factor 0 0
  let v0 := low62 c
  let c ← mulLimb a factor 1 (shr c 62)
  let v1 := low62 c
  let c ← mulLimb a factor 2 (shr c 62)
  let v2 := low62 c
  let c ← mulLimb a factor 3 (shr c 62)
  let v3 := low62 c
  let c ← mulLimb a factor 4 (shr c 62)
  verifyCheck (c == toInt64 c)
  return ⟨v0, v1, v2, v3, toInt64 c⟩

/-- Numbers of the same length, with the highest limbs first. -/
def cmp62 : List ℤ → List ℤ → ℤ
  | x :: a, y :: b => if x < y then -1 else if y < x then 1 else cmp62 a b
  | _, _ => 0

/-- All limbs but the highest are normalized. -/
def checkLow (a : Signed62) : Option Unit := do
  verifyCheck (shr a.v0 62 == 0)
  verifyCheck (shr a.v1 62 == 0)
  verifyCheck (shr a.v2 62 == 0)
  verifyCheck (shr a.v3 62 == 0)

def mulCmp62 (a : List ℤ) (b : Signed62) (factor : ℤ) : Option ℤ := do
  let am ← mul62 a 1
  let bm ← mul62 b.limbs factor
  checkLow am
  checkLow bm
  return cmp62 am.limbs.reverse bm.limbs.reverse

/-! ## Normalization -/

/-- `r += modulus & cond_add`, limb by limb. -/
def addLimbs (r modulus : Signed62) (condAdd : ℤ) : Option Signed62 := do
  let r0 ← int64 (r.v0 + Int.land modulus.v0 condAdd)
  let r1 ← int64 (r.v1 + Int.land modulus.v1 condAdd)
  let r2 ← int64 (r.v2 + Int.land modulus.v2 condAdd)
  let r3 ← int64 (r.v3 + Int.land modulus.v3 condAdd)
  let r4 ← int64 (r.v4 + Int.land modulus.v4 condAdd)
  return ⟨r0, r1, r2, r3, r4⟩

/-- `r = (r ^ cond_negate) - cond_negate`, limb by limb. -/
def negateLimbs (r : Signed62) (condNegate : ℤ) : Option Signed62 := do
  let r0 ← int64 (Int.xor r.v0 condNegate - condNegate)
  let r1 ← int64 (Int.xor r.v1 condNegate - condNegate)
  let r2 ← int64 (Int.xor r.v2 condNegate - condNegate)
  let r3 ← int64 (Int.xor r.v3 condNegate - condNegate)
  let r4 ← int64 (Int.xor r.v4 condNegate - condNegate)
  return ⟨r0, r1, r2, r3, r4⟩

/-- The top bits of every limb go to the limb above. -/
def propagate (r : Signed62) : Option Signed62 := do
  let r1 ← int64 (r.v1 + shr r.v0 62)
  let r2 ← int64 (r.v2 + shr r1 62)
  let r3 ← int64 (r.v3 + shr r2 62)
  let r4 ← int64 (r.v4 + shr r3 62)
  return ⟨Int.land r.v0 mask62, Int.land r1 mask62, Int.land r2 mask62, Int.land r3 mask62, r4⟩

def checkLimb (limb : ℤ) : Option Unit := do
  verifyCheck (-mask62 ≤ limb)
  verifyCheck (limb ≤ mask62)

def normalize62 (r : Signed62) (sign : ℤ) (modinfo : Modinfo) : Option Signed62 := do
  checkLimb r.v0
  checkLimb r.v1
  checkLimb r.v2
  checkLimb r.v3
  checkLimb r.v4
  verifyCheck (0 < (← mulCmp62 r.limbs modinfo.modulus (-2)))
  verifyCheck ((← mulCmp62 r.limbs modinfo.modulus 1) < 0)
  let r ← addLimbs r modinfo.modulus (shr r.v4 63)
  let r ← negateLimbs r (shr sign 63)
  let r ← propagate r
  -- Still negative: the modulus is added again.
  let r ← addLimbs r modinfo.modulus (shr r.v4 63)
  let r ← propagate r
  checkLow r
  verifyCheck (shr r.v4 62 == 0)
  verifyCheck (0 ≤ (← mulCmp62 r.limbs modinfo.modulus 0))
  verifyCheck ((← mulCmp62 r.limbs modinfo.modulus 1) < 0)
  return r

/-! ## Updates -/

/-- `(int128_t)u * x + (int128_t)v * y`. -/
def row (u v x y : ℤ) : Option ℤ := do int128 ((← int128 (u * x)) + (← int128 (v * y)))

/-- `c += (int128_t)u * x + (int128_t)v * y`. -/
def addRow (c u v x y : ℤ) : Option ℤ := do int128 (c + (← row u v x y))

/-- One of the two results of `secp256k1_modinv64_update_fg_62`. -/
def updateRow62 (u v : ℤ) (f g : Signed62) : Option Signed62 := do
  let c ← row u v f.v0 g.v0
  verifyCheck (low62 c == 0)
  let c ← addRow (shr c 62) u v f.v1 g.v1
  let v0 := low62 c
  let c ← addRow (shr c 62) u v f.v2 g.v2
  let v1 := low62 c
  let c ← addRow (shr c 62) u v f.v3 g.v3
  let v2 := low62 c
  let c ← addRow (shr c 62) u v f.v4 g.v4
  return ⟨v0, v1, v2, low62 c, toInt64 (shr c 62)⟩

def updateFg62 (f g : Signed62) (t : Trans2x2) : Option (Signed62 × Signed62) := do
  return (← updateRow62 t.u t.v f g, ← updateRow62 t.q t.r f g)

/-- The loop of the version for fewer limbs, after the lowest ones. -/
def updateLimbs62 (u v : ℤ) : ℤ → List ℤ → List ℤ → Option (List ℤ)
  | c, x :: f, y :: g => do
    let c ← addRow c u v x y
    return low62 c :: (← updateLimbs62 u v (shr c 62) f g)
  | c, _, _ => some [toInt64 c]

def updateRow62Var (u v : ℤ) : List ℤ → List ℤ → Option (List ℤ)
  | x :: f, y :: g => do
    let c ← row u v x y
    verifyCheck (low62 c == 0)
    updateLimbs62 u v (shr c 62) f g
  | _, _ => none

/-- The lists have the `len` limbs that are in use. -/
def updateFg62Var (f g : List ℤ) (t : Trans2x2) : Option (List ℤ × List ℤ) := do
  return (← updateRow62Var t.u t.v f g, ← updateRow62Var t.q t.r f g)

/-- `if (modulus) c += (int128_t)modulus * m`. -/
def addModulus (c modulus m : ℤ) : Option ℤ :=
  if modulus ≠ 0 then do int128 (c + (← int128 (modulus * m))) else some c

/-- The multiple of the modulus that makes the 62 low bits of `c` zero. -/
def correction (m c : ℤ) (modinfo : Modinfo) : ℤ :=
  let low := (modinfo.modulusInv62 * UInt64.ofInt c + UInt64.ofInt m) &&& UInt64.ofInt mask62
  toInt64 (UInt64.ofInt m - low).toNat

/-- One of the two results of `secp256k1_modinv64_update_de_62`. -/
def updateDeRow62 (u v : ℤ) (d e : Signed62) (modinfo : Modinfo) : Option Signed62 := do
  let modulus := modinfo.modulus
  let m ← int64 (Int.land u (shr d.v4 63) + Int.land v (shr e.v4 63))
  let c ← row u v d.v0 e.v0
  let m := correction m c modinfo
  let c ← int128 (c + (← int128 (modulus.v0 * m)))
  verifyCheck (low62 c == 0)
  let c ← addRow (shr c 62) u v d.v1 e.v1
  let c ← addModulus c modulus.v1 m
  let v0 := low62 c
  let c ← addRow (shr c 62) u v d.v2 e.v2
  let c ← addModulus c modulus.v2 m
  let v1 := low62 c
  let c ← addRow (shr c 62) u v d.v3 e.v3
  let c ← addModulus c modulus.v3 m
  let v2 := low62 c
  let c ← addRow (shr c 62) u v d.v4 e.v4
  let c ← int128 (c + (← int128 (modulus.v4 * m)))
  return ⟨v0, v1, v2, low62 c, toInt64 (shr c 62)⟩

/-- Both numbers lie above twice the negative modulus and below the modulus. -/
def checkDe (d e modulus : Signed62) : Option Unit := do
  verifyCheck (0 < (← mulCmp62 d.limbs modulus (-2)))
  verifyCheck ((← mulCmp62 d.limbs modulus 1) < 0)
  verifyCheck (0 < (← mulCmp62 e.limbs modulus (-2)))
  verifyCheck ((← mulCmp62 e.limbs modulus 1) < 0)

def updateDe62 (d e : Signed62) (t : Trans2x2) (modinfo : Modinfo) : Option (Signed62 × Signed62) := do
  checkDe d e modinfo.modulus
  verifyCheck (0 ≤ (← int64 ((← abs64 t.u) + (← abs64 t.v))))
  verifyCheck (0 ≤ (← int64 ((← abs64 t.q) + (← abs64 t.r))))
  verifyCheck ((← int64 ((← abs64 t.u) + (← abs64 t.v))) ≤ (← int64 (mask62 + 1)))
  verifyCheck ((← int64 ((← abs64 t.q) + (← abs64 t.r))) ≤ (← int64 (mask62 + 1)))
  let d' ← updateDeRow62 t.u t.v d e modinfo
  let e' ← updateDeRow62 t.q t.r d e modinfo
  checkDe d' e' modinfo.modulus
  return (d', e')

end BitcoinWasm.Secp256k1
