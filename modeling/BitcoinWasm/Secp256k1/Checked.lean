import BitcoinWasm.Secp256k1.Magnitude

/-! Field elements in a `VERIFY` build, and programs over them.

A `VERIFY` build keeps the magnitude and the normalized flag next to the limbs and
checks both wherever the header asks for it. Whether a program passes its checks can
be told from the magnitudes alone, before it is run.
-/

set_option autoImplicit false

namespace BitcoinWasm.Secp256k1

/-- `secp256k1_fe` with the members that only a `VERIFY` build has. -/
structure CheckedFe extends Fe where
  magnitude : Int
  normalized : Bool
  deriving DecidableEq, Repr

/-- `VERIFY_CHECK`: a check that fails aborts. -/
def verifyCheck (holds : Bool) : Option Unit := if holds then some () else none

/-- A check that passes does nothing. -/
@[simp] theorem verifyCheck_true_bind {α : Type} (rest : Unit → Option α) :
    verifyCheck true >>= rest = rest () := rfl

theorem verifyCheck_eq {holds : Bool} (passes : holds = true) : verifyCheck holds = some () := by
  rw [passes]
  rfl

theorem verifyCheck_bind {α : Type} {holds : Bool} (passes : holds = true) (rest : Unit → Option α) :
    verifyCheck holds >>= rest = rest () := by
  rw [passes, verifyCheck_true_bind]

@[simp] theorem verifyCheck_false_bind {α : Type} (rest : Unit → Option α) :
    verifyCheck false >>= rest = none := rfl

/-- The condition that `secp256k1_fe_verify` checks. -/
def feVerify (a : CheckedFe) : Bool :=
  let m : Int := if a.normalized then 1 else 2 * a.magnitude
  let limb := mask52 * UInt64.ofInt m
  let r := a.n0 ≤ limb && a.n1 ≤ limb && a.n2 ≤ limb && a.n3 ≤ limb && a.n4 ≤ mask48 * UInt64.ofInt m
  let r := r && 0 ≤ a.magnitude && a.magnitude ≤ 2048
  if a.normalized then
    let r := r && a.magnitude ≤ 1
    if r && a.n4 == mask48 && (a.n3 &&& a.n2 &&& a.n1) == mask52 then r && a.n0 < lowest else r
  else r

/-- The end of an operation: the members are set, and the result is verified. -/
def verified (r : Fe) (magnitude : Int) (normalized : Bool) : Option CheckedFe := do
  let r : CheckedFe := ⟨r, magnitude, normalized⟩
  verifyCheck (feVerify r)
  return r

/-- `secp256k1_fe_mul_inner` and `secp256k1_fe_sqr_inner`, from a header that is not here. -/
structure Multiplication where
  mulInner : Fe → Fe → Fe
  sqrInner : Fe → Fe

/-- What the operations rely on. -/
structure Multiplication.Lawful (inner : Multiplication) : Prop where
  mul_within : ∀ {a b : Fe}, a.Within 8 → b.Within 8 → (inner.mulInner a b).Within 1
  mul_residue : ∀ {a b : Fe}, a.Within 8 → b.Within 8 → (inner.mulInner a b).residue = a.residue * b.residue
  sqr_within : ∀ {a : Fe}, a.Within 8 → (inner.sqrInner a).Within 1
  sqr_residue : ∀ {a : Fe}, a.Within 8 → (inner.sqrInner a).residue = a.residue * a.residue

/-! ## Operations -/

namespace CheckedFe

def getBounds (m : Int) : Option CheckedFe := do
  verifyCheck (0 ≤ m)
  verifyCheck (m ≤ 2048)
  verified (feGetBounds m) m (m == 0)

def normalize (r : CheckedFe) : Option CheckedFe := do
  let t := firstPass r.toFe
  verifyCheck (t.n4 >>> 49 == 0)
  let x := finalReduction t
  verifyCheck ((carry t x).n4 >>> 48 == x)
  verified (feNormalize r.toFe) 1 true

def normalizeWeak (r : CheckedFe) : Option CheckedFe := do
  verifyCheck ((firstPass r.toFe).n4 >>> 49 == 0)
  verified (feNormalizeWeak r.toFe) 1 r.normalized

def normalizeVar (r : CheckedFe) : Option CheckedFe := do
  let t := firstPass r.toFe
  verifyCheck (t.n4 >>> 49 == 0)
  let x := finalReduction t
  -- The second pass and its check are made only if a reduction is needed.
  if x ≠ 0 then verifyCheck ((carry t 1).n4 >>> 48 == x)
  verified (feNormalizeVar r.toFe) 1 true

def setInt (a : Int) : Option CheckedFe := do
  verifyCheck (0 ≤ a && a ≤ 0x7FFF)
  verified (feSetInt a) (if a ≠ 0 then 1 else 0) true

def clear : CheckedFe := ⟨feClear, 0, true⟩

def negate (a : CheckedFe) (m : Int) : Option CheckedFe := do
  verifyCheck (a.magnitude ≤ m)
  verifyCheck (feVerify a)
  verifyCheck (limbBound mask52 m ≤ limbBound lowest (m + 1))
  verifyCheck (limbBound mask52 m ≤ limbBound mask52 (m + 1))
  verifyCheck (limbBound mask48 m ≤ limbBound mask48 (m + 1))
  verified (feNegate a.toFe m) (m + 1) false

def mulInt (r : CheckedFe) (a : Int) : Option CheckedFe := verified (feMulInt r.toFe a) (r.magnitude * a) false

def add (r a : CheckedFe) : Option CheckedFe := do
  verifyCheck (feVerify a)
  verified (feAdd r.toFe a.toFe) (r.magnitude + a.magnitude) false

/-- The checks of `secp256k1_fe_mul` on its pointers are those of a program on its registers. -/
def mul (inner : Multiplication) (a b : CheckedFe) : Option CheckedFe := do
  verifyCheck (a.magnitude ≤ 8)
  verifyCheck (b.magnitude ≤ 8)
  verifyCheck (feVerify a)
  verifyCheck (feVerify b)
  verified (inner.mulInner a.toFe b.toFe) 1 false

def sqr (inner : Multiplication) (a : CheckedFe) : Option CheckedFe := do
  verifyCheck (a.magnitude ≤ 8)
  verifyCheck (feVerify a)
  verified (inner.sqrInner a.toFe) 1 false

def cmov (r a : CheckedFe) (flag : Int) : CheckedFe :=
  let limbs := feCmov r.toFe a.toFe flag
  if flag ≠ 0 then ⟨limbs, a.magnitude, a.normalized⟩ else ⟨limbs, r.magnitude, r.normalized⟩

def half (r : CheckedFe) : Option CheckedFe := do
  verifyCheck (feVerify r)
  verifyCheck (r.magnitude < 32)
  let mask := (0 - (r.n0 &&& 1)) >>> 12
  verifyCheck ((r.n0 + (lowest &&& mask)) &&& 1 == 0)
  verified (feHalf r.toFe) ((r.magnitude >>> (1 : Nat)) + 1) false

end CheckedFe

/-! ## Programs -/

/-- A call of a field operation, or an assignment, on numbered elements. -/
inductive FieldCall where
  | getBounds (r : Nat) (m : Int)
  | normalize (r : Nat)
  | normalizeWeak (r : Nat)
  | normalizeVar (r : Nat)
  | setInt (r : Nat) (a : Int)
  | clear (r : Nat)
  | copy (r a : Nat)
  | negate (r a : Nat) (m : Int)
  | mulInt (r : Nat) (a : Int)
  | add (r a : Nat)
  | mul (r a b : Nat)
  | sqr (r a : Nat)
  | cmov (r a : Nat) (flag : Bool)
  | half (r : Nat)
  deriving DecidableEq, Repr

abbrev Elements := Nat → CheckedFe

/-- The element that a call writes. -/
def FieldCall.target : FieldCall → Nat
  | .getBounds r _ | .normalize r | .normalizeWeak r | .normalizeVar r | .setInt r _ | .clear r | .copy r _
  | .negate r _ _ | .mulInt r _ | .add r _ | .mul r _ _ | .sqr r _ | .cmov r _ _ | .half r => r

/-- What a call writes there, unless a check fails. -/
def FieldCall.result (inner : Multiplication) (elements : Elements) : FieldCall → Option CheckedFe
  | .getBounds _ m => CheckedFe.getBounds m
  | .normalize r => (elements r).normalize
  | .normalizeWeak r => (elements r).normalizeWeak
  | .normalizeVar r => (elements r).normalizeVar
  | .setInt _ a => CheckedFe.setInt a
  | .clear _ => some CheckedFe.clear
  | .copy _ a => some (elements a)
  | .negate _ a m => (elements a).negate m
  | .mulInt r a => (elements r).mulInt a
  | .add r a => (elements r).add (elements a)
  | .mul r a b => if r ≠ b ∧ a ≠ b then (elements a).mul inner (elements b) else none
  | .sqr _ a => (elements a).sqr inner
  | .cmov r a flag => some ((elements r).cmov (elements a) flag.toInt)
  | .half r => (elements r).half

def FieldCall.step (inner : Multiplication) (elements : Elements) (call : FieldCall) : Option Elements :=
  (call.result inner elements).map (Function.update elements call.target)

/-- A program is run call by call and stops at the first check that fails. -/
def runCalls (inner : Multiplication) : List FieldCall → Elements → Option Elements
  | [], elements => some elements
  | call :: rest, elements => call.step inner elements >>= runCalls inner rest

/-! ## What a program is for -/

abbrev Values := Nat → ZMod p

/-- The value of a call in the field. -/
def FieldCall.meaning (values : Values) : FieldCall → ZMod p
  | .getBounds _ m => (feGetBounds m).residue
  | .normalize r | .normalizeWeak r | .normalizeVar r => values r
  | .setInt _ a => a
  | .clear _ => 0
  | .copy _ a => values a
  | .negate _ a _ => -values a
  | .mulInt r a => values r * a
  | .add r a => values r + values a
  | .mul _ a b => values a * values b
  | .sqr _ a => values a * values a
  | .cmov r a flag => if flag then values a else values r
  | .half r => values r * 2⁻¹

/-- The values after a program. -/
def valuesAfter : List FieldCall → Values → Values
  | [], values => values
  | call :: rest, values => valuesAfter rest (Function.update values call.target (call.meaning values))

/-! ## Magnitudes without elements -/

/-- What is known of an element before a run. -/
structure Kind where
  magnitude : Int
  normalized : Bool
  deriving DecidableEq, Repr

abbrev Kinds := Nat → Kind

def CheckedFe.kind (a : CheckedFe) : Kind := ⟨a.magnitude, a.normalized⟩

def demand (holds : Prop) [Decidable holds] (kind : Kind) : Option Kind := if holds then some kind else none

/-- The kind of the element that a call writes, if magnitudes up to `limit` are allowed. -/
def FieldCall.kind (limit : Int) (kinds : Kinds) : FieldCall → Option Kind
  | .getBounds _ m => demand (0 ≤ m ∧ m ≤ limit) ⟨m, m == 0⟩
  | .normalize _ | .normalizeVar _ => some ⟨1, true⟩
  | .normalizeWeak r => some ⟨1, (kinds r).normalized⟩
  | .setInt _ a => demand (0 ≤ a ∧ a ≤ 0x7FFF) ⟨if a ≠ 0 then 1 else 0, true⟩
  | .clear _ => some ⟨0, true⟩
  | .copy _ a => some (kinds a)
  | .negate _ a m => demand ((kinds a).magnitude ≤ m ∧ m + 1 ≤ limit) ⟨m + 1, false⟩
  | .mulInt r a =>
    let magnitude := (kinds r).magnitude * a
    demand (0 ≤ magnitude ∧ magnitude ≤ limit) ⟨magnitude, false⟩
  | .add r a =>
    let magnitude := (kinds r).magnitude + (kinds a).magnitude
    demand (magnitude ≤ limit) ⟨magnitude, false⟩
  | .mul r a b => demand ((r ≠ b ∧ a ≠ b) ∧ (kinds a).magnitude ≤ 8 ∧ (kinds b).magnitude ≤ 8) ⟨1, false⟩
  | .sqr _ a => demand ((kinds a).magnitude ≤ 8) ⟨1, false⟩
  | .cmov r a flag => some (if flag then kinds a else kinds r)
  | .half r => demand ((kinds r).magnitude < 32) ⟨(kinds r).magnitude / 2 + 1, false⟩

/-- The kinds at the end of a program, or nothing if some call goes beyond what is allowed. -/
def kindsAfter (limit : Int) : List FieldCall → Kinds → Option Kinds
  | [], kinds => some kinds
  | call :: rest, kinds => (call.kind limit kinds).bind fun kind =>
      kindsAfter limit rest (Function.update kinds call.target kind)

end BitcoinWasm.Secp256k1
