import RankedKeys.Curve.Jacobian
import RankedKeys.Error

/-!
# The supported curves

## Main definitions

* `CurveName`: the two curves by name, with the spellings they are known under
* `Curve.secp256k1`, `Curve.p256`: their figures
-/

namespace RankedKeys

/-- The curve `y² = x³ + 7`. -/
def Curve.secp256k1 : Curve where
  prime := 0xfffffffffffffffffffffffffffffffffffffffffffffffffffffffefffffc2f
  a := 0
  b := 7
  gx := 0x79be667ef9dcbbac55a06295ce870b07029bfcdb2dce28d959f2815b16f81798
  gy := 0x483ada7726a3c4655da4fbfc0e1108a8fd17b448a68554199c47d08ffb10d4b8
  order := 0xfffffffffffffffffffffffffffffffebaaedce6af48a03bbfd25e8cd0364141

/-- The curve with `a = -3` over the prime `2²⁵⁶ - 2²²⁴ + 2¹⁹² + 2⁹⁶ - 1`. -/
def Curve.p256 : Curve where
  prime := 0xffffffff00000001000000000000000000000000ffffffffffffffffffffffff
  a := 0xffffffff00000001000000000000000000000000fffffffffffffffffffffffc
  b := 0x5ac635d8aa3a93e7b3ebbd55769886bc651d06b0cc53b0f63bce3c3e27d2604b
  gx := 0x6b17d1f2e12c4247f8bce6e563a440f277037d812deb33a0f4a13945d898c296
  gy := 0x4fe342e2fe1a7f9b8ee7eb4a7c0f9e162bce33576b315ececbb6406837bf51f5
  order := 0xffffffff00000000ffffffffffffffffbce6faada7179e84f3b9cac2fc632551

/-- The curves that a key can be recovered on. -/
inductive CurveName where
  | secp256k1
  | p256
  deriving DecidableEq, Repr

namespace CurveName

/-- The figures of a curve. -/
def curve : CurveName → Curve
  | secp256k1 => .secp256k1
  | p256 => .p256

/-- The name under which a curve is shown and stored. -/
def label : CurveName → String
  | secp256k1 => "secp256k1"
  | p256 => "p256"

/-- Every supported curve. -/
def all : List CurveName := [secp256k1, p256]

/-- The spellings, in lower case, that a curve is known under. -/
def spellings : CurveName → List String
  | secp256k1 => ["secp256k1", "k256"]
  | p256 => ["p256", "secp256r1", "prime256v1"]

/-- Finds a curve by a spelling; the case of ASCII letters does not matter. -/
def parse (s : String) : Except Error CurveName :=
  let lower := String.ofList (s.toList.map Char.toLower)
  match all.find? (·.spellings.contains lower) with
  | some name => .ok name
  | none => .error (.unsupportedCurve lower)

end CurveName

end RankedKeys
