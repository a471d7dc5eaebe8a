import RankedKeys.Bytes.Basic
import RankedKeys.Curve.Jacobian
import RankedKeys.Curve.Standard
import RankedKeys.Text.Decimal

/-!
# Scalars and points as bytes and as decimal text

A scalar is 32 bytes, most significant first, and denotes a number below the number of points. A
point is a tag and its coordinates: `00` alone is the neutral element, `02` and `03` stand before
the `x` of a point with even and odd `y`, `04` before both coordinates, and `05` before the `x` of
a point whose `y` is even. Points are written with the tags `00`, `02` and `03`.

## Main definitions

* `Scalar.toBytes`, `Scalar.ofBytes?`, `Point.toBytes`, `Point.ofBytes`
* `scalarOfDecimal`, `scalarToDecimal`
* `PublicKey.ofDecimal`, `PublicKey.toDecimal`
-/

namespace RankedKeys

variable {c : Curve}

namespace Curve

/-- A scalar as 32 bytes. -/
def scalarBytes (s : c.Scalar) : Bytes :=
  Bytes.ofNat fieldWidth s.val

/-- Reads a scalar from 32 bytes; only the least representative is accepted. -/
def scalarOfBytes (bytes : Bytes) : Except Error c.Scalar :=
  if bytes.length ≠ fieldWidth then .error (.deserialization "Invalid scalar length")
  else
    match Residue.ofNat? c.order bytes.toNat with
    | some s => .ok s
    | none => .error (.deserialization "Scalar is not below the group order")

/-- Reads a scalar from decimal text; only the least representative is accepted. -/
def scalarOfDecimal (c : Curve) (value : String) : Except Error c.Scalar := do
  let bytes ← Text.decimalToBytes value fieldWidth
  match Residue.ofNat? c.order bytes.toNat with
  | some s => .ok s
  | none => .error (.deserialization "Integer is not below the group order")

/-- A scalar as decimal text. -/
def scalarToDecimal (s : c.Scalar) : String :=
  Text.bytesToDecimal (scalarBytes s)

end Curve

namespace PublicKey

/-- The pair of coordinates with given least representatives, if it is on the curve. -/
def ofNats? (c : Curve) (x y : Nat) : Option (PublicKey c) := do
  let x ← Residue.ofNat? c.prime x
  let y ← Residue.ofNat? c.prime y
  if h : c.Holds x y then some ⟨x, y, h⟩ else none

/-- The point with a given `x` whose `y` is odd or even as asked. -/
def ofX? (c : Curve) (x : Nat) (odd : Bool) : Option (PublicKey c) := do
  let x ← Residue.ofNat? c.prime x
  let y ← c.sqrt? (c.cubic x)
  -- The other root has the other parity.
  let y := if (y.val % 2 == 1) == odd then y else -y
  if h : c.Holds x y then some ⟨x, y, h⟩ else none

/-- The tag of the parity of `y`, and `x`. -/
def toBytes (key : PublicKey c) : Bytes :=
  (if key.y.val % 2 = 1 then 0x03 else 0x02) :: Bytes.ofNat fieldWidth key.x.val

/-- Reads a public key from the decimal texts of its coordinates. -/
def ofDecimal (c : Curve) (x y : String) : Except Error (PublicKey c) := do
  let x ← Text.decimalToBytes x fieldWidth
  let y ← Text.decimalToBytes y fieldWidth
  match ofNats? c x.toNat y.toNat with
  | some key => .ok key
  | none => .error (.verificationFailed "Point is not on the curve")

/-- The decimal texts of the coordinates. -/
def toDecimal (key : PublicKey c) : String × String :=
  (Text.bytesToDecimal (Bytes.ofNat fieldWidth key.x.val),
    Text.bytesToDecimal (Bytes.ofNat fieldWidth key.y.val))

end PublicKey

namespace Point

/-- A point in its written form. -/
def toBytes : Point c → Bytes
  | zero => [0x00]
  | affine key => key.toBytes

/-- How the bytes of a point are laid out, by the tag in front. -/
inductive Layout where
  | neutral
  | sign (odd : Bool) (x : Bytes)
  | both (x y : Bytes)

/-- Takes the bytes of a point apart; fails if the tag or the length is wrong. -/
def layout? : Bytes → Option Layout
  | [] => none
  | tag :: rest =>
    if tag = 0x00 then if rest = [] then some .neutral else none
    else if tag = 0x02 ∨ tag = 0x03 ∨ tag = 0x05 then
      if rest.length = fieldWidth then some (.sign (tag == 0x03) rest) else none
    else if tag = 0x04 then
      if rest.length = 2 * fieldWidth then
        some (.both (rest.take fieldWidth) (rest.drop fieldWidth))
      else none
    else none

/-- The point that a layout describes, if there is one. -/
def ofLayout? (c : Curve) : Layout → Option (Point c)
  | .neutral => some zero
  | .sign odd x => (PublicKey.ofX? c x.toNat odd).map affine
  | .both x y => (PublicKey.ofNats? c x.toNat y.toNat).map affine

/-- Reads a point in any of its forms. -/
def ofBytes (c : Curve) (bytes : Bytes) : Except Error (Point c) :=
  match layout? bytes with
  | none => .error (.verificationFailed "elliptic curve point encoding error")
  | some layout =>
    match ofLayout? c layout with
    | some p => .ok p
    | none => .error (.verificationFailed "Invalid commitment point")

end Point

end RankedKeys
