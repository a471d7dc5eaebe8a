import RankedKeys.Birkhoff.Scheme
import RankedKeys.Curve.Encoding
import RankedKeys.Roster

/-!
# Recovering a key from shares

A key is handed out only if it belongs to the public key that the caller knows already, and if
every share, needed or not, lies on one polynomial.

## Main definitions

* `RankedShare`: a share and the position it was dealt for
* `RankedShare.pair`: shares and positions listed by party, matched by name
* `recoverKey`: the private key
-/

namespace RankedKeys

/-- A share together with the position it was dealt for. -/
structure RankedShare (F : Type) where
  share : F
  position : Parameter F
  deriving DecidableEq

/-- Matches shares and positions by party, in the order of the parties. -/
def RankedShare.pair {F : Type} (shares : Roster F) (positions : Roster (Parameter F)) :
    Except Error (List (RankedShare F)) :=
  if shares.size ≠ positions.size then
    .error (.invalidConfig s!"{shares.size} shares for {positions.size} BK parameters")
  else
    shares.entries.mapM fun (id, share) =>
      match positions.find? id with
      | some position => .ok ⟨share, position⟩
      | none => .error (.invalidConfig s!"No BK parameter for {id}")

variable {c : Curve}

/-- Recovers the private key of a public key from the shares of some peers. -/
def recoverKey (threshold : Nat) (key : PublicKey c) (peers : List (RankedShare c.Scalar)) :
    Except Error c.Scalar := do
  if peers.length < 2 then
    throw (.notEnoughPeers peers.length)
  ensureThreshold threshold peers.length
  let positions := peers.map (·.position)
  let shares := peers.map (·.share)
  checkValid threshold positions
  let candidate ← reconstruct threshold positions shares
  if threshold < peers.length then
    if let .error _ := interpolate threshold positions shares then
      throw .publicKeyMismatch
  if candidate • c.generator ≠ Point.affine key then
    throw .publicKeyMismatch
  pure candidate

end RankedKeys
