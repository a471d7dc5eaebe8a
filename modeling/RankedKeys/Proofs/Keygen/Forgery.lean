import RankedKeys.Proofs.Curve.Encoding
import RankedKeys.Proofs.Keygen.Acceptance

/-!
# Forged shares

A dealer that cheats, or somebody between it and the receiver, may put other bytes in place of a
share. The rest of the message is as it was, so that it is taken in like any other; when it is
looked at, the bytes turn out to be no scalar, or not the one that the dealer has committed to.

## Main definitions

* `KeygenMessage.forge`: other bytes in place of a share
* `complaint`: what is wrong with them

## Main results

* `Dealer.acceptShare_forged`: no bytes but those of the share itself are accepted
-/

namespace RankedKeys

variable {c : Curve}

namespace KeygenMessage

/-- Other bytes in place of the share in a message, if there are any; only shares are forged. -/
def forge (m : KeygenMessage) : Option Bytes → KeygenMessage
  | none => m
  | some bytes =>
    match m with
    | .commit m => .commit m
    | .share m => .share { m with share := bytes }

@[simp] theorem forge_none (m : KeygenMessage) : m.forge none = m := rfl

/-- A forged message looks like one of the same round. -/
@[simp] theorem tag_forge (m : KeygenMessage) (bytes : Option Bytes) :
    Tagged.tag (m.forge bytes) = Tagged.tag m := by
  cases bytes <;> cases m <;> rfl

/-- A forged message names the same sender. -/
@[simp] theorem sender_forge (m : KeygenMessage) (bytes : Option Bytes) :
    Tagged.sender (m.forge bytes) = Tagged.sender m := by
  cases bytes <;> cases m <;> rfl

end KeygenMessage

/-- **What is wrong** with the bytes of a forged share: they are no scalar, or not the one that the
commitments of the sender ask for. -/
def complaint (c : Curve) (sender : PartyId) (bytes : Bytes) : Error :=
  match Curve.scalarOfBytes (c := c) bytes with
  | .error e => e
  | .ok _ => (Refusal.shareMismatch sender).error

/-- **No other bytes** are accepted in place of a share that is accepted itself. -/
theorem Dealer.acceptShare_forged [c.Lawful] {d : Dealer c} {commits : Roster (PeerCommit c)}
    {m : ShareMessage} {share : c.Scalar} (accepts : d.AcceptsShare commits m share)
    {bytes : Bytes} (spurious : bytes ≠ m.share) :
    d.acceptShare commits { m with share := bytes } = .error (complaint c m.sender bytes) := by
  obtain ⟨commit, hcommit, hcombine⟩ := accepts.commitment
  have hsender := Dealer.checkSender_eq_ok_iff (u := ()).mpr accepts.peer
  have hsession := Dealer.checkSession_eq_ok_iff (u := ()).mpr accepts.session
  rw [Dealer.acceptShare, complaint]
  simp only [hsender, hsession, hcommit, accepts.receiver, ne_eq, not_true_eq_false, if_false]
  cases hbytes : Curve.scalarOfBytes (c := c) bytes with
  | error e => rfl
  | ok s =>
    -- A scalar has no other bytes, and the generator no two equal multiples.
    have hne : s • c.generator ≠ combine (d.position.row d.threshold) commit.commitments := by
      rw [← hcombine]
      intro h
      obtain rfl := smul_generator_inj.mp h
      apply spurious
      rw [Curve.scalarOfBytes_eq_ok_iff.mp hbytes, Curve.scalarOfBytes_eq_ok_iff.mp accepts.share_eq]
    exact if_pos hne

end RankedKeys
