import RankedKeys.Keygen.Party
import RankedKeys.Proofs.Keygen.Acceptance

/-!
# The creation of parties

A party is created if its settings fit together. What it draws is up to the blocks of random
numbers: every non-zero coordinate and every list of coefficients can be drawn.

## Main results

* `Party.assemble_eq_ok_iff`, `Party.generate_eq`: when a party is created, and which
* `Entropy.nonzero_ofBlocks`, `Entropy.scalars_map_val`: everything can be drawn
-/

namespace RankedKeys

variable {c : Curve}

namespace Entropy

@[simp] theorem length_scalars (n : Nat) (entropy : Entropy) :
    (scalars c n entropy).length = n := by
  induction n generalizing entropy with
  | zero => rfl
  | succ n ih => exact congrArg (· + 1) (ih _)

theorem nonzero_ofBlocks {x : c.Scalar} (h : x ≠ 0) (blocks : List Nat) :
    (ofBlocks (x.val :: blocks)).nonzero c = (x, ofBlocks blocks) := by
  simp [nonzero, ofBlocks, drawFrom, Residue.ofNat?_val, h]

theorem scalars_map_val (list : List c.Scalar) :
    scalars c list.length (ofBlocks (list.map (·.val))) = list := by
  induction list with
  | nil => rfl
  | cons s list ih =>
    have hdraw : (ofBlocks (s.val :: list.map (·.val))).scalar c =
        (s, ofBlocks (list.map (·.val))) := by
      simp [scalar, ofBlocks, drawFrom, Residue.ofNat?_val]
    rw [List.length_cons, List.map_cons, scalars, hdraw]
    exact congrArg (s :: ·) ih

end Entropy

namespace Party

@[simp] theorem length_polynomial (previous : Option (KeyShare c)) (coefficients : List c.Scalar) :
    (polynomial previous coefficients).length = coefficients.length := by
  cases previous with
  | none => rfl
  | some k => exact List.length_set

/-- The polynomial of a refresh has no constant term. -/
theorem headD_polynomial (previous : KeyShare c) (coefficients : List c.Scalar) :
    (polynomial (some previous) coefficients).headD 0 = 0 := by
  cases coefficients <;> rfl

theorem assemble_eq_ok_iff {config : KeygenConfig} {position : Parameter c.Scalar}
    {previous : Option (KeyShare c)} {view : PeerView} {coefficients : Nat → List c.Scalar}
    {party : Party c} :
    assemble config position previous view coefficients = .ok party ↔
      config.validate = .ok () ∧ view.peers.length + 1 = config.partyIds.length ∧
      party = ofDealer ⟨config, position,
        polynomial previous (coefficients config.threshold.toNat), view.peers.length,
        previous⟩ view := by
  simp only [assemble, bind_eq_ok_iff, pure_eq_ok_iff, KeygenConfig.check_eq_ok_iff]
  constructor
  · rintro ⟨-, ⟨hvalid, hpeers⟩, rfl⟩
    exact ⟨hvalid, hpeers, rfl⟩
  · rintro ⟨hvalid, hpeers, rfl⟩
    exact ⟨(), ⟨hvalid, hpeers⟩, rfl⟩

theorem generate_eq (config : KeygenConfig) (view : PeerView) (entropy : Entropy) :
    generate (c := c) config view entropy =
      assemble config ⟨(entropy.nonzero c).1, config.rank⟩ none view
        fun n => Entropy.scalars c n (entropy.nonzero c).2 := rfl

end Party

end RankedKeys
