import RankedKeys.Proofs.Birkhoff.Scheme
import RankedKeys.Proofs.Curve.Secp256k1
import RankedKeys.Recovery.Share

/-!
# Recovery is exact

A key is recovered exactly if the positions form a scheme and all shares, needed or not, are dealt
by one polynomial whose constant term belongs to the public key. Reconstruction solves the
transposed system and takes as many shares as it needs; interpolation solves the system itself and
runs only for surplus shares. With no share to spare there is always a polynomial through the
shares, so the two never disagree.

## Main definitions

* `Deals threshold f peers`: the polynomial `f` deals every peer its share
* `SchemeFault threshold positions e`: the first check that positions fail, with its error

## Main results

* `recoverKey_of_deals`, `recoverKey_of_not_deals`: the answer for positions that form a scheme
* `recoverKey_of_fault`: the answer for positions that do not
* `recoverKey_exact`: which answers there are, and when
-/

namespace RankedKeys

open Polynomial

variable {F : Type} [Field F]

/-- A polynomial deals every peer its share. -/
def Deals (threshold : ℕ) (f : F[X]) (peers : List (RankedShare F)) : Prop :=
  f.degree < threshold ∧ ∀ peer ∈ peers, peer.share = peer.position.shareOf f

theorem deals_iff {threshold : ℕ} {f : F[X]} {peers : List (RankedShare F)} :
    Deals threshold f peers ↔
      f.degree < threshold ∧ (peers.map (·.position)).map (·.shareOf f) = peers.map (·.share) := by
  rw [Deals, List.map_map, List.map_inj_left]
  exact and_congr_right fun _ => forall₂_congr fun _ _ => eq_comm

/-- The first check that positions fail, with its error: their number, the threshold, the number
against the threshold, equal coordinates, and the two ways of not determining a polynomial. -/
inductive SchemeFault [DecidableEq F] (threshold : ℕ) (positions : List (Parameter F)) :
    Error → Prop
  | notEnoughPeers (few : positions.length < 2) :
    SchemeFault threshold positions (.notEnoughPeers positions.length)
  | invalidThreshold (enough : 2 ≤ positions.length) (low : threshold < 2) :
    SchemeFault threshold positions (.invalidThreshold threshold)
  | thresholdNotMet (enough : 2 ≤ positions.length) (two_le : 2 ≤ threshold)
    (high : positions.length < threshold) :
    SchemeFault threshold positions (.thresholdNotMet threshold positions.length)
  | duplicateCoordinate (two_le : 2 ≤ threshold) (le : threshold ≤ positions.length)
    (equal : ¬ (positions.map (·.x)).Nodup) :
    SchemeFault threshold positions .duplicateCoordinate
  | rankTooHigh {rank place : ℕ} (two_le : 2 ≤ threshold) (le : threshold ≤ positions.length)
    (distinct : (positions.map (·.x)).Nodup)
    (excess : findExcess 0 (sortedRanks positions) = some (rank, place)) :
    SchemeFault threshold positions (Singularity.rankTooHigh rank place).error
  | rankDeficient (two_le : 2 ≤ threshold) (le : threshold ≤ positions.length)
    (distinct : (positions.map (·.x)).Nodup)
    (excess : findExcess 0 (sortedRanks positions) = none)
    (undetermined : ¬ Determines threshold positions) :
    SchemeFault threshold positions
      (Singularity.rankDeficient
        (rowReduce threshold (birkhoffMatrix threshold positions)).rank threshold).error

section Fault

variable [DecidableEq F] {threshold : ℕ} {positions : List (Parameter F)} {e : Error}

/-- Positions that form a scheme fail no check. -/
theorem SchemeFault.checkValid_ne (h : SchemeFault threshold positions e) :
    checkValid threshold positions ≠ .ok () := by
  rw [ne_eq, checkValid_eq_ok_iff]
  cases h with
  | notEnoughPeers few => omega
  | invalidThreshold enough low => omega
  | thresholdNotMet enough two_le high => omega
  | duplicateCoordinate two_le le equal => exact fun h => equal h.2.2.1
  | rankTooHigh two_le le distinct excess =>
    intro h
    rw [excess] at h
    cases h.2.2.2.1
  | rankDeficient two_le le distinct excess undetermined => exact fun h => undetermined h.2.2.2.2

/-- **Some check fails** unless the positions form a scheme. -/
theorem exists_schemeFault (h : checkValid threshold positions ≠ .ok ()) :
    ∃ e, SchemeFault threshold positions e := by
  rcases Nat.lt_or_ge positions.length 2 with few | enough
  · exact ⟨_, .notEnoughPeers few⟩
  rcases Nat.lt_or_ge threshold 2 with low | two_le
  · exact ⟨_, .invalidThreshold enough low⟩
  rcases Nat.lt_or_ge positions.length threshold with high | le
  · exact ⟨_, .thresholdNotMet enough two_le high⟩
  by_cases distinct : (positions.map (·.x)).Nodup
  swap
  · exact ⟨_, .duplicateCoordinate two_le le distinct⟩
  rcases excess : findExcess 0 (sortedRanks positions) with _ | ⟨rank, place⟩
  · refine ⟨_, .rankDeficient two_le le distinct excess fun determined => h ?_⟩
    exact checkValid_eq_ok_iff.mpr ⟨two_le, le, distinct, excess, determined⟩
  · exact ⟨_, .rankTooHigh two_le le distinct excess⟩

/-- With two positions or more, the check reports the first fault. -/
theorem SchemeFault.checkValid_eq (h : SchemeFault threshold positions e)
    (enough : 2 ≤ positions.length) : checkValid threshold positions = .error e := by
  rw [RankedKeys.checkValid_eq, minThreshold]
  cases h with
  | notEnoughPeers few => omega
  | invalidThreshold enough low => rw [if_pos low]
  | thresholdNotMet enough two_le high => rw [if_neg (not_lt.mpr two_le), if_pos high]
  | duplicateCoordinate two_le le equal =>
    rw [if_neg (not_lt.mpr two_le), if_neg (not_lt.mpr le), if_pos equal]
  | rankTooHigh two_le le distinct excess =>
    rw [if_neg (not_lt.mpr two_le), if_neg (not_lt.mpr le), if_neg (not_not.mpr distinct), excess]
  | rankDeficient two_le le distinct excess undetermined =>
    rw [if_neg (not_lt.mpr two_le), if_neg (not_lt.mpr le), if_neg (not_not.mpr distinct), excess]
    exact if_neg (mt rank_birkhoffMatrix_eq_iff.mp undetermined)

end Fault

section Recovery

variable {c : Curve} {threshold : ℕ} {key : PublicKey c} {peers : List (RankedShare c.Scalar)}

/-- With two peers or more, the check of the positions covers that of the threshold. -/
theorem recoverKey_eq_of_two_le (enough : 2 ≤ peers.length) :
    recoverKey threshold key peers = (do
      checkValid threshold (peers.map (·.position))
      let candidate ← reconstruct threshold (peers.map (·.position)) (peers.map (·.share))
      if threshold < peers.length then
        if let .error _ :=
            interpolate threshold (peers.map (·.position)) (peers.map (·.share)) then
          throw .publicKeyMismatch
      if candidate • c.generator ≠ Point.affine key then
        throw .publicKeyMismatch
      pure candidate) := by
  rw [recoverKey, if_neg (not_lt.mpr enough), ← List.length_map (·.position)]
  cases hensure : ensureThreshold threshold (peers.map (·.position)).length with
  | ok u => rfl
  | error e =>
    rw [checkValid, hensure]
    rfl

section Field

variable [Fact c.order.Prime]

/-- Positions that are no scheme are refused with the first fault. -/
theorem recoverKey_of_fault {e : Error}
    (h : SchemeFault threshold (peers.map (·.position)) e) :
    recoverKey threshold key peers = .error e := by
  rcases Nat.lt_or_ge peers.length 2 with few | enough
  -- Too few peers are reported before any check of the positions.
  · rw [recoverKey, if_pos few, ← List.length_map (·.position)]
    rw [← List.length_map (·.position)] at few
    cases h with
    | notEnoughPeers few => rfl
    | invalidThreshold enough low => omega
    | thresholdNotMet enough two_le high => omega
    | duplicateCoordinate two_le le equal => omega
    | rankTooHigh two_le le distinct excess => omega
    | rankDeficient two_le le distinct excess undetermined => omega
  · rw [recoverKey_eq_of_two_le enough, h.checkValid_eq (by simpa using enough)]
    rfl

section Valid

variable (hvalid : checkValid threshold (peers.map (·.position)) = .ok ())

include hvalid

theorem two_le_of_checkValid : 2 ≤ peers.length := by
  obtain ⟨two_le, le, -⟩ := checkValid_eq_ok_iff.mp hvalid
  rw [List.length_map] at le
  omega

/-- **Shares of one polynomial** give its constant term, if it belongs to the public key. -/
theorem recoverKey_of_deals {f : c.Scalar[X]} (h : Deals threshold f peers) :
    recoverKey threshold key peers =
      if f.eval 0 • c.generator = Point.affine key then .ok (f.eval 0)
      else .error .publicKeyMismatch := by
  -- Both eliminations find the polynomial, so that the surplus check passes.
  obtain ⟨hf, hshares⟩ := deals_iff.mp h
  rw [recoverKey_eq_of_two_le (two_le_of_checkValid hvalid), hvalid, ← hshares,
    reconstruct_eq_ok hvalid hf, interpolate_eq_ok (by simp) hvalid hf rfl]
  simp only [bind, Except.bind, ite_self, ne_eq, ite_not]
  rfl

/-- **Shares of no polynomial** are refused: there is one to spare, and interpolation fails. -/
theorem recoverKey_of_not_deals (h : ¬ ∃ f, Deals threshold f peers) :
    recoverKey threshold key peers = .error .publicKeyMismatch := by
  have hnone : ¬ ∃ f : c.Scalar[X], f.degree < threshold ∧
      (peers.map (·.position)).map (·.shareOf f) = peers.map (·.share) :=
    fun ⟨f, hf⟩ => h ⟨f, deals_iff.mpr hf⟩
  -- With no share to spare there would be a polynomial through the shares.
  have hspare : threshold < peers.length := by
    refine lt_of_le_of_ne ?_ fun heq => hnone ?_
    · simpa using (checkValid_eq_ok_iff.mp hvalid).2.1
    · exact exists_polynomial_of_length_eq (by simp) (determines_of_checkValid hvalid)
        (by simp [heq])
  rw [recoverKey_eq_of_two_le (two_le_of_checkValid hvalid), hvalid,
    reconstruct_eq (by simp) (secretCoefficients_eq_ok hvalid),
    interpolate_eq_error (by simp) hvalid hnone]
  simp only [bind, Except.bind, if_pos hspare]
  rfl

theorem Deals.unique {f g : c.Scalar[X]} (hf : Deals threshold f peers)
    (hg : Deals threshold g peers) : f = g := by
  refine (determines_of_checkValid hvalid).eq_of_shares_eq hf.1 hg.1 fun p hp => ?_
  obtain ⟨peer, hpeer, rfl⟩ := List.mem_map.mp hp
  rw [← hf.2 peer hpeer, ← hg.2 peer hpeer]

theorem recoverKey_eq_ok_iff {s : c.Scalar} :
    recoverKey threshold key peers = .ok s ↔ ∃ f : c.Scalar[X], Deals threshold f peers ∧
      f.eval 0 • c.generator = Point.affine key ∧ s = f.eval 0 := by
  constructor
  · intro h
    by_cases hdeals : ∃ f, Deals threshold f peers
    · obtain ⟨f, hf⟩ := hdeals
      rw [recoverKey_of_deals hvalid hf] at h
      split at h <;> cases h
      exact ⟨f, hf, ‹_›, rfl⟩
    · rw [recoverKey_of_not_deals hvalid hdeals] at h
      cases h
  · rintro ⟨f, hf, hkey, rfl⟩
    rw [recoverKey_of_deals hvalid hf, if_pos hkey]

theorem recoverKey_eq_error_iff {e : Error} :
    recoverKey threshold key peers = .error e ↔
      (¬ ∃ f : c.Scalar[X], Deals threshold f peers ∧
        f.eval 0 • c.generator = Point.affine key) ∧ e = .publicKeyMismatch := by
  by_cases hdeals : ∃ f, Deals threshold f peers
  · obtain ⟨f, hf⟩ := hdeals
    rw [recoverKey_of_deals hvalid hf]
    split
    · rename_i hkey
      exact ⟨fun h => (nomatch h), fun h => absurd ⟨f, hf, hkey⟩ h.1⟩
    · rename_i hkey
      refine ⟨fun h => ⟨?_, (Except.error.inj h).symm⟩, fun h => congrArg _ h.2.symm⟩
      rintro ⟨g, hg, hkey'⟩
      exact hkey (Deals.unique hvalid hf hg ▸ hkey')
  · rw [recoverKey_of_not_deals hvalid hdeals]
    exact ⟨fun h => ⟨fun ⟨f, hf, _⟩ => hdeals ⟨f, hf⟩, (Except.error.inj h).symm⟩,
      fun h => congrArg _ h.2.symm⟩

end Valid

end Field

variable [c.Lawful]

/-- **Recovery is exact**: the key is handed out exactly if there are two peers, the threshold
fits, the positions form a scheme and one polynomial deals every share and belongs to the public
key; it is then the only polynomial that deals the shares, and the key is its constant term, which
is not zero. Otherwise the error is that of the first check that the positions fail, and a
mismatch if they fail none. -/
theorem recoverKey_exact (threshold : ℕ) (key : PublicKey c)
    (peers : List (RankedShare c.Scalar)) :
    (∀ s, recoverKey threshold key peers = .ok s ↔
      2 ≤ peers.length ∧ 2 ≤ threshold ∧ threshold ≤ peers.length ∧
        checkValid threshold (peers.map (·.position)) = .ok () ∧
        ∃ f : c.Scalar[X], Deals threshold f peers ∧
          f.eval 0 • c.generator = Point.affine key ∧ s = f.eval 0) ∧
    (∀ s, recoverKey threshold key peers = .ok s →
      (∃! f : c.Scalar[X], Deals threshold f peers) ∧ s ≠ 0) ∧
    ∀ e, recoverKey threshold key peers = .error e ↔
      SchemeFault threshold (peers.map (·.position)) e ∨
        checkValid threshold (peers.map (·.position)) = .ok () ∧
          (¬ ∃ f : c.Scalar[X], Deals threshold f peers ∧
            f.eval 0 • c.generator = Point.affine key) ∧ e = .publicKeyMismatch := by
  by_cases hvalid : checkValid threshold (peers.map (·.position)) = .ok ()
  · have hsize := two_le_of_checkValid hvalid
    obtain ⟨two_le, le, -⟩ := checkValid_eq_ok_iff.mp hvalid
    rw [List.length_map] at le
    refine ⟨fun s => ?_, fun s h => ?_, fun e => ?_⟩
    · rw [recoverKey_eq_ok_iff hvalid]
      exact ⟨fun h => ⟨hsize, two_le, le, hvalid, h⟩, fun h => h.2.2.2.2⟩
    · obtain ⟨f, hf, hkey, rfl⟩ := (recoverKey_eq_ok_iff hvalid).mp h
      refine ⟨⟨f, hf, fun g hg => Deals.unique hvalid hg hf⟩, fun hzero => ?_⟩
      -- The public key is a pair of coordinates, and the neutral element has none.
      rw [hzero, zero_smul] at hkey
      exact nomatch hkey
    · rw [recoverKey_eq_error_iff hvalid]
      exact ⟨fun h => .inr ⟨hvalid, h⟩,
        fun h => (h.resolve_left fun hfault => hfault.checkValid_ne hvalid).2⟩
  · obtain ⟨e, hfault⟩ := exists_schemeFault hvalid
    have hanswer : recoverKey threshold key peers = .error e := recoverKey_of_fault hfault
    refine ⟨fun s => ?_, fun s h => ?_, fun e' => ?_⟩
    · rw [hanswer]
      exact ⟨fun h => (nomatch h), fun h => absurd h.2.2.2.1 hvalid⟩
    · rw [hanswer] at h
      cases h
    · refine ⟨fun h => .inl ?_, fun h => ?_⟩
      · rw [hanswer] at h
        cases h
        exact hfault
      · exact recoverKey_of_fault (h.resolve_right fun h => hvalid h.1)

/-- Four shares of `1 + 2·x + 3·x²`, one of them of the derivative; the threshold is three. -/
theorem recoverKey_exact_secp256k1 :
    let peers : List (RankedShare Curve.secp256k1.Scalar) :=
      [⟨6, 1, 0⟩, ⟨26, 4, 1⟩, ⟨121, 6, 0⟩, ⟨209, 8, 0⟩]
    recoverKey 3 secp256k1Key peers = .ok 1 ∧
      (∃! f : Curve.secp256k1.Scalar[X], Deals 3 f peers) ∧ (1 : Curve.secp256k1.Scalar) ≠ 0 := by
  intro peers
  have hanswer : recoverKey 3 secp256k1Key peers = .ok 1 := by decide +kernel
  exact ⟨hanswer, (recoverKey_exact 3 secp256k1Key peers).2.1 1 hanswer⟩

end Recovery

end RankedKeys
