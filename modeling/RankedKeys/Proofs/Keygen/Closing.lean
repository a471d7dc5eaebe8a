import RankedKeys.Proofs.Keygen.Acceptance
import RankedKeys.Proofs.Roster

/-!
# What the end of a round leads to

The first round ends in the second if the positions form a scheme. The second ends in a key share
if the share fits the party's own partial key: with the sums of this run alone in a key generation,
and with these added to the previous key share in a refresh.

## Main definitions

* `Round.dealt`: the shares that a party deals when the first round ends
* `Dealer.keyShare`: the key share that a run ends with

## Main results

* `Round.closeCommits_eq_ok_iff`, `Round.closeShares_eq_ok_iff`: when the rounds can be closed
* `Round.outcome_of_generation`, `Round.outcome_of_refresh_eq_ok_iff`: what a run ends with
-/

namespace RankedKeys

variable {c : Curve}

/-- The key share that a run ends with. -/
def Dealer.keyShare (d : Dealer c) (committed : Roster (PeerCommit c)) (share : c.Scalar)
    (key : PublicKey c) (points : Roster (Point c)) : KeyShare c where
  sessionId := d.config.sessionId
  selfId := d.config.selfId
  threshold := d.config.threshold
  share
  publicKey := key
  positions := committed.map (·.position)
  partialKeys := points

namespace Round

variable {d : Dealer c} {committed : Roster (PeerCommit c)} {received : Roster c.Scalar}

/-- The shares that a party deals when the first round ends, in the order of the peers. -/
def dealt (d : Dealer c) (received : Roster (PeerCommit c)) : List (PartyId × KeygenMessage) :=
  received.entries.map fun e => (e.1, d.shareMessage e.1 e.2.position)

/-- **The end of the first round**. -/
theorem closeCommits_eq_ok_iff {received : Roster (PeerCommit c)}
    {closing : Closing (Round c) KeygenMessage (KeyShare c)} :
    closeCommits d received = .ok closing ↔
      checkValid d.threshold
        ((received.insert d.config.selfId d.ownCommit).map (·.position)).values = .ok () ∧
      closing = ⟨dealt d received,
        .next (.shares d (received.insert d.config.selfId d.ownCommit) .empty)⟩ := by
  simp only [closeCommits, bind_eq_ok_iff, pure_eq_ok_iff, Roster.values_map]
  constructor
  · rintro ⟨_, hvalid, rfl⟩
    exact ⟨hvalid, rfl⟩
  · rintro ⟨hvalid, rfl⟩
    exact ⟨(), hvalid, rfl⟩

theorem closeCommits_eq_error {received : Roster (PeerCommit c)} {e : Error}
    (h : checkValid d.threshold
      ((received.insert d.config.selfId d.ownCommit).map (·.position)).values = .error e) :
    closeCommits d received = .error e := by
  rw [Roster.values_map] at h
  rw [closeCommits]
  simp only [h]
  rfl

/-- The partial keys of a refresh add up with previous ones of the same parties. -/
theorem addPartialKeys_eq_ok_iff {previous : Roster (Point c)}
    {list entries : List (PartyId × Point c)} :
    addPartialKeys previous list = .ok entries ↔
      (∀ e ∈ list, e.1 ∈ previous.ids) ∧
        entries = list.map fun e => (e.1, e.2 + (previous.find? e.1).getD 0) := by
  induction list generalizing entries with
  | nil => simp [addPartialKeys, eq_comm]
  | cons e list ih =>
    rcases e with ⟨id, point⟩
    rw [addPartialKeys, List.forall_mem_cons, Roster.mem_ids_iff]
    -- The first name that is missing ends the addition.
    cases hold : previous.find? id with
    | none => simp
    | some old =>
      simp only [bind_eq_ok_iff, pure_eq_ok_iff, ih]
      constructor
      · rintro ⟨_, ⟨hmem, rfl⟩, rfl⟩
        exact ⟨⟨⟨old, rfl⟩, hmem⟩, by simp [hold]⟩
      · rintro ⟨⟨-, hmem⟩, rfl⟩
        exact ⟨_, ⟨hmem, rfl⟩, by simp [hold]⟩

/-- **A key generation** ends with the sums of the run. -/
theorem outcome_of_generation (h : d.previous = none) :
    outcome d committed received =
      match (constantSum committed).key? with
      | none => .error (.verificationFailed "Public key is the identity")
      | some key => .ok (shareSum d received, key, partialKeys d committed) := by
  rcases d with ⟨config, position, polynomial, peerCount, previous⟩
  obtain rfl : previous = none := h
  rfl

/-- **A refresh** ends with the sums of the run and of the previous key share. -/
theorem outcome_of_refresh_eq_ok_iff {k : KeyShare c} (h : d.previous = some k)
    {share : c.Scalar} {key : PublicKey c} {points : Roster (Point c)} :
    outcome d committed received = .ok (share, key, points) ↔
      (∀ id ∈ committed.ids, id ∈ k.partialKeys.ids) ∧
        share = shareSum d received + k.share ∧ key = k.publicKey ∧
        ∀ id, points.find? id =
          ((partialKeys d committed).find? id).map (· + (k.partialKeys.find? id).getD 0) := by
  -- The sums are listed by name, so they are found again in the roster that is built from them.
  have hnodup := (partialKeys d committed).nodup_ids
  have hfind : ∀ id, (Roster.ofList ((partialKeys d committed).entries.map fun e =>
      (e.1, e.2 + (k.partialKeys.find? e.1).getD 0))).find? id =
        ((partialKeys d committed).find? id).map (· + (k.partialKeys.find? id).getD 0) := by
    intro id
    rw [Roster.find?_ofList (by simpa [Function.comp_def, Roster.ids] using hnodup)]
    exact lookup_map_snd (fun id point => point + (k.partialKeys.find? id).getD 0) _ id
  have hids : (∀ e ∈ (partialKeys d committed).entries, e.1 ∈ k.partialKeys.ids) ↔
      ∀ id ∈ committed.ids, id ∈ k.partialKeys.ids := by
    rw [← List.forall_mem_map (f := Prod.fst) (P := (· ∈ k.partialKeys.ids)), ← Roster.ids,
      partialKeys, Roster.ids_map]
  simp only [outcome, h, bind_eq_ok_iff, pure_eq_ok_iff, addPartialKeys_eq_ok_iff, hids,
    Prod.mk.injEq]
  constructor
  · rintro ⟨_, ⟨hmem, rfl⟩, rfl, rfl, rfl⟩
    exact ⟨hmem, rfl, rfl, hfind⟩
  · rintro ⟨hmem, rfl, rfl, hpoints⟩
    refine ⟨_, ⟨hmem, rfl⟩, rfl, rfl, ?_⟩
    ext id : 1
    exact (hfind id).trans (hpoints id).symm

/-- **The end of the second round**. -/
theorem closeShares_eq_ok_iff {closing : Closing (Round c) KeygenMessage (KeyShare c)} :
    closeShares d committed received = .ok closing ↔
      ∃ share key points, outcome d committed received = .ok (share, key, points) ∧
        points.find? d.config.selfId = some (share • c.generator) ∧
        closing = ⟨[], .done (d.keyShare committed share key points)⟩ := by
  simp only [closeShares, bind_eq_ok_iff, guard_eq_ok_iff, pure_eq_ok_iff, ne_eq, not_not]
  constructor
  · rintro ⟨⟨share, key, points⟩, houtcome, hown, rfl⟩
    exact ⟨share, key, points, houtcome, hown, rfl⟩
  · rintro ⟨share, key, points, houtcome, hown, rfl⟩
    exact ⟨(share, key, points), houtcome, hown, rfl⟩

end Round

end RankedKeys
