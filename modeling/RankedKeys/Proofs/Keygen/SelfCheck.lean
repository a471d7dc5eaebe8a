import RankedKeys.Proofs.Keygen.Guards

/-!
# The self-check of the second round

When the second round is closed, the party checks that its share belongs to its own partial key.
Every share that it has recorded has been checked against the commitments that are summed up now,
its own commitments are those to its own polynomial, and combining commitments is linear. So the
sums of the run always fit: a key generation fails only if the constant commitments cancel out, and
a refresh only if the previous key share did not pass the check.

## Main results

* `Round.Keeps.shareSum_smul`: the shares of a run add up to what its commitments combine to
* `Round.Keeps.closeShares_of_generation`, `Round.Keeps.closeShares_of_refresh`: when the second
  round can be closed
* `Dealer.closeShares_fails_iff_of_play`: when it cannot, among arbitrary peers
-/

namespace RankedKeys

variable {c : Curve}

namespace Round.Keeps

variable {d : Dealer c} {committed : Roster (PeerCommit c)} {received : Roster c.Scalar}
  (keeps : (Round.shares d committed received).Keeps d) (fits : d.Fits)
  (enough : d.peerCount ≤ received.ids.length)

include keeps fits

/-- A round that has heard as many peers as there are has heard them all. -/
theorem ids_perm (enough : d.peerCount ≤ received.ids.length) :
    committed.ids.Perm (d.config.selfId :: received.ids) := by
  cases keeps with
  | shares ids positions own peers verified =>
    have hpeers : ∀ id, id ∈ received.ids ↔ id ∈ d.peers := by
      refine fun id => Roster.mem_ids_iff_of_subset (fun id hid => ?_) ?_
      · obtain ⟨share, hfind⟩ := Roster.mem_ids_iff.mp hid
        exact Dealer.mem_peers.mpr (verified id share hfind).1
      · rwa [fits.length_peers, ← Roster.length_ids]
    have hnot : d.config.selfId ∉ received.ids :=
      fun hmem => (Dealer.mem_peers.mp ((hpeers _).mp hmem)).1 rfl
    have hself : d.config.selfId ∈ d.config.partyIds :=
      (KeygenConfig.validate_eq_ok_iff.mp fits.valid).2.2.2.1
    refine (List.perm_ext_iff_of_nodup committed.nodup_ids
      (List.nodup_cons.mpr ⟨hnot, received.nodup_ids⟩)).mpr fun id => ?_
    rw [ids, List.mem_cons, hpeers, Dealer.mem_peers, Dealer.IsPeer]
    by_cases hid : id = d.config.selfId
    · simp [hid, hself]
    · simp [hid]

variable [c.Lawful]

include enough

/-- **The shares of a run** add up to what its commitments combine to at the party's position. -/
theorem shareSum_smul : shareSum d received • c.generator =
    combine (d.position.row d.threshold)
      (columnSums d.threshold (committed.values.map (·.commitments))) := by
  have hperm := keeps.ids_perm fits enough
  have hlengths : ∀ list ∈ committed.values.map (·.commitments), list.length = d.threshold := by
    intro list hlist
    obtain ⟨commit, hcommit, rfl⟩ := List.mem_map.mp hlist
    exact keeps.length_of_mem_values fits commit hcommit
  cases keeps with
  | shares ids positions own peers verified =>
    -- What the contribution of each party combines to at the party's position.
    let combined : PartyId → Point c := fun id =>
      ((committed.find? id).map fun commit =>
        combine (d.position.row d.threshold) commit.commitments).getD 0
    have hown : d.position.evaluate d.polynomial • c.generator = combined d.config.selfId := by
      simp only [combined, own, Option.map_some, Option.getD_some]
      rw [← fits.polynomial]
      exact (combine_commitments _ _).symm
    have hreceived : ∀ id ∈ received.ids,
        ((received.find? id).map (· • c.generator)).getD 0 = combined id := by
      intro id hid
      obtain ⟨share, hfind⟩ := Roster.mem_ids_iff.mp hid
      obtain ⟨-, commit, hcommit, hshare⟩ := verified id share hfind
      simp only [combined, hfind, hcommit, Option.map_some, Option.getD_some, hshare]
    calc shareSum d received • c.generator
        = (d.position.evaluate d.polynomial + received.values.sum) • c.generator := by
          rw [shareSum_eq]
      _ = d.position.evaluate d.polynomial • c.generator +
            (received.values.map (· • c.generator)).sum := by
          rw [add_smul, List.sum_smul]
      _ = ((d.config.selfId :: received.ids).map combined).sum := by
          rw [hown, received.map_values _ 0, List.map_congr_left hreceived, List.map_cons,
            List.sum_cons]
      _ = (committed.values.map fun commit =>
            combine (d.position.row d.threshold) commit.commitments).sum := by
          rw [← (hperm.map combined).sum_eq, committed.map_values _ 0]
      _ = combine (d.position.row d.threshold)
            (columnSums d.threshold (committed.values.map (·.commitments))) := by
          rw [combine_columnSums hlengths (Parameter.length_row _ _), List.map_map]
          rfl

/-- **The party's own partial key** in a run is the sum of its shares in the exponent. -/
theorem find?_partialKeys : (partialKeys d committed).find? d.config.selfId =
    some (shareSum d received • c.generator) := by
  rw [keeps.shareSum_smul fits enough, partialKeys, Roster.find?_map]
  cases keeps with
  | shares ids positions own =>
    rw [own, Option.map_some]
    rfl

/-- **A key generation** passes its self-check. It fails if the constant commitments cancel out. -/
theorem closeShares_of_generation (hprevious : d.previous = none) :
    closeShares d committed received =
      match (constantSum committed).key? with
      | none => .error (.verificationFailed "Public key is the identity")
      | some key => .ok ⟨[], .done
          (d.keyShare committed (shareSum d received) key (partialKeys d committed))⟩ := by
  have houtcome : outcome d committed received = _ := outcome_of_generation hprevious
  cases hkey : (constantSum committed).key? with
  | none =>
    rw [hkey] at houtcome
    rw [closeShares, houtcome]
    rfl
  | some key =>
    rw [hkey] at houtcome
    exact closeShares_eq_ok_iff.mpr
      ⟨_, _, _, houtcome, keeps.find?_partialKeys fits enough, rfl⟩

/-- **A refresh** passes its self-check if the previous key share does. -/
theorem closeShares_of_refresh {k : KeyShare c} (hprevious : d.previous = some k)
    (covers : ∀ id ∈ k.positions.ids, id ∈ k.partialKeys.ids) :
    (∃ closing, closeShares d committed received = .ok closing) ↔
      k.partialKeys.find? k.selfId = some (k.share • c.generator) := by
  obtain ⟨hself, hparties, -, hposition, -⟩ := fits.refresh k hprevious
  have hown := keeps.find?_partialKeys fits enough
  have hids : ∀ id ∈ committed.ids, id ∈ k.partialKeys.ids := by
    cases keeps with
    | shares ids => exact fun id hid => covers id (hparties ▸ (ids id).mp hid)
  obtain ⟨old, hold⟩ := Roster.mem_ids_iff.mp
    (covers k.selfId (Roster.mem_ids_iff.mpr ⟨_, hposition⟩))
  -- The sums of the run are on both sides.
  have hcheck : ∀ points : Roster (Point c),
      (∀ id, points.find? id = ((partialKeys d committed).find? id).map
        (· + (k.partialKeys.find? id).getD 0)) →
      (points.find? d.config.selfId = some ((shareSum d received + k.share) • c.generator) ↔
        old = k.share • c.generator) := by
    intro points hpoints
    rw [hpoints, hown, Option.map_some, Option.some_inj, hself, hold, Option.getD_some, add_smul,
      add_right_inj]
  rw [hold, Option.some_inj]
  constructor
  · rintro ⟨closing, hclose⟩
    obtain ⟨share, key, points, houtcome, hfind, -⟩ := closeShares_eq_ok_iff.mp hclose
    obtain ⟨-, rfl, -, hpoints⟩ := (outcome_of_refresh_eq_ok_iff hprevious).mp houtcome
    exact (hcheck points hpoints).mp hfind
  · intro heq
    -- The partial keys of the run and the previous ones, party by party.
    let points : Roster (Point c) := .gather
      (fun id => ((partialKeys d committed).find? id).getD 0 + (k.partialKeys.find? id).getD 0)
      (partialKeys d committed).ids
    have hpoints : ∀ id, points.find? id = ((partialKeys d committed).find? id).map
        (· + (k.partialKeys.find? id).getD 0) := by
      intro id
      rw [Roster.find?_gather]
      cases hfind : (partialKeys d committed).find? id with
      | none => rw [if_neg (Roster.find?_eq_none_iff.mp hfind), Option.map_none]
      | some point =>
        rw [if_pos (Roster.mem_ids_iff.mpr ⟨point, hfind⟩), Option.map_some, Option.getD_some]
    have houtcome : outcome d committed received =
        .ok (shareSum d received + k.share, k.publicKey, points) :=
      (outcome_of_refresh_eq_ok_iff hprevious).mpr ⟨hids, rfl, rfl, hpoints⟩
    exact ⟨_, closeShares_eq_ok_iff.mpr ⟨_, _, _, houtcome, (hcheck points hpoints).mpr heq, rfl⟩⟩

end Round.Keeps

/-- **Why the second round fails**: among arbitrary peers, if it comes to the end of the second
round, a key generation fails there if and only if the constant commitments cancel out, and it says
so; its self-check never fails. A refresh of a key share that has partial keys for all of its
parties fails if and only if the share does not belong to the partial key of its own party. -/
theorem Dealer.closeShares_fails_iff_of_play [c.Lawful] {d d' : Dealer c} {view : PeerView}
    (created : d.Created view) {happenings : List (Happening KeygenMessage)}
    {committed : Roster (PeerCommit c)} {received : Roster c.Scalar}
    (called : .close (.shares d' committed received) ∈
      (Record.initial (Party.ofDealer d view).engine).asked (Round.protocol c) happenings) :
    (d.previous = none →
      ((∃ error, Round.closeShares d' committed received = .error error) ↔
        Round.constantSum committed = 0) ∧
      ∀ error, Round.closeShares d' committed received = .error error →
        error = .verificationFailed "Public key is the identity") ∧
    ∀ k, d.previous = some k → (∀ id ∈ k.positions.ids, id ∈ k.partialKeys.ids) →
      ((∃ error, Round.closeShares d' committed received = .error error) ↔
        k.partialKeys.find? k.selfId ≠ some (k.share • c.generator)) := by
  have fits := created.fits
  obtain ⟨before, after, hasked⟩ := List.append_of_mem called
  cases Record.makes_of_asked_eq (Round.protocol c) d.config.selfId view.peers.length
    (.commits d .empty) [commitTag, shareTag] hasked with
  | close visits enough =>
    have keeps := Round.keeps_of_visits fits visits
    obtain rfl : d' = d := by cases keeps; rfl
    have hheard : d'.peerCount ≤ received.ids.length := (Round.length_heard visits).symm ▸ enough.2
    refine ⟨fun hprevious => ?_, fun k hprevious covers => ?_⟩
    · rw [keeps.closeShares_of_generation fits hheard hprevious]
      cases hkey : (Round.constantSum committed).key? with
      | none =>
        refine ⟨⟨fun _ => Point.key?_eq_none_iff.mp hkey, fun _ => ⟨_, rfl⟩⟩, ?_⟩
        exact fun error herror => (Except.error.inj herror).symm
      | some key =>
        refine ⟨⟨nofun, fun hzero => ?_⟩, nofun⟩
        rw [Point.key?_eq_none_iff.mpr hzero] at hkey
        cases hkey
    · refine Iff.trans ?_ (keeps.closeShares_of_refresh fits hheard hprevious covers).not
      cases Round.closeShares d' committed received with
      | error error => exact ⟨nofun, fun _ => ⟨error, rfl⟩⟩
      | ok closing => exact ⟨nofun, fun h => absurd ⟨closing, rfl⟩ h⟩

section TwoParties

/-- The first of two parties hears the second in both rounds. -/
def heardOfSecond (first second : Dealer .secp256k1) : List (Happening KeygenMessage) :=
  [.start, .deliver "b" second.commitMessage, .move, .answer (.ok ()),
    .deliver "b" (second.shareMessage "a" first.position), .move]

/-- The calls of the first of two parties. -/
def askedOfFirst (first second : Dealer .secp256k1) :
    List (Call (Round .secp256k1) KeygenMessage) :=
  (Record.initial (Party.ofDealer first ⟨"a", ["b"]⟩).engine).asked (Round.protocol .secp256k1)
    (heardOfSecond first second)

/-- The contributions with which the second round is closed. -/
def closedWith : Call (Round .secp256k1) KeygenMessage → Option (Roster (PeerCommit .secp256k1))
  | .close (.shares _ committed _) => some committed
  | _ => none

theorem exists_of_closedWith {calls : List (Call (Round .secp256k1) KeygenMessage)}
    {p : Roster (PeerCommit .secp256k1) → Bool} (h : (calls.findSome? closedWith).any p = true) :
    ∃ d committed received, .close (.shares d committed received) ∈ calls ∧
      p committed = true := by
  obtain ⟨committed, hfind, hp⟩ := (Option.any_eq_true _ _).mp h
  obtain ⟨call, hcall, hclosed⟩ := List.exists_of_findSome?_eq_some hfind
  cases call with
  | handle round m => cases hclosed
  | close round =>
    cases round with
    | commits d received => cases hclosed
    | shares d committed received =>
      cases hclosed
      exact ⟨d, _, received, hcall, hp⟩

/-- The key share of the first of two parties, with another share in it. -/
def tamperedOfTwo : KeyShare .secp256k1 :=
  { keyShareOfTwo with share := 1 }

/-- A key generation whose constant terms cancel out fails at its end, and so does the refresh of a
key share in which the share has been changed. -/
theorem closeShares_fails_iff_of_play_secp256k1 :
    (∃ d committed received,
      .close (.shares d committed received) ∈
        askedOfFirst (dealerOfTwo "a" none 5 7 8) (dealerOfTwo "b" none 6 (-7) 10) ∧
        Round.closeShares d committed received =
          .error (.verificationFailed "Public key is the identity")) ∧
    ∃ d committed received,
      .close (.shares d committed received) ∈
        askedOfFirst (dealerOfTwo "a" (some tamperedOfTwo) 5 0 12)
          (dealerOfTwo "b" (some tamperedOfTwo) 6 0 13) ∧
        ∃ error, Round.closeShares d committed received = .error error := by
  constructor
  · have hclosed :
        ((askedOfFirst (dealerOfTwo "a" none 5 7 8)
          (dealerOfTwo "b" none 6 (-7) 10)).findSome? closedWith).any
            (fun committed => decide (Round.constantSum committed = 0)) = true := by
      decide +kernel
    obtain ⟨d, committed, received, called, hzero⟩ := exists_of_closedWith hclosed
    obtain ⟨fails, only⟩ := (Dealer.closeShares_fails_iff_of_play
      (.generated _ generate_dealerOfTwo) called).1 rfl
    obtain ⟨error, herror⟩ := fails.mpr (of_decide_eq_true hzero)
    exact ⟨d, committed, received, called, only error herror ▸ herror⟩
  · have hclosed :
        ((askedOfFirst (dealerOfTwo "a" (some tamperedOfTwo) 5 0 12)
          (dealerOfTwo "b" (some tamperedOfTwo) 6 0 13)).findSome? closedWith).any
            (fun _ => true) = true := by
      decide +kernel
    obtain ⟨d, committed, received, called, -⟩ := exists_of_closedWith hclosed
    have hrefresh : Party.refresh tamperedOfTwo ⟨List.replicate 32 0, rfl⟩ ⟨"a", ["b"]⟩
        (.ofBlocks [11, 12]) =
          .ok (Party.ofDealer (dealerOfTwo "a" (some tamperedOfTwo) 5 0 12) ⟨"a", ["b"]⟩) := by
      refine bind_eq_ok_iff.mpr ⟨⟨5, 0⟩, by decide +kernel, ?_⟩
      refine Party.assemble_eq_ok_iff.mpr ⟨by decide +kernel, by decide +kernel, ?_⟩
      exact congrArg (Party.ofDealer · _) (by decide +kernel)
    have hfails := (Dealer.closeShares_fails_iff_of_play (.refreshed _ _ _ hrefresh) called).2
      tamperedOfTwo rfl (by decide +kernel)
    exact ⟨d, committed, received, called, hfails.mpr (by decide +kernel)⟩

end TwoParties

end RankedKeys
