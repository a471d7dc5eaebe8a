import RankedKeys.Proofs.Curve.Secp256k1
import RankedKeys.Proofs.Engine.Run
import RankedKeys.Proofs.Keygen.Closing
import RankedKeys.Proofs.Keygen.Combination
import RankedKeys.Proofs.Keygen.Party

/-!
# Soundness among arbitrary peers

Whatever its peers send, a party that ends with a key share has one in which everything fits: the
positions are those of the configured parties and form a scheme, the share belongs to the party's
own partial key, and the factors of every scheme among the parties take the public key out of the
partial keys. A refresh keeps all of this, the public key and the positions.

The rounds keep count of distinct peers, so that the second one has the contributions of exactly
the configured parties. The partial keys are combinations of the sums of all commitments, and the
factors take the sum of the constant commitments out of them, whatever the commitments are.

## Main definitions

* `KeyShare.Consistent`: a key share in which everything fits
* `Dealer.Fits`: what the creation of a party checks
* `Round.Holds`: what a round in progress has checked

## Main results

* `Round.Holds.handle`, `leads_of_closeCommits`, `leads_of_closeShares`: the rounds
* `Dealer.Fits.governs_of_run`: a run of either kind
* `consistent_of_run`: soundness among arbitrary peers
-/

namespace RankedKeys

variable {c : Curve}

/-- A key share of some parties in which everything fits. -/
structure KeyShare.Consistent (k : KeyShare c) (partyIds : List PartyId) : Prop where
  ids : ∀ id, id ∈ k.positions.ids ↔ id ∈ partyIds
  scheme : checkValid k.threshold.toNat k.positions.values = .ok ()
  own : k.partialKeys.find? k.selfId = some (k.share • c.generator)
  /-- The factors of every scheme among the parties take the public key out of their partial
  keys. -/
  combines : ∀ members : List (PartyId × Parameter c.Scalar),
    (∀ e ∈ members, k.positions.find? e.1 = some e.2) →
    ∀ factors, secretCoefficients k.threshold.toNat (members.map (·.2)) = .ok factors →
      combine factors (members.map fun e => (k.partialKeys.find? e.1).getD 0) =
        .affine k.publicKey

/-- What the creation of a party checks. -/
structure Dealer.Fits (d : Dealer c) : Prop where
  valid : d.config.validate = .ok ()
  peerCount : d.peerCount + 1 = d.config.partyIds.length
  polynomial : d.polynomial.length = d.threshold
  /-- A refresh is among the parties of the previous key share, at their positions, and its
  polynomial has no constant term. -/
  refresh : ∀ k, d.previous = some k → d.config.selfId = k.selfId ∧
    d.config.partyIds = k.positions.ids ∧ d.config.threshold = k.threshold ∧
    k.positions.find? k.selfId = some d.position ∧ d.polynomial.headD 0 = 0

/-- A contribution to the first round that has been checked. -/
structure Dealer.Admits (d : Dealer c) (id : PartyId) (commit : PeerCommit c) : Prop where
  member : id ∈ d.config.partyIds
  length : commit.commitments.length = d.threshold
  refresh : ∀ k, d.previous = some k →
    commit.commitments.headD 0 = 0 ∧ k.positions.find? id = some commit.position

/-- What a round in progress has checked, after some messages. -/
def Round.Holds (d : Dealer c) (count : ℕ) : Round c → Prop
  | .commits d' received => d' = d ∧ received.size = count ∧
    ∀ id commit, received.find? id = some commit → id ≠ d.config.selfId ∧ d.Admits id commit
  | .shares d' committed _ => d' = d ∧ (∀ id, id ∈ committed.ids ↔ id ∈ d.config.partyIds) ∧
    checkValid d.threshold (committed.map (·.position)).values = .ok () ∧
    ∀ id commit, committed.find? id = some commit → d.Admits id commit

/-- What is known of a key share that a run ends with. -/
def Dealer.Yields (d : Dealer c) (k : KeyShare c) : Prop :=
  k.Consistent d.config.partyIds ∧ (∀ id, id ∈ k.partialKeys.ids ↔ id ∈ k.positions.ids) ∧
    k.selfId = d.config.selfId ∧ k.threshold = d.config.threshold ∧
    ∀ previous, d.previous = some previous →
      k.publicKey = previous.publicKey ∧ k.positions = previous.positions

/-- Where the end of a round may lead. -/
def Dealer.Leads (d : Dealer c) : Transition (Round c) (KeyShare c) → Prop
  | .next round => round.Holds d 0
  | .done k => d.Yields k

/-- What is known of the engine of a party at any time. -/
structure Dealer.Governs (d : Dealer c) (e : Engine (Round c) KeygenMessage (KeyShare c)) :
    Prop where
  unstarted : ∀ round, e.consumer = .unstarted round → round.Holds d 0
  spawned : ∀ round, e.consumer = .spawned round → round.Holds d 0
  active : ∀ round count, e.consumer = .active round count → round.Holds d count
  outcome : ∀ k, e.outcome = some (.ok k) → d.Yields k

section Moves

variable {d : Dealer c}

theorem Dealer.admits_of_acceptsCommit {m : CommitMessage} {commit : PeerCommit c}
    (h : d.AcceptsCommit m commit) : d.Admits m.sender commit where
  member := h.peer.2
  length := by
    obtain ⟨points, hpoints, hcommitments⟩ := h.commitments
    have hlength : points.length = m.commitments.length :=
      (mapM_eq_ok_iff.mp hpoints).length_eq.symm
    rw [hcommitments, List.length_append, List.length_replicate, hlength, h.count]
  refresh k hk := by
    refine ⟨?_, h.position k hk⟩
    obtain ⟨points, hpoints, hcommitments⟩ := h.commitments
    have homitted : d.omitted = 1 := by simp [Dealer.omitted, Dealer.isRefresh, hk]
    rw [hcommitments, homitted]
    rfl

namespace Round.Holds

/-- A message that a round takes in counts. -/
theorem handle {r r' : Round c} {count : ℕ} {m : KeygenMessage} (h : r.Holds d count)
    (fresh : r.handled (Tagged.sender m) = false) (hhandle : r.handle m = .ok r') :
    r'.Holds d (count + 1) := by
  cases Round.handle_eq_ok_iff.mp hhandle with
  | @commit d' received m commit accepts =>
    obtain ⟨rfl, hsize, hadmits⟩ := h
    -- The sender has not been heard before, so that there is one entry more.
    have hnot : m.sender ∉ received.ids := by
      rw [← Roster.contains_iff, Bool.not_eq_true]
      exact fresh
    refine ⟨rfl, (Roster.size_insert hnot commit).trans (by rw [hsize]), ?_⟩
    intro id commit' hfind
    rw [Roster.find?_insert] at hfind
    split at hfind
    · rename_i hid
      cases hfind
      subst hid
      exact ⟨accepts.peer.1, Dealer.admits_of_acceptsCommit accepts⟩
    · exact hadmits id commit' hfind
  | share accepts =>
    obtain ⟨rfl, hids, hvalid, hadmits⟩ := h
    exact ⟨rfl, hids, hvalid, hadmits⟩

end Round.Holds

namespace Dealer.Governs

variable {e e' : Engine (Round c) KeygenMessage (KeyShare c)}

/-- A run that fails has no key share. -/
theorem finish_error (e : Engine (Round c) KeygenMessage (KeyShare c)) (error : Error) :
    d.Governs (e.finish (.error error)) :=
  ⟨fun _ hround => (nomatch hround), fun _ hround => (nomatch hround),
    fun _ _ hround => (nomatch hround), fun _ hk => (nomatch hk)⟩

variable (h : d.Governs e)

include h

theorem inProgress {round : Round c} {count : ℕ} (hprogress : e.inProgress = some (round, count)) :
    round.Holds d count := by
  unfold Engine.inProgress at hprogress
  split at hprogress
  · split at hprogress <;> cases hprogress
    · exact h.spawned _ ‹_›
    · exact h.active _ _ ‹_›
  · cases hprogress

theorem touched (touches : Engine.Touches e e') : d.Governs e' := by
  cases touches with
  | start =>
    unfold Engine.start
    split
    · rename_i round hround
      exact ⟨fun _ h' => (nomatch h'), fun _ h' => by cases h'; exact h.unstarted _ hround,
        fun _ _ h' => (nomatch h'), h.outcome⟩
    · exact h
  -- What is known of an engine does not depend on whether it runs or lives, nor on its messages.
  | stop => exact ⟨h.unstarted, h.spawned, h.active, h.outcome⟩
  | shutdown =>
    unfold Engine.shutdown
    split
    · split
      · exact finish_error { e with live := false } _
      · exact h
    · exact ⟨h.unstarted, h.spawned, h.active, h.outcome⟩
  | addMessage taken =>
    obtain ⟨-, -, mailboxes, -, rfl⟩ := Engine.addMessage_eq_ok_iff.mp taken
    exact ⟨h.unstarted, h.spawned, h.active, h.outcome⟩

/-- A message that is taken in leaves the engine in a round that has counted it. -/
theorem taken {round round' : Round c} {count : ℕ} {m : KeygenMessage}
    {mailboxes : Mailboxes KeygenMessage} (pops : e.Pops round count m mailboxes)
    (fresh : round.handled (Tagged.sender m) = false)
    (handle : (round.handle m).mapError Fault.error = .ok round') :
    round'.Holds d (count + 1) ∧
      d.Governs { e with mailboxes, consumer := .active round' (count + 1) } := by
  have hround := (h.inProgress pops.inProgress).handle fresh (mapError_eq_ok_iff.mp handle)
  exact ⟨hround, fun _ h' => (nomatch h'), fun _ h' => (nomatch h'),
    fun _ _ h' => by cases h'; exact hround, h.outcome⟩

theorem moved (advance : e.advance (Round.protocol c) = .moved e') : d.Governs e' := by
  have moves := Engine.moves_advance (Round.protocol c) e
  rw [advance] at moves
  cases moves with
  | wakes spawned live =>
    exact ⟨fun _ h' => (nomatch h'), fun _ h' => (nomatch h'),
      fun _ _ h' => by cases h'; exact h.spawned _ spawned, h.outcome⟩
  | breaksOff inProgress pop => exact finish_error _ _
  | repeated pops handled => exact finish_error _ _
  | refuses pops fresh handle => exact finish_error _ _
  | takes pops fresh handle short => exact (h.taken pops fresh handle).2
  | failsToClose pops fresh handle enough close => exact finish_error _ _

end Dealer.Governs

end Moves

variable [c.Lawful]

section Committed

variable {d : Dealer c} {committed : Roster (PeerCommit c)}
  (hadmits : ∀ id commit, committed.find? id = some commit → d.Admits id commit)

omit [c.Lawful] in
theorem find?_map_position_iff {id : PartyId} {position : Parameter c.Scalar} :
    (committed.map (·.position)).find? id = some position ↔
      ∃ commit, committed.find? id = some commit ∧ commit.position = position := by
  rw [Roster.find?_map, Option.map_eq_some_iff]

include hadmits

omit [c.Lawful] in
theorem length_of_mem_commitments :
    ∀ list ∈ committed.values.map (·.commitments), list.length = d.threshold := by
  intro list hlist
  obtain ⟨commit, hcommit, rfl⟩ := List.mem_map.mp hlist
  obtain ⟨⟨id, _⟩, hmem, rfl⟩ := List.mem_map.mp hcommit
  exact (hadmits id _ (Roster.find?_eq_some_iff.mpr hmem)).length

/-- The sums of the commitments start with the sum of the constant ones. -/
theorem headD_columnSums :
    (columnSums d.threshold (committed.values.map (·.commitments))).headD 0 =
      Round.constantSum committed := by
  rw [List.headD_eq_head?_getD, List.head?_eq_getElem?, ← List.getD_eq_getElem?_getD,
    getD_columnSums (length_of_mem_commitments hadmits), Round.constantSum, ← List.sum_eq_foldl,
    List.map_map]
  refine congrArg List.sum (List.map_congr_left fun commit _ => ?_)
  rw [Function.comp_apply, List.headD_eq_head?_getD, List.head?_eq_getElem?,
    List.getD_eq_getElem?_getD]

/-- **The partial keys of a run** combine to the sum of the constant commitments. -/
theorem combine_partialKeys (hpos : 0 < d.threshold)
    {members : List (PartyId × Parameter c.Scalar)}
    (hmembers : ∀ e ∈ members, (committed.map (·.position)).find? e.1 = some e.2)
    {factors : List c.Scalar}
    (hfactors : secretCoefficients d.threshold (members.map (·.2)) = .ok factors) :
    combine factors
        (members.map fun e => ((Round.partialKeys d committed).find? e.1).getD 0) =
      Round.constantSum committed := by
  -- Every partial key is a combination of the same sums.
  have hpoints : members.map (fun e => ((Round.partialKeys d committed).find? e.1).getD 0) =
      (members.map (·.2)).map fun p => combine (p.row d.threshold)
        (columnSums d.threshold (committed.values.map (·.commitments))) := by
    rw [List.map_map]
    refine List.map_congr_left fun e he => ?_
    obtain ⟨commit, hcommit, hposition⟩ := find?_map_position_iff.mp (hmembers e he)
    simp [Round.partialKeys, hcommit, hposition]
  rw [hpoints, combine_secretCoefficients hfactors
    (length_columnSums (length_of_mem_commitments hadmits)) hpos, headD_columnSums hadmits]

/-- The commitments of a refresh leave the public key as it is. -/
theorem constantSum_eq_zero {k : KeyShare c} (hprevious : d.previous = some k) :
    Round.constantSum committed = 0 := by
  rw [Round.constantSum, ← List.sum_eq_foldl]
  refine List.sum_eq_zero fun point hpoint => ?_
  obtain ⟨commit, hcommit, rfl⟩ := List.mem_map.mp hpoint
  obtain ⟨⟨id, _⟩, hmem, rfl⟩ := List.mem_map.mp hcommit
  exact ((hadmits id _ (Roster.find?_eq_some_iff.mpr hmem)).refresh k hprevious).1

/-- **The partial keys of a refresh**, added to the previous ones, combine to the previous key. -/
theorem combine_addPartialKeys (hpos : 0 < d.threshold) {k : KeyShare c}
    (hprevious : d.previous = some k) {key : Point c} {points : Roster (Point c)}
    (hpoints : ∀ id, points.find? id =
      ((Round.partialKeys d committed).find? id).map (· + (k.partialKeys.find? id).getD 0))
    {members : List (PartyId × Parameter c.Scalar)}
    (hmembers : ∀ e ∈ members, (committed.map (·.position)).find? e.1 = some e.2)
    {factors : List c.Scalar}
    (hfactors : secretCoefficients d.threshold (members.map (·.2)) = .ok factors)
    (hold : combine factors (members.map fun e => (k.partialKeys.find? e.1).getD 0) = key) :
    combine factors (members.map fun e => (points.find? e.1).getD 0) = key := by
  -- The sums of this run combine to zero, and the previous partial keys to the key.
  have hsplit : members.map (fun e => (points.find? e.1).getD 0) = members.map fun e =>
      ((Round.partialKeys d committed).find? e.1).getD 0 + (k.partialKeys.find? e.1).getD 0 := by
    refine List.map_congr_left fun e he => ?_
    obtain ⟨commit, hcommit, -⟩ := find?_map_position_iff.mp (hmembers e he)
    rw [hpoints]
    simp [Round.partialKeys, hcommit]
  rw [hsplit, combine_map_add, combine_partialKeys hadmits hpos hmembers hfactors,
    constantSum_eq_zero hadmits hprevious, zero_add, hold]

end Committed

section Fits

variable {d : Dealer c} (fits : d.Fits)

include fits

omit [c.Lawful] in
theorem Dealer.Fits.threshold_pos : 0 < d.threshold :=
  Nat.lt_of_lt_of_le two_pos (KeygenConfig.validate_eq_ok_iff.mp fits.valid).1

/-- A party admits its own contribution. -/
theorem Dealer.Fits.admits_ownCommit : d.Admits d.config.selfId d.ownCommit where
  member := (KeygenConfig.validate_eq_ok_iff.mp fits.valid).2.2.2.1
  length := (List.length_map _).trans fits.polynomial
  refresh k hk := by
    obtain ⟨hself, -, -, hposition, hconstant⟩ := fits.refresh k hk
    refine ⟨?_, hself ▸ hposition⟩
    show (d.polynomial.map (· • c.generator)).headD 0 = 0
    cases hpolynomial : d.polynomial with
    | nil => rfl
    | cons a polynomial =>
      rw [hpolynomial] at hconstant
      obtain rfl : a = 0 := hconstant
      exact zero_smul _ _

/-- **The first round** ends with the contributions of exactly the configured parties. -/
theorem leads_of_closeCommits {received : Roster (PeerCommit c)} {count : ℕ}
    {closing : Closing (Round c) KeygenMessage (KeyShare c)}
    (h : (Round.commits d received).Holds d count) (enough : d.peerCount ≤ count)
    (hclose : Round.closeCommits d received = .ok closing) : d.Leads closing.transition := by
  obtain ⟨-, hsize, hadmits⟩ := h
  obtain ⟨hvalid, rfl⟩ := Round.closeCommits_eq_ok_iff.mp hclose
  have hall : ∀ id commit, (received.insert d.config.selfId d.ownCommit).find? id = some commit →
      d.Admits id commit := by
    intro id commit hfind
    rw [Roster.find?_insert] at hfind
    split at hfind
    · rename_i hid
      cases hfind
      subst hid
      exact fits.admits_ownCommit
    · exact (hadmits id commit hfind).2
  refine ⟨rfl, fun id => ?_, hvalid, hall⟩
  -- All are configured parties, and there are as many of them.
  refine Roster.mem_ids_iff_of_subset (fun id hid => ?_) ?_
  · obtain ⟨commit, hfind⟩ := Roster.mem_ids_iff.mp hid
    exact (hall id commit hfind).member
  · have hnot : d.config.selfId ∉ received.ids := by
      intro hmem
      obtain ⟨commit, hfind⟩ := Roster.mem_ids_iff.mp hmem
      exact (hadmits _ commit hfind).1 rfl
    rw [Roster.size_insert hnot, hsize, ← fits.peerCount]
    omega

section Closing

variable {committed : Roster (PeerCommit c)} {received : Roster c.Scalar} {share : c.Scalar}
  {key : PublicKey c} {points : Roster (Point c)}
  (h : (Round.shares d committed received).Holds d 0)
  (houtcome : Round.outcome d committed received = .ok (share, key, points))
  (hown : points.find? d.config.selfId = some (share • c.generator))

include h houtcome hown

/-- **A key generation** ends with a key share in which everything fits. -/
theorem yields_of_generation (hprevious : d.previous = none) :
    d.Yields (d.keyShare committed share key points) := by
  obtain ⟨-, hids, hvalid, hadmits⟩ := h
  rw [Round.outcome_of_generation hprevious] at houtcome
  cases hkey : (Round.constantSum committed).key? with
  | none =>
    rw [hkey] at houtcome
    cases houtcome
  | some key' =>
    rw [hkey] at houtcome
    cases houtcome
    refine ⟨⟨fun id => ?_, hvalid, hown, ?_⟩, fun id => ?_, rfl, rfl, fun k hk => ?_⟩
    · show id ∈ (committed.map (·.position)).ids ↔ _
      rw [Roster.ids_map, hids]
    · intro members hmembers factors hfactors
      exact (combine_partialKeys hadmits fits.threshold_pos hmembers hfactors).trans
        (Point.key?_eq_some_iff.mp hkey)
    · show id ∈ (Round.partialKeys d committed).ids ↔ id ∈ (committed.map (·.position)).ids
      rw [Round.partialKeys, Roster.ids_map, Roster.ids_map]
    · rw [hprevious] at hk
      cases hk

/-- **A refresh** of a key share in which everything fits ends with another one. -/
theorem yields_of_refresh {k : KeyShare c} (hprevious : d.previous = some k)
    (hconsistent : k.Consistent k.positions.ids) :
    d.Yields (d.keyShare committed share key points) := by
  obtain ⟨-, hids, hvalid, hadmits⟩ := h
  obtain ⟨-, rfl, rfl, hpoints⟩ := (Round.outcome_of_refresh_eq_ok_iff hprevious).mp houtcome
  obtain ⟨-, hparties, hthreshold, -, -⟩ := fits.refresh k hprevious
  -- Every party has been checked to be where it was.
  have hpositions : committed.map (·.position) = k.positions := by
    ext id : 1
    rw [Roster.find?_map]
    cases hfind : committed.find? id with
    | some commit => exact ((hadmits id commit hfind).refresh k hprevious).2.symm
    | none =>
      rw [Roster.find?_eq_none_iff, hids, hparties, ← Roster.find?_eq_none_iff] at hfind
      exact hfind.symm
  refine ⟨⟨fun id => ?_, hvalid, hown, ?_⟩, fun id => ?_, rfl, rfl, fun k' hk' => ?_⟩
  · show id ∈ (committed.map (·.position)).ids ↔ _
    rw [Roster.ids_map, hids]
  · intro members hmembers factors hfactors
    refine combine_addPartialKeys hadmits fits.threshold_pos hprevious hpoints hmembers hfactors ?_
    refine hconsistent.combines members (fun e he => ?_) factors (by rwa [← hthreshold])
    rw [← hpositions]
    exact hmembers e he
  · show id ∈ points.ids ↔ id ∈ (committed.map (·.position)).ids
    simp only [Roster.mem_ids_iff, hpoints, Roster.find?_map, Round.partialKeys]
    simp
  · rw [hprevious] at hk'
    cases hk'
    exact ⟨rfl, hpositions⟩

end Closing

/-- **The second round** ends with a key share in which everything fits. -/
theorem leads_of_closeShares {committed : Roster (PeerCommit c)} {received : Roster c.Scalar}
    {closing : Closing (Round c) KeygenMessage (KeyShare c)}
    (hconsistent : ∀ k, d.previous = some k → k.Consistent k.positions.ids)
    (h : (Round.shares d committed received).Holds d 0)
    (hclose : Round.closeShares d committed received = .ok closing) :
    d.Leads closing.transition := by
  obtain ⟨share, key, points, houtcome, hown, rfl⟩ := Round.closeShares_eq_ok_iff.mp hclose
  cases hprevious : d.previous with
  | none => exact yields_of_generation fits h houtcome hown hprevious
  | some k => exact yields_of_refresh fits h houtcome hown hprevious (hconsistent k hprevious)

/-- **A run** among arbitrary peers keeps what is known of the engine. -/
theorem Dealer.Fits.governs_of_run
    (hprevious : ∀ k, d.previous = some k → k.Consistent k.positions.ids)
    {e e' : Engine (Round c) KeygenMessage (KeyShare c)}
    (run : Engine.Run (Round.protocol c) e e') (start : d.Governs e) : d.Governs e' := by
  refine run.induction d.Leads (fun e e' touches h => h.touched touches)
    (fun e e' advance h => h.moved advance) (fun e e' closing advance h => ?_)
    (fun e transition handed h hleads => ?_) start
  · -- The consumer closes a round, having taken in its last message.
    have moves := Engine.moves_advance (Round.protocol c) e
    rw [advance] at moves
    cases moves with
    | closes pops fresh handle enough close =>
      rename_i round' count m mailboxes
      obtain ⟨hround, hgoverns⟩ := h.taken pops fresh handle
      refine ⟨hgoverns, ?_⟩
      have hclose : round'.close = .ok closing := mapError_eq_ok_iff.mp close
      cases round' with
      | commits d' received =>
        obtain rfl := hround.1
        exact leads_of_closeCommits fits hround enough hclose
      | shares d' committed received =>
        obtain rfl := hround.1
        exact leads_of_closeShares fits hprevious hround hclose
  · cases handed with
    | error error => exact Dealer.Governs.finish_error e _
    | ok u =>
      cases transition with
      | done k =>
        exact ⟨fun _ h' => (nomatch h'), fun _ h' => (nomatch h'), fun _ _ h' => (nomatch h'),
          fun _ h' => by cases h'; exact hleads⟩
      | next round =>
        exact ⟨fun _ h' => (nomatch h'), fun _ h' => (nomatch h'),
          fun _ _ h' => by cases h'; exact hleads, h.outcome⟩

end Fits

section Parties

omit [c.Lawful]

/-- A party of a key generation has a dealer that fits. -/
theorem Party.exists_fits_of_generate {config : KeygenConfig} {view : PeerView}
    {entropy : Entropy} {party : Party c} (h : Party.generate config view entropy = .ok party) :
    ∃ d : Dealer c, d.Fits ∧ d.config = config ∧ d.previous = none ∧
      party = Party.ofDealer d view := by
  rw [Party.generate_eq] at h
  obtain ⟨hvalid, hpeers, hparty⟩ := Party.assemble_eq_ok_iff.mp h
  refine ⟨_, ⟨hvalid, hpeers, Entropy.length_scalars _ _, fun k hk => ?_⟩, rfl, rfl, hparty⟩
  cases hk

/-- A party of a refresh has a dealer that fits. -/
theorem Party.exists_fits_of_refresh {previous : KeyShare c} {sessionId : SessionId}
    {view : PeerView} {entropy : Entropy} {party : Party c}
    (h : Party.refresh previous sessionId view entropy = .ok party) :
    ∃ d : Dealer c, d.Fits ∧ d.previous = some previous ∧ party = Party.ofDealer d view := by
  obtain ⟨position, hposition, hparty⟩ := bind_eq_ok_iff.mp h
  -- The position and the parties are those of the previous key share, and the constant term is set
  -- to zero.
  obtain ⟨hvalid, hpeers, hparty⟩ := Party.assemble_eq_ok_iff.mp hparty
  have hfind : previous.positions.find? previous.selfId = some position := by
    unfold KeyShare.position at hposition
    split at hposition <;> cases hposition
    assumption
  have hlength := (Party.length_polynomial (some previous) _).trans
    (Entropy.length_scalars (c := c) previous.threshold.toNat entropy)
  refine ⟨_, ⟨hvalid, hpeers, hlength, fun k hk => ?_⟩, rfl, hparty⟩
  cases hk
  exact ⟨rfl, rfl, rfl, hfind, Party.headD_polynomial previous _⟩

/-- A party that has not been started. -/
theorem Dealer.governs_ofDealer (d : Dealer c) (view : PeerView) :
    d.Governs (Party.ofDealer d view).engine :=
  ⟨fun _ h => by cases h; exact ⟨rfl, rfl, fun _ _ h => (nomatch h)⟩, fun _ h => (nomatch h),
    fun _ _ h => (nomatch h), fun _ h => (nomatch h)⟩

theorem Engine.outcome_of_result_eq_ok {σ M R : Type} {e : Engine σ M R} {k : R}
    (h : e.result = .ok k) : e.outcome = some (.ok k) := by
  unfold Engine.result at h
  split at h
  · cases h
  · rename_i houtcome
    rw [houtcome, h]

end Parties

/-- **Soundness among arbitrary peers**: a key generation that ends with a key share, whatever its
peers have sent, ends with one of the configured parties in which everything fits; and so does a
refresh of such a key share, which keeps the public key and the positions. The parties that have a
partial key are always those that have a position. -/
theorem consistent_of_run :
    (∀ (config : KeygenConfig) (view : PeerView) (entropy : Entropy) (party : Party c)
      (e : Engine (Round c) KeygenMessage (KeyShare c)) (k : KeyShare c),
      Party.generate config view entropy = .ok party →
      Engine.Run (Round.protocol c) party.engine e → e.result = .ok k →
        k.Consistent config.partyIds ∧ (∀ id, id ∈ k.partialKeys.ids ↔ id ∈ k.positions.ids) ∧
          k.selfId = config.selfId ∧ k.threshold = config.threshold) ∧
    ∀ (previous : KeyShare c) (partyIds : List PartyId) (sessionId : SessionId) (view : PeerView)
      (entropy : Entropy) (party : Party c) (e : Engine (Round c) KeygenMessage (KeyShare c))
      (k : KeyShare c),
      previous.Consistent partyIds → Party.refresh previous sessionId view entropy = .ok party →
      Engine.Run (Round.protocol c) party.engine e → e.result = .ok k →
        k.Consistent partyIds ∧ (∀ id, id ∈ k.partialKeys.ids ↔ id ∈ k.positions.ids) ∧
          k.selfId = previous.selfId ∧ k.threshold = previous.threshold ∧
          k.publicKey = previous.publicKey ∧ k.positions = previous.positions := by
  constructor
  · intro config view entropy party e k hparty run hdone
    -- a key generation: there is no previous key share
    obtain ⟨d, fits, rfl, hprevious, rfl⟩ := Party.exists_fits_of_generate hparty
    have hold : ∀ k, d.previous = some k → k.Consistent k.positions.ids := by
      intro k h
      rw [hprevious] at h
      cases h
    have hgoverns := fits.governs_of_run hold run (d.governs_ofDealer view)
    obtain ⟨hconsistent, hkeys, hself, hthreshold, -⟩ :=
      hgoverns.outcome k (Engine.outcome_of_result_eq_ok hdone)
    exact ⟨hconsistent, hkeys, hself, hthreshold⟩
  · intro previous partyIds sessionId view entropy party e k hconsistent hparty run hdone
    -- a refresh: the previous key share is the given one
    obtain ⟨d, fits, hprevious, rfl⟩ := Party.exists_fits_of_refresh hparty
    obtain ⟨hself, hparties, hthreshold, -, -⟩ := fits.refresh previous hprevious
    have hold : ∀ k, d.previous = some k → k.Consistent k.positions.ids := by
      intro k h
      rw [hprevious] at h
      cases h
      exact { hconsistent with ids := fun _ => Iff.rfl }
    have hgoverns := fits.governs_of_run hold run (d.governs_ofDealer view)
    obtain ⟨hk, hkeys, hself', hthreshold', hsame⟩ :=
      hgoverns.outcome k (Engine.outcome_of_result_eq_ok hdone)
    obtain ⟨hkey, hpositions⟩ := hsame previous hprevious
    refine ⟨{ hk with ids := fun id => ?_ }, hkeys, hself'.trans hself, hthreshold'.trans hthreshold,
      hkey, hpositions⟩
    rw [hpositions]
    exact hconsistent.ids id

section TwoParties

/-- The dealer of one of two parties of threshold two. -/
def dealerOfTwo (selfId : PartyId) (previous : Option (KeyShare .secp256k1))
    (x a b : Curve.secp256k1.Scalar) : Dealer .secp256k1 where
  config :=
    { sessionId := ⟨List.replicate 32 0, rfl⟩
      selfId
      partyIds := ["a", "b"]
      threshold := 2
      rank := 0 }
  position := ⟨x, 0⟩
  polynomial := [a, b]
  peerCount := 1
  previous

/-- The dealer of the first of two parties that generate a key. -/
abbrev firstOfTwo : Dealer .secp256k1 :=
  dealerOfTwo "a" none 5 7 8

/-- The dealer of the second of two parties that generate a key. -/
abbrev secondOfTwo : Dealer .secp256k1 :=
  dealerOfTwo "b" none 6 9 10

/-- The engine of the first of two parties after the messages of the second. -/
def engineOfTwo (previous : Option (KeyShare .secp256k1)) (a b a' b' : Curve.secp256k1.Scalar) :
    Engine (Round .secp256k1) KeygenMessage (KeyShare .secp256k1) :=
  let first := dealerOfTwo "a" previous 5 a b
  let second := dealerOfTwo "b" previous 6 a' b'
  let e := (Party.ofDealer first ⟨"a", ["b"]⟩).engine.start
  let e := e.offer "b" second.commitMessage
  let e := e.offer "b" (second.shareMessage "a" first.position)
  e.turn (Round.protocol .secp256k1)

theorem run_engineOfTwo (previous : Option (KeyShare .secp256k1))
    (a b a' b' : Curve.secp256k1.Scalar) :
    Engine.Run (Round.protocol .secp256k1)
      (Party.ofDealer (dealerOfTwo "a" previous 5 a b) ⟨"a", ["b"]⟩).engine
      (engineOfTwo previous a b a' b') :=
  (((Engine.Run.touches (.start _)).trans (.offer _ _ _)).trans (.offer _ _ _)).trans (.turn _ _)

theorem generate_dealerOfTwo : Party.generate (dealerOfTwo "a" none 5 7 8).config ⟨"a", ["b"]⟩
    (.ofBlocks [5, 7, 8]) = .ok (Party.ofDealer (dealerOfTwo "a" none 5 7 8) ⟨"a", ["b"]⟩) := by
  rw [Party.generate_eq]
  refine Party.assemble_eq_ok_iff.mpr ⟨by decide +kernel, rfl, ?_⟩
  exact congrArg (Party.ofDealer · _) (by decide +kernel)

/-- The key share of the first of two parties. -/
def keyShareOfTwo : KeyShare .secp256k1 :=
  (engineOfTwo none 7 8 9 10).result.toOption.get (by decide +kernel)

/-- Two parties generate a key, and refresh it. -/
theorem consistent_of_run_secp256k1 :
    keyShareOfTwo.Consistent ["a", "b"] ∧ ∃ k : KeyShare .secp256k1, k.Consistent ["a", "b"] ∧
      k.publicKey = keyShareOfTwo.publicKey ∧ k.positions = keyShareOfTwo.positions := by
  have hfirst := consistent_of_run.1 _ _ _ _ _ keyShareOfTwo generate_dealerOfTwo
    (run_engineOfTwo none 7 8 9 10) (eq_ok_get _)
  have hrefresh : Party.refresh keyShareOfTwo ⟨List.replicate 32 0, rfl⟩ ⟨"a", ["b"]⟩
      (.ofBlocks [11, 12]) =
        .ok (Party.ofDealer (dealerOfTwo "a" (some keyShareOfTwo) 5 0 12) ⟨"a", ["b"]⟩) := by
    refine bind_eq_ok_iff.mpr ⟨⟨5, 0⟩, by decide +kernel, ?_⟩
    refine Party.assemble_eq_ok_iff.mpr ⟨by decide +kernel, by decide +kernel, ?_⟩
    exact congrArg (Party.ofDealer · _) (by decide +kernel)
  have hdone : (engineOfTwo (some keyShareOfTwo) 0 12 0 13).result.toOption.isSome = true := by
    decide +kernel
  obtain ⟨hsecond, -, -, -, hsame⟩ := consistent_of_run.2 _ _ _ _ _ _ _ _ hfirst.1 hrefresh
    (run_engineOfTwo (some keyShareOfTwo) 0 12 0 13) (eq_ok_get hdone)
  exact ⟨hfirst.1, _, hsecond, hsame⟩

end TwoParties

end RankedKeys
