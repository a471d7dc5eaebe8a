import RankedKeys.Proofs.Keygen.Dealing
import RankedKeys.Proofs.Keygen.Party
import RankedKeys.Proofs.Keygen.Schedule

/-!
# Sessions of key generation

A session is given by the settings of its parties and by what they draw, a non-zero coordinate and
a polynomial each. Its parties agree, so that they are honest parties of a lineup.

## Main definitions

* `Member`, `KeygenSession`: the parties of a session with their draws
* `KeygenSession.ensemble`: the session before the first start
* `KeygenSession.lineup`: the same parties by name
* `KeygenSession.Seats`: dealers for the parties of a session

## Main results

* `KeygenSession.generate_eq`: the parties are those that draw these coordinates and coefficients
* `KeygenSession.Seats.agrees`, `KeygenSession.agrees`: the parties of a session agree
-/

namespace RankedKeys

variable {c : Curve}

/-- A party of a key generation, with what it draws. -/
structure Member (c : Curve) where
  id : PartyId
  rank : UInt32
  x : c.Scalar
  /-- The coefficients, constant term first. -/
  polynomial : List c.Scalar

/-- The position of a party. -/
def Member.position (m : Member c) : Parameter c.Scalar :=
  ⟨m.x, m.rank⟩

/-- **A session** of key generation: settings that fit together, and a non-zero coordinate and a
polynomial of every party. -/
structure KeygenSession (c : Curve) where
  sessionId : SessionId
  threshold : UInt64
  members : List (Member c)
  two_le : 2 ≤ members.length
  valid : ∀ m ∈ members, KeygenConfig.validate
    { sessionId
      selfId := m.id
      partyIds := members.map (·.id)
      threshold
      rank := m.rank } = .ok ()
  coordinate : ∀ m ∈ members, m.x ≠ 0
  polynomial : ∀ m ∈ members, m.polynomial.length = threshold.toNat

namespace KeygenSession

variable (session : KeygenSession c) {m : Member c}

def ids : List PartyId :=
  session.members.map (·.id)

/-- The settings of a party. -/
def config (m : Member c) : KeygenConfig where
  sessionId := session.sessionId
  selfId := m.id
  partyIds := session.ids
  threshold := session.threshold
  rank := m.rank

/-- What a party sees of the network. -/
def view (m : Member c) : PeerView :=
  .create m.id session.ids

/-- What a party deals. -/
def dealer (m : Member c) : Dealer c where
  config := session.config m
  position := m.position
  polynomial := m.polynomial
  peerCount := (session.view m).peers.length
  previous := none

/-- A party before it is started. -/
def party (m : Member c) : Party c :=
  .ofDealer (session.dealer m) (session.view m)

/-- The session before the first start. -/
def ensemble : Ensemble c :=
  .ofParties (session.members.map fun m => (m.id, session.party m))

/-- The values of all parties. -/
def listed {α : Type} (value : Member c → α) : Roster α :=
  .ofList (session.members.map fun m => (m.id, value m))

/-- The positions of all parties. -/
def positions : Roster (Parameter c.Scalar) :=
  session.listed Member.position

theorem validate_config (hm : m ∈ session.members) : (session.config m).validate = .ok () :=
  session.valid m hm

theorem nodup_ids : session.ids.Nodup := by
  obtain ⟨m, hm⟩ := List.exists_mem_of_length_pos (Nat.zero_lt_of_lt session.two_le)
  exact (KeygenConfig.validate_eq_ok_iff.mp (session.validate_config hm)).2.2.1

theorem length_ids : session.ids.length = session.members.length :=
  List.length_map _

theorem mem_ids (hm : m ∈ session.members) : m.id ∈ session.ids :=
  List.mem_map_of_mem hm

theorem length_peers (hm : m ∈ session.members) :
    (session.view m).peers.length + 1 = session.ids.length :=
  length_filter_ne session.nodup_ids (session.mem_ids hm)

/-- **The parties** are those that are created by drawing their coordinates and coefficients. -/
theorem generate_eq (hm : m ∈ session.members) :
    Party.generate (session.config m) (session.view m)
      (.ofBlocks (m.x.val :: m.polynomial.map (·.val))) = .ok (session.party m) := by
  rw [Party.generate_eq, Entropy.nonzero_ofBlocks (session.coordinate m hm)]
  refine Party.assemble_eq_ok_iff.mpr ⟨session.validate_config hm, session.length_peers hm, ?_⟩
  have hdraw : Entropy.scalars c session.threshold.toNat (.ofBlocks (m.polynomial.map (·.val))) =
      m.polynomial := by
    rw [← session.polynomial m hm]
    exact Entropy.scalars_map_val m.polynomial
  exact congrArg (fun polynomial => Party.ofDealer
    { session.dealer m with polynomial } (session.view m)) hdraw.symm

section Listed

variable {α : Type}

theorem map_fst (value : Member c → α) :
    (session.members.map fun m => (m.id, value m)).map (·.1) = session.ids := by
  rw [List.map_map]
  rfl

theorem find?_listed (value : Member c → α) (hm : m ∈ session.members) :
    (session.listed value).find? m.id = some (value m) := by
  have hnodup := session.nodup_ids
  rw [← session.map_fst value] at hnodup
  rw [listed, Roster.find?_ofList hnodup, lookup_eq_some_iff_mem hnodup]
  exact List.mem_map_of_mem hm

theorem mem_ids_listed (value : Member c → α) {id : PartyId} :
    id ∈ (session.listed value).ids ↔ id ∈ session.ids := by
  rw [Roster.mem_ids_iff]
  constructor
  · rintro ⟨a, ha⟩
    have hnodup := session.nodup_ids
    rw [← session.map_fst value] at hnodup
    rw [listed, Roster.find?_ofList hnodup, lookup_eq_some_iff_mem hnodup] at ha
    obtain ⟨m, hm, heq⟩ := List.mem_map.mp ha
    cases heq
    exact session.mem_ids hm
  · intro hid
    obtain ⟨m, hm, rfl⟩ := List.mem_map.mp hid
    exact ⟨_, session.find?_listed value hm⟩

/-- A roster of all parties is known by their values. -/
theorem eq_listed {r : Roster α} {value : Member c → α} (ids : ∀ id, id ∈ r.ids ↔ id ∈ session.ids)
    (values : ∀ m ∈ session.members, r.find? m.id = some (value m)) : r = session.listed value := by
  ext id : 1
  -- Who takes part has the value that is asked for, and nobody else has one.
  by_cases hid : id ∈ session.ids
  · obtain ⟨m, hm, rfl⟩ := List.mem_map.mp hid
    rw [values m hm, session.find?_listed value hm]
  · rw [Roster.find?_eq_none_iff.mpr fun h => hid ((ids id).mp h),
      Roster.find?_eq_none_iff.mpr fun h => hid ((session.mem_ids_listed value).mp h)]

end Listed

/-! ## The lineup of a session -/

/-- The party of a name. -/
def member (id : PartyId) : Member c :=
  ((session.members.map fun m => (m.id, m)).lookup id).getD ⟨id, 0, 0, []⟩

theorem member_id (hm : m ∈ session.members) : session.member m.id = m := by
  have hnodup := session.nodup_ids
  rw [← session.map_fst fun m => m] at hnodup
  have hlookup := (lookup_eq_some_iff_mem hnodup).mpr
    (List.mem_map_of_mem (f := fun m : Member c => (m.id, m)) hm)
  rw [member, hlookup, Option.getD_some]

/-- Parties that deal in some way, by name. -/
def lineupOf (dealer : Member c → Dealer c) : Lineup c where
  ids := session.ids
  dealer id := dealer (session.member id)
  threshold := session.threshold.toNat

/-- The parties of a session, by name. -/
def lineup : Lineup c :=
  session.lineupOf session.dealer

theorem dealer_lineupOf {dealer : Member c → Dealer c} (hm : m ∈ session.members) :
    (session.lineupOf dealer).dealer m.id = dealer m :=
  congrArg dealer (session.member_id hm)

theorem dealer_id (hm : m ∈ session.members) : session.lineup.dealer m.id = session.dealer m :=
  session.dealer_lineupOf hm

theorem forall_mem_ids {dealer : Member c → Dealer c} {p : PartyId → Dealer c → Prop} :
    (∀ id ∈ session.ids, p id ((session.lineupOf dealer).dealer id)) ↔
      ∀ m ∈ session.members, p m.id (dealer m) := by
  refine List.forall_mem_map.trans (forall₂_congr fun m hm => ?_)
  rw [session.dealer_lineupOf hm]

theorem ensemble_lineupOf (dealer : Member c → Dealer c) :
    (session.lineupOf dealer).ensemble =
      .ofParties (session.members.map fun m => (m.id, .ofDealer (dealer m) (session.view m))) := by
  rw [Lineup.ensemble]
  show Ensemble.ofParties ((session.members.map (·.id)).map _) = _
  rw [List.map_map]
  refine congrArg Ensemble.ofParties (List.map_congr_left fun m hm => ?_)
  rw [Function.comp_apply, session.dealer_lineupOf hm]
  rfl

theorem ensemble_lineup : session.lineup.ensemble = session.ensemble :=
  session.ensemble_lineupOf session.dealer

/-- **Dealers for the parties** of a session, each at the position of its party. In a refresh the
polynomials have no constant term, and the previous positions are those of the session. -/
structure Seats (sessionId : SessionId) (dealer : Member c → Dealer c) : Prop where
  selfId : ∀ m ∈ session.members, (dealer m).config.selfId = m.id
  partyIds : ∀ m ∈ session.members, session.ids ⊆ (dealer m).config.partyIds
  sessionId : ∀ m ∈ session.members, (dealer m).config.sessionId = sessionId
  threshold : ∀ m ∈ session.members, (dealer m).config.threshold = session.threshold
  peerCount : ∀ m ∈ session.members, (dealer m).peerCount = (session.view m).peers.length
  polynomial : ∀ m ∈ session.members, (dealer m).polynomial.length = session.threshold.toNat
  position : ∀ m ∈ session.members, (dealer m).position = m.position
  isRefresh : ∀ m ∈ session.members, ∀ m' ∈ session.members,
    (dealer m').isRefresh = (dealer m).isRefresh
  constant : ∀ m ∈ session.members, (dealer m).isRefresh = true →
    (dealer m).polynomial.headD 0 = 0
  positions : ∀ m ∈ session.members, ∀ k, (dealer m).previous = some k →
    k.positions = session.positions

namespace Seats

variable {session} {sessionId : SessionId} {dealer : Member c → Dealer c}
  (seats : session.Seats sessionId dealer)

include seats

/-- **Dealers for the parties** of a session agree. -/
theorem agrees : (session.lineupOf dealer).Agrees sessionId where
  nodup := session.nodup_ids
  two_le := by
    exact session.length_ids ▸ session.two_le
  threshold_pos := by
    obtain ⟨m, hm⟩ := List.exists_mem_of_length_pos (Nat.zero_lt_of_lt session.two_le)
    exact Nat.zero_lt_of_lt (KeygenConfig.validate_eq_ok_iff.mp (session.validate_config hm)).1
  selfId := session.forall_mem_ids (p := fun id d => d.config.selfId = id).mpr seats.selfId
  partyIds := session.forall_mem_ids (p := fun _ d => session.ids ⊆ d.config.partyIds).mpr
    seats.partyIds
  sessionId := session.forall_mem_ids (p := fun _ d => d.config.sessionId = sessionId).mpr
    seats.sessionId
  threshold := session.forall_mem_ids (p := fun _ d => d.threshold = session.threshold.toNat).mpr
    fun m hm => congrArg UInt64.toNat (seats.threshold m hm)
  peerCount := session.forall_mem_ids (p := fun _ d => d.peerCount + 1 = session.ids.length).mpr
    fun m hm => (congrArg (· + 1) (seats.peerCount m hm)).trans (session.length_peers hm)
  polynomial := session.forall_mem_ids
    (p := fun _ d => d.polynomial.length = session.threshold.toNat).mpr seats.polynomial
  coordinate := session.forall_mem_ids (p := fun _ d => d.position.x ≠ 0).mpr fun m hm => by
    rw [seats.position m hm]
    exact session.coordinate m hm
  rank := session.forall_mem_ids
    (p := fun _ d => d.position.rank.toNat < session.threshold.toNat).mpr fun m hm => by
      rw [seats.position m hm]
      exact (KeygenConfig.validate_eq_ok_iff.mp (session.validate_config hm)).2.2.2.2
  isRefresh := by
    refine session.forall_mem_ids (p := fun _ d => ∀ x ∈ session.ids,
      ((session.lineupOf dealer).dealer x).isRefresh = d.isRefresh).mpr fun m hm => ?_
    exact session.forall_mem_ids (p := fun _ d => d.isRefresh = (dealer m).isRefresh).mpr
      (seats.isRefresh m hm)
  constant := session.forall_mem_ids
    (p := fun _ d => d.isRefresh = true → d.polynomial.headD 0 = 0).mpr seats.constant
  position := by
    refine session.forall_mem_ids (p := fun _ d => ∀ k, d.previous = some k → ∀ x ∈ session.ids,
      k.positions.find? x = some ((session.lineupOf dealer).dealer x).position).mpr
      fun m hm k hk => ?_
    refine session.forall_mem_ids (p := fun x d => k.positions.find? x = some d.position).mpr
      fun m' hm' => ?_
    rw [seats.positions m hm k hk, KeygenSession.positions, session.find?_listed _ hm', seats.position m' hm']
  spurious _ _ _ _ _ forged := nomatch forged

/-- The positions that are announced are those of the session. -/
theorem positions_eq : (session.lineupOf dealer).committed.map (·.position) = session.positions := by
  refine session.eq_listed (fun id => ?_) fun m hm => ?_
  · rw [Roster.ids_map]
    exact Roster.mem_ids_gather _
  · rw [Roster.find?_map, Lineup.find?_committed (session.mem_ids hm), Lineup.contribution,
      session.dealer_lineupOf hm, Option.map_some]
    exact congrArg some (seats.position m hm)

theorem scheme_eq : (session.lineupOf dealer).scheme =
    checkValid session.threshold.toNat session.positions.values := by
  rw [Lineup.scheme, seats.positions_eq]
  rfl

theorem partialKeysOf_eq [c.Lawful] (f : Polynomial c.Scalar) :
    (session.lineupOf dealer).partialKeysOf f =
      session.listed fun m => m.position.shareOf f • c.generator := by
  refine session.eq_listed (fun id => Roster.mem_ids_gather _) fun m hm => ?_
  rw [Lineup.find?_partialKeysOf f (session.mem_ids hm), session.dealer_lineupOf hm,
    seats.position m hm]

end Seats

/-- The parties of a session are dealers for themselves. -/
theorem seats : session.Seats session.sessionId session.dealer := by
  refine ⟨?_, ?_, ?_, ?_, ?_, session.polynomial, ?_, ?_, ?_, ?_⟩
  · exact fun _ _ => rfl
  · exact fun _ _ => List.Subset.refl _
  · exact fun _ _ => rfl
  · exact fun _ _ => rfl
  · exact fun _ _ => rfl
  · exact fun _ _ => rfl
  · exact fun _ _ _ _ => rfl
  · exact fun _ _ refresh => nomatch refresh
  · exact fun _ _ _ refresh => nomatch refresh

/-- **The parties of a session** agree. -/
theorem agrees : session.lineup.Agrees session.sessionId :=
  session.seats.agrees

end KeygenSession

end RankedKeys
