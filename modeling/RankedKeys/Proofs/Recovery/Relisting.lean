import Mathlib.Data.List.Perm.Basic
import RankedKeys.Proofs.Answers
import RankedKeys.Proofs.Birkhoff.Relisting
import RankedKeys.Proofs.Curve.P256
import RankedKeys.Proofs.Recovery.Exactness
import RankedKeys.Proofs.Roster
import RankedKeys.Recovery.Config

/-!
# Recovery does not depend on how the peers are listed

The names of the peers decide in which order their shares enter the elimination, and the factors
of the shares depend on that order: with shares to spare, the first independent ones carry all the
weight. The answer does not. Shares of one polynomial give its constant term whichever of them
are used, shares of no polynomial are refused, and the faults of the positions are found by
counting.

## Main definitions

* `RecoveryConfig.Decodes`: the numerals of all peers are scalars of the curve
* `RecoveryConfig.Relists`: the same record with its peers in another order and under other names

## Main results

* `recoverKey_perm`: the order of the peers does not matter
* `RecoveryConfig.recoverOn_eq`: what is read from a record is its list of shares, in some order
* `RecoveryConfig.recover_relisted`: neither order nor names of the peers matter
-/

namespace RankedKeys

/-! ## The order of the shares -/

section Order

variable {F : Type} [Field F] {threshold : ℕ}

theorem deals_perm {f : Polynomial F} {peers peers' : List (RankedShare F)}
    (h : peers'.Perm peers) : Deals threshold f peers' ↔ Deals threshold f peers := by
  simp only [Deals, h.mem_iff]

theorem SchemeFault.perm [DecidableEq F] {positions positions' : List (Parameter F)} {e : Error}
    (hperm : positions'.Perm positions) (h : SchemeFault threshold positions e) :
    SchemeFault threshold positions' e := by
  have hlength := hperm.length_eq
  have hnodup := (hperm.map (·.x)).nodup_iff
  cases h with
  | notEnoughPeers few => exact hlength ▸ .notEnoughPeers (hlength ▸ few)
  | invalidThreshold enough low => exact .invalidThreshold (hlength ▸ enough) low
  | thresholdNotMet enough two_le high =>
    exact hlength ▸ .thresholdNotMet (hlength ▸ enough) two_le (hlength ▸ high)
  | duplicateCoordinate two_le le equal =>
    exact .duplicateCoordinate two_le (hlength ▸ le) (mt hnodup.mp equal)
  | rankTooHigh two_le le distinct excess =>
    exact .rankTooHigh two_le (hlength ▸ le) (hnodup.mpr distinct)
      (sortedRanks_perm hperm ▸ excess)
  | rankDeficient two_le le distinct excess undetermined =>
    exact rank_birkhoffMatrix_perm hperm ▸ .rankDeficient two_le (hlength ▸ le)
      (hnodup.mpr distinct) (sortedRanks_perm hperm ▸ excess)
      (mt (determines_perm hperm).mp undetermined)

variable {c : Curve} [Fact c.order.Prime] {key : PublicKey c}
  {peers peers' : List (RankedShare c.Scalar)}

/-- **The order of the peers** does not matter, for a key or for an error. -/
theorem recoverKey_perm (h : peers'.Perm peers) :
    recoverKey threshold key peers' = recoverKey threshold key peers := by
  have hpositions : (peers'.map (·.position)).Perm (peers.map (·.position)) := h.map _
  by_cases hvalid : checkValid threshold (peers.map (·.position)) = .ok ()
  · have hvalid' := (checkValid_perm hpositions).trans hvalid
    by_cases hdeals : ∃ f, Deals threshold f peers
    · obtain ⟨f, hf⟩ := hdeals
      rw [recoverKey_of_deals hvalid hf, recoverKey_of_deals hvalid' ((deals_perm h).mpr hf)]
    · rw [recoverKey_of_not_deals hvalid hdeals, recoverKey_of_not_deals hvalid']
      exact fun ⟨f, hf⟩ => hdeals ⟨f, (deals_perm h).mp hf⟩
  · obtain ⟨e, hfault⟩ := exists_schemeFault hvalid
    rw [recoverKey_of_fault hfault, recoverKey_of_fault (hfault.perm hpositions)]

end Order

/-! ## Shares and positions by name -/

section Pairing

variable {α : Type}

/-- Shares and positions of one roster are matched again. -/
theorem RankedShare.pair_map (r : Roster (RankedShare α)) :
    RankedShare.pair (r.map (·.share)) (r.map (·.position)) = .ok r.values := by
  have hsize : (r.map (·.share)).size = (r.map (·.position)).size := by
    simp [Roster.size, Roster.map]
  have hentries : (r.map (·.share)).entries = r.entries.map fun e => (e.1, e.2.share) := rfl
  rw [RankedShare.pair, if_neg (not_not.mpr hsize), mapM_eq_ok_iff, hentries, Roster.values,
    List.forall₂_map_left_iff, List.forall₂_map_right_iff]
  refine List.forall₂_same.mpr fun e he => ?_
  have hfind : (r.map (·.position)).find? e.1 = some e.2.position := by
    rw [Roster.find?_map, Roster.find?_eq_some_iff.mpr he, Option.map_some]
  simp only [hfind]

end Pairing

/-! ## Reading a record -/

/-- What the record of a peer says, whatever its name. -/
def PeerRecord.content (peer : PeerRecord) : String × PositionRecord :=
  (peer.share, peer.position)

/-- The numerals of a peer stand for a share and a position. -/
structure Reads (c : Curve) (content : String × PositionRecord)
    (peer : RankedShare c.Scalar) : Prop where
  share : c.scalarOfDecimal content.1 = .ok peer.share
  x : c.scalarOfDecimal content.2.x = .ok peer.position.x
  rank : peer.position.rank = content.2.rank

namespace RecoveryConfig

/-- All that has been read, with share and position of each peer together. -/
def Tally.ofRoster {c : Curve} (r : Roster (RankedShare c.Scalar)) : Tally c :=
  ⟨r.map (·.share), r.map (·.position)⟩

variable {c : Curve}

theorem Tally.add_ofRoster {r : Roster (RankedShare c.Scalar)} {record : PeerRecord}
    {peer : RankedShare c.Scalar} (h : Reads c record.content peer) (hnew : record.id ∉ r.ids) :
    (Tally.ofRoster r).add record = .ok (Tally.ofRoster (r.insert record.id peer)) := by
  have hcontains : ¬ (r.map (·.share)).contains record.id = true := by
    rwa [Roster.contains_iff, Roster.ids_map]
  have hposition : (⟨peer.position.x, record.position.rank⟩ : Parameter c.Scalar) =
      peer.position := by
    rw [← show peer.position.rank = record.position.rank from h.rank]
  simp only [Tally.add, ofRoster, show c.scalarOfDecimal record.share = _ from h.share,
    show c.scalarOfDecimal record.position.x = _ from h.x, bind, Except.bind, if_neg hcontains,
    Roster.map_insert, hposition]
  rfl

/-- Peers of distinct names are all listed. -/
theorem Tally.foldlM_add {records : List PeerRecord} {peers : List (RankedShare c.Scalar)}
    (h : List.Forall₂ (Reads c) (records.map (·.content)) peers)
    (hids : (records.map (·.id)).Nodup) (r : Roster (RankedShare c.Scalar))
    (hnew : ∀ record ∈ records, record.id ∉ r.ids) :
    ∃ r' : Roster (RankedShare c.Scalar), r'.values.Perm (peers ++ r.values) ∧
      records.foldlM Tally.add (Tally.ofRoster r) = .ok (Tally.ofRoster r') := by
  induction records generalizing peers r with
  | nil =>
    cases h
    exact ⟨r, .refl _, rfl⟩
  | cons record records ih =>
    obtain ⟨peer, peers, hpeer, hpeers, rfl⟩ := List.forall₂_cons_left_iff.mp h
    obtain ⟨hnot, hids⟩ := List.nodup_cons.mp hids
    have hlisted := hnew record List.mem_cons_self
    have hperm := (Roster.entries_insert_perm hlisted peer).map Prod.snd
    obtain ⟨r', hvalues, hfold⟩ := ih hpeers hids (r.insert record.id peer) fun other hother => by
      rw [Roster.mem_ids_iff, Roster.find?_insert, if_neg, ← Roster.mem_ids_iff]
      · exact hnew other (List.mem_cons_of_mem _ hother)
      · exact fun heq => hnot (List.mem_map.mpr ⟨other, hother, heq⟩)
    refine ⟨r', hvalues.trans ((hperm.append_left peers).trans List.perm_middle), ?_⟩
    rw [List.foldlM_cons, Tally.add_ofRoster hpeer hlisted]
    exact hfold

/-- **Reading a record**: the shares are those that its peers hold, in some order. -/
theorem recoverOn_eq {config : RecoveryConfig} {peers : List (RankedShare c.Scalar)}
    (h : List.Forall₂ (Reads c) (config.peers.map (·.content)) peers)
    (hids : (config.peers.map (·.id)).Nodup) :
    ∃ listed : List (RankedShare c.Scalar), listed.Perm peers ∧
      config.recoverOn c = (do
        let key ← PublicKey.ofDecimal c config.key.x config.key.y
        let secret ← recoverKey config.threshold.toNat key listed
        pure (secret, key)) := by
  obtain ⟨r, hvalues, hfold⟩ := Tally.foldlM_add h hids .empty fun _ _ => by
    simp [Roster.mem_ids_iff]
  refine ⟨r.values, by simpa [Roster.values, Roster.empty] using hvalues, ?_⟩
  have hstart : (⟨.empty, .empty⟩ : Tally c) = Tally.ofRoster .empty := rfl
  rw [recoverOn, hstart, hfold]
  simp only [bind, Except.bind, Tally.ofRoster, RankedShare.pair_map]

/-- All shares and coordinates are scalars of the curve, if it is a supported one. -/
def Decodes (config : RecoveryConfig) : Prop :=
  ∀ spelling name, config.curve = some spelling → CurveName.parse spelling = .ok name →
    ∀ peer ∈ config.peers,
      (∃ share, name.curve.scalarOfDecimal peer.share = .ok share) ∧
      ∃ x, name.curve.scalarOfDecimal peer.position.x = .ok x

/-- The same record with its peers in another order and under other names, again distinct. -/
structure Relists (config' config : RecoveryConfig) : Prop where
  curve : config'.curve = config.curve
  threshold : config'.threshold = config.threshold
  key : config'.key = config.key
  peers : (config'.peers.map (·.content)).Perm (config.peers.map (·.content))
  distinct : (config'.peers.map (·.id)).Nodup

theorem Decodes.exists_reads {config : RecoveryConfig} (h : config.Decodes) {spelling : String}
    {name : CurveName} (hcurve : config.curve = some spelling)
    (hname : CurveName.parse spelling = .ok name) :
    ∃ peers, List.Forall₂ (Reads name.curve) (config.peers.map (·.content)) peers := by
  have hall := h spelling name hcurve hname
  generalize config.peers = records at hall
  induction records with
  | nil => exact ⟨[], .nil⟩
  | cons record records ih =>
    obtain ⟨⟨share, hshare⟩, x, hx⟩ := hall record List.mem_cons_self
    obtain ⟨peers, hpeers⟩ := ih fun other hother => hall other (List.mem_cons_of_mem _ hother)
    exact ⟨⟨share, x, record.position.rank⟩ :: peers, .cons ⟨hshare, hx, rfl⟩ hpeers⟩

theorem Relists.recoverOn_eq {config config' : RecoveryConfig} (h : config'.Relists config)
    (hids : (config.peers.map (·.id)).Nodup) [Fact c.order.Prime]
    {peers : List (RankedShare c.Scalar)}
    (hreads : List.Forall₂ (Reads c) (config.peers.map (·.content)) peers) :
    config'.recoverOn c = config.recoverOn c := by
  obtain ⟨peers', hreads', hperm⟩ := List.perm_comp_forall₂ h.peers hreads
  obtain ⟨listed, hlisted, hanswer⟩ := RecoveryConfig.recoverOn_eq hreads hids
  obtain ⟨listed', hlisted', hanswer'⟩ := RecoveryConfig.recoverOn_eq hreads' h.distinct
  have hsame : listed'.Perm listed := hlisted'.trans (hperm.trans hlisted.symm)
  rw [hanswer, hanswer', h.key, h.threshold]
  simp only [recoverKey_perm hsame]

/-- **Neither the order nor the names of the peers matter**: a record of shares and positions that
can be read is answered alike however its peers are listed, with the same key or the same error.
Shares that are already matched may come in any order. -/
theorem recover_relisted {config config' : RecoveryConfig} (hdecodes : config.Decodes)
    (hids : (config.peers.map (·.id)).Nodup) (h : config'.Relists config) :
    config'.recover = config.recover ∧
    ∀ (c : Curve), c.order.Prime → ∀ (threshold : ℕ) (key : PublicKey c)
      (peers peers' : List (RankedShare c.Scalar)), peers'.Perm peers →
        recoverKey threshold key peers' = recoverKey threshold key peers := by
  refine ⟨?_, fun c hprime threshold key peers peers' hperm => ?_⟩
  · have hlength : config'.peers.length = config.peers.length := by
      simpa only [List.length_map] using h.peers.length_eq
    rw [recover, recover, hlength, h.curve]
    cases hcurve : config.curve with
    | none => rfl
    | some spelling =>
      cases hname : CurveName.parse spelling with
      | error e => simp only [hname, bind, Except.bind]
      | ok name =>
        obtain ⟨peers, hreads⟩ := hdecodes.exists_reads hcurve hname
        simp only [hname, bind, Except.bind, h.recoverOn_eq hids hreads]
  · have := Fact.mk hprime
    exact recoverKey_perm hperm

/-- Three shares of `1 + 2·x + 3·x²`, one of them of the derivative and none to spare, and one more
that does not lie on it; the public key is that of the scalar one. -/
def recordOfFour : RecoveryConfig where
  curve := some "P256"
  threshold := 3
  key := ⟨"48439561293906451759052585252797914202762949526041747995844080717082404635286",
    "36134250956749795798585127919587881956611106672985015071877198253568414405109"⟩
  peers := [⟨"alice", "6", ⟨"1", 0⟩⟩, ⟨"bob", "26", ⟨"4", 1⟩⟩, ⟨"carol", " 121", ⟨"6", 0⟩⟩,
    ⟨"dave", "210", ⟨"8", 0⟩⟩]

/-- The same four peers from the last to the first, under names that keep the new order. -/
def recordOfFourReversed : RecoveryConfig :=
  { recordOfFour with
    peers := [⟨"a", "210", ⟨"8", 0⟩⟩, ⟨"b", " 121", ⟨"6", 0⟩⟩, ⟨"c", "26", ⟨"4", 1⟩⟩,
      ⟨"d", "6", ⟨"1", 0⟩⟩] }

theorem decodes_recordOfFour : recordOfFour.Decodes := by
  intro spelling name hcurve hname
  cases hcurve
  have hp256 : CurveName.parse "P256" = .ok .p256 := by decide +kernel
  cases hp256.symm.trans hname
  have hall : ∀ peer ∈ recordOfFour.peers,
      (Curve.p256.scalarOfDecimal peer.share).toOption.isSome = true ∧
        (Curve.p256.scalarOfDecimal peer.position.x).toOption.isSome = true := by decide +kernel
  exact fun peer hpeer =>
    ⟨⟨_, eq_ok_get (hall peer hpeer).1⟩, ⟨_, eq_ok_get (hall peer hpeer).2⟩⟩

/-- The inconsistent shares are refused in either order, and with the threshold met exactly the
remaining three give the key, whichever comes first. -/
theorem recover_relisted_p256 :
    recordOfFourReversed.recover = recordOfFour.recover ∧
      recordOfFour.recover = .error .publicKeyMismatch ∧
      recoverKey 3 secp256k1Key [⟨6, 1, 0⟩, ⟨26, 4, 1⟩, ⟨121, 6, 0⟩] = .ok 1 ∧
        recoverKey 3 secp256k1Key [⟨121, 6, 0⟩, ⟨6, 1, 0⟩, ⟨26, 4, 1⟩] = .ok 1 := by
  have hrelists : recordOfFourReversed.Relists recordOfFour :=
    ⟨rfl, rfl, rfl, by decide +kernel, by decide +kernel⟩
  obtain ⟨hsame, hperm⟩ := recover_relisted decodes_recordOfFour (by decide +kernel) hrelists
  have hkey : recoverKey 3 secp256k1Key [⟨6, 1, 0⟩, ⟨26, 4, 1⟩, ⟨121, 6, 0⟩] = .ok 1 := by
    decide +kernel
  have hreordered := hperm _ prime_order_secp256k1 3 secp256k1Key
    [⟨6, 1, 0⟩, ⟨26, 4, 1⟩, ⟨121, 6, 0⟩] [⟨121, 6, 0⟩, ⟨6, 1, 0⟩, ⟨26, 4, 1⟩] (by decide +kernel)
  exact ⟨hsame, by decide +kernel, hkey, hreordered.trans hkey⟩

end RecoveryConfig

end RankedKeys
