import RankedKeys.Proofs.Keygen.Agreement

/-!
# Refreshes, one after the other

The parties of a finished key generation refresh their key shares, and those again, any number of
times. Every refresh adds a polynomial without constant term to the one that the shares belong to,
so that every generation holds other shares of the same private key: the public key and the
positions stay as they are, and the shares of one generation recover the key.

## Main definitions

* `Refresh`: what happens in a refresh
* `Refresh.ensemble`: the parties that refresh some key shares
* `Generation session n parties`: the parties after `n` refreshes
* `KeygenSession.Holds`: parties with the shares of one polynomial

## Main results

* `KeygenSession.holds_of_refresh`: a refresh leaves the parties with the shares of another polynomial
* `KeygenSession.holds_of_generation`: so the parties of every generation hold such shares
* `KeygenSession.recovers_of_generation`: every generation holds the same key
-/

namespace RankedKeys

open Polynomial

variable {c : Curve}

/-- **A refresh**: its session id, what every party draws, and the order in which things happen. -/
structure Refresh where
  sessionId : SessionId
  entropy : PartyId → Entropy
  schedule : List Ensemble.Action

namespace Refresh

variable (r : Refresh)

/-- The party that refreshes a key share, before it is started. -/
def party (ids : List PartyId) (k : KeyShare c) : Except Error (PartyId × Party c) := do
  let p ← Party.refresh k r.sessionId (.create k.selfId ids) (r.entropy k.selfId)
  pure (k.selfId, p)

/-- The parties that refresh some key shares, before the first start. -/
def ensemble (shares : List (KeyShare c)) : Except Error (Ensemble c) := do
  let parties ← shares.mapM (r.party (shares.map (·.selfId)))
  pure (.ofParties parties)

end Refresh

/-- **The parties of a session** after a number of refreshes, each fed with the key shares of the
generation before. -/
inductive Generation (session : KeygenSession c) : ℕ → List (Party c) → Prop
  /-- A key generation in which every party is done. -/
  | keygen {schedule : List Ensemble.Action}
    (once : (Ensemble.starts schedule).Perm (List.range session.members.length))
    (rest : (session.ensemble.play schedule).atRest = true)
    (done : ∀ p ∈ (session.ensemble.play schedule).parties, p.engine.state = .done) :
    Generation session 0 (session.ensemble.play schedule).parties
  | refresh {n : ℕ} {parties : List (Party c)} {shares : List (KeyShare c)} {r : Refresh}
    {s : Ensemble c} (previous : Generation session n parties)
    (results : parties.map (·.engine.result) = shares.map .ok)
    (created : r.ensemble shares = .ok s)
    (once : (Ensemble.starts r.schedule).Perm (List.range session.members.length))
    (rest : (s.play r.schedule).atRest = true) :
    Generation session (n + 1) (s.play r.schedule).parties

namespace KeygenSession

variable (session : KeygenSession c) {m : Member c}

/-- What a party deals in a refresh of its key share. -/
def refreshDealer (r : Refresh) (share : Member c → KeyShare c) (m : Member c) : Dealer c where
  config :=
    { sessionId := r.sessionId
      selfId := m.id
      partyIds := session.positions.ids
      threshold := session.threshold
      rank := m.rank }
  position := m.position
  polynomial := Party.polynomial (some (share m))
    (Entropy.scalars c session.threshold.toNat (r.entropy m.id))
  peerCount := (session.view m).peers.length
  previous := some (share m)

theorem ids_subset_positions : session.ids ⊆ session.positions.ids :=
  fun _ hid => (session.mem_ids_listed Member.position).mpr hid

theorem length_ids_positions : session.positions.ids.length = session.ids.length := by
  refine List.Perm.length_eq ?_
  rw [List.perm_ext_iff_of_nodup (Roster.nodup_ids _) session.nodup_ids]
  exact fun _ => session.mem_ids_listed Member.position

/-- The parties of a refresh are dealers for the same positions. -/
theorem seats_refreshDealer (r : Refresh) {share : Member c → KeyShare c}
    (positions : ∀ m ∈ session.members, (share m).positions = session.positions) :
    session.Seats r.sessionId (session.refreshDealer r share) := by
  refine ⟨?_, ?_, ?_, ?_, ?_, ?_, ?_, ?_, ?_, ?_⟩
  · exact fun _ _ => rfl
  · exact fun _ _ => session.ids_subset_positions
  · exact fun _ _ => rfl
  · exact fun _ _ => rfl
  · exact fun _ _ => rfl
  · exact fun m _ => (Party.length_polynomial (some (share m)) _).trans
      (Entropy.length_scalars (c := c) _ _)
  · exact fun _ _ => rfl
  · exact fun _ _ _ _ => rfl
  · exact fun m _ _ => Party.headD_polynomial (share m) _
  · intro m hm k hk
    cases hk
    exact positions m hm

/-- The settings of a refresh fit together as those of the key generation do. -/
theorem validate_refreshDealer (r : Refresh) (share : Member c → KeyShare c)
    (hm : m ∈ session.members) : (session.refreshDealer r share m).config.validate = .ok () := by
  obtain ⟨two_le, le, -, -, rank_lt⟩ :=
    KeygenConfig.validate_eq_ok_iff.mp (session.validate_config hm)
  refine KeygenConfig.validate_eq_ok_iff.mpr ⟨two_le, ?_, Roster.nodup_ids _,
    session.ids_subset_positions (session.mem_ids hm), rank_lt⟩
  exact le.trans_eq session.length_ids_positions.symm

section Lawful

variable [c.Lawful] {sessionId : SessionId} {f : c.Scalar[X]} {key : PublicKey c}

/-- The parties of a refresh of the shares of a polynomial, by name. -/
noncomputable def refreshLineup (r : Refresh) (sessionId : SessionId) (f : c.Scalar[X])
    (key : PublicKey c) : Lineup c :=
  session.lineupOf (session.refreshDealer r (session.shareAt sessionId f key))

/-- Every party can refresh its share. -/
theorem party_shareAt (r : Refresh) (hm : m ∈ session.members) :
    r.party session.ids (session.shareAt sessionId f key m) =
      .ok (m.id, .ofDealer (session.refreshDealer r (session.shareAt sessionId f key) m)
        (session.view m)) := by
  refine bind_eq_ok_iff.mpr ⟨_, bind_eq_ok_iff.mpr ⟨_, session.position_shareAt hm, ?_⟩, rfl⟩
  refine Party.assemble_eq_ok_iff.mpr
    ⟨session.validate_refreshDealer r (session.shareAt sessionId f key) hm, ?_, rfl⟩
  exact (session.length_peers hm).trans session.length_ids_positions.symm

/-- **Every refresh** of such shares can begin. -/
theorem ensemble_shareAt (r : Refresh) :
    r.ensemble (session.members.map (session.shareAt sessionId f key)) =
      .ok (session.refreshLineup r sessionId f key).ensemble := by
  have hids : (session.members.map (session.shareAt sessionId f key)).map (·.selfId) =
      session.ids := List.map_map
  refine bind_eq_ok_iff.mpr ⟨session.members.map fun m => (m.id,
    .ofDealer (session.refreshDealer r (session.shareAt sessionId f key) m) (session.view m)), ?_, ?_⟩
  · rw [hids, mapM_eq_ok_iff, List.forall₂_map_left_iff, List.forall₂_map_right_iff,
      List.forall₂_same]
    exact fun m hm => session.party_shareAt r hm
  · rw [refreshLineup, session.ensemble_lineupOf]
    rfl

/-- The parties of a refresh agree. -/
theorem agrees_refreshLineup (r : Refresh) :
    (session.refreshLineup r sessionId f key).Agrees r.sessionId :=
  (session.seats_refreshDealer r fun _ _ => rfl).agrees

/-- **The polynomial** that the shares belong to after a refresh. -/
noncomputable def refreshed (r : Refresh) (sessionId : SessionId) (f : c.Scalar[X])
    (key : PublicKey c) : c.Scalar[X] :=
  (session.refreshLineup r sessionId f key).common + f

/-- A refresh leaves the constant term as it is. -/
theorem eval_zero_refreshed (r : Refresh) :
    (session.refreshed r sessionId f key).eval 0 = f.eval 0 := by
  rw [refreshed, eval_add, (session.agrees_refreshLineup r).eval_zero_common fun _ _ => rfl, zero_add]

theorem degree_refreshed_lt (r : Refresh) (degree : f.degree < session.threshold.toNat) :
    (session.refreshed r sessionId f key).degree < session.threshold.toNat :=
  (degree_add_le _ _).trans_lt (max_lt (session.agrees_refreshLineup r).degree_common_lt degree)

theorem dealer_refreshLineup (r : Refresh) (hm : m ∈ session.members) :
    (session.refreshLineup r sessionId f key).dealer m.id =
      session.refreshDealer r (session.shareAt sessionId f key) m :=
  session.dealer_lineupOf hm

/-- What a party is left with is its share of the new polynomial. -/
theorem keyShare_refreshLineup (r : Refresh) (hm : m ∈ session.members) :
    ((session.refreshLineup r sessionId f key).dealer m.id).keyShare
        (session.refreshLineup r sessionId f key).committed
        (((session.refreshLineup r sessionId f key).dealer m.id).position.shareOf
          (session.refreshed r sessionId f key)) key
        ((session.refreshLineup r sessionId f key).partialKeysOf
          (session.refreshed r sessionId f key)) =
      session.shareAt r.sessionId (session.refreshed r sessionId f key) key m := by
  have hpositions : (session.refreshLineup r sessionId f key).committed.map (·.position) =
      session.positions := (session.seats_refreshDealer r fun _ _ => rfl).positions_eq
  have hpartialKeys : (session.refreshLineup r sessionId f key).partialKeysOf
      (session.refreshed r sessionId f key) = _ :=
    (session.seats_refreshDealer r fun _ _ => rfl).partialKeysOf_eq _
  rw [hpartialKeys, Dealer.keyShare, hpositions, session.dealer_refreshLineup r hm]
  rfl

/-- **The end of a refresh**: every party has its share of the new polynomial. -/
theorem closeShares_refresh (r : Refresh) (hm : m ∈ session.members) :
    Round.closeShares ((session.refreshLineup r sessionId f key).dealer m.id)
        (session.refreshLineup r sessionId f key).committed
        ((session.refreshLineup r sessionId f key).dealtTo m.id) =
      .ok ⟨[], .done (session.shareAt r.sessionId (session.refreshed r sessionId f key) key m)⟩ := by
  rw [← session.keyShare_refreshLineup r hm]
  refine (session.agrees_refreshLineup r).closeShares_of_refresh (session.mem_ids hm)
    (k := session.shareAt sessionId f key m) ?_ ?_ ?_
  · exact congrArg Dealer.previous (session.dealer_refreshLineup r hm)
  · exact congrArg (·.position.shareOf f) (session.dealer_refreshLineup r hm).symm
  · exact ((session.seats_refreshDealer r fun _ _ => rfl).partialKeysOf_eq f).symm

/-- **Parties that hold a key**: all are done, and their shares are those of one polynomial. -/
structure Holds (sessionId : SessionId) (f : c.Scalar[X]) (key : PublicKey c)
    (parties : List (Party c)) : Prop where
  scheme : checkValid session.threshold.toNat session.positions.values = .ok ()
  degree : f.degree < session.threshold.toNat
  secret : f.eval 0 = session.common.eval 0
  key_eq : .affine key = session.common.eval 0 • c.generator
  shows : parties.map Party.shows =
    session.members.map fun m => (.done, .ok (session.shareAt sessionId f key m))

/-- **A key generation** in which every party is done leaves the parties with a key. -/
theorem holds_of_play [c.Smooth] {schedule : List Ensemble.Action}
    (once : (Ensemble.starts schedule).Perm (List.range session.members.length))
    (rest : (session.ensemble.play schedule).atRest = true)
    (done : ∀ p ∈ (session.ensemble.play schedule).parties, p.engine.state = .done) :
    ∃ key, session.Holds session.sessionId session.common key
      (session.ensemble.play schedule).parties := by
  -- One of the parties tells how all of them ended.
  obtain ⟨m, hm⟩ := List.exists_mem_of_length_pos (Nat.zero_lt_of_lt session.two_le)
  have hends := Lineup.ends_of_play session.agrees.honest (fun _ _ => rfl)
    (by rwa [← session.length_ids] at once) (by rwa [session.ensemble_lineup])
  obtain ⟨p, hp, r, houtcome, hk⟩ := exists_mem_of_forall₂ hends (session.mem_ids hm)
  rw [session.ensemble_lineup] at hp
  obtain ⟨k, rfl⟩ : ∃ k, r = .ok k := by
    have hdone := done p hp
    rw [Engine.state, houtcome] at hdone
    cases r with
    | ok k => exact ⟨k, rfl⟩
    | error e => cases hdone
  have hscheme : session.lineup.scheme = .ok () := by
    cases hscheme : session.lineup.scheme with
    | error e =>
      rw [Lineup.Ends, hscheme] at hk
      cases hk
    | ok u => rfl
  have hcloses : ∀ {id : PartyId} {r : Except Error (KeyShare c)}, session.lineup.Ends id r →
      session.lineup.Closes id r := by
    intro id r h
    rwa [Lineup.Ends, hscheme] at h
  have heq := session.eq_of_closes hm (hcloses hk)
  cases hkey : (session.common.eval 0 • c.generator).key? with
  | none =>
    rw [hkey] at heq
    cases heq
  | some key =>
    refine ⟨key, session.scheme_lineup.symm.trans hscheme, session.degree_common_lt, rfl,
      (Point.key?_eq_some_iff.mp hkey).symm, ?_⟩
    refine session.map_shows_eq once rest (fun m => .ok (session.keyShare key m)) fun m hm r h => ?_
    have heq := session.eq_of_closes hm (hcloses h)
    rwa [hkey] at heq

/-- **A refresh** leaves the parties with the shares of another polynomial. -/
theorem holds_of_refresh [c.Smooth] {parties : List (Party c)}
    (h : session.Holds sessionId f key parties) {r : Refresh}
    (once : (Ensemble.starts r.schedule).Perm (List.range session.members.length))
    (rest : ((session.refreshLineup r sessionId f key).ensemble.play r.schedule).atRest = true) :
    session.Holds r.sessionId (session.refreshed r sessionId f key) key
      ((session.refreshLineup r sessionId f key).ensemble.play r.schedule).parties := by
  refine ⟨h.scheme, session.degree_refreshed_lt r h.degree,
    (session.eval_zero_refreshed r).trans h.secret, h.key_eq, ?_⟩
  refine session.map_shows_eq_of_ends (session.agrees_refreshLineup r).honest once rest
    (fun m => .ok (session.shareAt r.sessionId (session.refreshed r sessionId f key) key m))
    fun m hm out hends => ?_
  have hscheme : (session.refreshLineup r sessionId f key).scheme = .ok () :=
    (session.seats_refreshDealer r fun _ _ => rfl).scheme_eq.trans h.scheme
  have hcloses : (session.refreshLineup r sessionId f key).Closes m.id out := by
    have hends' : (session.refreshLineup r sessionId f key).Ends m.id out := hends
    rwa [Lineup.Ends, hscheme] at hends'
  cases hcloses with
  | fails close => cases (session.closeShares_refresh r hm).symm.trans close
  | done close =>
    cases (session.closeShares_refresh r hm).symm.trans close
    rfl

/-- **Every generation** holds a key. -/
theorem holds_of_generation [c.Smooth] {n : ℕ} {parties : List (Party c)}
    (h : Generation session n parties) :
    ∃ sessionId f key, session.Holds sessionId f key parties := by
  induction h with
  | keygen once rest done =>
    obtain ⟨key, holds⟩ := session.holds_of_play once rest done
    exact ⟨_, _, key, holds⟩
  | @refresh n parties shares r s previous results created once rest ih =>
    obtain ⟨sessionId, f, key, holds⟩ := ih
    -- The refresh is fed with the shares of the generation before.
    have hshares : shares = session.members.map (session.shareAt sessionId f key) := by
      have hshows := congrArg (List.map Prod.snd) holds.shows
      rw [List.map_map, List.map_map] at hshows
      have hok : shares.map (Except.ok (ε := Error)) =
          (session.members.map (session.shareAt sessionId f key)).map .ok := by
        rw [← results, List.map_map]
        exact hshows
      exact List.map_injective_iff.mpr (fun _ _ heq => Except.ok.inj heq) hok
    rw [hshares, session.ensemble_shareAt r] at created
    cases created
    exact ⟨_, _, key, session.holds_of_refresh holds once rest⟩

/-- **Refreshes keep the key**: after any number of refreshes under any schedules every party is
done, with its share of a polynomial whose constant term is the private key and with the public key
and the positions that it had; the next refresh can begin, and any shares whose positions form a
scheme recover the private key. -/
theorem recovers_of_generation [c.Smooth] {n : ℕ} {parties : List (Party c)}
    (h : Generation session n parties) :
    ∃ key : PublicKey c, .affine key = session.common.eval 0 • c.generator ∧
      ∃ (sessionId : SessionId) (f : c.Scalar[X]), f.degree < session.threshold.toNat ∧
        f.eval 0 = session.common.eval 0 ∧
        (parties.map Party.shows = session.members.map fun m =>
          (.done, .ok (session.shareAt sessionId f key m))) ∧
        (∀ r : Refresh, ∃ s : Ensemble c,
          r.ensemble (session.members.map (session.shareAt sessionId f key)) = .ok s) ∧
        ∀ chosen ⊆ session.members,
          checkValid session.threshold.toNat (chosen.map (·.position)) = .ok () →
          ∃ peers, (chosen.map (session.shareAt sessionId f key)).mapM KeyShare.rankedShare =
              .ok peers ∧
            recoverKey session.threshold.toNat key peers = .ok (session.common.eval 0) := by
  obtain ⟨sessionId, f, key, holds⟩ := session.holds_of_generation h
  refine ⟨key, holds.key_eq, sessionId, f, holds.degree, holds.secret, holds.shows,
    fun r => ⟨_, session.ensemble_shareAt r⟩, fun chosen hchosen hvalid => ?_⟩
  have hkey : .affine key = f.eval 0 • c.generator := by
    rw [holds.secret]
    exact holds.key_eq
  rw [← holds.secret]
  exact session.recoverKey_sharesAt holds.degree hkey hchosen hvalid

end Lawful

end KeygenSession

section ThreeParties

/-- The key shares of three parties. -/
def sharesOfThree : List (KeyShare .secp256k1) :=
  (sessionOfThree.ensemble.play scheduleOfThree).parties.filterMap (·.engine.result.toOption)

/-- A refresh in which the last party is started first, and the second is the first to deal. -/
def refreshOfThree : Refresh where
  sessionId := ⟨List.replicate 32 2, rfl⟩
  entropy id := .ofBlocks (if id = "b" then [41, 42] else [43, 44])
  schedule :=
    [.start 2, .turn 2, .start 0, .start 1, .turn 1, .turn 0, .turn 2, .turn 1, .turn 0]

/-- The three parties before the refresh starts. -/
def refreshedOfThree : Ensemble .secp256k1 :=
  (refreshOfThree.ensemble sharesOfThree).toOption.get (by decide +kernel)

/-- Three parties refresh their shares, and the two of rank zero recover the key with the new ones. -/
theorem recovers_of_generation_secp256k1 :
    ∃ (key : PublicKey .secp256k1) (sessionId : SessionId)
      (f : (Curve.secp256k1).Scalar[X]),
      ((refreshedOfThree.play refreshOfThree.schedule).parties.map Party.shows =
        sessionOfThree.members.map fun m =>
          (.done, .ok (sessionOfThree.shareAt sessionId f key m))) ∧
      ∃ peers, ([⟨"a", 0, 21, [31, 32]⟩, ⟨"c", 0, 23, [35, 36]⟩].map
          (sessionOfThree.shareAt sessionId f key)).mapM KeyShare.rankedShare = .ok peers ∧
        recoverKey 2 key peers = .ok 99 := by
  have hends : (sessionOfThree.ensemble.play scheduleOfThree).atRest = true ∧
      (∀ p ∈ (sessionOfThree.ensemble.play scheduleOfThree).parties, p.engine.state = .done) ∧
      (sessionOfThree.ensemble.play scheduleOfThree).parties.map (·.engine.result) =
        sharesOfThree.map .ok := by
    decide +kernel
  have hrefresh : Generation sessionOfThree 1
      (refreshedOfThree.play refreshOfThree.schedule).parties :=
    .refresh (.keygen (by decide +kernel) hends.1 hends.2.1) hends.2.2 (eq_ok_get _)
      (by decide +kernel) (by decide +kernel)
  have hzero : sessionOfThree.common.eval 0 = 99 :=
    sessionOfThree.eval_zero_common.trans (by decide +kernel)
  obtain ⟨key, -, sessionId, f, -, -, hshows, -, hrecovers⟩ :=
    sessionOfThree.recovers_of_generation hrefresh
  refine ⟨key, sessionId, f, hshows, ?_⟩
  rw [← hzero]
  exact hrecovers _ (by simp [sessionOfThree]) (by decide +kernel)

end ThreeParties

end RankedKeys
