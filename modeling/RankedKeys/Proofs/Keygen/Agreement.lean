import RankedKeys.Proofs.Curve.Secp256k1
import RankedKeys.Proofs.Keygen.Session
import RankedKeys.Proofs.Recovery.Exactness

/-!
# Honest key generation

All parties of a key generation that keep to the protocol end the same way, whatever the order in
which they are started and get their turns. If their positions form a scheme and the constant terms
of their polynomials do not add up to zero, each ends with a key share of one key: the shares are
those of the common polynomial, whose constant term is the private key, and any of them that form a
scheme recover it.

## Main definitions

* `KeygenSession.common`: the common polynomial
* `KeygenSession.keyShare`, `KeygenSession.shareAt`: the key share of a party
* `Party.shows`: how a run of a party stands

## Main results

* `KeygenSession.shows_of_play`: how a session ends under any schedule
-/

namespace RankedKeys

open Polynomial

variable {c : Curve}

/-- How the run of a party stands. -/
def Party.shows (p : Party c) : RunState × Except Error (KeyShare c) :=
  (p.engine.state, p.engine.result)

theorem Party.shows_of_outcome {p : Party c} {r : Except Error (KeyShare c)}
    (h : p.engine.outcome = some r) : p.shows = (Engine.endState r, r) := by
  rw [shows, Engine.state, Engine.result, h]
  cases r <;> rfl

namespace KeygenSession

variable [c.Lawful] (session : KeygenSession c) {m : Member c}

/-- **The common polynomial** is the sum of those of all parties. -/
noncomputable def common : c.Scalar[X] :=
  (session.members.map fun m => polynomialOf m.polynomial).sum

/-- The share of every party times the generator. -/
noncomputable def partialKeys : Roster (Point c) :=
  session.listed fun m => m.position.shareOf session.common • c.generator

/-- **The key share** of a party for a public key. -/
noncomputable def keyShare (key : PublicKey c) (m : Member c) : KeyShare c where
  sessionId := session.sessionId
  selfId := m.id
  threshold := session.threshold
  share := m.position.shareOf session.common
  publicKey := key
  positions := session.positions
  partialKeys := session.partialKeys

/-- **The key share** of a party for any polynomial, as a run with some session id leaves it
behind. -/
noncomputable def shareAt (sessionId : SessionId) (f : c.Scalar[X]) (key : PublicKey c)
    (m : Member c) : KeyShare c where
  sessionId
  selfId := m.id
  threshold := session.threshold
  share := m.position.shareOf f
  publicKey := key
  positions := session.positions
  partialKeys := session.listed fun m => m.position.shareOf f • c.generator

theorem keyShare_eq_shareAt (key : PublicKey c) :
    session.keyShare key = session.shareAt session.sessionId session.common key := rfl

theorem common_lineup : session.lineup.common = session.common := by
  rw [Lineup.common, common]
  show ((session.members.map (·.id)).map _).sum = _
  rw [List.map_map]
  refine congrArg List.sum (List.map_congr_left fun m hm => ?_)
  rw [Function.comp_apply, session.dealer_id hm]
  rfl

/-- The constant terms add up to that of the common polynomial. -/
theorem eval_zero_common :
    session.common.eval 0 = (session.members.map fun m => entry m.polynomial 0).sum := by
  rw [common, eval_listSum, List.map_map]
  exact congrArg List.sum (List.map_congr_left fun m _ => eval_zero_polynomialOf m.polynomial)

theorem degree_common_lt : session.common.degree < session.threshold.toNat := by
  rw [← session.common_lineup]
  exact session.agrees.degree_common_lt

omit [c.Lawful] in
theorem positions_lineup : session.lineup.committed.map (·.position) = session.positions :=
  session.seats.positions_eq

theorem partialKeys_lineup (hm : m ∈ session.members) :
    Round.partialKeys (session.dealer m) session.lineup.committed = session.partialKeys := by
  refine session.eq_listed (fun id => ?_) fun m' hm' => ?_
  · rw [Round.partialKeys, Roster.ids_map]
    exact Roster.mem_ids_gather _
  · have hfind := session.agrees.find?_partialKeys (session.mem_ids hm) (session.mem_ids hm')
    rw [session.dealer_id hm, session.dealer_id hm', session.common_lineup] at hfind
    exact hfind

omit [c.Lawful] in
theorem scheme_lineup :
    session.lineup.scheme = checkValid session.threshold.toNat session.positions.values :=
  session.seats.scheme_eq

theorem keyShare_lineup {key : PublicKey c} :
    (session.dealer m).keyShare session.lineup.committed (m.position.shareOf session.common) key
      session.partialKeys = session.keyShare key m := by
  rw [Dealer.keyShare, session.positions_lineup]
  rfl

/-- The end of the second round is the same whatever came in when. -/
theorem closeShares_lineup (hm : m ∈ session.members) :
    Round.closeShares (session.lineup.dealer m.id) session.lineup.committed
        (session.lineup.dealtTo m.id) =
      match (session.common.eval 0 • c.generator).key? with
      | none => .error (.verificationFailed "Public key is the identity")
      | some key => .ok ⟨[], .done (session.keyShare key m)⟩ := by
  rw [session.agrees.closeShares_eq (session.mem_ids hm) rfl, session.common_lineup,
    session.dealer_id hm, session.partialKeys_lineup hm]
  cases (session.common.eval 0 • c.generator).key? with
  | none => rfl
  | some key =>
    dsimp only
    rw [← session.keyShare_lineup]
    rfl

/-- How a run that gets to the end of the second round ends. -/
theorem eq_of_closes (hm : m ∈ session.members) {r : Except Error (KeyShare c)}
    (h : session.lineup.Closes m.id r) :
    r = match (session.common.eval 0 • c.generator).key? with
      | none => .error (.finalizeFailed
          (Error.verificationFailed "Public key is the identity").message)
      | some key => .ok (session.keyShare key m) := by
  have hclose := session.closeShares_lineup hm
  cases hkey : (session.common.eval 0 • c.generator).key? with
  | none =>
    rw [hkey] at hclose
    cases h with
    | fails close =>
      cases hclose.symm.trans close
      rfl
    | done close => cases hclose.symm.trans close
  | some key =>
    rw [hkey] at hclose
    cases h with
    | fails close => cases hclose.symm.trans close
    | done close =>
      cases hclose.symm.trans close
      rfl

/-- A key share lists the position of its own party. -/
theorem position_shareAt {sessionId : SessionId} {f : c.Scalar[X]} {key : PublicKey c}
    (hm : m ∈ session.members) : (session.shareAt sessionId f key m).position = .ok m.position := by
  rw [KeyShare.position]
  dsimp only [shareAt]
  rw [positions, session.find?_listed _ hm]

/-- **Key shares** whose positions form a scheme recover the private key. -/
theorem recoverKey_sharesAt {sessionId : SessionId} {f : c.Scalar[X]} {key : PublicKey c}
    (degree : f.degree < session.threshold.toNat) (hkey : .affine key = f.eval 0 • c.generator)
    {chosen : List (Member c)} (hchosen : chosen ⊆ session.members)
    (hvalid : checkValid session.threshold.toNat (chosen.map (·.position)) = .ok ()) :
    ∃ peers, (chosen.map (session.shareAt sessionId f key)).mapM KeyShare.rankedShare = .ok peers ∧
      recoverKey session.threshold.toNat key peers = .ok (f.eval 0) := by
  refine ⟨chosen.map fun m => ⟨m.position.shareOf f, m.position⟩, ?_, ?_⟩
  · rw [mapM_eq_ok_iff, List.forall₂_map_left_iff, List.forall₂_map_right_iff, List.forall₂_same]
    intro m hm
    exact bind_eq_ok_iff.mpr ⟨_, session.position_shareAt (hchosen hm), rfl⟩
  · rw [recoverKey_of_deals (f := f) (by rwa [List.map_map]) ⟨degree, ?_⟩, if_pos hkey.symm]
    intro peer hpeer
    obtain ⟨m, -, rfl⟩ := List.mem_map.mp hpeer
    rfl

theorem recoverKey_keyShares {key : PublicKey c}
    (hkey : .affine key = session.common.eval 0 • c.generator) {chosen : List (Member c)}
    (hchosen : chosen ⊆ session.members)
    (hvalid : checkValid session.threshold.toNat (chosen.map (·.position)) = .ok ()) :
    ∃ peers, (chosen.map (session.keyShare key)).mapM KeyShare.rankedShare = .ok peers ∧
      recoverKey session.threshold.toNat key peers = .ok (session.common.eval 0) := by
  rw [session.keyShare_eq_shareAt]
  exact session.recoverKey_sharesAt session.degree_common_lt hkey hchosen hvalid

omit [c.Lawful] in
/-- How every party stands, if all have ended and each could only end in one way. -/
theorem map_shows_eq_of_outcomes {parties : List (Party c)}
    {ends : PartyId → Except Error (KeyShare c) → Prop}
    (outcomes : List.Forall₂ (fun id (p : Party c) => ∃ r, p.engine.outcome = some r ∧ ends id r)
      session.ids parties)
    (ending : Member c → Except Error (KeyShare c))
    (unique : ∀ m ∈ session.members, ∀ r, ends m.id r → r = ending m) :
    parties.map Party.shows =
      session.members.map fun m => (Engine.endState (ending m), ending m) := by
  refine map_eq_map_of_forall₂ (List.forall₂_map_left_iff.mp outcomes) ?_
  rintro m hm p ⟨r, houtcome, hr⟩
  rw [Party.shows_of_outcome houtcome, unique m hm r hr]

omit [c.Lawful] in
/-- How every party stands at the end of a schedule, if it is known how it ends. -/
theorem map_shows_eq_of_ends {dealer : Member c → Dealer c}
    (honest : (session.lineupOf dealer).Honest) {schedule : List Ensemble.Action}
    (once : (Ensemble.starts schedule).Perm (List.range session.members.length))
    (rest : ((session.lineupOf dealer).ensemble.play schedule).atRest = true)
    (ending : Member c → Except Error (KeyShare c))
    (ends : ∀ m ∈ session.members, ∀ r, (session.lineupOf dealer).Ends m.id r → r = ending m) :
    ((session.lineupOf dealer).ensemble.play schedule).parties.map Party.shows =
      session.members.map fun m => (Engine.endState (ending m), ending m) := by
  rw [← session.length_ids] at once
  exact session.map_shows_eq_of_outcomes
    (Lineup.ends_of_play honest (fun _ _ => rfl) once rest) ending ends

theorem map_shows_eq [c.Smooth] {schedule : List Ensemble.Action}
    (once : (Ensemble.starts schedule).Perm (List.range session.members.length))
    (rest : (session.ensemble.play schedule).atRest = true)
    (ending : Member c → Except Error (KeyShare c))
    (ends : ∀ m ∈ session.members, ∀ r, session.lineup.Ends m.id r → r = ending m) :
    (session.ensemble.play schedule).parties.map Party.shows =
      session.members.map fun m => (Engine.endState (ending m), ending m) := by
  rw [← session.ensemble_lineup] at rest ⊢
  exact session.map_shows_eq_of_ends session.agrees.honest once rest ending ends

/-- The generator has no multiple that is neutral, but for zero. -/
theorem exists_key (nonzero : session.common.eval 0 ≠ 0) :
    ∃ key : PublicKey c, session.common.eval 0 • c.generator = .affine key := by
  cases hpoint : session.common.eval 0 • c.generator with
  | zero => exact absurd (smul_generator_eq_zero_iff.mp hpoint) nonzero
  | affine key => exact ⟨key, rfl⟩

/-- **Agreement under any schedule**: if every party is started once and the consumers come to rest,
all parties end the same way. They fail if their positions form no scheme, or if the constant terms
add up to zero; otherwise all have key shares of one key, and any of these whose positions form a
scheme recover it. -/
theorem shows_of_play [c.Smooth] (schedule : List Ensemble.Action)
    (once : (Ensemble.starts schedule).Perm (List.range session.members.length))
    (rest : (session.ensemble.play schedule).atRest = true) :
    let parties := (session.ensemble.play schedule).parties
    let scheme := checkValid session.threshold.toNat session.positions.values
    (∀ e, scheme = .error e →
      parties.map Party.shows = session.members.map fun _ =>
        (.failed, .error (.finalizeFailed e.message))) ∧
    (scheme = .ok () → session.common.eval 0 = 0 →
      parties.map Party.shows = session.members.map fun _ =>
        (.failed, .error (.finalizeFailed
          (Error.verificationFailed "Public key is the identity").message))) ∧
    (scheme = .ok () → session.common.eval 0 ≠ 0 →
      ∃ key : PublicKey c, .affine key = session.common.eval 0 • c.generator ∧
        (parties.map Party.shows = session.members.map fun m =>
          (.done, .ok (session.keyShare key m))) ∧
        ∀ chosen ⊆ session.members,
          checkValid session.threshold.toNat (chosen.map (·.position)) = .ok () →
          ∃ peers, (chosen.map (session.keyShare key)).mapM KeyShare.rankedShare = .ok peers ∧
            recoverKey session.threshold.toNat key peers = .ok (session.common.eval 0)) := by
  intro parties scheme
  have hscheme : session.lineup.scheme = scheme := session.scheme_lineup
  have hends : ∀ {id : PartyId} {r : Except Error (KeyShare c)}, session.lineup.Ends id r →
      scheme = .ok () → session.lineup.Closes id r := by
    intro id r h hok
    rwa [Lineup.Ends, hscheme, hok] at h
  refine ⟨fun e he => ?_, fun hok hzero => ?_, fun hok hne => ?_⟩
  · -- no scheme: every party fails at the end of its first round
    refine session.map_shows_eq once rest (fun _ => .error (.finalizeFailed e.message))
      fun m hm r h => ?_
    rwa [Lineup.Ends, hscheme, he] at h
  · -- no key: every party fails at the end of its second round
    refine session.map_shows_eq once rest (fun _ => .error (.finalizeFailed
      (Error.verificationFailed "Public key is the identity").message)) fun m hm r h => ?_
    have := session.eq_of_closes hm (hends h hok)
    rwa [hzero, zero_smul] at this
  -- a key, since the generator has no other multiple that is neutral
  · obtain ⟨key, hkey⟩ : ∃ key : PublicKey c,
        session.common.eval 0 • c.generator = .affine key := by
      cases hpoint : session.common.eval 0 • c.generator with
      | zero => exact absurd (smul_generator_eq_zero_iff.mp hpoint) hne
      | affine key => exact ⟨key, rfl⟩
    refine ⟨key, hkey.symm, ?_, fun chosen hchosen =>
      session.recoverKey_keyShares hkey.symm hchosen⟩
    refine session.map_shows_eq once rest (fun m => .ok (session.keyShare key m))
      fun m hm r h => ?_
    have := session.eq_of_closes hm (hends h hok)
    rwa [hkey] at this

end KeygenSession

section ThreeParties

/-- Three parties with a threshold of two, one of them of rank one. -/
def sessionOfThree : KeygenSession .secp256k1 where
  sessionId := ⟨List.replicate 32 1, rfl⟩
  threshold := 2
  members := [⟨"a", 0, 21, [31, 32]⟩, ⟨"b", 1, 22, [33, 34]⟩, ⟨"c", 0, 23, [35, 36]⟩]
  two_le := by decide
  valid := by decide +kernel
  coordinate := by decide +kernel
  polynomial := by decide

/-- The first party has dealt its shares before the last has had a turn. -/
def scheduleOfThree : List Ensemble.Action :=
  [.start 1, .turn 1, .start 0, .start 2, .turn 0, .turn 1, .turn 2, .turn 0, .turn 1]

/-- Three parties generate a key, and the two of rank zero recover it. -/
theorem shows_of_play_secp256k1 :
    ∃ key : PublicKey .secp256k1,
      ((sessionOfThree.ensemble.play scheduleOfThree).parties.map Party.shows =
        sessionOfThree.members.map fun m => (.done, .ok (sessionOfThree.keyShare key m))) ∧
      ∃ peers, ([⟨"a", 0, 21, [31, 32]⟩, ⟨"c", 0, 23, [35, 36]⟩].map
          (sessionOfThree.keyShare key)).mapM KeyShare.rankedShare = .ok peers ∧
        recoverKey 2 key peers = .ok 99 := by
  have hzero : sessionOfThree.common.eval 0 = 99 :=
    sessionOfThree.eval_zero_common.trans (by decide +kernel)
  obtain ⟨key, -, hshows, hrecovers⟩ := (sessionOfThree.shows_of_play scheduleOfThree
    (by decide +kernel) (by decide +kernel)).2.2 (by decide +kernel)
    (by rw [hzero]; decide +kernel)
  refine ⟨key, hshows, ?_⟩
  rw [← hzero]
  exact hrecovers _ (by simp [sessionOfThree]) (by decide +kernel)

end ThreeParties

end RankedKeys
