import RankedKeys.Proofs.Keygen.Agreement
import RankedKeys.Proofs.Keygen.Rest

/-!
# Fault isolation

One party of a key generation deals some of its peers bytes that are not their shares. Each of these
fails and names that party; all others, the party itself included, end with the key shares that they
would have had otherwise. A party looks at the shares only after it has dealt its own, so that one
that fails leaves nobody waiting.

## Main definitions

* `KeygenSession.Forgery`: which shares of a party are forged, and how
* `KeygenSession.Forgery.play`: the session under a schedule, with these shares forged

## Main results

* `KeygenSession.isolated_of_play`: who fails, and with what the others end
-/

namespace RankedKeys

variable {c : Curve}

namespace KeygenSession

/-- **Forged shares** of one party: what some of its peers get in place of theirs. -/
structure Forgery (session : KeygenSession c) where
  culprit : Member c
  mem : culprit ∈ session.members
  bytes : PartyId → Option Bytes
  /-- A party sends itself no share. -/
  own : bytes culprit.id = none
  spurious : ∀ m ∈ session.members, ∀ b, bytes m.id = some b →
    b ≠ Curve.scalarBytes (m.position.evaluate culprit.polynomial)

namespace Forgery

variable {session : KeygenSession c} (forgery : session.Forgery) {m : Member c}

/-- What is forged from one party to another. -/
def forged (sender receiver : PartyId) : Option Bytes :=
  if sender = forgery.culprit.id then forgery.bytes receiver else none

/-- The session under a schedule, with the shares forged on their way. -/
def play (schedule : List Ensemble.Action) : Ensemble c :=
  session.ensemble.playBy (Ensemble.sendForged forgery.forged) schedule

/-- The parties of the session, by name. -/
def lineup : Lineup c :=
  { session.lineup with forged := forgery.forged }

theorem forged_eq_some_iff {sender receiver : PartyId} {b : Bytes} :
    forgery.forged sender receiver = some b ↔
      sender = forgery.culprit.id ∧ forgery.bytes receiver = some b := by
  unfold forged
  split
  · rename_i h
    exact ⟨fun hb => ⟨h, hb⟩, fun hb => hb.2⟩
  · rename_i h
    exact ⟨fun hb => (nomatch hb), fun hb => absurd hb.1 h⟩

theorem ensemble_lineup : forgery.lineup.ensemble = session.ensemble :=
  session.ensemble_lineup

theorem scheme_lineup :
    forgery.lineup.scheme = checkValid session.threshold.toNat session.positions.values :=
  session.scheme_lineup

theorem agrees : forgery.lineup.Agrees session.sessionId := by
  refine session.agrees.withForged fun id hid x _ b hb => ?_
  obtain ⟨m, hm, rfl⟩ := List.mem_map.mp hid
  obtain ⟨rfl, hbytes⟩ := forgery.forged_eq_some_iff.mp hb
  rw [Lineup.shareFor, session.dealer_id hm, session.dealer_id forgery.mem]
  exact forgery.spurious m hm b hbytes

/-- What the run of a party ends with: it fails if its share is forged. -/
noncomputable def ending [c.Lawful] (key : PublicKey c) (m : Member c) :
    Except Error (KeyShare c) :=
  match forgery.bytes m.id with
  | none => .ok (session.keyShare key m)
  | some b => .error (.handlerValidationFailed forgery.culprit.id
      (complaint c forgery.culprit.id b).message)

/-- **The end of a run** that gets to the second round. -/
theorem eq_of_settles [c.Lawful] {key : PublicKey c}
    (hkey : session.common.eval 0 • c.generator = .affine key) (hm : m ∈ session.members)
    {r : Except Error (KeyShare c)} (h : forgery.lineup.Settles m.id r) :
    r = forgery.ending key m := by
  rw [ending]
  cases h with
  | @refuses x b hx hforged =>
    -- What is forged comes from the culprit.
    obtain ⟨rfl, hbytes⟩ := forgery.forged_eq_some_iff.mp hforged
    rw [hbytes]
  | closes genuine closes =>
    have hnone : forgery.bytes m.id = none := by
      by_cases hself : m.id = forgery.culprit.id
      · rw [hself, forgery.own]
      · have := genuine forgery.culprit.id
          (Lineup.mem_others.mpr ⟨session.mem_ids forgery.mem, Ne.symm hself⟩)
        exact (if_pos rfl).symm.trans this
    -- The end of the second round does not depend on what others are dealt.
    have hcloses : session.lineup.Closes m.id r := by
      cases closes with
      | fails close => exact .fails close
      | done close => exact .done close
    have heq := session.eq_of_closes hm hcloses
    rw [hkey] at heq
    rw [heq, hnone]
    rfl

end Forgery

variable [c.Lawful] (session : KeygenSession c)

/-- **Fault isolation**: if the positions form a scheme and the constant terms do not add up to zero,
then under any schedule that starts every party once, whoever gets forged bytes in place of a share
fails and names the party that the share is from. All others end with the key share that they end
with under any schedule without forged shares. Every schedule can be continued until the consumers
rest. -/
theorem isolated_of_play [c.Smooth] (forgery : session.Forgery) (schedule : List Ensemble.Action)
    (once : (Ensemble.starts schedule).Perm (List.range session.members.length))
    (valid : checkValid session.threshold.toNat session.positions.values = .ok ())
    (nonzero : session.common.eval 0 ≠ 0) :
    ∃ key : PublicKey c, .affine key = session.common.eval 0 • c.generator ∧
      (∃ turns : List ℕ, (forgery.play (schedule ++ turns.map .turn)).atRest = true) ∧
      ((forgery.play schedule).atRest = true →
        (forgery.play schedule).parties.map Party.shows = session.members.map fun m =>
          match forgery.bytes m.id with
          | none => (.done, .ok (session.keyShare key m))
          | some b => (.failed, .error (.handlerValidationFailed forgery.culprit.id
              (complaint c forgery.culprit.id b).message))) ∧
      ∀ schedule' : List Ensemble.Action,
        (Ensemble.starts schedule').Perm (List.range session.members.length) →
        (session.ensemble.play schedule').atRest = true →
        (session.ensemble.play schedule').parties.map Party.shows = session.members.map fun m =>
          (.done, .ok (session.keyShare key m)) := by
  obtain ⟨key, hkey⟩ := session.exists_key nonzero
  have hscheme : session.lineup.scheme = .ok () := session.scheme_lineup.trans valid
  refine ⟨key, hkey.symm, Ensemble.exists_rest (Ensemble.keepsConsumers_sendForged _) _ _,
    fun rest => ?_, fun schedule' once' rest' => ?_⟩
  · -- with forged shares: every party has ended, in the only way there is
    have houtcomes := Lineup.concludes_of_play forgery.agrees.honest
      (by rwa [← session.length_ids] at once) (by rwa [forgery.ensemble_lineup])
    rw [forgery.ensemble_lineup] at houtcomes
    refine (session.map_shows_eq_of_outcomes houtcomes (forgery.ending key) fun m hm r h => ?_).trans
      (List.map_congr_left fun m _ => ?_)
    · rw [Lineup.Concludes, forgery.scheme_lineup, valid] at h
      exact forgery.eq_of_settles hkey hm h
    · rw [Forgery.ending]
      cases forgery.bytes m.id <;> rfl
  · -- without
    refine session.map_shows_eq once' rest' (fun m => .ok (session.keyShare key m))
      fun m hm r h => ?_
    rw [Lineup.Ends, hscheme] at h
    have := session.eq_of_closes hm h
    rwa [hkey] at this

end KeygenSession

section ThreeParties

/-- The first of three parties deals the second bytes that are not its share. -/
def forgeryOfThree : sessionOfThree.Forgery where
  culprit := sessionOfThree.members.head (List.cons_ne_nil _ _)
  mem := List.head_mem _
  bytes id := if id = "b" then some (List.replicate 32 7) else none
  own := by decide
  spurious := by decide +kernel

/-- The second party fails and names the first; these two are done otherwise, as the third is. -/
theorem isolated_of_play_secp256k1 :
    ∃ key : PublicKey .secp256k1,
      ((forgeryOfThree.play scheduleOfThree).parties.map Party.shows =
        [(.done, .ok (sessionOfThree.keyShare key ⟨"a", 0, 21, [31, 32]⟩)),
          (.failed, .error (.handlerValidationFailed "a"
            "Message verification failed: Share from a does not match commitment")),
          (.done, .ok (sessionOfThree.keyShare key ⟨"c", 0, 23, [35, 36]⟩))]) ∧
      (sessionOfThree.ensemble.play scheduleOfThree).parties.map Party.shows =
        sessionOfThree.members.map fun m => (.done, .ok (sessionOfThree.keyShare key m)) := by
  have hzero : sessionOfThree.common.eval 0 = 99 :=
    sessionOfThree.eval_zero_common.trans (by decide +kernel)
  have hrests : (forgeryOfThree.play scheduleOfThree).atRest = true ∧
      (sessionOfThree.ensemble.play scheduleOfThree).atRest = true := by
    decide +kernel
  have hmessage : (complaint .secp256k1 "a" (List.replicate 32 7)).message =
      "Message verification failed: Share from a does not match commitment" := by
    decide +kernel
  have honce : (Ensemble.starts scheduleOfThree).Perm
      (List.range sessionOfThree.members.length) := by
    decide +kernel
  obtain ⟨key, -, -, hshows, huntouched⟩ := sessionOfThree.isolated_of_play forgeryOfThree
    scheduleOfThree honce (by decide +kernel) (by rw [hzero]; decide +kernel)
  refine ⟨key, ?_, huntouched scheduleOfThree honce hrests.2⟩
  rw [hshows hrests.1, ← hmessage]
  rfl

end ThreeParties

end RankedKeys
