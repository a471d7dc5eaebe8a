import RankedKeys.Proofs.Keygen.Origin

/-!
# The public part of a key share

The positions, the public key and the partial keys that a run ends with depend on what all parties
have contributed to the first round, and on nothing else: not on the order in which the messages
came in, not on the shares, and not on which of the parties has run. The party's own contribution
never becomes a message, but it counts like the others. A refresh depends on the public part of the
previous key share in addition.

## Main definitions

* `PublicPart`, `KeyShare.publicPart`: what everybody may know of a key share
* `Dealer.Contributed d handled id commit`: what a party has contributed to a run, its own included

## Main results

* `Dealer.find?_committed_iff`: the contributions of a run are those of its messages and the own one
* `Round.publicPart_eq_of_outcomes`: the public part depends on the contributions
* `Dealer.publicPart_eq_of_plays`: two runs with the same contributions end with one public part
-/

namespace RankedKeys

variable {c : Curve}

/-- What everybody may know of a key share. -/
structure PublicPart (c : Curve) where
  publicKey : PublicKey c
  positions : Roster (Parameter c.Scalar)
  partialKeys : Roster (Point c)
  deriving DecidableEq

/-- The public part of a key share. -/
def KeyShare.publicPart (k : KeyShare c) : PublicPart c :=
  ⟨k.publicKey, k.positions, k.partialKeys⟩

/-! ## The end of the second round -/

namespace Round

variable {d d' : Dealer c} {committed : Roster (PeerCommit c)}
  {received received' : Roster c.Scalar}

/-- The partial keys depend on a party by its threshold alone. -/
theorem partialKeys_congr (threshold : d.threshold = d'.threshold) :
    partialKeys d committed = partialKeys d' committed := by
  rw [partialKeys, partialKeys, threshold]

/-- **The public key and the partial keys** of two parties with the same contributions are the same,
if they generate a key, or if they refresh key shares of one public part. -/
theorem publicPart_eq_of_outcomes (threshold : d.threshold = d'.threshold)
    (previous : d.previous.map KeyShare.publicPart = d'.previous.map KeyShare.publicPart)
    {share share' : c.Scalar} {key key' : PublicKey c} {points points' : Roster (Point c)}
    (houtcome : outcome d committed received = .ok (share, key, points))
    (houtcome' : outcome d' committed received' = .ok (share', key', points')) :
    key = key' ∧ points = points' := by
  have hpartial : partialKeys d committed = partialKeys d' committed := partialKeys_congr threshold
  cases hprevious : d.previous with
  | none =>
    have hprevious' : d'.previous = none := by
      rw [hprevious, Option.map_none] at previous
      exact Option.map_eq_none_iff.mp previous.symm
    rw [outcome_of_generation hprevious] at houtcome
    rw [outcome_of_generation hprevious'] at houtcome'
    cases hkey : (constantSum committed).key? with
    | none =>
      rw [hkey] at houtcome
      cases houtcome
    | some key =>
      rw [hkey] at houtcome houtcome'
      cases houtcome
      cases houtcome'
      exact ⟨rfl, hpartial⟩
  | some k =>
    rw [hprevious, Option.map_some] at previous
    obtain ⟨k', hprevious', hpublic⟩ := Option.map_eq_some_iff.mp previous.symm
    obtain ⟨-, -, rfl, hpoints⟩ := (outcome_of_refresh_eq_ok_iff hprevious).mp houtcome
    obtain ⟨-, -, rfl, hpoints'⟩ := (outcome_of_refresh_eq_ok_iff hprevious').mp houtcome'
    have hkeys : k'.partialKeys = k.partialKeys := congrArg PublicPart.partialKeys hpublic
    refine ⟨(congrArg PublicPart.publicKey hpublic).symm, ?_⟩
    ext id : 1
    rw [hpoints, hpoints', hpartial, hkeys]

end Round

/-! ## The contributions of a run -/

namespace Dealer

variable {d d' : Dealer c}

/-- **What a party has contributed** to the first round of a run: its commitments, in the messages
that the rounds have been given, or those of the party itself. -/
def Contributed (d : Dealer c) (handled : List KeygenMessage) (id : PartyId)
    (commit : PeerCommit c) : Prop :=
  id = d.config.selfId ∧ commit = d.ownCommit ∨
    ∃ m, .commit m ∈ handled ∧ m.sender = id ∧ d.acceptCommit m = .ok commit

/-- A contribution has as many commitments as the threshold asks for. -/
theorem Fits.length_of_contributed (fits : d.Fits) {handled : List KeygenMessage} {id : PartyId}
    {commit : PeerCommit c} (h : d.Contributed handled id commit) :
    commit.commitments.length = d.threshold := by
  rcases h with ⟨-, rfl⟩ | ⟨m, -, -, haccept⟩
  · exact (List.length_map _).trans fits.polynomial
  · obtain ⟨points, hpoints, hcommitments⟩ := (acceptCommit_eq_ok_iff.mp haccept).commitments
    have hlength : m.commitments.length = points.length := (mapM_eq_ok_iff.mp hpoints).length_eq
    have hcount := (acceptCommit_eq_ok_iff.mp haccept).count
    rw [hcommitments, List.length_append, List.length_replicate]
    omega

/-- **Parties with the same contributions** have the same threshold. -/
theorem Fits.threshold_eq (fits : d.Fits) (fits' : d'.Fits) {handled handled' : List KeygenMessage}
    (same : ∀ id commit, d.Contributed handled id commit ↔ d'.Contributed handled' id commit) :
    d.threshold = d'.threshold := by
  have hown : d.Contributed handled d.config.selfId d.ownCommit := .inl ⟨rfl, rfl⟩
  rw [← fits.length_of_contributed hown]
  exact fits'.length_of_contributed ((same _ _).mp hown)

/-- **The contributions** that a run ends with are those of its messages and the party's own one. -/
theorem find?_committed_iff {commits : List CommitMessage} {received : Roster (PeerCommit c)}
    (gathers : d.Gathers commits received) (shares : List ShareMessage) {id : PartyId}
    {commit : PeerCommit c} :
    (d.committed received).find? id = some commit ↔
      d.Contributed (commits.map .commit ++ shares.map .share) id commit := by
  have heard : ∀ m, KeygenMessage.commit m ∈ commits.map KeygenMessage.commit ++
      shares.map KeygenMessage.share ↔ m ∈ commits := by
    simp
  rw [committed, Roster.find?_insert, Contributed]
  by_cases hid : id = d.config.selfId
  · -- No message names the party itself as its sender.
    subst hid
    rw [if_pos rfl, Option.some.injEq]
    constructor
    · rintro rfl
      exact .inl ⟨rfl, rfl⟩
    · rintro (⟨-, rfl⟩ | ⟨m, -, hsender, haccept⟩)
      · rfl
      · exact absurd hsender (acceptCommit_eq_ok_iff.mp haccept).peer.1
  · rw [if_neg hid]
    constructor
    · intro hfind
      obtain ⟨m, hm, hsender, haccept⟩ := gathers.collects.exists_of_find? hfind
      exact .inr ⟨m, (heard m).mpr hm, hsender, haccept⟩
    · rintro (⟨hself, -⟩ | ⟨m, hm, rfl, haccept⟩)
      · exact absurd hself hid
      · exact gathers.collects.find?_sender ((heard m).mp hm) haccept

/-! ## Two runs -/

/-- **A run that ends with a key share** has closed both rounds. -/
theorem exists_closeShares_of_play {view : PeerView} (happenings : List (Happening KeygenMessage))
    {k : KeyShare c}
    (done : ((Record.initial (Party.ofDealer d view).engine).play (Round.protocol c)
      happenings).engine.result = .ok k) :
    ∃ (commits : List CommitMessage) (received : Roster (PeerCommit c))
      (shares : List ShareMessage) (got : Roster c.Scalar),
      ((Record.initial (Party.ofDealer d view).engine).play (Round.protocol c)
        happenings).handled = commits.map .commit ++ shares.map .share ∧
      d.Gathers commits received ∧
      Round.closeShares d (d.committed received) got = .ok ⟨[], .done k⟩ := by
  have follows : Record.Follows (Round.protocol c) (.commits d .empty)
      ((Record.initial (Party.ofDealer d view).engine).play (Round.protocol c) happenings) :=
    Record.follows_of_play _ _ _ _ _ happenings
  have houtcome := Engine.outcome_of_result_eq_ok done
  generalize (Record.initial (Party.ofDealer d view).engine).play (Round.protocol c)
    happenings = record at follows houtcome ⊢
  cases follows with
  | ongoing progress outcome => cases outcome.symm.trans houtcome
  | handing outcome => cases outcome.symm.trans houtcome
  | failed consumer outcome => cases outcome.symm.trans houtcome
  | refused consumer outcome => cases outcome.symm.trans houtcome
  | @done e delivered handed handled outbox before output consumer outcome closes =>
    cases outcome.symm.trans houtcome
    have hcloses := closes_of_trail closes
    generalize e.tag = tag at hcloses
    cases hcloses with
    | @shares commits received shares got _ gathers collects enough close =>
      exact ⟨commits, received, shares, got, rfl, gathers, close⟩

/-- **The public part of a key share** is a function of the contributions to the first round: if two
parties end with key shares, whatever has been delivered to each of them and in which order, and
if the same has been contributed to both runs, then their key shares have the same public key,
positions and partial keys, in a key generation as in a refresh of key shares that agree on these.
Nothing is said of the settings, the polynomials and the shares of the two parties, and nothing of
which parties they are. -/
theorem publicPart_eq_of_plays {view view' : PeerView} (created : d.Created view)
    (created' : d'.Created view') (happenings happenings' : List (Happening KeygenMessage))
    {k k' : KeyShare c}
    (done : ((Record.initial (Party.ofDealer d view).engine).play (Round.protocol c)
      happenings).engine.result = .ok k)
    (done' : ((Record.initial (Party.ofDealer d' view').engine).play (Round.protocol c)
      happenings').engine.result = .ok k')
    (same : ∀ id commit,
      d.Contributed ((Record.initial (Party.ofDealer d view).engine).play (Round.protocol c)
        happenings).handled id commit ↔
      d'.Contributed ((Record.initial (Party.ofDealer d' view').engine).play (Round.protocol c)
        happenings').handled id commit)
    (previous : d.previous.map KeyShare.publicPart = d'.previous.map KeyShare.publicPart) :
    k.publicPart = k'.publicPart := by
  have threshold := created.fits.threshold_eq created'.fits same
  obtain ⟨commits, received, shares, got, hhandled, gathers, close⟩ :=
    exists_closeShares_of_play happenings done
  obtain ⟨commits', received', shares', got', hhandled', gathers', close'⟩ :=
    exists_closeShares_of_play happenings' done'
  have hcommitted : d.committed received = d'.committed received' := by
    ext id commit : 2
    rw [find?_committed_iff gathers shares, find?_committed_iff gathers' shares', ← hhandled,
      ← hhandled', same]
  obtain ⟨share, key, points, houtcome, -, hclosing⟩ := Round.closeShares_eq_ok_iff.mp close
  obtain ⟨share', key', points', houtcome', -, hclosing'⟩ := Round.closeShares_eq_ok_iff.mp close'
  cases hclosing
  cases hclosing'
  rw [← hcommitted] at houtcome'
  obtain ⟨rfl, rfl⟩ := Round.publicPart_eq_of_outcomes threshold previous houtcome houtcome'
  simp only [KeyShare.publicPart, keyShare, hcommitted]

/-- The second of two parties. The commitments of the first one come in before it is started, and
its share later. -/
def recordOfSecond : Record (Round .secp256k1) KeygenMessage (KeyShare .secp256k1) :=
  (Record.initial (Party.ofDealer secondOfTwo ⟨"b", ["a"]⟩).engine).play (Round.protocol .secp256k1)
    [.deliver "a" firstOfTwo.commitMessage, .start, .move, .answer (.ok ()),
      .deliver "a" (firstOfTwo.shareMessage "b" secondOfTwo.position), .move]

/-- The contributions of two parties to a run in which one has heard the other. -/
theorem contributed_iff_of_two {d d' : Dealer c} {m : CommitMessage} {share : ShareMessage}
    (commitMessage : d'.commitMessage = .commit m) (sender : m.sender = d'.config.selfId)
    (accepts : d.acceptCommit m = .ok d'.ownCommit) (id : PartyId) (commit : PeerCommit c) :
    d.Contributed [d'.commitMessage, .share share] id commit ↔
      id = d.config.selfId ∧ commit = d.ownCommit ∨
        id = d'.config.selfId ∧ commit = d'.ownCommit := by
  refine or_congr_right ⟨?_, ?_⟩
  · rintro ⟨m', hm', rfl, haccept'⟩
    simp only [commitMessage, List.mem_cons, KeygenMessage.commit.injEq, reduceCtorEq,
      List.not_mem_nil, or_false] at hm'
    subst hm'
    exact ⟨sender, Except.ok.inj (haccept'.symm.trans accepts)⟩
  · rintro ⟨rfl, rfl⟩
    exact ⟨m, commitMessage ▸ List.mem_cons_self, sender, accepts⟩

/-- Both of two parties end with the same public part. -/
theorem publicPart_eq_of_plays_secp256k1 : ∃ k k' : KeyShare .secp256k1,
    recordOfTwo.engine.result = .ok k ∧ recordOfSecond.engine.result = .ok k' ∧
      k.selfId ≠ k'.selfId ∧ k.share ≠ k'.share ∧ k.publicPart = k'.publicPart := by
  obtain ⟨k, hfirst⟩ : ∃ k, recordOfTwo.engine.result = .ok k :=
    ⟨_, eq_ok_get (by decide +kernel)⟩
  obtain ⟨k', hsecond⟩ : ∃ k, recordOfSecond.engine.result = .ok k :=
    ⟨_, eq_ok_get (by decide +kernel)⟩
  have hown : recordOfTwo.engine.result.toOption.map (fun k => (k.selfId, k.share)) =
      some ("a", 106) := by decide +kernel
  have hown' : recordOfSecond.engine.result.toOption.map (fun k => (k.selfId, k.share)) =
      some ("b", 124) := by decide +kernel
  have created : (dealerOfTwo "b" none 6 9 10).Created ⟨"b", ["a"]⟩ := by
    refine .generated (.ofBlocks [6, 9, 10]) ?_
    rw [Party.generate_eq]
    refine Party.assemble_eq_ok_iff.mpr ⟨by decide +kernel, rfl, ?_⟩
    exact congrArg (Party.ofDealer · _) (by decide +kernel)
  have hhandled : recordOfTwo.handled = [(dealerOfTwo "b" none 6 9 10).commitMessage,
      (dealerOfTwo "b" none 6 9 10).shareMessage "a" ⟨5, 0⟩] := by decide +kernel
  have hhandled' : recordOfSecond.handled = [(dealerOfTwo "a" none 5 7 8).commitMessage,
      (dealerOfTwo "a" none 5 7 8).shareMessage "b" ⟨6, 0⟩] := by decide +kernel
  have same : ∀ id commit,
      (dealerOfTwo "a" none 5 7 8).Contributed recordOfTwo.handled id commit ↔
        (dealerOfTwo "b" none 6 9 10).Contributed recordOfSecond.handled id commit := by
    intro id commit
    rw [hhandled, hhandled']
    refine (contributed_iff_of_two rfl rfl (by decide +kernel) id commit).trans ?_
    exact or_comm.trans (contributed_iff_of_two rfl rfl (by decide +kernel) id commit).symm
  have hpublic := publicPart_eq_of_plays (.generated _ generate_dealerOfTwo) created _ _ hfirst
    hsecond same rfl
  simp only [hfirst, hsecond, Except.toOption, Option.map_some, Option.some.injEq,
    Prod.mk.injEq] at hown hown'
  refine ⟨k, k', hfirst, hsecond, ?_, ?_, hpublic⟩
  · rw [hown.1, hown'.1]
    decide
  · rw [hown.2, hown'.2]
    decide +kernel

end Dealer

end RankedKeys
