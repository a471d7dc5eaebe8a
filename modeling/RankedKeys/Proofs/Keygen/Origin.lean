import RankedKeys.Proofs.Engine.Trail
import RankedKeys.Proofs.Keygen.Soundness

/-!
# Where a key share comes from

A party that ends with a key share has heard exactly one message of each round from each of its
peers, and nothing from anybody else: a round counts its messages, takes one of each sender, and
takes them from the other configured parties alone, so that as many messages as there are peers are
one from each.

## Main definitions

* `Collects sender accept messages r`: a roster of what has been accepted of some messages
* `Dealer.Gathers`: the commitments with which the first round ends
* `Dealer.Reaches`, `Dealer.Closes`: where the messages of a trail lead
* `Dealer.Created`: a party that has been created for a key generation or a refresh
* `Dealer.make`: the key share that the rounds make of some messages by themselves
* `Dealer.Hears`: one message of each round from each peer, authentic and for this session

## Main results

* `Dealer.reaches_of_trail`, `Dealer.closes_of_trail`: every trail leads there
* `Dealer.authentic_of_play`: the messages behind a key share
-/

namespace RankedKeys

/-! ## What is kept of some messages -/

section Collects

variable {A B : Type} {sender : A → PartyId} {accept : A → Except Error B}

/-- A roster of what has been accepted of some messages of different senders. -/
inductive Collects (sender : A → PartyId) (accept : A → Except Error B) : List A → Roster B → Prop
  | nil : Collects sender accept [] .empty
  | snoc {messages : List A} {r : Roster B} {m : A} {b : B}
    (earlier : Collects sender accept messages r) (fresh : sender m ∉ r.ids)
    (accepts : accept m = .ok b) :
    Collects sender accept (messages ++ [m]) (r.insert (sender m) b)

namespace Collects

variable {messages : List A} {r : Roster B} (h : Collects sender accept messages r)

include h

theorem mem_ids_iff {id : PartyId} : id ∈ r.ids ↔ id ∈ messages.map sender := by
  induction h with
  | nil => simp [Roster.mem_ids_iff]
  | @snoc messages r m b earlier fresh accepts ih =>
    rw [List.map_append, List.mem_append, ← ih, List.map_singleton, List.mem_singleton,
      Roster.mem_ids_insert, or_comm]

/-- The senders are different. -/
theorem nodup : (messages.map sender).Nodup := by
  induction h with
  | nil => exact List.nodup_nil
  | snoc earlier fresh accepts ih =>
    rw [List.map_append, List.nodup_append]
    refine ⟨ih, List.nodup_singleton _, ?_⟩
    intro a ha b hb hab
    rw [List.map_singleton, List.mem_singleton] at hb
    exact fresh (earlier.mem_ids_iff.mpr (hb ▸ hab ▸ ha))

/-- Every entry is what has been accepted of the message of its party. -/
theorem exists_of_find? {id : PartyId} {b : B} (hfind : r.find? id = some b) :
    ∃ m ∈ messages, sender m = id ∧ accept m = .ok b := by
  induction h with
  | nil => cases hfind
  | @snoc messages r m b' earlier fresh accepts ih =>
    rw [Roster.find?_insert] at hfind
    split at hfind
    · rename_i hid
      cases hfind
      exact ⟨m, by simp, hid.symm, accepts⟩
    · obtain ⟨m', hm', hsender, haccept⟩ := ih hfind
      exact ⟨m', List.mem_append_left _ hm', hsender, haccept⟩

/-- **Every message** is kept, as the entry of its sender: the senders are different. -/
theorem find?_sender {m : A} {b : B} (hm : m ∈ messages) (accepts : accept m = .ok b) :
    r.find? (sender m) = some b := by
  induction h with
  | nil => exact absurd hm List.not_mem_nil
  | @snoc messages r last b' earlier fresh accepts' ih =>
    rw [Roster.find?_insert]
    rcases List.mem_append.mp hm with hm | hm
    · have hmem : sender m ∈ r.ids := earlier.mem_ids_iff.mpr (List.mem_map_of_mem hm)
      have hne : sender m ≠ sender last := fun heq => fresh (heq ▸ hmem)
      rw [if_neg hne]
      exact ih hm
    · obtain rfl := List.mem_singleton.mp hm
      rw [if_pos rfl]
      exact congrArg some (Except.ok.inj (accepts'.symm.trans accepts))

theorem exists_accepted {m : A} (hm : m ∈ messages) : ∃ b, accept m = .ok b := by
  induction h with
  | nil => exact absurd hm List.not_mem_nil
  | snoc earlier fresh accepts ih =>
    rcases List.mem_append.mp hm with hm | hm
    · exact ih hm
    · rw [List.mem_singleton.mp hm]
      exact ⟨_, accepts⟩

/-- **As many messages** as a list has parties, all of them from there, are one from each. -/
theorem perm_of_length_le {ids : List PartyId} (mem : ∀ m ∈ messages, sender m ∈ ids)
    (le : ids.length ≤ messages.length) : (messages.map sender).Perm ids := by
  refine (List.subperm_of_subset h.nodup fun id hid => ?_).perm_of_length_le ?_
  · obtain ⟨m, hm, rfl⟩ := List.mem_map.mp hid
    exact mem m hm
  · rwa [List.length_map]

/-- Taking the messages in one after the other leads to this roster. -/
theorem foldlM_eq {σ M : Type} {handle : σ → M → Except Error σ} {wrap : A → M}
    (state : Roster B → σ) (handles : ∀ r m b, accept m = .ok b →
      handle (state r) (wrap m) = .ok (state (r.insert (sender m) b))) :
    (messages.map wrap).foldlM handle (state .empty) = .ok (state r) := by
  induction h with
  | nil => rfl
  | @snoc messages r m b earlier fresh accepts ih =>
    have hlast : [wrap m].foldlM handle (state r) = .ok (state (r.insert (sender m) b)) := by
      rw [List.foldlM_cons, handles r m b accepts]
      rfl
    rw [List.map_append, List.foldlM_append, ih]
    exact hlast

end Collects

end Collects

variable {c : Curve}

/-! ## The trails of a party -/

namespace Dealer

variable {d : Dealer c}

/-- What all parties have contributed to the first round, the party itself included. -/
def committed (d : Dealer c) (received : Roster (PeerCommit c)) : Roster (PeerCommit c) :=
  received.insert d.config.selfId d.ownCommit

/-- The commitments with which the first round ends: enough of them, at positions that form a
scheme. -/
structure Gathers (d : Dealer c) (commits : List CommitMessage)
    (received : Roster (PeerCommit c)) : Prop where
  collects : Collects (·.sender) d.acceptCommit commits received
  enough : d.peerCount ≤ commits.length
  valid : checkValid d.threshold ((d.committed received).map (·.position)).values = .ok ()

/-- **Where a trail gets**: into the first round, with nothing handed over, or into the second one,
when all shares have been. -/
inductive Reaches (d : Dealer c) :
    MessageType → Round c → ℕ → List KeygenMessage → List (PartyId × KeygenMessage) → Prop
  | commits {commits : List CommitMessage} {received : Roster (PeerCommit c)}
    (collects : Collects (·.sender) d.acceptCommit commits received) :
    Reaches d commitTag (.commits d received) commits.length (commits.map .commit) []
  | shares {commits : List CommitMessage} {received : Roster (PeerCommit c)}
    {shares : List ShareMessage} {got : Roster c.Scalar} (gathers : d.Gathers commits received)
    (collects : Collects (·.sender) (d.acceptShare (d.committed received)) shares got) :
    Reaches d shareTag (.shares d (d.committed received) got) shares.length
      (commits.map .commit ++ shares.map .share) (Round.dealt d received)

/-- **What closes on a trail**: the first round, which deals the shares, or the second one. -/
inductive Closes (d : Dealer c) : MessageType → List KeygenMessage →
    List (PartyId × KeygenMessage) → Closing (Round c) KeygenMessage (KeyShare c) → Prop
  | commits {commits : List CommitMessage} {received : Roster (PeerCommit c)}
    (gathers : d.Gathers commits received) :
    Closes d commitTag (commits.map .commit) []
      ⟨Round.dealt d received, .next (.shares d (d.committed received) .empty)⟩
  | shares {commits : List CommitMessage} {received : Roster (PeerCommit c)}
    {shares : List ShareMessage} {got : Roster c.Scalar} {k : KeyShare c}
    (gathers : d.Gathers commits received)
    (collects : Collects (·.sender) (d.acceptShare (d.committed received)) shares got)
    (enough : d.peerCount ≤ shares.length)
    (close : Round.closeShares d (d.committed received) got = .ok ⟨[], .done k⟩) :
    Closes d shareTag (commits.map .commit ++ shares.map .share) (Round.dealt d received)
      ⟨[], .done k⟩

namespace Reaches

variable {tag : MessageType} {round round' : Round c} {count : ℕ} {handled : List KeygenMessage}
  {handed : List (PartyId × KeygenMessage)} {m : KeygenMessage}

/-- A message that a round takes in is counted and kept. -/
theorem takes (h : d.Reaches tag round count handled handed)
    (takes : (Round.protocol c).Takes round m round') :
    d.Reaches tag round' (count + 1) (handled ++ [m]) handed := by
  have hhandles := Round.handle_eq_ok_iff.mp (mapError_eq_ok_iff.mp takes.handle)
  have hfresh : round.handled (Tagged.sender m) = false := takes.fresh
  cases hhandles with
  | @commit _ received m commit accepts =>
    cases h with
    | commits collects =>
      have hnot : m.sender ∉ received.ids := by
        rw [← Roster.contains_iff, Bool.not_eq_true]
        exact hfresh
      have hnext := Reaches.commits (collects.snoc hnot (acceptCommit_eq_ok_iff.mpr accepts))
      rwa [List.length_append, List.map_append] at hnext
  | @share _ _ got m share accepts =>
    cases h with
    | shares gathers collects =>
      have hnot : m.sender ∉ got.ids := by
        rw [← Roster.contains_iff, Bool.not_eq_true]
        exact hfresh
      have hnext := Reaches.shares gathers
        (collects.snoc hnot (acceptShare_eq_ok_iff.mpr accepts))
      rwa [List.length_append, List.map_append, ← List.append_assoc] at hnext

/-- A round with enough messages that can be closed. -/
theorem closes {closing : Closing (Round c) KeygenMessage (KeyShare c)}
    (h : d.Reaches tag round count handled handed)
    (enough : (Round.protocol c).quota round ≤ count)
    (close : (Round.protocol c).close round = .ok closing) :
    d.Closes tag handled handed closing := by
  have hclose : round.close = .ok closing := mapError_eq_ok_iff.mp close
  cases h with
  | commits collects =>
    obtain ⟨hvalid, rfl⟩ := Round.closeCommits_eq_ok_iff.mp hclose
    exact .commits ⟨collects, enough, hvalid⟩
  | shares gathers collects =>
    obtain ⟨share, key, points, -, -, rfl⟩ := Round.closeShares_eq_ok_iff.mp hclose
    exact .shares gathers collects enough hclose

end Reaches

/-- Only the first round leads to another one. -/
theorem Closes.next {tag : MessageType} {handled : List KeygenMessage}
    {handed outbox : List (PartyId × KeygenMessage)} {later : Round c}
    (h : d.Closes tag handled handed ⟨outbox, .next later⟩) :
    d.Reaches later.tag later 0 handled (handed ++ outbox) := by
  cases h with
  | commits gathers =>
    have hnext := Reaches.shares gathers .nil
    rwa [List.map_nil, List.append_nil] at hnext

/-- **Every trail** of a party gets into one of the two rounds. -/
theorem reaches_of_trail {tag : MessageType} {round : Round c} {count : ℕ}
    {handled : List KeygenMessage} {handed : List (PartyId × KeygenMessage)}
    (h : Trail (Round.protocol c) (.commits d .empty) tag round count handled handed) :
    d.Reaches tag round count handled handed := by
  induction h with
  | start => exact .commits .nil
  | takes trail takes short ih => exact ih.takes takes
  | next trail takes enough close ih => exact ((ih.takes takes).closes enough close).next

theorem closes_of_trail {tag : MessageType} {handled : List KeygenMessage}
    {handed : List (PartyId × KeygenMessage)}
    {closing : Closing (Round c) KeygenMessage (KeyShare c)}
    (h : Trail.Closes (Round.protocol c) (.commits d .empty) tag handled handed closing) :
    d.Closes tag handled handed closing := by
  cases h with
  | intro trail takes enough close =>
    exact ((reaches_of_trail trail).takes takes).closes enough close

/-! ## Parties that have been created -/

/-- A party has been created for a key generation or for a refresh. -/
inductive Created (d : Dealer c) (view : PeerView) : Prop
  | generated (entropy : Entropy)
    (party : Party.generate d.config view entropy = .ok (Party.ofDealer d view))
  | refreshed (previous : KeyShare c) (sessionId : SessionId) (entropy : Entropy)
    (party : Party.refresh previous sessionId view entropy = .ok (Party.ofDealer d view))

theorem eq_of_ofDealer_eq {d' : Dealer c} {view view' : PeerView}
    (h : Party.ofDealer d view = Party.ofDealer d' view') : d = d' := by
  have hconsumer := congrArg (fun p => p.engine.consumer) h
  simpa [Party.ofDealer, Engine.create] using hconsumer

theorem Created.fits {view : PeerView} (h : d.Created view) : d.Fits := by
  cases h with
  | generated entropy party =>
    obtain ⟨d', fits, -, -, heq⟩ := Party.exists_fits_of_generate party
    exact eq_of_ofDealer_eq heq ▸ fits
  | refreshed previous sessionId entropy party =>
    obtain ⟨d', fits, -, heq⟩ := Party.exists_fits_of_refresh party
    exact eq_of_ofDealer_eq heq ▸ fits

/-- The other configured parties. -/
def peers (d : Dealer c) : List PartyId :=
  d.config.partyIds.filter (· != d.config.selfId)

theorem mem_peers {id : PartyId} : id ∈ d.peers ↔ d.IsPeer id := by
  simp [peers, IsPeer, and_comm]

theorem Fits.length_peers (fits : d.Fits) : d.peers.length = d.peerCount := by
  obtain ⟨-, -, nodup, mem, -⟩ := KeygenConfig.validate_eq_ok_iff.mp fits.valid
  have hlength := length_filter_ne nodup mem
  have hcount := fits.peerCount
  rw [peers]
  omega

/-! ## The messages behind a key share -/

/-- The key share that the two rounds make of some messages by themselves. -/
def make (d : Dealer c) (commits : List CommitMessage) (shares : List ShareMessage) :
    Except Error (KeyShare c) := do
  let first ← (commits.map KeygenMessage.commit).foldlM Round.handle (Round.commits d .empty)
  let closing ← first.close
  match closing.transition with
  | .done k => pure k
  | .next second =>
    let second ← (shares.map KeygenMessage.share).foldlM Round.handle second
    let closing ← second.close
    match closing.transition with
    | .done k => pure k
    | .next _ => throw .notReady

theorem foldlM_handle_commits {commits : List CommitMessage} {received : Roster (PeerCommit c)}
    (h : Collects (·.sender) d.acceptCommit commits received) :
    (commits.map KeygenMessage.commit).foldlM Round.handle (Round.commits d .empty) =
      .ok (.commits d received) :=
  h.foldlM_eq (Round.commits d) fun r m commit haccept => by
    rw [Round.handle, haccept]
    rfl

theorem foldlM_handle_shares {committed : Roster (PeerCommit c)} {shares : List ShareMessage}
    {got : Roster c.Scalar} (h : Collects (·.sender) (d.acceptShare committed) shares got) :
    (shares.map KeygenMessage.share).foldlM Round.handle (Round.shares d committed .empty) =
      .ok (.shares d committed got) :=
  h.foldlM_eq (Round.shares d committed) fun r m share haccept => by
    rw [Round.handle, haccept]
    rfl

/-- **The messages of a session** that a party has heard: of each round one from each of the other
parties, for this session and this party, and each delivered by the sender that it names. -/
structure Hears (d : Dealer c) (delivered : List (Passed KeygenMessage))
    (commits : List CommitMessage) (shares : List ShareMessage) : Prop where
  commitSenders : (commits.map (·.sender)).Perm d.peers
  shareSenders : (shares.map (·.sender)).Perm d.peers
  commitSession : ∀ m ∈ commits, m.sessionId = d.config.sessionId
  shareSession : ∀ m ∈ shares, m.sessionId = d.config.sessionId
  addressed : ∀ m ∈ shares, m.receiver = d.config.selfId
  delivered : ∀ m ∈ commits.map KeygenMessage.commit ++ shares.map KeygenMessage.share,
    ⟨Tagged.sender m, m, .ok ()⟩ ∈ delivered

/-- A round has heard exactly its peers when it has enough messages. -/
theorem Fits.perm_peers (fits : d.Fits) {A B : Type} {sender : A → PartyId}
    {accept : A → Except Error B} {messages : List A} {r : Roster B}
    (collects : Collects sender accept messages r) (enough : d.peerCount ≤ messages.length)
    (peer : ∀ m b, accept m = .ok b → d.IsPeer (sender m)) :
    (messages.map sender).Perm d.peers := by
  refine collects.perm_of_length_le (fun m hm => ?_) (by rwa [fits.length_peers])
  obtain ⟨b, haccept⟩ := collects.exists_accepted hm
  exact mem_peers.mpr (peer m b haccept)

section Closed

variable {commits : List CommitMessage} {received : Roster (PeerCommit c)}
  {shares : List ShareMessage} {got : Roster c.Scalar} (gathers : d.Gathers commits received)
  (collects : Collects (·.sender) (d.acceptShare (d.committed received)) shares got)

include gathers collects

/-- A party whose second round is closed has heard its peers. -/
theorem Fits.hears (fits : d.Fits) (enough : d.peerCount ≤ shares.length)
    {delivered : List (Passed KeygenMessage)}
    (sourced : ∀ m ∈ commits.map KeygenMessage.commit ++ shares.map KeygenMessage.share,
      ⟨Tagged.sender m, m, .ok ()⟩ ∈ delivered) : d.Hears delivered commits shares := by
  constructor
  case commitSenders =>
    exact fits.perm_peers gathers.collects gathers.enough fun m commit haccept =>
      (acceptCommit_eq_ok_iff.mp haccept).peer
  case shareSenders =>
    exact fits.perm_peers collects enough fun m share haccept =>
      (acceptShare_eq_ok_iff.mp haccept).peer
  case commitSession =>
    intro m hm
    obtain ⟨commit, haccept⟩ := gathers.collects.exists_accepted hm
    exact (acceptCommit_eq_ok_iff.mp haccept).session
  case shareSession =>
    intro m hm
    obtain ⟨share, haccept⟩ := collects.exists_accepted hm
    exact (acceptShare_eq_ok_iff.mp haccept).session
  case addressed =>
    intro m hm
    obtain ⟨share, haccept⟩ := collects.exists_accepted hm
    exact (acceptShare_eq_ok_iff.mp haccept).receiver
  case delivered => exact sourced

/-- The rounds make the key share of the messages that they have heard. -/
theorem make_eq_ok {k : KeyShare c}
    (close : Round.closeShares d (d.committed received) got = .ok ⟨[], .done k⟩) :
    d.make commits shares = .ok k := by
  have hfirst : (Round.commits d received).close =
      .ok ⟨Round.dealt d received, .next (.shares d (d.committed received) .empty)⟩ :=
    Round.closeCommits_eq_ok_iff.mpr ⟨gathers.valid, rfl⟩
  have hsecond : (Round.shares d (d.committed received) got).close = .ok ⟨[], .done k⟩ := close
  simp only [make, foldlM_handle_commits gathers.collects, bind, Except.bind, hfirst,
    foldlM_handle_shares collects, hsecond]
  rfl

end Closed

/-- **The messages behind a key share**: whatever is delivered to a party and by whom, if it ends
with a key share then its rounds have been given one commitment from each of the other parties and
then one share from each of them and nothing else; each of these was delivered by the sender that
it names, taken in, and meant for this session, and the shares for this party; and the key share is
what the rounds make of these messages by themselves. -/
theorem authentic_of_play {view : PeerView} (created : d.Created view)
    (happenings : List (Happening KeygenMessage)) {k : KeyShare c}
    (done : ((Record.initial (Party.ofDealer d view).engine).play (Round.protocol c)
      happenings).engine.result = .ok k) :
    let record := (Record.initial (Party.ofDealer d view).engine).play (Round.protocol c) happenings
    ∃ commits shares, record.handled = commits.map KeygenMessage.commit ++
        shares.map KeygenMessage.share ∧
      d.Hears record.delivered commits shares ∧ d.make commits shares = .ok k := by
  intro record
  have follows : Record.Follows (Round.protocol c) (.commits d .empty) record :=
    Record.follows_of_play _ _ _ _ _ happenings
  have sourced : ∀ m ∈ record.handled, ⟨Tagged.sender m, m, .ok ()⟩ ∈ record.delivered :=
    fun m hm => Record.delivered_of_play rfl happenings hm
  have houtcome : record.engine.outcome = some (.ok k) := Engine.outcome_of_result_eq_ok done
  generalize record = r at follows sourced houtcome
  cases follows with
  | ongoing progress outcome => cases outcome.symm.trans houtcome
  | handing outcome => cases outcome.symm.trans houtcome
  | failed consumer outcome => cases outcome.symm.trans houtcome
  | refused consumer outcome => cases outcome.symm.trans houtcome
  | @done e delivered handed handled outbox before output consumer outcome closes taken split =>
    cases outcome.symm.trans houtcome
    have hcloses := closes_of_trail closes
    generalize e.tag = tag at hcloses
    -- The second round is the one that has been closed.
    cases hcloses with
    | @shares commits received shares got _ gathers collects enough close =>
      exact ⟨commits, shares, rfl, created.fits.hears gathers collects enough sourced,
        make_eq_ok gathers collects close⟩

/-- The first of two parties. The share of the second one comes in before its commitments; a third
party offers these as its own, and they come in twice. -/
def recordOfTwo : Record (Round .secp256k1) KeygenMessage (KeyShare .secp256k1) :=
  (Record.initial (Party.ofDealer firstOfTwo ⟨"a", ["b"]⟩).engine).play (Round.protocol .secp256k1)
    [.start, .deliver "b" (secondOfTwo.shareMessage "a" firstOfTwo.position),
      .deliver "c" secondOfTwo.commitMessage, .deliver "b" secondOfTwo.commitMessage,
      .deliver "b" secondOfTwo.commitMessage, .move, .answer (.ok ()), .move]

theorem authentic_of_play_secp256k1 :
    recordOfTwo.delivered.length = 4 ∧ ∃ k commits shares,
      recordOfTwo.handled =
        commits.map KeygenMessage.commit ++ shares.map KeygenMessage.share ∧
      (dealerOfTwo "a" none 5 7 8).Hears recordOfTwo.delivered commits shares ∧
      (dealerOfTwo "a" none 5 7 8).make commits shares = .ok k := by
  have hdone : recordOfTwo.engine.result.toOption.isSome = true := by decide +kernel
  exact ⟨by decide +kernel, _,
    authentic_of_play (.generated _ generate_dealerOfTwo) _ (eq_ok_get hdone)⟩

end Dealer

end RankedKeys
