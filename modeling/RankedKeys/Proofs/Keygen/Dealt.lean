import RankedKeys.Proofs.Birkhoff.Scheme
import RankedKeys.Proofs.Keygen.Origin

/-!
# What a party deals

Each value of a party's polynomial that leaves the party is a part of what it takes to know the
polynomial. Whatever its peers send, a party deals one share to each of them, at the position that
this peer has committed to, and it does so once: when the commitments of all peers have been
accepted and the positions of all parties, its own among them, form a scheme. No two of the shares
belong to one coordinate then, and none to the party's own coordinate or to zero.

## Main definitions

* `Dealer.letter`: the message that deals a share
* `Dealer.Dealing d record received`: how the dealing stands in a record

## Main results

* `Dealer.dealing_of_play`: what has been dealt in a recorded run
-/

namespace RankedKeys

variable {c : Curve}

namespace Dealer

variable {d : Dealer c}

section Letters

variable [Fact c.order.Prime]

/-- The message that deals the party at a position the derivative of the polynomial there. -/
noncomputable def letter (d : Dealer c) (id : PartyId) (position : Parameter c.Scalar) :
    PartyId × KeygenMessage :=
  (id, .share
    { sender := d.config.selfId
      receiver := id
      sessionId := d.config.sessionId
      share := Curve.scalarBytes (position.shareOf (polynomialOf d.polynomial)) })

/-- The letters that deal the shares, in the order of the names of the peers. -/
noncomputable def letters (d : Dealer c) (received : Roster (PeerCommit c)) :
    List (PartyId × KeygenMessage) :=
  received.entries.map fun e => d.letter e.1 e.2.position

theorem dealt_eq_letters (d : Dealer c) (received : Roster (PeerCommit c)) :
    Round.dealt d received = d.letters received := by
  simp only [Round.dealt, letters, letter, shareMessage, Parameter.evaluate_eq_shareOf]

/-! ## The commitments at the end of the first round -/

section Gathers

variable {commits : List CommitMessage} {received : Roster (PeerCommit c)}
  (gathers : d.Gathers commits received)

include gathers

omit [Fact c.order.Prime] in
/-- The commitments are those of all peers. -/
theorem Fits.mem_ids_iff (fits : d.Fits) {id : PartyId} : id ∈ received.ids ↔ d.IsPeer id := by
  have hperm := fits.perm_peers gathers.collects gathers.enough fun m commit haccept =>
    (acceptCommit_eq_ok_iff.mp haccept).peer
  rw [gathers.collects.mem_ids_iff, hperm.mem_iff, mem_peers]

/-- The coordinates of all parties are different: the check of the positions covers the party's own
one too. -/
theorem Fits.nodup_coordinates (fits : d.Fits) :
    (d.position.x :: received.values.map (·.position.x)).Nodup := by
  have hself : d.config.selfId ∉ received.ids := fun h => ((fits.mem_ids_iff gathers).mp h).1 rfl
  have hperm := (Roster.entries_insert_perm hself d.ownCommit).map fun e => e.2.position.x
  have hnodup := (checkValid_eq_ok_iff.mp gathers.valid).2.2.1
  rw [Roster.values_map, List.map_map, Roster.values, List.map_map] at hnodup
  rw [Roster.values, List.map_map]
  exact hperm.nodup_iff.mp hnodup

omit [Fact c.order.Prime] in
/-- Positions at the coordinate zero are not accepted. -/
theorem Gathers.coordinate_ne_zero {commit : PeerCommit c} (hcommit : commit ∈ received.values) :
    commit.position.x ≠ 0 := by
  obtain ⟨⟨id, _⟩, hmem, rfl⟩ := List.mem_map.mp hcommit
  obtain ⟨m, -, -, haccept⟩ :=
    gathers.collects.exists_of_find? (Roster.find?_eq_some_iff.mpr hmem)
  exact (acceptCommit_eq_ok_iff.mp haccept).coordinate_ne_zero

end Gathers

/-! ## The dealing -/

/-- **How the dealing stands** in a record, with what the peers have contributed to the first round:
the shares have been handed over up to some point, and in a round that is over short of the end
only if a peer has refused one. -/
structure Dealing (d : Dealer c) (record : Record (Round c) KeygenMessage (KeyShare c))
    (received : Roster (PeerCommit c)) : Prop where
  /-- The commitments of all peers have been accepted. -/
  parties : ∀ id, id ∈ received.ids ↔ d.IsPeer id
  accepted : ∀ id commit, received.find? id = some commit →
    ∃ m, KeygenMessage.commit m ∈ record.handled ∧ m.sender = id ∧ d.acceptCommit m = .ok commit
  valid : checkValid d.threshold ((d.committed received).map (·.position)).values = .ok ()
  dealt : record.handed.map Passed.letter <+: d.letters received
  complete : ∀ e, record.situation = .waiting e →
    record.handed.map Passed.letter = d.letters received ∧ Record.AllTaken record.handed ∨
      ∃ taken peer m error, record.handed = taken ++ [⟨peer, m, .error error⟩] ∧
        Record.AllTaken taken ∧ e.outcome = some (.error (.finalizeFailed error.message))
  distinct : (d.position.x :: received.values.map (·.position.x)).Nodup
  nonzero : ∀ commit ∈ received.values, commit.position.x ≠ 0

section Dealing

variable {commits : List CommitMessage} {received : Roster (PeerCommit c)}
  {delivered handed : List (Passed KeygenMessage)} {handled : List KeygenMessage}
  {situation : Engine.Situation (Round c) KeygenMessage (KeyShare c)}

/-- What has been dealt after the first round can be closed. -/
theorem Fits.dealing (fits : d.Fits) (gathers : d.Gathers commits received)
    (heard : ∀ m ∈ commits, KeygenMessage.commit m ∈ handled)
    (dealt : handed.map Passed.letter <+: d.letters received)
    (complete : ∀ e, situation = .waiting e →
      handed.map Passed.letter = d.letters received ∧ Record.AllTaken handed ∨
        ∃ taken peer m error, handed = taken ++ [⟨peer, m, .error error⟩] ∧
          Record.AllTaken taken ∧ e.outcome = some (.error (.finalizeFailed error.message))) :
    d.Dealing ⟨situation, delivered, handled, handed⟩ received := by
  constructor
  case parties => exact fun id => fits.mem_ids_iff gathers
  case accepted =>
    intro id commit hfind
    obtain ⟨m, hm, hsender, haccept⟩ := gathers.collects.exists_of_find? hfind
    exact ⟨m, heard m hm, hsender, haccept⟩
  case valid => exact gathers.valid
  case dealt => exact dealt
  case complete => exact complete
  case distinct => exact fits.nodup_coordinates gathers
  case nonzero => exact fun commit => gathers.coordinate_ne_zero

end Dealing

section Trails

variable {tag : MessageType} {round : Round c} {count : ℕ} {handled : List KeygenMessage}
  {handed : List (PartyId × KeygenMessage)}

/-- What rounds on a trail have left in their outboxes: nothing, or all the shares. -/
theorem Reaches.dealt (h : d.Reaches tag round count handled handed) :
    handed = [] ∧ tag = commitTag ∨ ∃ commits received, d.Gathers commits received ∧
      (∀ m ∈ commits, KeygenMessage.commit m ∈ handled) ∧ handed = d.letters received := by
  cases h with
  | commits collects => exact .inl ⟨rfl, rfl⟩
  | @shares commits received shares got gathers collects =>
    refine .inr ⟨commits, received, gathers, fun m hm => ?_, dealt_eq_letters d received⟩
    exact List.mem_append_left _ (List.mem_map_of_mem hm)

theorem Closes.dealt {closing : Closing (Round c) KeygenMessage (KeyShare c)}
    (h : d.Closes tag handled handed closing) :
    ∃ commits received, d.Gathers commits received ∧
      (∀ m ∈ commits, KeygenMessage.commit m ∈ handled) ∧
        handed ++ closing.outbox = d.letters received := by
  cases h with
  | @commits commits received gathers =>
    exact ⟨commits, received, gathers, fun m hm => List.mem_map_of_mem hm,
      dealt_eq_letters d received⟩
  | @shares commits received shares got k gathers collects enough close =>
    refine ⟨commits, received, gathers, fun m hm => ?_, ?_⟩
    · exact List.mem_append_left _ (List.mem_map_of_mem hm)
    · rw [List.append_nil, dealt_eq_letters]

end Trails

/-- A record that follows a trail of a party deals nothing in the first round, and the shares when
it is over. -/
theorem Fits.dealing_of_follows (fits : d.Fits)
    {record : Record (Round c) KeygenMessage (KeyShare c)}
    (follows : Record.Follows (Round.protocol c) (.commits d .empty) record) :
    record.handed = [] ∧ record.engine.tag = commitTag ∨
      ∃ received, d.Dealing record received := by
  cases follows with
  | ongoing progress outcome trail taken =>
    rcases (reaches_of_trail trail).dealt with ⟨hnil, htag⟩ | ⟨_, received, gathers, heard, hall⟩
    · exact .inl ⟨List.map_eq_nil_iff.mp hnil, htag⟩
    · exact .inr ⟨received, fits.dealing gathers heard (hall ▸ List.prefix_rfl)
        fun _ _ => .inl ⟨hall, taken⟩⟩
  | failed consumer outcome trail taken =>
    rcases (reaches_of_trail trail).dealt with ⟨hnil, htag⟩ | ⟨_, received, gathers, heard, hall⟩
    · exact .inl ⟨List.map_eq_nil_iff.mp hnil, htag⟩
    · exact .inr ⟨received, fits.dealing gathers (fun m hm => List.mem_append_left _ (heard m hm))
        (hall ▸ List.prefix_rfl) fun _ _ => .inl ⟨hall, taken⟩⟩
  | @handing e delivered handed handled outbox before later transition outcome closes taken split =>
    obtain ⟨_, received, gathers, heard, hall⟩ := (closes_of_trail closes).dealt
    exact .inr ⟨received, fits.dealing gathers heard ⟨later, split.trans hall⟩
      fun _ hwaiting => (nomatch hwaiting)⟩
  | done consumer outcome closes taken split =>
    obtain ⟨_, received, gathers, heard, hall⟩ := (closes_of_trail closes).dealt
    have hletters := split.trans hall
    exact .inr ⟨received, fits.dealing gathers heard (hletters ▸ List.prefix_rfl)
      fun _ _ => .inl ⟨hletters, taken⟩⟩
  | @refused e delivered handed handled outbox before later transition peer m error consumer outcome
      closes taken split =>
    obtain ⟨_, received, gathers, heard, hall⟩ := (closes_of_trail closes).dealt
    refine .inr ⟨received, fits.dealing gathers heard ⟨later, ?_⟩ ?_⟩
    · rw [List.map_append, List.append_assoc]
      exact split.trans hall
    -- The refusal that kept the rest back is the last answer, and it ended the run.
    · rintro _ ⟨⟩
      exact .inr ⟨handed, peer, m, error, rfl, taken, outcome⟩

/-- **What a party deals**, whatever is delivered to it and however its peers answer: its
announcement is no share, and either nothing has been handed over and the first round is not over,
or the commitments of all peers have been accepted, at positions that form a scheme with the
party's own. What has been handed over is then a prefix of the shares for these positions, in the
order of the names of the peers, and it stays a proper one only if a peer has refused a share and
the run has failed for that. The coordinates of the shares are different from each other, from the
party's own coordinate and from zero. -/
theorem dealing_of_play {view : PeerView} (created : d.Created view)
    (happenings : List (Happening KeygenMessage)) :
    let record := (Record.initial (Party.ofDealer d view).engine).play (Round.protocol c) happenings
    (∀ m, (Party.ofDealer d view).announcement ≠ KeygenMessage.share m) ∧
      (record.handed = [] ∧ record.engine.tag = commitTag ∨
        ∃ received, d.Dealing record received) :=
  ⟨fun _ h => (nomatch h),
    created.fits.dealing_of_follows (Record.follows_of_play _ _ _ _ _ happenings)⟩

end Letters

/-- The first of two parties deals the second one its share. -/
theorem dealing_of_play_secp256k1 :
    recordOfTwo.handed.length = 1 ∧
      ∃ received, (dealerOfTwo "a" none 5 7 8).Dealing recordOfTwo received := by
  have hlength : recordOfTwo.handed.length = 1 := by decide +kernel
  refine ⟨hlength, ?_⟩
  rcases (dealing_of_play (.generated _ generate_dealerOfTwo) _).2 with ⟨hnil, -⟩ | hdealing
  · rw [recordOfTwo, hnil] at hlength
    cases hlength
  · exact hdealing

end Dealer

end RankedKeys
