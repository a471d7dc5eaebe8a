import RankedKeys.Proofs.Answers
import RankedKeys.Proofs.Curve.Secp256k1
import RankedKeys.Proofs.Roster
import RankedKeys.Proofs.Text.Order
import RankedKeys.Recovery.Share

/-!
# Shares and positions are matched by name

Shares and positions come as two rosters. Matching them compares the sizes of the rosters and looks
up every share's party among the positions, but never the other way round. That is enough: no party
is listed twice, so as many positions as shares that have one are all the positions there are.

## Main definitions

* `RankedShare.Pairs shares positions ids peers`: peers that hold what is listed for some parties
* `RankedShare.PairFault shares positions e`: why two rosters do not match

## Main results

* `RankedShare.pair_eq_ok_iff`, `RankedShare.pair_eq_error_iff`: when matching succeeds, and with
  which error it fails
* `RankedShare.pair_exact`: matching is by name, whichever way the rosters were filled
-/

namespace RankedKeys

namespace RankedShare

variable {F : Type} {shares : Roster F} {positions : Roster (Parameter F)}

/-! ## One party -/

/-- The peer with a listed share, if there is a position for it. -/
def seek (positions : Roster (Parameter F)) (entry : PartyId × F) : Except Error (RankedShare F) :=
  match positions.find? entry.1 with
  | some position => .ok ⟨entry.2, position⟩
  | none => .error (.invalidConfig s!"No BK parameter for {entry.1}")

theorem pair_eq (shares : Roster F) (positions : Roster (Parameter F)) :
    pair shares positions =
      if shares.size ≠ positions.size then
        .error (.invalidConfig s!"{shares.size} shares for {positions.size} BK parameters")
      else shares.entries.mapM (seek positions) := rfl

theorem seek_eq_ok_iff {entry : PartyId × F} {peer : RankedShare F} :
    seek positions entry = .ok peer ↔
      entry.2 = peer.share ∧ positions.find? entry.1 = some peer.position := by
  rcases peer with ⟨share, position⟩
  rw [seek]
  cases positions.find? entry.1 with
  | none => simp
  | some position' => simp

theorem exists_seek_eq_ok_iff {entry : PartyId × F} :
    (∃ peer, seek positions entry = .ok peer) ↔ entry.1 ∈ positions.ids := by
  simp only [seek_eq_ok_iff, Roster.mem_ids_iff]
  exact ⟨fun ⟨peer, _, h⟩ => ⟨_, h⟩, fun ⟨position, h⟩ => ⟨⟨_, position⟩, rfl, h⟩⟩

theorem seek_eq_error_iff {entry : PartyId × F} {e : Error} : seek positions entry = .error e ↔
    entry.1 ∉ positions.ids ∧ e = .invalidConfig s!"No BK parameter for {entry.1}" := by
  rw [← Roster.find?_eq_none_iff, seek]
  cases positions.find? entry.1 with
  | none => simp [eq_comm]
  | some position => simp

/-! ## Matching succeeds -/

/-- Peers that hold what is listed for some parties, one for each of them, in the order of the bytes
of the names. -/
structure Pairs (shares : Roster F) (positions : Roster (Parameter F)) (ids : List PartyId)
    (peers : List (RankedShare F)) : Prop where
  ascending : ids.Pairwise Text.BytesPrecede
  listed : ∀ id, id ∈ ids ↔ id ∈ shares.ids
  held : List.Forall₂ (fun id peer => shares.find? id = some peer.share ∧
    positions.find? id = some peer.position) ids peers

/-- What is listed for the parties of the shares is what their entries say. -/
theorem forall₂_seek_iff {peers : List (RankedShare F)} :
    List.Forall₂ (fun entry peer => seek positions entry = .ok peer) shares.entries peers ↔
      List.Forall₂ (fun id peer => shares.find? id = some peer.share ∧
        positions.find? id = some peer.position) shares.ids peers := by
  rw [Roster.ids, List.forall₂_map_left_iff]
  refine forall₂_congr_of_mem fun entry hentry peer => ?_
  rw [seek_eq_ok_iff, Roster.find?_eq_some_iff.mpr hentry, Option.some_inj]

/-- Matching succeeds if the sizes are equal and every share finds a position. -/
theorem pair_eq_ok_iff_size {peers : List (RankedShare F)} :
    pair shares positions = .ok peers ↔ shares.size = positions.size ∧
      List.Forall₂ (fun id peer => shares.find? id = some peer.share ∧
        positions.find? id = some peer.position) shares.ids peers := by
  rw [pair_eq, ← forall₂_seek_iff, ← mapM_eq_ok_iff]
  by_cases hsize : shares.size = positions.size
  · simp [hsize]
  · simp [hsize]

/-- **As many positions** as shares that all have one are the positions of the same parties. -/
theorem mem_ids_iff_of_pair {peers : List (RankedShare F)}
    (h : pair shares positions = .ok peers) (id : PartyId) :
    id ∈ shares.ids ↔ id ∈ positions.ids := by
  obtain ⟨hsize, hheld⟩ := pair_eq_ok_iff_size.mp h
  have hsub : shares.ids ⊆ positions.ids := by
    intro id hid
    obtain ⟨peer, -, -, hposition⟩ := exists_mem_of_forall₂ hheld hid
    exact Roster.mem_ids_iff.mpr ⟨_, hposition⟩
  exact Roster.mem_ids_iff_of_subset hsub (Nat.le_of_eq (positions.length_ids.trans hsize.symm))

/-- **Matching succeeds** if shares and positions are listed for the same parties, with the one list
of peers that hold what is listed for them. -/
theorem pair_eq_ok_iff {peers : List (RankedShare F)} : pair shares positions = .ok peers ↔
    (∀ id, id ∈ shares.ids ↔ id ∈ positions.ids) ∧
      ∃ ids, Pairs shares positions ids peers := by
  constructor
  · intro h
    exact ⟨mem_ids_iff_of_pair h, shares.ids, shares.bytesPrecede_ids, fun _ => Iff.rfl,
      (pair_eq_ok_iff_size.mp h).2⟩
  · rintro ⟨hsame, ids, hpairs⟩
    obtain rfl := Roster.eq_ids_of_bytesPrecede hpairs.ascending hpairs.listed
    exact pair_eq_ok_iff_size.mpr ⟨Roster.size_eq_of_mem_ids_iff hsame, hpairs.held⟩

/-! ## Matching fails -/

/-- Why two rosters do not match: they differ in size, or a party with a share has no position. Of
such parties the one with the smallest name is reported. -/
inductive PairFault (shares : Roster F) (positions : Roster (Parameter F)) : Error → Prop
  | sizes (differ : shares.size ≠ positions.size) : PairFault shares positions
      (.invalidConfig s!"{shares.size} shares for {positions.size} BK parameters")
  | missing {id : PartyId} (same : shares.size = positions.size) (share : id ∈ shares.ids)
      (missing : id ∉ positions.ids)
      (least : ∀ id' ∈ shares.ids, Text.BytesPrecede id' id → id' ∈ positions.ids) :
      PairFault shares positions (.invalidConfig s!"No BK parameter for {id}")

/-- The first party without a position is the one with the smallest name. -/
theorem forall_before_seek_iff {before after : List (PartyId × F)} {id : PartyId} {share : F}
    (h : shares.entries = before ++ (id, share) :: after) :
    (∀ entry ∈ before, ∃ peer, seek positions entry = .ok peer) ↔
      ∀ id' ∈ shares.ids, Text.BytesPrecede id' id → id' ∈ positions.ids := by
  simp only [exists_seek_eq_ok_iff, ← Text.precedes_iff]
  have hnames : (∀ entry ∈ before, entry.1 ∈ positions.ids) ↔
      ∀ id' ∈ before.map (·.1), id' ∈ positions.ids := List.forall_mem_map.symm
  rw [hnames]
  simp only [Roster.mem_before_iff h, and_imp]

/-- **Matching fails** with the fault of the rosters. -/
theorem pair_eq_error_iff {e : Error} :
    pair shares positions = .error e ↔ PairFault shares positions e := by
  rw [pair_eq]
  by_cases hsize : shares.size = positions.size
  · rw [if_neg (not_not.mpr hsize), mapM_eq_error_iff]
    constructor
    · rintro ⟨before, ⟨id, share⟩, after, hentries, hbefore, hseek⟩
      obtain ⟨hmissing, rfl⟩ := seek_eq_error_iff.mp hseek
      have hshare : id ∈ shares.ids := by simp [Roster.ids, hentries]
      exact .missing hsize hshare hmissing ((forall_before_seek_iff hentries).mp hbefore)
    · rintro (differ | ⟨-, hshare, hmissing, hleast⟩)
      · exact absurd hsize differ
      · obtain ⟨⟨id, share⟩, hentry, rfl⟩ := List.mem_map.mp hshare
        obtain ⟨before, after, hentries⟩ := List.append_of_mem hentry
        exact ⟨before, _, after, hentries, (forall_before_seek_iff hentries).mpr hleast,
          seek_eq_error_iff.mpr ⟨hmissing, rfl⟩⟩
  · rw [if_pos hsize]
    constructor
    · intro h
      exact Except.error.inj h ▸ .sizes hsize
    · rintro (differ | ⟨same, -, -, -⟩)
      · rfl
      · exact absurd same hsize

/-- Matching fails only if the parties differ. -/
theorem PairFault.not_same {e : Error} (h : PairFault shares positions e) :
    ¬ ∀ id, id ∈ shares.ids ↔ id ∈ positions.ids := by
  intro hsame
  cases h with
  | sizes differ => exact differ (Roster.size_eq_of_mem_ids_iff hsame)
  | missing _ share missing _ => exact missing ((hsame _).mp share)

/-! ## Matching by name -/

/-- **Shares and positions are matched by name**: for every two rosters matching succeeds exactly if
they list the same parties, and gives one peer for each, in the order of the bytes of the names,
with the share and the position that are listed for this very party. Otherwise the error is about
the sizes if they differ, and else about the smallest party with a share and no position. The order
in which the rosters were filled does not matter. -/
theorem pair_exact (shares : Roster F) (positions : Roster (Parameter F)) :
    ((∃ peers, pair shares positions = .ok peers) ↔
      ∀ id, id ∈ shares.ids ↔ id ∈ positions.ids) ∧
    (∀ peers, pair shares positions = .ok peers ↔
      (∀ id, id ∈ shares.ids ↔ id ∈ positions.ids) ∧
        ∃ ids, Pairs shares positions ids peers) ∧
    (∀ e, pair shares positions = .error e ↔ PairFault shares positions e) ∧
    (∀ given placed, given.Perm shares.entries → placed.Perm positions.entries →
      pair (Roster.ofList given) (Roster.ofList placed) = pair shares positions) := by
  refine ⟨⟨fun ⟨peers, h⟩ => mem_ids_iff_of_pair h, fun hsame => ?_⟩, fun _ => pair_eq_ok_iff,
    fun _ => pair_eq_error_iff, fun given placed hgiven hplaced => ?_⟩
  · cases h : pair shares positions with
    | ok peers => exact ⟨peers, rfl⟩
    | error e => exact absurd hsame (pair_eq_error_iff.mp h).not_same
  · rw [Roster.ofList_eq_of_perm hgiven, Roster.ofList_eq_of_perm hplaced]

/-- Three shares that were listed in some order, with the positions of the same parties and with
those of one other. -/
theorem pair_exact_secp256k1 :
    let shares : Roster Curve.secp256k1.Scalar :=
      .ofList [("id-2", 300), ("id-0", 100), ("id-1", 200)]
    let positions : Roster (Parameter Curve.secp256k1.Scalar) :=
      .ofList [("id-0", ⟨1, 0⟩), ("id-2", ⟨3, 0⟩), ("id-1", ⟨2, 0⟩)]
    let astray : Roster (Parameter Curve.secp256k1.Scalar) :=
      .ofList [("id-0", ⟨1, 0⟩), ("id-9", ⟨9, 0⟩), ("id-2", ⟨3, 0⟩)]
    (∃ peers, pair shares positions = .ok peers) ∧
      pair shares astray = .error (.invalidConfig "No BK parameter for id-1") ∧
      pair (.ofList [("id-0", 100), ("id-1", 200), ("id-2", 300)])
        (.ofList [("id-2", ⟨3, 0⟩), ("id-1", ⟨2, 0⟩), ("id-0", ⟨1, 0⟩)]) =
          pair shares positions := by
  intro shares positions astray
  have hsame : shares.ids = positions.ids := by decide +kernel
  have hleast : ∀ id' ∈ shares.ids, Text.BytesPrecede id' "id-1" → id' ∈ astray.ids := by
    simp only [← Text.precedes_iff]
    decide +kernel
  have hfault : PairFault shares astray (.invalidConfig "No BK parameter for id-1") :=
    @PairFault.missing _ shares astray "id-1" (by decide +kernel) (by decide +kernel)
      (by decide +kernel) hleast
  exact ⟨(pair_exact shares positions).1.mpr fun id => by rw [hsame],
    ((pair_exact shares astray).2.2.1 _).mpr hfault,
    (pair_exact shares positions).2.2.2 _ _ (by decide +kernel) (by decide +kernel)⟩

end RankedShare

end RankedKeys
