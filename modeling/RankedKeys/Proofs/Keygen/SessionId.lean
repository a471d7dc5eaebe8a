import Mathlib.Data.List.Perm.Basic
import RankedKeys.Keygen.SessionId
import RankedKeys.Proofs.Curve.Encoding
import RankedKeys.Proofs.Files
import RankedKeys.Proofs.Text.Order

/-!
# What a session name binds

Every party stands in the digested text behind its length, so that no two lists of parties have the
same text. But the text says neither how many parties there are nor where the nonce begins: the last
parties of a session, framed as they are, may just as well be the beginning of the nonce of a session
without them. This is all that the text confuses. Sessions with equally many parties, or with nonces
of one length, are told apart.

## Main definitions

* `SessionId.Framable ids`: the lengths of all names fit into their frames
* `SessionId.Absorbs ids nonce ids' nonce'`: a nonce begins with parties that its session lacks

## Main results

* `SessionId.sortIds_eq_iff`: the order of the parties does not matter
* `SessionId.framed_append_eq_iff`: a framed name ends where its frame says
* `SessionId.preimage_eq_iff`: which sessions have the same text
* `SessionId.preimage_eq_of_absorbed`: two sessions with the same text
-/

namespace RankedKeys

theorem Bytes.ofText_injective {s t : String} (h : ofText s = ofText t) : s = t :=
  Option.some.inj ((toText?_ofText s).symm.trans (h ▸ toText?_ofText t))

theorem Bytes.length_ofText (s : String) : (ofText s).length = s.utf8ByteSize := by
  rw [ofText, toList_eq_toList_data]
  rfl

namespace SessionId

variable {ids ids' : List PartyId} {nonce nonce' : Bytes}

@[simp] theorem length_sortIds (ids : List PartyId) : (sortIds ids).length = ids.length :=
  (perm_sortBy ids).length_eq

/-- **Two lists** of parties are sorted into one if they list the same parties, equally often. -/
theorem sortIds_eq_iff : sortIds ids = sortIds ids' ↔ ids.Perm ids' := by
  constructor
  · intro h
    have hperm : (sortIds ids).Perm ids := perm_sortBy ids
    exact hperm.symm.trans (h ▸ perm_sortBy ids')
  · intro h
    have hperm : (sortIds ids).Perm (sortIds ids') :=
      (perm_sortBy ids).trans (h.trans (perm_sortBy ids').symm)
    exact hperm.eq_of_pairwise (fun _ _ _ _ => Text.atMost_antisymm)
      (pairwise_sortBy Text.atMost_trans Text.atMost_total ids)
      (pairwise_sortBy Text.atMost_trans Text.atMost_total ids')

/-! ## Frames -/

/-- The lengths of all names fit into eight bytes. -/
def Framable (ids : List PartyId) : Prop :=
  ∀ id ∈ ids, (Bytes.ofText id).length < Bytes.count 8

theorem Framable.sortIds (h : Framable ids) : Framable (sortIds ids) :=
  fun id hid => h id ((perm_sortBy ids).mem_iff.mp hid)

theorem length_framed (id : PartyId) : (framed id).length = 8 + (Bytes.ofText id).length := by
  simp [framed]

/-- **A framed name** ends where its frame says, whatever stands behind it. -/
theorem framed_append_eq_iff {id id' : PartyId} {rest rest' : Bytes}
    (h : (Bytes.ofText id).length < Bytes.count 8)
    (h' : (Bytes.ofText id').length < Bytes.count 8) :
    framed id ++ rest = framed id' ++ rest' ↔ id = id' ∧ rest = rest' := by
  constructor
  · intro heq
    simp only [framed, List.append_assoc] at heq
    obtain ⟨hframe, heq⟩ := List.append_inj heq (by simp)
    have hlength : (Bytes.ofText id).length = (Bytes.ofText id').length := by
      rw [← Bytes.toNat_ofNat h, hframe, Bytes.toNat_ofNat h']
    obtain ⟨htext, hrest⟩ := List.append_inj heq hlength
    exact ⟨Bytes.ofText_injective htext, hrest⟩
  · rintro ⟨rfl, rfl⟩
    rfl

theorem flatMap_framed_eq_nil_iff {list : List PartyId} : list.flatMap framed = [] ↔ list = [] := by
  cases list with
  | nil => simp
  | cons id list =>
    have hne : framed id ≠ [] := List.length_pos_iff.mp (by rw [length_framed]; omega)
    simp [hne]

/-- **Framed names** in front of a text: two lists of them have the same beginning, and what one of
them has more stands in the other text. -/
theorem flatMap_framed_append_eq_iff {list list' : List PartyId} (h : Framable list)
    (h' : Framable list') :
    list.flatMap framed ++ nonce = list'.flatMap framed ++ nonce' ↔
      (∃ more, list = list' ++ more ∧ nonce' = more.flatMap framed ++ nonce) ∨
        ∃ more, list' = list ++ more ∧ nonce = more.flatMap framed ++ nonce' := by
  constructor
  · intro heq
    induction list generalizing list' with
    -- The shorter list comes to its end first.
    | nil => exact .inr ⟨list', rfl, heq⟩
    | cons id list ih =>
      cases list' with
      | nil => exact .inl ⟨id :: list, rfl, heq.symm⟩
      | cons id' list' =>
        rw [List.flatMap_cons, List.flatMap_cons, List.append_assoc, List.append_assoc] at heq
        obtain ⟨rfl, hrest⟩ := (framed_append_eq_iff (h id List.mem_cons_self)
          (h' id' List.mem_cons_self)).mp heq
        refine (ih (fun x hx => h x (List.mem_cons_of_mem _ hx))
          (fun x hx => h' x (List.mem_cons_of_mem _ hx)) hrest).imp ?_ ?_
        all_goals
          rintro ⟨more, rfl, hnonce⟩
          exact ⟨more, rfl, hnonce⟩
  · rintro (⟨more, rfl, rfl⟩ | ⟨more, rfl, rfl⟩) <;>
      rw [List.flatMap_append, List.append_assoc]

/-! ## The digested text -/

/-- **A session is absorbed**: the nonce of the second session begins with parties that it lacks, and
that stand behind all of its own in the first session; the rest is the nonce of the first. -/
def Absorbs (ids : List PartyId) (nonce : Bytes) (ids' : List PartyId) (nonce' : Bytes) : Prop :=
  ∃ more ≠ [], sortIds ids = sortIds ids' ++ more ∧ nonce' = more.flatMap framed ++ nonce

/-- A session that is absorbed has more parties and a shorter nonce. -/
theorem Absorbs.length_lt (h : Absorbs ids nonce ids' nonce') :
    ids'.length < ids.length ∧ nonce.length < nonce'.length := by
  obtain ⟨more, hne, hids, rfl⟩ := h
  have hmore := List.length_pos_iff.mpr hne
  have hframed := List.length_pos_iff.mpr (mt flatMap_framed_eq_nil_iff.mp hne)
  have hlength := congrArg List.length hids
  rw [List.length_append, length_sortIds, length_sortIds] at hlength
  rw [List.length_append]
  omega

/-- **Which sessions have the same text**: those with the same parties and the same nonce, and those
of which one is absorbed by the other. If there are equally many parties in both, or if the nonces
are of one length, the text tells sessions apart, and two of them have the same name only if the
digests of different texts are equal. -/
theorem preimage_eq_iff (h : Framable ids) (h' : Framable ids') :
    (preimage ids nonce = preimage ids' nonce' ↔ (ids.Perm ids' ∧ nonce = nonce') ∨
      Absorbs ids nonce ids' nonce' ∨ Absorbs ids' nonce' ids nonce) ∧
    (ids.length = ids'.length ∨ nonce.length = nonce'.length →
      (preimage ids nonce = preimage ids' nonce' ↔ ids.Perm ids' ∧ nonce = nonce') ∧
      (derive ids nonce = derive ids' nonce' → (ids.Perm ids' ∧ nonce = nonce') ∨
        preimage ids nonce ≠ preimage ids' nonce' ∧
          Sha256.digest (preimage ids nonce) = Sha256.digest (preimage ids' nonce'))) := by
  have exact : preimage ids nonce = preimage ids' nonce' ↔ (ids.Perm ids' ∧ nonce = nonce') ∨
      Absorbs ids nonce ids' nonce' ∨ Absorbs ids' nonce' ids nonce := by
    rw [preimage, preimage, List.append_assoc, List.append_assoc, List.append_cancel_left_eq,
      flatMap_framed_append_eq_iff h.sortIds h'.sortIds]
    constructor
    · -- What one session has more is nothing, or it is absorbed.
      rintro (⟨more, hids, hnonce⟩ | ⟨more, hids, hnonce⟩)
      · rcases eq_or_ne more [] with rfl | hne
        · exact .inl ⟨sortIds_eq_iff.mp (hids.trans (List.append_nil _)), hnonce.symm⟩
        · exact .inr (.inl ⟨more, hne, hids, hnonce⟩)
      · rcases eq_or_ne more [] with rfl | hne
        · exact .inl ⟨(sortIds_eq_iff.mp (hids.trans (List.append_nil _))).symm, hnonce⟩
        · exact .inr (.inr ⟨more, hne, hids, hnonce⟩)
    · rintro (⟨hperm, rfl⟩ | ⟨more, -, hids, hnonce⟩ | ⟨more, -, hids, hnonce⟩)
      · exact .inl ⟨[], (sortIds_eq_iff.mpr hperm).trans (List.append_nil _).symm, rfl⟩
      · exact .inl ⟨more, hids, hnonce⟩
      · exact .inr ⟨more, hids, hnonce⟩
  refine ⟨exact, fun alike => ?_⟩
  have apart : preimage ids nonce = preimage ids' nonce' ↔ ids.Perm ids' ∧ nonce = nonce' := by
    refine exact.trans (or_iff_left ?_)
    rintro (absorbs | absorbs)
    all_goals
      have hlt := absorbs.length_lt
      omega
  refine ⟨apart, fun hderive => or_iff_not_imp_left.mpr fun hne => ⟨mt apart.mp hne, ?_⟩⟩
  exact congrArg SessionId.bytes hderive

/-- Three sessions of two parties with a nonce of one byte: the order of the names does not matter,
but where one ends and the next begins. -/
theorem preimage_eq_iff_oneByte :
    preimage ["a", "b"] [1] = preimage ["b", "a"] [1] ∧
      preimage ["a", "b"] [1] ≠ preimage ["ab", ""] [1] := by
  have framable : ∀ ids ∈ [["a", "b"], ["b", "a"], ["ab", ""]], Framable ids := by
    simp only [Framable, Bytes.length_ofText]
    decide
  have hab : Framable ["a", "b"] := framable _ (by decide)
  constructor
  · exact ((preimage_eq_iff hab (framable ["b", "a"] (by decide))).2 (.inl rfl)).1.mpr
      ⟨by decide, rfl⟩
  · intro heq
    have hsame := ((preimage_eq_iff hab (framable ["ab", ""] (by decide))).2 (.inl rfl)).1.mp heq
    exact absurd hsame.1 (by decide)

/-- **Two sessions with one text**, and so with one name: a third party, and a nonce that says the
same as its frame. -/
theorem preimage_eq_of_absorbed :
    preimage ["a", "b", "c"] [] = preimage ["a", "b"] [0, 0, 0, 0, 0, 0, 0, 1, 99] ∧
      derive ["a", "b", "c"] [] = derive ["a", "b"] [0, 0, 0, 0, 0, 0, 0, 1, 99] ∧
      ¬ ["a", "b", "c"].Perm ["a", "b"] := by
  have hframed : framed "c" = [0, 0, 0, 0, 0, 0, 0, 1, 99] := by
    have htext : Bytes.ofText "c" = [99] := by
      rw [Bytes.ofText, toList_eq_toList_data]
      rfl
    rw [framed, htext]
    rfl
  have hpreimage :
      preimage ["a", "b", "c"] [] = preimage ["a", "b"] [0, 0, 0, 0, 0, 0, 0, 1, 99] := by
    have hthree : sortIds ["a", "b", "c"] = ["a", "b"] ++ ["c"] := by decide
    have htwo : sortIds ["a", "b"] = ["a", "b"] := by decide
    rw [preimage, preimage, hthree, htwo, List.flatMap_append, List.flatMap_singleton, hframed,
      List.append_nil, List.append_assoc]
  refine ⟨hpreimage, ?_, by decide⟩
  rw [derive, derive]
  simp only [hpreimage]

end SessionId

end RankedKeys
