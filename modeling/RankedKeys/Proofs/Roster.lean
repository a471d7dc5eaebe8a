import Mathlib.Data.List.Induction
import Mathlib.Data.List.Perm.Basic
import RankedKeys.Proofs.Lists
import RankedKeys.Proofs.Text.Order
import RankedKeys.Roster

/-!
# Rosters as finite maps

A roster is known by the values it has for the parties: the order of its entries and the order in
which it was filled do not matter.

## Main definitions

* `Roster.gather value ids`: the roster that lists `value id` for each of some parties

## Main results

* `Roster.find?_eq_some_iff`: a look-up finds exactly the entries
* `Roster.ext_find?`: rosters with the same values are equal
* `Roster.entries_insert_perm`: an insertion adds one entry
* `Roster.bytesPrecede_ids`, `Roster.eq_ids_of_bytesPrecede`: the parties are listed in the order of
  the bytes of their names
* `Roster.find?_ofList`, `Roster.find?_gather`: the values of a roster that is built from a list
* `Roster.ofList_eq_of_perm`: a roster is filled again by its entries, in whichever order
-/

namespace RankedKeys.Roster

variable {α β : Type}

open Text (BytesPrecede not_precedes_of_precedes precedes precedes_iff precedes_irrefl
  precedes_trans)

/-- In ascending order no name is listed twice. -/
theorem nodup_of_precedes {ids : List PartyId} (h : ids.Pairwise (precedes · ·)) : ids.Nodup := by
  refine h.imp fun {a b} hab => ?_
  rintro rfl
  rw [precedes_irrefl] at hab
  cases hab

theorem nodup_ids (r : Roster α) : r.ids.Nodup :=
  nodup_of_precedes r.sorted

/-- A look-up finds exactly the entries. -/
theorem find?_eq_some_iff {r : Roster α} {id : PartyId} {a : α} :
    r.find? id = some a ↔ (id, a) ∈ r.entries :=
  lookup_eq_some_iff_mem r.nodup_ids

theorem mem_ids_iff {r : Roster α} {id : PartyId} : id ∈ r.ids ↔ ∃ a, r.find? id = some a := by
  simp only [ids, List.mem_map, find?_eq_some_iff]
  constructor
  · rintro ⟨⟨id', a⟩, hmem, rfl⟩
    exact ⟨a, hmem⟩
  · rintro ⟨a, hmem⟩
    exact ⟨(id, a), hmem, rfl⟩

theorem find?_eq_none_iff {r : Roster α} {id : PartyId} : r.find? id = none ↔ id ∉ r.ids := by
  rw [mem_ids_iff, ← Option.isSome_iff_exists, Option.not_isSome_iff_eq_none]

theorem contains_iff {r : Roster α} {id : PartyId} : r.contains id = true ↔ id ∈ r.ids := by
  rw [contains, Option.isSome_iff_exists, mem_ids_iff]

@[simp] theorem find?_empty (id : PartyId) : (empty : Roster α).find? id = none := rfl

/-- An insertion lists one party more, or the same ones. -/
theorem mem_ids_insert {r : Roster α} {id id' : PartyId} {a : α} :
    id ∈ (r.insert id' a).ids ↔ id = id' ∨ id ∈ r.ids := by
  rw [mem_ids_iff, mem_ids_iff, find?_insert]
  by_cases h : id = id'
  · simp [h]
  · simp [h]

theorem length_ids (r : Roster α) : r.ids.length = r.size := List.length_map _

@[simp] theorem ids_map (f : α → β) (r : Roster α) : (r.map f).ids = r.ids := by
  simp [ids, map, Function.comp_def]

@[simp] theorem values_map (f : α → β) (r : Roster α) : (r.map f).values = r.values.map f := by
  simp [values, map, Function.comp_def]

/-- The values of a roster, party by party. -/
theorem map_values (r : Roster α) (f : α → β) (b : β) :
    r.values.map f = r.ids.map fun id => ((r.find? id).map f).getD b := by
  rw [values, ids, List.map_map, List.map_map]
  refine List.map_congr_left fun entry hentry => ?_
  rw [Function.comp_apply, Function.comp_apply, find?_eq_some_iff.mpr hentry]
  rfl

@[simp] theorem find?_map (f : α → β) (r : Roster α) (id : PartyId) :
    (r.map f).find? id = (r.find? id).map f := by
  cases h : r.find? id with
  | none => rwa [Option.map_none, find?_eq_none_iff, ids_map, ← find?_eq_none_iff]
  | some a =>
    rw [Option.map_some, find?_eq_some_iff]
    exact List.mem_map_of_mem (f := fun e : PartyId × α => (e.1, f e.2)) (find?_eq_some_iff.mp h)

/-- **Extensionality**: two rosters with the same values are equal. -/
@[ext] theorem ext_find? {r r' : Roster α} (h : ∀ id, r.find? id = r'.find? id) : r = r' := by
  -- The same entries, and both in the order of the names.
  have hperm : r.entries.Perm r'.entries := by
    refine (List.perm_ext_iff_of_nodup r.nodup_ids.of_map r'.nodup_ids.of_map).mpr ?_
    rintro ⟨id, a⟩
    rw [← find?_eq_some_iff, ← find?_eq_some_iff, h]
  have hentries : r.entries = r'.entries := by
    refine hperm.eq_of_pairwise ?_ (List.pairwise_map.mp r.sorted) (List.pairwise_map.mp r'.sorted)
    intro e e' _ _ hee he'e
    have := precedes_trans hee he'e
    rw [precedes_irrefl] at this
    cases this
  cases r
  cases r'
  cases hentries
  rfl

theorem map_insert (f : α → β) (r : Roster α) (id : PartyId) (a : α) :
    (r.insert id a).map f = (r.map f).insert id (f a) := by
  ext id' : 1
  rw [find?_map, find?_insert, find?_insert, find?_map, apply_ite (Option.map f), Option.map_some]

/-- **Insertion** adds one entry, if the party was not listed. -/
theorem entries_insert_perm {r : Roster α} {id : PartyId} (h : id ∉ r.ids) (a : α) :
    (r.insert id a).entries.Perm ((id, a) :: r.entries) := by
  refine (List.perm_ext_iff_of_nodup (r.insert id a).nodup_ids.of_map ?_).mpr ?_
  · refine List.nodup_cons.mpr ⟨fun hmem => h ?_, r.nodup_ids.of_map⟩
    exact mem_ids_iff.mpr ⟨a, find?_eq_some_iff.mpr hmem⟩
  · rintro ⟨x, b⟩
    rw [← find?_eq_some_iff, find?_insert, List.mem_cons, ← find?_eq_some_iff]
    by_cases hx : x = id
    · subst hx
      simp [find?_eq_none_iff.mpr h, eq_comm]
    · simp [hx]

theorem size_insert {r : Roster α} {id : PartyId} (h : id ∉ r.ids) (a : α) :
    (r.insert id a).size = r.size + 1 :=
  (entries_insert_perm h a).length_eq

/-- Parties that are all listed in a roster of no greater size are the parties of the roster. -/
theorem mem_ids_iff_of_subset {r : Roster α} {ids : List PartyId} (hsub : r.ids ⊆ ids)
    (hsize : ids.length ≤ r.size) {id : PartyId} : id ∈ r.ids ↔ id ∈ ids :=
  mem_iff_of_subset_of_length_le r.nodup_ids hsub (by rwa [length_ids])

/-- Rosters of the same parties have the same size. -/
theorem size_eq_of_mem_ids_iff {r : Roster α} {s : Roster β} (h : ∀ id, id ∈ r.ids ↔ id ∈ s.ids) :
    r.size = s.size := by
  rw [← r.length_ids, ← s.length_ids]
  exact ((List.perm_ext_iff_of_nodup r.nodup_ids s.nodup_ids).mpr h).length_eq

/-! ## The order of the parties -/

/-- The parties are listed in the order of the bytes of their names. -/
theorem bytesPrecede_ids (r : Roster α) : r.ids.Pairwise BytesPrecede :=
  r.sorted.imp precedes_iff.mp

/-- No other list of the parties is in this order. -/
theorem eq_ids_of_bytesPrecede {r : Roster α} {ids : List PartyId} (ascending : ids.Pairwise BytesPrecede)
    (h : ∀ id, id ∈ ids ↔ id ∈ r.ids) : ids = r.ids := by
  have hsorted : ids.Pairwise (precedes · ·) := ascending.imp precedes_iff.mpr
  have hperm := (List.perm_ext_iff_of_nodup (nodup_of_precedes hsorted) r.nodup_ids).mpr h
  exact hperm.eq_of_pairwise (fun _ _ _ _ hab hba => absurd hba (not_precedes_of_precedes hab))
    hsorted r.sorted

/-- The parties before an entry are those of smaller names. -/
theorem mem_before_iff {r : Roster α} {before after : List (PartyId × α)} {id id' : PartyId}
    {a : α} (h : r.entries = before ++ (id, a) :: after) :
    id' ∈ before.map (·.1) ↔ id' ∈ r.ids ∧ precedes id' id = true := by
  have hsorted := r.sorted
  rw [h, List.map_append, List.map_cons, List.pairwise_append, List.pairwise_cons] at hsorted
  obtain ⟨-, ⟨hafter, -⟩, hbefore⟩ := hsorted
  rw [ids, h, List.map_append, List.map_cons, List.mem_append, List.mem_cons]
  constructor
  · exact fun hmem => ⟨.inl hmem, hbefore id' hmem id List.mem_cons_self⟩
  · rintro ⟨hmem | rfl | hmem, hprecedes⟩
    · exact hmem
    · rw [precedes_irrefl] at hprecedes
      cases hprecedes
    · exact absurd hprecedes (not_precedes_of_precedes (hafter id' hmem))

/-! ## Rosters from lists -/

/-- The value of a party in a list of pairs with distinct names. -/
theorem find?_ofList {pairs : List (PartyId × α)} (h : (pairs.map (·.1)).Nodup) (id : PartyId) :
    (ofList pairs).find? id = pairs.lookup id := by
  -- What is inserted later hides what was there before.
  have walk : ∀ (pairs : List (PartyId × α)) (r : Roster α), (pairs.map (·.1)).Nodup →
      (pairs.foldl (fun r e => r.insert e.1 e.2) r).find? id =
        (pairs.lookup id).or (r.find? id) := by
    intro pairs
    induction pairs with
    | nil => exact fun r _ => rfl
    | cons e pairs ih =>
      rcases e with ⟨id', a⟩
      intro r h
      obtain ⟨hnot, h⟩ := List.nodup_cons.mp h
      rw [List.foldl_cons, ih _ h, find?_insert]
      by_cases hid : id = id'
      · subst hid
        have hnone : pairs.lookup id = none := by
          refine List.lookup_eq_none_iff.mpr fun e' he' => ?_
          have hne : id ≠ e'.1 := fun heq => hnot (List.mem_map.mpr ⟨e', he', heq.symm⟩)
          simpa using hne
        simp [hnone]
      · rw [if_neg hid, lookup_cons_ne hid]
  exact (walk pairs empty h).trans (by rw [find?_empty, Option.or_none])

/-- A roster is filled again by its entries, in whichever order. -/
theorem ofList_eq_of_perm {r : Roster α} {pairs : List (PartyId × α)} (h : pairs.Perm r.entries) :
    ofList pairs = r := by
  have hperm : (pairs.map (·.1)).Perm r.ids := h.map _
  have hids : (pairs.map (·.1)).Nodup := hperm.nodup_iff.mpr r.nodup_ids
  ext id a
  rw [find?_ofList hids, find?_eq_some_iff, lookup_eq_some_iff_mem hids, h.mem_iff]

section Gather

variable (value : PartyId → α)

/-- The roster that lists a value for each of some parties. -/
def gather (ids : List PartyId) : Roster α :=
  ids.foldl (fun r id => r.insert id (value id)) empty

@[simp] theorem gather_nil : gather value [] = empty := rfl

theorem gather_append_singleton (ids : List PartyId) (id : PartyId) :
    gather value (ids ++ [id]) = (gather value ids).insert id (value id) := by
  simp [gather]

@[simp] theorem find?_gather (ids : List PartyId) (id : PartyId) :
    (gather value ids).find? id = if id ∈ ids then some (value id) else none := by
  induction ids using List.reverseRecOn with
  | nil => rfl
  | append_singleton ids id' ih =>
    rw [gather_append_singleton, find?_insert, ih]
    by_cases h : id = id'
    · simp [h]
    · simp [h]

@[simp] theorem mem_ids_gather {ids : List PartyId} {id : PartyId} :
    id ∈ (gather value ids).ids ↔ id ∈ ids := by
  rw [mem_ids_iff, find?_gather]
  by_cases h : id ∈ ids
  · simp [h]
  · simp [h]

theorem entries_gather (ids : List PartyId) :
    (gather value ids).entries = (gather value ids).ids.map fun id => (id, value id) := by
  rw [Roster.ids, List.map_map]
  refine (List.map_id _).symm.trans (List.map_congr_left fun entry hentry => ?_)
  rcases entry with ⟨id, a⟩
  have hfind := find?_eq_some_iff.mpr hentry
  rw [find?_gather] at hfind
  split at hfind <;> cases hfind
  rfl

theorem gather_congr {ids ids' : List PartyId} (h : ∀ id, id ∈ ids ↔ id ∈ ids') :
    gather value ids = gather value ids' := by
  ext id : 1
  rw [find?_gather, find?_gather, if_congr (h id) rfl rfl]

theorem entries_gather_perm {ids : List PartyId} (h : ids.Nodup) :
    (gather value ids).entries.Perm (ids.map fun id => (id, value id)) := by
  induction ids using List.reverseRecOn with
  | nil => exact List.Perm.nil
  | append_singleton ids id ih =>
    have hnot : id ∉ (gather value ids).ids := by
      rw [mem_ids_gather]
      exact fun hmem => (List.nodup_append.mp h).2.2 id hmem id (List.mem_singleton_self id) rfl
    rw [gather_append_singleton, List.map_append]
    refine (entries_insert_perm hnot _).trans (List.Perm.trans ?_ (List.perm_append_comm))
    exact (ih (List.nodup_append.mp h).1).cons _

theorem values_gather_perm {ids : List PartyId} (h : ids.Nodup) :
    (gather value ids).values.Perm (ids.map value) := by
  have hperm := (entries_gather_perm value h).map Prod.snd
  rwa [List.map_map] at hperm

end Gather

end RankedKeys.Roster
