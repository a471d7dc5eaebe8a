import RankedKeys.Basic
import RankedKeys.Text.Order

/-!
# Rosters

A roster keeps one value per party and lists the parties in the order of their names, however it
was filled. Two rosters with the same contents are the same list.

## Main definitions

* `Roster`: values by party, sorted by name
* `Roster.insert`, `Roster.find?`, `Roster.map`, `Roster.ofList`

## Main results

* `Roster.find?_insert`: an insertion changes the value of the inserted name alone
-/

namespace RankedKeys

/-- Values by party, in strictly ascending order of the names. -/
structure Roster (α : Type) where
  entries : List (PartyId × α)
  sorted : (entries.map (·.1)).Pairwise (Text.precedes · ·)
  deriving DecidableEq

open Text (precedes precedes_trans precedes_total)

namespace Roster

variable {α β : Type}

/-- Nobody is listed. -/
def empty : Roster α := ⟨[], List.Pairwise.nil⟩

/-- Puts a value in front of the first entry with a greater name, or in place of the entry with
the same name. -/
def insertEntry (id : PartyId) (a : α) : List (PartyId × α) → List (PartyId × α)
  | [] => [(id, a)]
  | (id', a') :: rest =>
    if precedes id id' then (id, a) :: (id', a') :: rest
    else if id = id' then (id, a) :: rest
    else (id', a') :: insertEntry id a rest

/-- Insertion adds no name but the one inserted. -/
theorem mem_ids_insertEntry {id : PartyId} {a : α} {entries : List (PartyId × α)} {x : PartyId}
    (h : x ∈ (insertEntry id a entries).map (·.1)) : x = id ∨ x ∈ entries.map (·.1) := by
  induction entries with
  | nil => simpa [insertEntry] using h
  | cons e rest ih =>
    obtain ⟨id', a'⟩ := e
    unfold insertEntry at h
    split at h
    · simpa using h
    · split at h
      · simp only [List.map_cons, List.mem_cons] at h ⊢
        grind
      · simp only [List.map_cons, List.mem_cons] at h ⊢
        rcases h with h | h
        · exact .inr (.inl h)
        · rcases ih h with h | h
          · exact .inl h
          · exact .inr (.inr h)

/-- Insertion keeps the order. -/
theorem sorted_insertEntry (id : PartyId) (a : α) {entries : List (PartyId × α)}
    (h : (entries.map (·.1)).Pairwise (precedes · ·)) :
    ((insertEntry id a entries).map (·.1)).Pairwise (precedes · ·) := by
  induction entries with
  | nil => simp [insertEntry]
  | cons e rest ih =>
    obtain ⟨id', a'⟩ := e
    simp only [List.map_cons, List.pairwise_cons] at h
    obtain ⟨least, tail⟩ := h
    unfold insertEntry
    split
    · rename_i before
      simp only [List.map_cons, List.pairwise_cons, List.mem_cons]
      refine ⟨fun x hx => ?_, least, tail⟩
      rcases hx with rfl | hx
      · exact before
      · exact precedes_trans before (least x hx)
    · rename_i notBefore
      split
      · rename_i same
        subst same
        simpa using ⟨fun x b hb => least x (List.mem_map.2 ⟨(x, b), hb, rfl⟩), tail⟩
      · rename_i differ
        simp only [List.map_cons, List.pairwise_cons]
        refine ⟨fun x hx => ?_, ih tail⟩
        rcases mem_ids_insertEntry hx with rfl | hx
        · rcases precedes_total x id' with h | h | h
          · exact absurd h notBefore
          · exact absurd h differ
          · exact h
        · exact least x hx

theorem lookup_cons_ne {x id : PartyId} (h : x ≠ id) (a : α) (entries : List (PartyId × α)) :
    ((id, a) :: entries).lookup x = entries.lookup x := by
  have differ : (x == id) = false := by simpa using h
  simp [List.lookup_cons, differ]

/-- Insertion changes the value of the inserted name alone. -/
theorem lookup_insertEntry (id : PartyId) (a : α) (entries : List (PartyId × α)) (x : PartyId) :
    (insertEntry id a entries).lookup x = if x = id then some a else entries.lookup x := by
  induction entries with
  | nil =>
    by_cases h : x = id
    · simp [insertEntry, h]
    · simp [insertEntry, lookup_cons_ne h, h]
  | cons e rest ih =>
    obtain ⟨id', a'⟩ := e
    unfold insertEntry
    split
    · by_cases h : x = id
      · simp [h]
      · simp [lookup_cons_ne h, h]
    · split
      · rename_i same
        subst same
        by_cases h : x = id
        · simp [h]
        · simp [lookup_cons_ne h, h]
      · rename_i differ
        by_cases h : x = id'
        · subst h
          simp [Ne.symm differ]
        · simp [lookup_cons_ne h, ih]

/-- Lists a party, in place of what was listed for it before. -/
def insert (r : Roster α) (id : PartyId) (a : α) : Roster α :=
  ⟨insertEntry id a r.entries, sorted_insertEntry id a r.sorted⟩

/-- The value of a party. -/
def find? (r : Roster α) (id : PartyId) : Option α :=
  r.entries.lookup id

@[simp]
theorem find?_insert (r : Roster α) (id : PartyId) (a : α) (x : PartyId) :
    (r.insert id a).find? x = if x = id then some a else r.find? x :=
  lookup_insertEntry id a r.entries x

/-- Whether a party is listed. -/
def contains (r : Roster α) (id : PartyId) : Bool :=
  (r.find? id).isSome

/-- The listed parties, in order. -/
def ids (r : Roster α) : List PartyId :=
  r.entries.map (·.1)

/-- The values, in the order of the parties. -/
def values (r : Roster α) : List α :=
  r.entries.map (·.2)

/-- The number of listed parties. -/
def size (r : Roster α) : Nat :=
  r.entries.length

/-- The same parties with other values. -/
def map (f : α → β) (r : Roster α) : Roster β :=
  ⟨r.entries.map fun e => (e.1, f e.2), by
    have : (fun e : PartyId × α => (e.1, f e.2).1) = (·.1) := rfl
    simpa [List.map_map, Function.comp_def] using r.sorted⟩

/-- Lists all pairs; of two with one name the later counts. -/
def ofList (pairs : List (PartyId × α)) : Roster α :=
  pairs.foldl (fun r (id, a) => r.insert id a) empty

end Roster

end RankedKeys
