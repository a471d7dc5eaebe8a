import RankedKeys.Json.Record
import RankedKeys.Proofs.Answers
import RankedKeys.Proofs.Lists

/-!
# The fields of a record are read back

An object that lists the fields of a record under different names gives each of them its value, and
a number that is written from a machine word fits in it again. A record whose fields are all
required is read from nothing but these objects, with any other members, and the arrays of the
values of its fields.

## Main definitions

* `Json.HasFields names values v`: a value with the fields of a record

## Main results

* `Json.fields?_obj`: the fields of an object that lists them in the declared order
* `Json.fields?_required_iff`, `Json.record_eq_some_iff`: the values that a record with required
  fields is read from
* `Json.word32?_natural`, `Json.word64?_natural`, `Json.listOf?_array`: the values of fields
* `Json.text?_eq_some_iff`, `Json.word32?_eq_some_iff`, `Json.word64?_eq_some_iff`,
  `Json.byte?_eq_some_iff`, `Json.case?_eq_some_iff`, `Json.listOf?_eq_some_iff`,
  `Json.orNull?_eq_some_iff`: the one value that each field is read from
-/

namespace RankedKeys.Json

/-- A name that no other member has is given its own value alone. -/
theorem valuesOf_eq_singleton {members : List (String × Json)}
    (nodup : (members.map (·.1)).Nodup) {m : String × Json} (hm : m ∈ members) :
    valuesOf m.1 (members.map fun (name, v) => (some name, v)) = [m.2] := by
  rw [valuesOf, List.filter_map, List.map_map]
  simp only [Function.comp_def, Option.some_inj]
  rw [filter_eq_singleton nodup hm]
  rfl

/-- **The fields of a record** that an object lists in the declared order. -/
theorem fields?_obj {fs : List Field} {members : List (String × Json)}
    (names : fs.map (·.name) = members.map (·.1)) (nodup : (fs.map (·.name)).Nodup) :
    (obj members).fields? fs = some (members.map (·.2)) := by
  rw [names] at nodup
  have hnames : (members.map fun (name, v) => (some name, v)).all (·.1.isSome) = true := by
    rw [List.all_map, List.all_eq_true]
    exact fun _ _ => rfl
  rw [← List.forall₂_eq_eq_eq, List.forall₂_map_left_iff, List.forall₂_map_right_iff,
    List.forall₂_iff_zip] at names
  rw [obj, fields?, if_pos hnames, mapM_eq_some_iff, List.forall₂_map_right_iff,
    List.forall₂_iff_zip]
  refine ⟨names.1, fun {f m} hzip => ?_⟩
  rw [Field.ofMembers?, names.2 hzip, valuesOf_eq_singleton nodup (List.of_mem_zip hzip).2]

/-- **A value with the fields of a record**, all of them required: the array of their values in the
declared order, or an object that gives each name its value once, whatever its other members are. -/
inductive HasFields (names : List String) (values : List Json) : Json → Prop
  | items (length : values.length = names.length) : HasFields names values (.array values)
  | members {members : List (Option String × Json)}
    (texts : ∀ m ∈ members, m.1.isSome = true)
    (once : List.Forall₂ (fun name v => valuesOf name members = [v]) names values) :
    HasFields names values (.object members)

theorem ofItems?_required_iff {names : List String} {items values : List Json} :
    ofItems? (names.map required) items = some values ↔
      items = values ∧ values.length = names.length := by
  induction names generalizing items values with
  | nil =>
    cases items with
    | nil =>
      rw [List.map_nil, ofItems?, Option.some_inj]
      refine ⟨?_, And.left⟩
      rintro rfl
      exact ⟨rfl, rfl⟩
    | cons v items =>
      refine ⟨nofun, ?_⟩
      rintro ⟨rfl, hlength⟩
      cases hlength
  | cons name names ih =>
    cases items with
    | nil =>
      refine ⟨nofun, ?_⟩
      rintro ⟨rfl, hlength⟩
      cases hlength
    | cons v items =>
      simp only [List.map_cons, ofItems?, Option.bind_eq_bind, Option.bind_eq_some_iff, ih,
        Option.pure_def, Option.some_inj]
      constructor
      · rintro ⟨_, ⟨rfl, hlength⟩, rfl⟩
        exact ⟨rfl, congrArg (· + 1) hlength⟩
      · rintro ⟨rfl, hlength⟩
        exact ⟨items, ⟨rfl, Nat.succ.inj hlength⟩, rfl⟩

/-- The value of a field of an object is the only one of its name, or stands for an absent field. -/
theorem ofMembers?_eq_some_iff {f : Field} {members : List (Option String × Json)} {v : Json} :
    f.ofMembers? members = some v ↔
      valuesOf f.name members = [v] ∨ valuesOf f.name members = [] ∧ f.absent = some v := by
  rw [Field.ofMembers?]
  split
  · rename_i heq
    simp [heq]
  · rename_i w heq
    simp [heq]
  · rename_i hnone hone
    refine ⟨nofun, ?_⟩
    rintro (h | ⟨h, -⟩)
    · exact absurd h (hone v)
    · exact absurd h hnone

theorem ofMembers?_required_iff {name : String} {members : List (Option String × Json)} {v : Json} :
    (required name).ofMembers? members = some v ↔ valuesOf name members = [v] := by
  simp [ofMembers?_eq_some_iff, required]

/-- **What a record** with required fields is read from. -/
theorem fields?_required_iff {names : List String} {values : List Json} {v : Json} :
    v.fields? (names.map required) = some values ↔ HasFields names values v := by
  cases v with
  | array items =>
    rw [fields?, ofItems?_required_iff]
    constructor
    · rintro ⟨rfl, hlength⟩
      exact .items hlength
    · rintro ⟨hlength⟩
      exact ⟨rfl, hlength⟩
  | object members =>
    have htexts : members.all (·.1.isSome) = true ↔ ∀ m ∈ members, m.1.isSome = true :=
      List.all_eq_true
    rw [fields?]
    split
    · rename_i hall
      rw [mapM_eq_some_iff, List.forall₂_map_left_iff]
      simp only [ofMembers?_required_iff]
      refine ⟨.members (htexts.mp hall), ?_⟩
      rintro (_ | ⟨_, once⟩)
      exact once
    · rename_i hall
      refine ⟨nofun, ?_⟩
      rintro (_ | ⟨texts, _⟩)
      exact absurd (htexts.mpr texts) hall
  | null | bool _ | natural _ | decimal _ | string _ => exact ⟨nofun, nofun⟩

/-- **A record** whose required fields are each read from one value. -/
theorem record_eq_some_iff {α : Type} {names : List String} {ofValues : List Json → Option α}
    {toValues : α → List Json} (exact : ∀ values a, ofValues values = some a ↔ values = toValues a)
    {v : Json} {a : α} :
    v.fields? (names.map required) >>= ofValues = some a ↔ HasFields names (toValues a) v := by
  simp only [Option.bind_eq_bind, Option.bind_eq_some_iff, fields?_required_iff, exact,
    exists_eq_right]

/-- The object that lists the fields in the declared order, and nothing else. -/
theorem hasFields_obj {names : List String} {values : List Json} (nodup : names.Nodup)
    (length : values.length = names.length) :
    HasFields names values (obj (names.zip values)) := by
  have hnames : (names.zip values).map (·.1) = names :=
    List.map_fst_zip (Nat.le_of_eq length.symm)
  have hvalues : (names.zip values).map (·.2) = values :=
    List.map_snd_zip (Nat.le_of_eq length)
  have hrequired : (names.map required).map (·.name) = names := by
    rw [List.map_map]
    exact List.map_id names
  have hfields := fields?_obj (hrequired.trans hnames.symm) (hrequired.symm ▸ nodup)
  rw [hvalues] at hfields
  exact fields?_required_iff.mp hfields

/-! ## Values of fields -/

/-- **A list** whose items are read back is. -/
theorem listOf?_array {α : Type} {toJson : α → Json} {item? : Json → Option α}
    (h : ∀ a, item? (toJson a) = some a) (list : List α) :
    (array (list.map toJson)).listOf? item? = some list := by
  rw [listOf?, mapM_eq_some_iff, List.forall₂_map_left_iff, List.forall₂_same]
  exact fun a _ => h a

theorem text?_eq_some_iff {v : Json} {s : String} : v.text? = some s ↔ v = .str s := by
  cases v with
  | string t => exact ⟨fun h => congrArg string h, fun h => Json.string.inj h⟩
  | null | bool _ | natural _ | decimal _ | array _ | object _ => exact ⟨nofun, nofun⟩

theorem below?_eq_some_iff {bound n : ℕ} {v : Json} :
    v.below? bound = some n ↔ v = .natural n ∧ n < bound := by
  cases v with
  | natural k =>
    simp only [below?, Option.ite_none_right_eq_some, Option.some_inj, Json.natural.injEq]
    constructor
    · rintro ⟨hlt, rfl⟩
      exact ⟨rfl, hlt⟩
    · rintro ⟨rfl, hlt⟩
      exact ⟨hlt, rfl⟩
  | null | bool _ | decimal _ | string _ | array _ | object _ => exact ⟨nofun, nofun⟩

/-- **A number that is kept in a type of its own** is read from one value. -/
theorem map_below?_eq_some_iff {α : Type} {bound : ℕ} {ofNat : ℕ → α} {toNat : α → ℕ}
    (lt : ∀ a, toNat a < bound) (ofNat_toNat : ∀ a, ofNat (toNat a) = a)
    (toNat_ofNat : ∀ n, n < bound → toNat (ofNat n) = n) {v : Json} {a : α} :
    (v.below? bound).map ofNat = some a ↔ v = .natural (toNat a) := by
  simp only [Option.map_eq_some_iff, below?_eq_some_iff]
  constructor
  · rintro ⟨n, ⟨rfl, hlt⟩, rfl⟩
    rw [toNat_ofNat n hlt]
  · rintro rfl
    exact ⟨toNat a, ⟨rfl, lt a⟩, ofNat_toNat a⟩

theorem word32?_eq_some_iff {v : Json} {n : UInt32} :
    v.word32? = some n ↔ v = .natural n.toNat :=
  map_below?_eq_some_iff UInt32.toNat_lt_size (fun _ => UInt32.ofNat_toNat)
    fun _ => UInt32.toNat_ofNat_of_lt'

theorem word64?_eq_some_iff {v : Json} {n : UInt64} :
    v.word64? = some n ↔ v = .natural n.toNat :=
  map_below?_eq_some_iff UInt64.toNat_lt_size (fun _ => UInt64.ofNat_toNat)
    fun _ => UInt64.toNat_ofNat_of_lt'

theorem byte?_eq_some_iff {v : Json} {b : UInt8} : v.byte? = some b ↔ v = .natural b.toNat :=
  map_below?_eq_some_iff UInt8.toNat_lt_size (fun _ => UInt8.ofNat_toNat)
    fun _ => UInt8.toNat_ofNat_of_lt'

theorem word32?_natural (n : UInt32) : (natural n.toNat).word32? = some n :=
  word32?_eq_some_iff.mpr rfl

theorem word64?_natural (n : UInt64) : (natural n.toNat).word64? = some n :=
  word64?_eq_some_iff.mpr rfl

/-- A choice is an object with one member. -/
theorem case?_eq_some_iff {v content : Json} {name : String} :
    v.case? = some (name, content) ↔ v = .obj [(name, content)] := by
  constructor
  · intro h
    unfold case? at h
    split at h
    · cases h
      rfl
    · cases h
  · rintro rfl
    rfl

/-- **A list** is read from an array, item by item. -/
theorem listOf?_eq_some_iff_forall₂ {α : Type} {item? : Json → Option α} {v : Json}
    {list : List α} : v.listOf? item? = some list ↔
      ∃ items, v = .array items ∧ List.Forall₂ (fun w a => item? w = some a) items list := by
  cases v with
  | array items => simp only [listOf?, mapM_eq_some_iff, Json.array.injEq, exists_eq_left']
  | null | bool _ | natural _ | decimal _ | string _ | object _ => exact ⟨nofun, nofun⟩

/-- A list whose items are each read from one value is itself read from one value. -/
theorem listOf?_eq_some_iff {α : Type} {toJson : α → Json} {item? : Json → Option α}
    (h : ∀ {v a}, item? v = some a ↔ v = toJson a) {v : Json} {list : List α} :
    v.listOf? item? = some list ↔ v = .array (list.map toJson) := by
  have hitems : ∀ items, List.Forall₂ (fun w a => item? w = some a) items list ↔
      items = list.map toJson := by
    intro items
    rw [← List.forall₂_eq_eq_eq, List.forall₂_map_right_iff]
    simp only [h]
  simp only [listOf?_eq_some_iff_forall₂, hitems, exists_eq_right]

/-- **What may be absent** is read from `null` if it is. -/
theorem orNull?_eq_some_iff {α : Type} {toJson : α → Json} {value? : Json → Option α}
    (h : ∀ {v a}, value? v = some a ↔ v = toJson a) (present : ∀ a, toJson a ≠ .null) {v : Json}
    {o : Option α} : v.orNull? value? = some o ↔ v = (o.map toJson).getD .null := by
  have hsome : (value? v).map some = some o ↔ ∃ a, o = some a ∧ v = toJson a := by
    simp only [Option.map_eq_some_iff, h]
    exact exists_congr fun a => and_comm.trans (and_congr_left' eq_comm)
  cases o with
  | none =>
    cases v with
    | null => exact ⟨fun _ => rfl, fun _ => rfl⟩
    | bool _ | natural _ | decimal _ | string _ | array _ | object _ =>
      refine hsome.trans ⟨?_, nofun⟩
      rintro ⟨_, ⟨⟩, -⟩
  | some a =>
    cases v with
    | null => exact ⟨nofun, fun heq => absurd heq.symm (present a)⟩
    | bool _ | natural _ | decimal _ | string _ | array _ | object _ =>
      refine hsome.trans ⟨?_, fun heq => ⟨a, rfl, heq⟩⟩
      rintro ⟨_, ⟨⟩, heq⟩
      exact heq

end RankedKeys.Json
