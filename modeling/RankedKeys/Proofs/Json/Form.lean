import RankedKeys.Proofs.Json.Record

/-!
# The forms of a record

A record may be written as an object, with its fields in any order and any members of other names
anywhere between them, or as the array of its values in the declared order. A field whose value
stands for an absent one may be left out, of an array only at the end. The reader takes a value for
a record just if it is one of its forms; an object that repeats a field is none.

## Main definitions

* `Json.Kept fs values members`: a choice of the fields to write
* `Json.Listed fs values items`: the values without some at the end that may be left out
* `Json.Form fs values v`: the forms of a record
* `Json.Repeats fs v`, `Json.Gives fs name w v`: an object that repeats a field, and a field of an
  object or an array

## Main results

* `Json.fields?_eq_some_iff`: a record is read from its forms
* `Json.fields?_of_repeats`: an object that repeats a field is refused
* `Json.Form.mem_zip_of_gives`: the fields of a form are given their values
-/

namespace RankedKeys.Json

/-- **A choice of the fields to write**: one whose value stands for an absent field may be left
out. -/
inductive Kept : List Field → List Json → List (String × Json) → Prop
  | nil : Kept [] [] []
  | keep {f : Field} {fs : List Field} {v : Json} {values : List Json}
    {members : List (String × Json)} (rest : Kept fs values members) :
    Kept (f :: fs) (v :: values) ((f.name, v) :: members)
  | leave {f : Field} {fs : List Field} {v : Json} {values : List Json}
    {members : List (String × Json)} (absent : f.absent = some v) (rest : Kept fs values members) :
    Kept (f :: fs) (v :: values) members

/-- **The items of an array**: the values in the declared order; at the end those that stand for
absent fields may be left out. -/
inductive Listed : List Field → List Json → List Json → Prop
  | nil : Listed [] [] []
  | item {f : Field} {fs : List Field} {v : Json} {values items : List Json}
    (rest : Listed fs values items) : Listed (f :: fs) (v :: values) (v :: items)
  | leave {f : Field} {fs : List Field} {v : Json} {values : List Json} (absent : f.absent = some v)
    (rest : Listed fs values []) : Listed (f :: fs) (v :: values) []

/-- **The forms of a record**: the array of its values, or an object with its fields and any other
members in any order. -/
inductive Form (fs : List Field) (values : List Json) : Json → Prop
  | array {items : List Json} (listed : Listed fs values items) : Form fs values (.array items)
  | object {members others : List (Option String × Json)} {kept : List (String × Json)}
    (fields : Kept fs values kept)
    (unknown : ∀ m ∈ others, ∃ name, m.1 = some name ∧ name ∉ fs.map (·.name))
    (order : members.Perm (kept.map (fun m => (some m.1, m.2)) ++ others)) :
    Form fs values (.object members)

/-! ## Arrays -/

theorem ofItems?_eq_some_iff {fs : List Field} {items values : List Json} :
    ofItems? fs items = some values ↔ Listed fs values items := by
  constructor
  · intro h
    fun_induction ofItems? fs items generalizing values with
    | case1 =>
      cases h
      exact .nil
    | case2 => cases h
    | case3 f fs ih =>
      simp only [Option.bind_eq_bind, Option.bind_eq_some_iff, Option.pure_def,
        Option.some_inj] at h
      obtain ⟨v, hv, later, hlater, rfl⟩ := h
      exact .leave hv (ih hlater)
    | case4 f fs v items ih =>
      simp only [Option.bind_eq_bind, Option.bind_eq_some_iff, Option.pure_def,
        Option.some_inj] at h
      obtain ⟨later, hlater, rfl⟩ := h
      exact .item (ih hlater)
  · intro h
    induction h with
    | nil => rfl
    | item rest ih => simp [ofItems?, ih]
    | leave absent rest ih => simp [ofItems?, absent, ih]

/-! ## Objects -/

section Members

variable {fs : List Field} {values : List Json} {members others : List (Option String × Json)}
  {kept : List (String × Json)} {name : String}

theorem valuesOf_append (name : String) (members others : List (Option String × Json)) :
    valuesOf name (members ++ others) = valuesOf name members ++ valuesOf name others := by
  simp [valuesOf]

theorem valuesOf_eq_nil_iff : valuesOf name members = [] ↔ ∀ m ∈ members, m.1 ≠ some name := by
  simp [valuesOf]

/-- Members of one name are told by their values. -/
theorem filter_eq_map_valuesOf (name : String) (members : List (Option String × Json)) :
    members.filter (·.1 = some name) = (valuesOf name members).map (some name, ·) := by
  induction members with
  | nil => rfl
  | cons m members ih =>
    rcases m with ⟨name', v⟩
    rw [valuesOf, List.filter_cons]
    by_cases h : name' = some name
    · rw [if_pos (decide_eq_true h), List.map_cons, List.map_cons, ← valuesOf, ← ih, h]
    · rw [if_neg (by simpa using h), ← valuesOf, ih]

/-- Members of other names do not matter to a name. -/
theorem valuesOf_filter_ne {name' : String} (h : name' ≠ name) :
    valuesOf name' (members.filter fun m => !(m.1 = some name)) = valuesOf name' members := by
  rw [valuesOf, valuesOf, List.filter_filter]
  congr 1
  refine List.filter_congr fun m _ => ?_
  by_cases hm : m.1 = some name'
  · simp [hm, h]
  · simp [hm]

/-- The order of members does not matter to what they give to a field. -/
theorem ofMembers?_perm {f : Field} {v : Json} (h : members.Perm others) :
    f.ofMembers? members = some v ↔ f.ofMembers? others = some v := by
  have hvalues : (valuesOf f.name members).Perm (valuesOf f.name others) := (h.filter _).map _
  rw [ofMembers?_eq_some_iff, ofMembers?_eq_some_iff]
  constructor
  · rintro (hone | ⟨hnone, habsent⟩)
    · exact .inl (List.perm_singleton.mp (hone ▸ hvalues.symm))
    · exact .inr ⟨List.perm_nil.mp (hnone ▸ hvalues.symm), habsent⟩
  · rintro (hone | ⟨hnone, habsent⟩)
    · exact .inl (List.perm_singleton.mp (hone ▸ hvalues))
    · exact .inr ⟨List.perm_nil.mp (hnone ▸ hvalues), habsent⟩

theorem Kept.mem_names (h : Kept fs values kept) {m : String × Json} (hm : m ∈ kept) :
    m.1 ∈ fs.map (·.name) := by
  induction h with
  | nil => exact absurd hm List.not_mem_nil
  | keep rest ih =>
    rcases List.mem_cons.mp hm with rfl | hm
    · exact List.mem_cons_self
    · exact List.mem_cons_of_mem _ (ih hm)
  | leave absent rest ih => exact List.mem_cons_of_mem _ (ih hm)

/-- **Every field** gets its value from the members that have been kept, or from its absence. -/
theorem Kept.forall₂_ofMembers? (h : Kept fs values kept) (nodup : (fs.map (·.name)).Nodup)
    (unknown : ∀ m ∈ others, ∀ name ∈ fs.map (·.name), m.1 ≠ some name) :
    List.Forall₂ (fun f v =>
      f.ofMembers? (others ++ kept.map fun m => (some m.1, m.2)) = some v) fs values := by
  -- A member that has been dealt with is unknown to the fields that are still to come.
  induction h generalizing others with
  | nil => exact .nil
  | @keep f fs v values kept rest ih =>
    rw [List.map_cons, List.nodup_cons] at nodup
    have hothers : valuesOf f.name others = [] :=
      valuesOf_eq_nil_iff.mpr fun m hm => unknown m hm f.name List.mem_cons_self
    have hkept : valuesOf f.name (kept.map fun m => (some m.1, m.2)) = [] := by
      rw [valuesOf_eq_nil_iff, List.forall_mem_map]
      intro m hm heq
      exact nodup.1 (Option.some.inj heq ▸ rest.mem_names hm)
    have hself : valuesOf f.name [(some f.name, v)] = [v] := by
      simp [valuesOf]
    rw [List.map_cons, ← List.singleton_append, ← List.append_assoc]
    refine .cons (ofMembers?_eq_some_iff.mpr (.inl ?_)) (ih nodup.2 ?_)
    · rw [valuesOf_append, valuesOf_append, hothers, hself, hkept]
      rfl
    · intro m hm name hname
      rcases List.mem_append.mp hm with hm | hm
      · exact unknown m hm name (List.mem_cons_of_mem _ hname)
      · rw [List.mem_singleton.mp hm]
        rintro ⟨⟩
        exact nodup.1 hname
  | @leave f fs v values kept absent rest ih =>
    rw [List.map_cons, List.nodup_cons] at nodup
    refine .cons (ofMembers?_eq_some_iff.mpr (.inr ⟨?_, absent⟩)) (ih nodup.2 ?_)
    · rw [valuesOf_eq_nil_iff, List.forall_mem_append, List.forall_mem_map]
      refine ⟨fun m hm => unknown m hm f.name List.mem_cons_self, fun m hm heq => ?_⟩
      exact nodup.1 (Option.some.inj heq ▸ rest.mem_names hm)
    · exact fun m hm name hname => unknown m hm name (List.mem_cons_of_mem _ hname)

/-- **Members that give every field its value** are the fields that have been kept and members of
other names, in some order. -/
theorem exists_kept (h : List.Forall₂ (fun f v => f.ofMembers? members = some v) fs values)
    (nodup : (fs.map (·.name)).Nodup) : ∃ kept others, Kept fs values kept ∧
      (∀ m ∈ others, m ∈ members ∧ ∀ name ∈ fs.map (·.name), m.1 ≠ some name) ∧
      members.Perm (kept.map (fun m => (some m.1, m.2)) ++ others) := by
  induction fs generalizing values members with
  | nil =>
    cases h
    refine ⟨[], members, .nil, fun m hm => ⟨hm, ?_⟩, .refl _⟩
    exact fun _ hname => absurd hname List.not_mem_nil
  | cons f fs ih =>
    rw [List.forall₂_cons_left_iff] at h
    obtain ⟨v, values, hv, hvalues, rfl⟩ := h
    rw [List.map_cons, List.nodup_cons] at nodup
    -- The members of the first name are taken out, and the others are dealt with by induction.
    have hrest : List.Forall₂ (fun g w =>
        g.ofMembers? (members.filter fun m => !(m.1 = some f.name)) = some w) fs values := by
      have hne : ∀ g ∈ fs, g.name ≠ f.name :=
        fun g hg heq => nodup.1 (heq ▸ List.mem_map_of_mem hg)
      refine ((List.forall₂_and_left _ _).mpr ⟨hne, hvalues⟩).imp ?_
      rintro g w ⟨hg, hw⟩
      rwa [ofMembers?_eq_some_iff, valuesOf_filter_ne hg, ← ofMembers?_eq_some_iff]
    obtain ⟨kept, others, hkept, hothers, hperm⟩ := ih hrest nodup.2
    have hunknown : ∀ m ∈ others, m ∈ members ∧
        ∀ name ∈ (f :: fs).map (·.name), m.1 ≠ some name := by
      intro m hm
      obtain ⟨hmem, hnames⟩ := hothers m hm
      obtain ⟨hmem, hname⟩ := List.mem_filter.mp hmem
      exact ⟨hmem, List.forall_mem_cons.mpr ⟨by simpa using hname, hnames⟩⟩
    have hsplit : members.Perm ((valuesOf f.name members).map (some f.name, ·) ++
        members.filter fun m => !(m.1 = some f.name)) := by
      rw [← filter_eq_map_valuesOf]
      exact (List.filter_append_perm _ members).symm
    rcases ofMembers?_eq_some_iff.mp hv with hone | ⟨hnone, habsent⟩
    · refine ⟨(f.name, v) :: kept, others, .keep hkept, hunknown, ?_⟩
      rw [hone] at hsplit
      exact hsplit.trans (hperm.cons _)
    · refine ⟨kept, others, .leave habsent hkept, hunknown, ?_⟩
      rw [hnone] at hsplit
      exact hsplit.trans hperm

end Members

/-- **A record is read** from its forms, and from nothing else. -/
theorem fields?_eq_some_iff {fs : List Field} {values : List Json} {v : Json}
    (nodup : (fs.map (·.name)).Nodup) : v.fields? fs = some values ↔ Form fs values v := by
  cases v with
  | array items =>
    rw [fields?, ofItems?_eq_some_iff]
    constructor
    · exact .array
    · rintro (listed | _)
      exact listed
  | object members =>
    rw [fields?, Option.ite_none_right_eq_some, mapM_eq_some_iff, List.all_eq_true]
    constructor
    · rintro ⟨htexts, hvalues⟩
      obtain ⟨kept, others, hkept, hothers, hperm⟩ := exists_kept hvalues nodup
      refine .object hkept (fun m hm => ?_) hperm
      obtain ⟨hmem, hnames⟩ := hothers m hm
      obtain ⟨name, hname⟩ := Option.isSome_iff_exists.mp (htexts m hmem)
      exact ⟨name, hname, fun hfield => hnames name hfield hname⟩
    · rintro (_ | ⟨fields, unknown, order⟩)
      constructor
      · intro m hm
        rcases List.mem_append.mp (order.mem_iff.mp hm) with hm | hm
        · obtain ⟨_, _, rfl⟩ := List.mem_map.mp hm
          rfl
        · obtain ⟨name, hname, -⟩ := unknown m hm
          rw [hname]
          rfl
      · refine (fields.forall₂_ofMembers? nodup fun m hm name hname heq => ?_).imp fun f v hv =>
          (ofMembers?_perm (order.trans List.perm_append_comm)).mpr hv
        obtain ⟨name', hname', hunknown⟩ := unknown m hm
        rw [heq] at hname'
        exact hunknown (Option.some.inj hname' ▸ hname)
  | null | bool _ | natural _ | decimal _ | string _ =>
    constructor
    · intro h
      cases h
    · intro h
      cases h

/-- A record is read from its forms, whatever is made of the values of its fields. -/
theorem fields?_bind_eq_some_iff {α : Type} (fs : List Field) (nodup : (fs.map (·.name)).Nodup)
    {ofValues : List Json → Option α} {a : α} (p : List Json → Prop)
    (exact : ∀ values, ofValues values = some a ↔ p values) {v : Json} :
    v.fields? fs >>= ofValues = some a ↔ ∃ values, p values ∧ Form fs values v := by
  simp only [Option.bind_eq_bind, Option.bind_eq_some_iff, exact, fields?_eq_some_iff nodup]
  exact exists_congr fun values => and_comm

/-! ## Repeated fields -/

/-- **An object that repeats a field** of a record. -/
inductive Repeats (fs : List Field) : Json → Prop
  | intro {members : List (Option String × Json)} {f : Field} (field : f ∈ fs)
    (twice : 2 ≤ members.countP (·.1 = some f.name)) : Repeats fs (.object members)

/-- **What a field is given** by a value that may be none of the record's forms: a member of its
name, or the item at its place. -/
inductive Gives (fs : List Field) (name : String) (w : Json) : Json → Prop
  | member {members : List (Option String × Json)} (mem : (some name, w) ∈ members) :
    Gives fs name w (.object members)
  | item {items : List Json} (mem : (name, w) ∈ (fs.map (·.name)).zip items) :
    Gives fs name w (.array items)

theorem le_length_valuesOf {name : String} {members : List (Option String × Json)} {n : ℕ}
    (h : n ≤ members.countP (·.1 = some name)) : n ≤ (valuesOf name members).length := by
  rwa [valuesOf, List.length_map, ← List.countP_eq_length_filter]

/-- **An object that repeats a field** is refused. -/
theorem fields?_of_repeats {fs : List Field} {v : Json} (h : Repeats fs v) :
    v.fields? fs = none := by
  rw [Option.eq_none_iff_forall_ne_some]
  intro values hread
  cases h with
  | @intro members f field twice =>
    have hlength := le_length_valuesOf twice
    rw [fields?, Option.ite_none_right_eq_some, mapM_eq_some_iff] at hread
    obtain ⟨v, -, hv⟩ := exists_mem_of_forall₂ hread.2 field
    rcases ofMembers?_eq_some_iff.mp hv with hone | ⟨hnone, -⟩
    · rw [hone, List.length_singleton] at hlength
      exact Nat.not_succ_le_self 1 hlength
    · rw [hnone, List.length_nil] at hlength
      exact Nat.not_succ_le_zero 1 hlength

theorem Listed.mem_zip {fs : List Field} {values items : List Json} {p : String × Json}
    (h : Listed fs values items) (hp : p ∈ (fs.map (·.name)).zip items) :
    p ∈ (fs.map (·.name)).zip values := by
  induction h with
  | nil => exact hp
  | item rest ih =>
    rw [List.map_cons, List.zip_cons_cons, List.mem_cons] at hp ⊢
    exact hp.imp_right ih
  | leave =>
    rw [List.zip_nil_right] at hp
    exact absurd hp List.not_mem_nil

theorem Form.not_repeats {fs : List Field} {values : List Json} {v : Json}
    (h : Form fs values v) (nodup : (fs.map (·.name)).Nodup) : ¬ Repeats fs v := by
  intro hrepeats
  have hread := (fields?_eq_some_iff nodup).mpr h
  rw [fields?_of_repeats hrepeats] at hread
  cases hread

/-- **What a field is given** by a form of a record is the value of the field. -/
theorem Form.mem_zip_of_gives {fs : List Field} {values : List Json} {v w : Json} {name : String}
    (h : Form fs values v) (nodup : (fs.map (·.name)).Nodup) (hname : name ∈ fs.map (·.name))
    (gives : Gives fs name w v) : (name, w) ∈ (fs.map (·.name)).zip values := by
  have hread := (fields?_eq_some_iff nodup).mpr h
  cases gives with
  | @member members mem =>
    rw [fields?, Option.ite_none_right_eq_some, mapM_eq_some_iff, List.forall₂_iff_zip] at hread
    obtain ⟨-, hlength, hvalues⟩ := hread
    obtain ⟨i, hi, hname⟩ := List.getElem_of_mem hname
    rw [List.length_map] at hi
    rw [List.getElem_map] at hname
    have hzip : (fs[i], values[i]) ∈ fs.zip values := by
      have hi' : i < (fs.zip values).length := by
        rwa [List.length_zip, ← hlength, Nat.min_self]
      rw [← List.getElem_zip (h := hi')]
      exact List.getElem_mem hi'
    have hw : w ∈ valuesOf fs[i].name members :=
      List.mem_map.mpr ⟨(some name, w), List.mem_filter.mpr ⟨mem, by simp [hname]⟩, rfl⟩
    rcases ofMembers?_eq_some_iff.mp (hvalues hzip) with hone | ⟨hnone, -⟩
    · rw [hone, List.mem_singleton] at hw
      rw [List.zip_map_left, hw, ← hname]
      exact List.mem_map.mpr ⟨_, hzip, rfl⟩
    · rw [hnone] at hw
      exact absurd hw List.not_mem_nil
  | item mem => exact (ofItems?_eq_some_iff.mp hread).mem_zip mem

end RankedKeys.Json
