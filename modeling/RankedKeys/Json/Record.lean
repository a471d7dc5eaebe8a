import RankedKeys.Json.Reader

/-!
# Reading records

A record is written as an object with its fields in any order, or as the array of its fields in
their declared order. In an object, members with other names are skipped, a field that occurs
twice is refused, and a field that may be absent may be left out; in an array only such fields at
the end may be left out, and nothing may be added. A choice between named cases is an object with
one member.

## Main definitions

* `Json.Field`: a field by name, required or with a value that stands for it
* `Json.fields?`: the values of the fields of a record, in declared order
* `Json.natural?`, `Json.word32?`, `Json.word64?`, `Json.byte?`, `Json.text?`, `Json.listOf?`
* `Json.case?`: the name and the content of a choice
-/

namespace RankedKeys.Json

/-- A field of a record. -/
structure Field where
  name : String
  /-- What an absent field stands for; `none` if it is required. -/
  absent : Option Json

/-- A field that may not be absent. -/
def required (name : String) : Field := ⟨name, none⟩

/-- A field that may be left out. -/
def optional (name : String) (absent : Json) : Field := ⟨name, some absent⟩

/-- All values that an object gives to a name. -/
def valuesOf (name : String) (members : List (Option String × Json)) : List Json :=
  (members.filter (·.1 = some name)).map (·.2)

/-- The value of one field of an object; fails if the field occurs twice, or is required and
absent. -/
def Field.ofMembers? (f : Field) (members : List (Option String × Json)) : Option Json :=
  match valuesOf f.name members with
  | [] => f.absent
  | [v] => some v
  | _ => none

/-- The values of the fields of an array, in order. -/
def ofItems? : List Field → List Json → Option (List Json)
  | [], [] => some []
  | [], _ :: _ => none
  | f :: fs, [] => do
    let v ← f.absent
    let vs ← ofItems? fs []
    pure (v :: vs)
  | _ :: fs, v :: items => do
    let vs ← ofItems? fs items
    pure (v :: vs)

/-- The values of the fields of a record, in declared order. The names of an object's members must
stand for texts. -/
def fields? (fs : List Field) : Json → Option (List Json)
  | object members =>
    if members.all (·.1.isSome) then fs.mapM (·.ofMembers? members) else none
  | array items => ofItems? fs items
  | _ => none

/-- A number below a bound. -/
def below? (bound : Nat) : Json → Option Nat
  | natural n => if n < bound then some n else none
  | _ => none

/-- A number of 32 bits. -/
def word32? (v : Json) : Option UInt32 :=
  (v.below? UInt32.size).map UInt32.ofNat

/-- A number of 64 bits. -/
def word64? (v : Json) : Option UInt64 :=
  (v.below? UInt64.size).map UInt64.ofNat

/-- A number of eight bits. -/
def byte? (v : Json) : Option UInt8 :=
  (v.below? UInt8.size).map UInt8.ofNat

/-- A string that stands for a text. -/
def text? : Json → Option String
  | string s => s
  | _ => none

/-- An array whose items can all be read. -/
def listOf? {α : Type} (item? : Json → Option α) : Json → Option (List α)
  | array items => items.mapM item?
  | _ => none

/-- A value, or nothing for `null`. -/
def orNull? {α : Type} (value? : Json → Option α) : Json → Option (Option α)
  | null => some none
  | v => (value? v).map some

/-- The name and the content of a choice. -/
def case? : Json → Option (String × Json)
  | object [(some name, content)] => some (name, content)
  | _ => none

/-- The name of a choice without content: the name alone, or a choice whose content is `null`. -/
def name? : Json → Option String
  | string s => s
  | object [(some name, null)] => some name
  | _ => none

end RankedKeys.Json
