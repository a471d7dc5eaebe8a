import RankedKeys.Bytes.Basic

/-!
# Texts as bytes

## Main definitions

* `Bytes.ofText`, `Bytes.toText?`: between texts and their UTF-8 bytes
-/

namespace RankedKeys.Bytes

/-- The UTF-8 bytes of a text. -/
def ofText (s : String) : Bytes :=
  s.toUTF8.toList

/-- The text that a byte string encodes in UTF-8. -/
def toText? (bytes : Bytes) : Option String :=
  String.fromUTF8? ⟨bytes.toArray⟩

end RankedKeys.Bytes
