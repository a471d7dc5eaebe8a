/-!
# Blanks

The characters with the Unicode property White_Space, and the text between them.

## Main definitions

* `isBlank`: the 25 blank characters
* `trimBlanks`: a text without the blanks at its two ends
-/

namespace RankedKeys.Text

/-- The code points of the blank characters, as ranges with both ends included. -/
def blankRanges : List (Nat × Nat) :=
  [(0x9, 0xd), (0x20, 0x20), (0x85, 0x85), (0xa0, 0xa0), (0x1680, 0x1680), (0x2000, 0x200a),
   (0x2028, 0x2029), (0x202f, 0x202f), (0x205f, 0x205f), (0x3000, 0x3000)]

/-- The Unicode property White_Space. -/
def isBlank (c : Char) : Bool :=
  blankRanges.any fun (first, last) => first ≤ c.toNat && c.toNat ≤ last

/-- A text without the blanks at its two ends. -/
def trimBlanks (cs : List Char) : List Char :=
  ((cs.dropWhile isBlank).reverse.dropWhile isBlank).reverse

example : trimBlanks [' ', 'a', ' ', 'b', '\t', ' '] = ['a', ' ', 'b'] := by decide

end RankedKeys.Text
