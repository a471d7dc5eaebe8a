/-!
# Control sequences

A terminal does not show every character of a text. Controls ring its bell or move its cursor, and
an escape character opens a sequence of characters that set its colours, its title, and so on. The
plain form of a text is what such a terminal leaves to read; a file gets the plain form.

## Main definitions

* `Sequence`: the kind of sequence that is open
* `terminates`: whether a character ends a message
* `plain`: a text without its controls and sequences

## Main results

* `terminates_of_lt`: no basic character ends a message
* `plain_append_of_printable`: printable text in front of a text is kept
-/

namespace RankedKeys.Text

/-- The kind of sequence that is open. -/
inductive Sequence where
  | outside
  /-- After the escape character. -/
  | escape
  /-- After an escape character and a mark, up to a character from `0` on. -/
  | marked
  /-- After `ESC [`, up to a character from `@` on. -/
  | parameters
  /-- After `ESC ]`, up to a bell. -/
  | command
  /-- After `ESC P`. -/
  | device
  /-- Among the numbers after `ESC P`. -/
  | deviceNumbers
  /-- After a mark behind `ESC P` and its numbers. -/
  | deviceMarked
  /-- After the opening of a message, which is `ESC P` with its numbers and marks and a character
  from `@` on, or an escape character with one of `X`, `^` and `_`, up to the terminator. -/
  | message
  deriving DecidableEq

/-- Tabs, and the ends of lines and pages. -/
def isLayout (c : Char) : Bool :=
  c == '\t' || c == '\n' || c == '\x0c' || c == '\r'

/-- Everything but the controls and the delete character. -/
def isPrintable (c : Char) : Bool :=
  0x20 ≤ c.toNat && c.toNat ≠ 0x7f

/-- The byte that ends a message. -/
def terminator : UInt8 := 0x9c

/-- Whether a character ends a message. A terminal reads bytes, so the terminator counts wherever it
stands in a character. -/
def terminates (c : Char) : Bool :=
  (String.utf8EncodeChar c).contains terminator

/-- No basic character ends a message. -/
theorem terminates_of_lt {c : Char} (h : c.toNat < 0x80) : terminates c = false := by
  have small : c.toNat ≤ 0x7f := Nat.le_of_lt_succ h
  have ne : terminator ≠ UInt8.ofNat c.toNat := by
    intro e
    have := congrArg UInt8.toNat e
    simp [terminator] at this
    omega
  simp [terminates, String.utf8EncodeChar, small, ne]

namespace Sequence

/-- Whether a character shows. Inside some sequences the characters of the layout show. -/
def shows (s : Sequence) (c : Char) : Bool :=
  match s with
  | outside => isPrintable c || isLayout c
  | escape | marked | parameters => isLayout c
  | command | device | deviceNumbers | deviceMarked | message => false

/-- The sequence that is open after a character. -/
def after (s : Sequence) (c : Char) : Sequence :=
  if c = '\x1b' then escape
  else if c = '\x18' ∨ c = '\x1a' then outside
  else if c = '\x07' ∧ s = command then outside
  else if terminates c ∧ s = message then outside
  else if c.toNat < 0x20 ∨ 0x7f ≤ c.toNat then s
  else
    match s with
    | outside => outside
    | escape =>
      if c.toNat < '0'.toNat then marked
      else if c = '[' then parameters
      else if c = ']' then command
      else if c = 'P' then device
      else if c = 'X' ∨ c = '^' ∨ c = '_' then message
      else outside
    | marked => if c.toNat < '0'.toNat then marked else outside
    | parameters => if c.toNat < '@'.toNat then parameters else outside
    | command => command
    | device =>
      if c.toNat < '0'.toNat then deviceMarked
      else if c.toNat < '@'.toNat then deviceNumbers
      else message
    | deviceNumbers =>
      if c.toNat < '0'.toNat then deviceMarked
      else if c.toNat < '<'.toNat then deviceNumbers
      else message
    | deviceMarked => if c.toNat < '0'.toNat then deviceMarked else message
    | message => message

end Sequence

/-- What shows of a text. Where layout has interrupted a sequence, the text behind it shows as well,
until the next control goes on with the sequence; a character beyond the basic ones ends it. -/
def plainFrom (s : Sequence) (interrupted : Bool) : List Char → List Char
  | [] => []
  | c :: rest =>
    if (if interrupted then Sequence.outside else s).shows c then
      c :: plainFrom (if c.toNat < 0x80 then s else .outside) true rest
    else plainFrom (s.after c) false rest

/-- A text without its controls and sequences. -/
def plain (text : String) : String :=
  String.ofList (plainFrom .outside false text.toList)

/-- Where no sequence is open, none is interrupted. -/
theorem plainFrom_outside (text : List Char) :
    plainFrom .outside true text = plainFrom .outside false text := by
  cases text <;> simp [plainFrom]

theorem plainFrom_append_of_printable {front : List Char}
    (h : ∀ c ∈ front, isPrintable c = true) (rest : List Char) :
    plainFrom .outside false (front ++ rest) = front ++ plainFrom .outside false rest := by
  induction front with
  | nil => rfl
  | cons c front ih =>
    have shown : Sequence.outside.shows c = true := by
      simp [Sequence.shows, h c List.mem_cons_self]
    have ih := ih fun d hd => h d (List.mem_cons_of_mem c hd)
    simp [plainFrom, shown, plainFrom_outside, ih]

/-- Printable text in front of a text is kept. -/
theorem plain_append_of_printable {front : String}
    (h : ∀ c ∈ front.toList, isPrintable c = true) (rest : String) :
    plain (front ++ rest) = front ++ plain rest := by
  simp [plain, plainFrom_append_of_printable h, String.ofList_append]

end RankedKeys.Text
