import Type1.Element
import Type1.Error
import Type1.Operator
import Type1.Source

/-!
# The history of a decoding

A decoding leaves a list of events in the order in which they came about: the elements of the glyph,
and between them what was executed, remarked, read and looked up.

* `Event`: the events. An operator is listed with the operands that it found, before it checks them.
* `Note`, `Note.text`: remarks on programs that are wrong or unusual.
* `failureText`: the remark with which a failed decoding ends.
-/

namespace Type1

/-- A remark on a program that is wrong or unusual. -/
inductive Note where
  /-- A byte that no operator has. -/
  | reservedByte (byte : UInt8)
  /-- A second byte that no operator has. -/
  | unknownOperator (code : UInt8)
  /-- A selector that no other subroutine has. -/
  | unknownOtherSubr (selector : Int)
  /-- A flex that ends with a number of arguments and of collected coordinates. -/
  | malformedFlex (arguments coordinates : Nat)
  /-- A counter group that ends within a stem or before its last one. -/
  | cutOffGroup
  /-- A side bearing and width after the first. -/
  | repeatedWidth
  /-- An accented character within an accented character. -/
  | nestedAccent
deriving DecidableEq, Repr

/-- The wording of a remark. -/
def Note.text : Note → String
  | reservedByte byte => s!"reserved charstring operator {byte.toNat}"
  | unknownOperator code => s!"unknown escape operator {code.toNat}"
  | unknownOtherSubr selector => s!"unknown othersubr {selector}"
  | malformedFlex arguments coordinates =>
    s!"malformed flex with {arguments} arguments and {coordinates} coordinates"
  | cutOffGroup => "counter group is cut off"
  | repeatedWidth => "ignoring repeated side bearing and width"
  | nestedAccent => "nested seac"

/-- Something that came about during a decoding. -/
inductive Event where
  /-- The glyph got an element. -/
  | element (e : Element)
  /-- An operator began, with the operands on the stack. -/
  | began (op : Operator) (operands : List Number)
  /-- A remark was made. -/
  | noted (note : Note)
  /-- The source was called. -/
  | called (call : Source.Call)
  /-- The glyph of a character code was looked up. -/
  | lookedUp (code : UInt8) (offset : Option Nat)
  /-- The decoding of the charstring at an offset failed. -/
  | failed (offset : Nat) (error : Error)
deriving DecidableEq

/-- The element that an event adds to the glyph. -/
def Event.element? : Event → Option Element
  | element e => some e
  | _ => none

/-- The wording of a failure. -/
def failureText (offset : Nat) (error : Error) : String :=
  s!"failed to decode charstring at offset {offset}: " ++ error.message

end Type1
