/-!
# Operators

A charstring has operators of one byte and, after the byte 12, of two.

* `Operator`: the operators, of which the calculations on the operand stack are a type of their own,
  `Calculation`, because the other subroutines perform them as well.
* `Operator.ofByte?`, `Operator.ofEscape`: the operator of a byte. Every second byte has one, if
  only an unknown operator.
* `Operator.mnemonic`: the name under which a history lists an operator.
-/

namespace Type1

/-- The operators that calculate: they work on the operand stack and the storage alone. -/
inductive Calculation where
  | and | or | not
  | abs | add | sub | mul | div | neg | eq | sqrt
  | drop | dup | exch | index | roll
  | put | get | store | load
  | ifelse | random
deriving DecidableEq, Repr

/-- The second byte of a calculation. -/
def Calculation.code : Calculation → UInt8
  | and => 3
  | or => 4
  | not => 5
  | store => 8
  | abs => 9
  | add => 10
  | sub => 11
  | div => 12
  | load => 13
  | neg => 14
  | eq => 15
  | drop => 18
  | put => 20
  | get => 21
  | ifelse => 22
  | random => 23
  | mul => 24
  | sqrt => 26
  | dup => 27
  | exch => 28
  | index => 29
  | roll => 30

/-- The number of operands without which a calculation underflows. -/
def Calculation.arity : Calculation → Nat
  | random => 0
  | not | abs | neg | sqrt | drop | dup | get => 1
  | and | or | eq | add | sub | mul | div | exch | index | roll | put => 2
  | load => 3
  | ifelse | store => 4

/-- The operators of a charstring. -/
inductive Operator where
  /-- A horizontal stem hint. -/
  | hstem
  /-- A vertical stem hint. -/
  | vstem
  /-- A vertical move. -/
  | vmoveto
  /-- A line. -/
  | rlineto
  /-- A horizontal line. -/
  | hlineto
  /-- A vertical line. -/
  | vlineto
  /-- A curve. -/
  | rrcurveto
  /-- Closes the contour. -/
  | closepath
  /-- Executes a subroutine of the font. -/
  | callsubr
  /-- Goes back to the caller. -/
  | returnToCaller
  /-- Left side bearing and width. -/
  | hsbw
  /-- Ends the glyph. -/
  | endchar
  /-- Blends the values of the masters. -/
  | blend
  /-- A move. -/
  | rmoveto
  /-- A horizontal move. -/
  | hmoveto
  /-- A curve that starts vertically and ends horizontally. -/
  | vhcurveto
  /-- A curve that starts horizontally and ends vertically. -/
  | hvcurveto
  /-- Brackets the dot of an `i` for the hints. -/
  | dotsection
  /-- Three vertical stem hints. -/
  | vstem3
  /-- Three horizontal stem hints. -/
  | hstem3
  /-- An accented character of two other glyphs. -/
  | seac
  /-- Left side bearing point and width. -/
  | sbw
  /-- Performs one of the other subroutines. -/
  | callothersubr
  /-- Fetches a result of an other subroutine. -/
  | pop
  /-- Sets the current point. -/
  | setcurrentpoint
  /-- A calculation. -/
  | calculate (op : Calculation)
  /-- A second byte that stands for no operator. -/
  | unknown (code : UInt8)
deriving DecidableEq, Repr

namespace Operator

/-- The operator of one byte, if the byte stands for one on its own. -/
def ofByte? : UInt8 → Option Operator
  | 1 => some hstem
  | 3 => some vstem
  | 4 => some vmoveto
  | 5 => some rlineto
  | 6 => some hlineto
  | 7 => some vlineto
  | 8 => some rrcurveto
  | 9 => some closepath
  | 10 => some callsubr
  | 11 => some returnToCaller
  | 13 => some hsbw
  | 14 => some endchar
  | 16 => some blend
  | 21 => some rmoveto
  | 22 => some hmoveto
  | 30 => some vhcurveto
  | 31 => some hvcurveto
  | _ => none

/-- The operator of the byte after the escape byte. -/
def ofEscape : UInt8 → Operator
  | 0 => dotsection
  | 1 => vstem3
  | 2 => hstem3
  | 3 => calculate .and
  | 4 => calculate .or
  | 5 => calculate .not
  | 6 => seac
  | 7 => sbw
  | 8 => calculate .store
  | 9 => calculate .abs
  | 10 => calculate .add
  | 11 => calculate .sub
  | 12 => calculate .div
  | 13 => calculate .load
  | 14 => calculate .neg
  | 15 => calculate .eq
  | 16 => callothersubr
  | 17 => pop
  | 18 => calculate .drop
  | 20 => calculate .put
  | 21 => calculate .get
  | 22 => calculate .ifelse
  | 23 => calculate .random
  | 24 => calculate .mul
  | 26 => calculate .sqrt
  | 27 => calculate .dup
  | 28 => calculate .exch
  | 29 => calculate .index
  | 30 => calculate .roll
  | 33 => setcurrentpoint
  | code => unknown code

/-- The name of an operator. Those that calculate, and the unknown ones, go by their second byte. -/
def mnemonic : Operator → String
  | hstem => "HSTEM"
  | vstem => "VSTEM"
  | vmoveto => "VMOVETO"
  | rlineto => "RLINETO"
  | hlineto => "HLINETO"
  | vlineto => "VLINETO"
  | rrcurveto => "RRCURVETO"
  | closepath => "CLOSEPATH"
  | callsubr => "CALLSUBR"
  | returnToCaller => "RETURN"
  | hsbw => "HSBW"
  | endchar => "ENDCHAR"
  | blend => "BLEND"
  | rmoveto => "RMOVETO"
  | hmoveto => "HMOVETO"
  | vhcurveto => "VHCURVETO"
  | hvcurveto => "HVCURVETO"
  | dotsection => "DOTSECTION"
  | vstem3 => "VSTEM3"
  | hstem3 => "HSTEM3"
  | seac => "SEAC"
  | sbw => "SBW"
  | callothersubr => "CALLOTHERSUBR"
  | pop => "POP"
  | setcurrentpoint => "SETCURRENTPOINT"
  | calculate op => s!"ESCAPE {op.code.toNat}"
  | unknown code => s!"ESCAPE {code.toNat}"

end Operator

end Type1
