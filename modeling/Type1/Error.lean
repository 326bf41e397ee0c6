/-!
# Errors

`Error` lists the causes for which a charstring cannot be deciphered or decoded; each is final for
the glyph. `Error.message` is its fixed wording.
-/

namespace Type1

/-- A cause for which a charstring cannot be deciphered or decoded. -/
inductive Error where
  /-- The source gave no bytes. -/
  | streamRead
  /-- The source has no such offset. -/
  | streamSeek
  /-- An operator found fewer operands than it takes. -/
  | stackUnderflow
  /-- An operand was pushed onto a full stack. -/
  | stackOverflow
  /-- A reserved byte or an unknown operator. -/
  | invalidOperator
  /-- An unknown selector of `callothersubr`. -/
  | invalidOtherSubr
  /-- A subroutine number outside of the font's table. -/
  | invalidSubr
  /-- A subroutine or component nested too deeply. -/
  | subrDepth
  /-- An index or a count that does not fit. -/
  | boundsCheck
  /-- The square root of a negative operand. -/
  | sqrtDomain
  /-- A flex that is not made of the points it needs. -/
  | badFlex
  /-- Counter hints that are too long or cut off. -/
  | badCounterControl
  /-- A component of an accented character that is no code, has no glyph, or is nested. -/
  | badSeac
  /-- A count of leading random bytes that is negative or longer than the data. -/
  | badLenIv
  /-- A number of masters that blending cannot work with. -/
  | invalidWeightVector
deriving DecidableEq, Repr

/-- The fixed wording of an error. -/
def Error.message : Error → String
  | streamRead => "source stream read error"
  | streamSeek => "source stream seek error"
  | stackUnderflow => "operand stack underflow"
  | stackOverflow => "operand stack overflow"
  | invalidOperator => "invalid charstring operator"
  | invalidOtherSubr => "invalid othersubr selector"
  | invalidSubr => "invalid subroutine index"
  | subrDepth => "subroutine nesting too deep"
  | boundsCheck => "index or count out of range"
  | sqrtDomain => "sqrt of negative operand"
  | badFlex => "malformed flex sequence"
  | badCounterControl => "malformed counter control hints"
  | badSeac => "bad seac component"
  | badLenIv => "invalid lenIV"
  | invalidWeightVector => "invalid weight vector"

end Type1
