/-!
# Numbers of a charstring

Every operand, coordinate and weight is a binary32 number, and every operation on one rounds once.

* `Number.truncate?`: the integer part of a number inside the signed 32-bit range.
* `Number.toIndex?`, `Number.toByte?`: an operand read as an index or as a character code.
* `Number.ofInt`: the nearest number to a 32-bit integer.
* `Number.floor`, `Number.round`: whole numbers from fractional coordinates.
* `Number.range?`: a start and a count that stay inside a store of a given capacity.

`truncate?` goes toward zero, so a number between -1 and 0 is read as the index 0.
-/

namespace Type1

/-- A binary32 number. -/
abbrev Number := Float32

namespace Number

/-- Two to the power 31, the first number past the signed 32-bit integers. -/
def wordLimit : Number := 2147483648

/-- Two to the power 23, from which on every number is whole. -/
def wholeLimit : Number := 8388608

/-- The integer part of a number from -2³¹ up to but excluding 2³¹; a number outside, and one that
is not a number at all, has none. -/
def truncate? (v : Number) : Option Int :=
  if -wordLimit ≤ v ∧ v < wordLimit then
    let magnitude : Int := v.abs.toUInt32.toNat
    some (if v < 0 then -magnitude else magnitude)
  else
    none

/-- The number as an index or a count: its integer part, unless that is negative. -/
def toIndex? (v : Number) : Option Nat :=
  match truncate? v with
  | some (.ofNat n) => some n
  | _ => none

/-- The number as a character code: its integer part, if that is at most 255. -/
def toByte? (v : Number) : Option UInt8 :=
  match toIndex? v with
  | some n => if n < 256 then some n.toUInt8 else none
  | none => none

/-- The number nearest to an integer of at most 32 bits, an even one if two are equally near. -/
def ofInt (n : Int) : Number :=
  let magnitude := n.natAbs.toUInt32.toFloat32
  if n < 0 then -magnitude else magnitude

/-- The truth value of a condition: 1 or 0. -/
def ofBool (b : Bool) : Number :=
  if b then 1 else 0

/-- The largest whole number that is not above `v`. A whole number is its own floor, sign of zero
included, and so are the infinities. -/
def floor (v : Number) : Number :=
  if v.abs < wholeLimit then
    let magnitude := v.abs.toUInt32.toFloat32
    if magnitude == v.abs then v
    else if v < 0 then -(magnitude + 1)
    else magnitude
  else
    v

/-- The nearest whole number, halves going up. The small excess takes a coordinate that
accumulated errors left just below a half to the upper neighbour as well. -/
def round (v : Number) : Number :=
  floor (v + 0.5 + 1e-5)

/-- The start and the count of a range, if both are indices and the range lies in
`0, …, capacity - 1`. -/
def range? (start count : Number) (capacity : Nat) : Option (Nat × Nat) :=
  match toIndex? start, toIndex? count with
  | some i, some n => if n ≤ capacity ∧ i + n ≤ capacity then some (i, n) else none
  | _, _ => none

end Number

end Type1
