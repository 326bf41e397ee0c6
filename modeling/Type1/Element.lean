import Type1.Geometry

/-!
# Elements of a glyph

A glyph is a sequence of elements: its width, the segments of its contours, its hints, and what a
program may leave to its reader, an accented character or a deprecated operator.

* `Element`: the elements, in the coordinates of the glyph.
* `Element.transform`: the element as a matrix maps it. Stem edges move along their own axis only,
  a width is scaled horizontally, and what is no position stays as it is.
-/

namespace Type1

/-- The two parts of an accented character, as codes of the standard encoding. -/
structure Components where
  /-- The code of the base character. -/
  base : UInt8
  /-- The code of the accent. -/
  accent : UInt8
deriving DecidableEq, Repr

/-- A cubic curve that starts at the current point. -/
structure Curve where
  /-- The first control point. -/
  first : Point
  /-- The second control point. -/
  second : Point
  /-- The end point. -/
  last : Point
deriving DecidableEq

/-- What is told about a stem apart from its edges. -/
structure StemKind where
  /-- The stem is vertical, so its edges are horizontal positions. -/
  vertical : Bool := false
  /-- The stem belongs to a counter group. -/
  counter : Bool := false
  /-- The stem is one of three that were given together. -/
  triple : Bool := false
  /-- The stem is the first of a new set of hints. -/
  newHints : Bool := false
  /-- The stem is the first of a counter group. -/
  newGroup : Bool := false
deriving DecidableEq, Repr

/-- The kind of a stem as a sum of powers of two. -/
def StemKind.bits (k : StemKind) : Nat :=
  k.vertical.toNat + 2 * k.counter.toNat + 4 * k.triple.toNat + 8 * k.newHints.toNat
    + 16 * k.newGroup.toNat

/-- An element of a glyph. -/
inductive Element where
  /-- The horizontal advance width. -/
  | width (advance : Number)
  /-- A new contour starts at a point. -/
  | moveTo (target : Point)
  /-- A line to a point. -/
  | lineTo (target : Point)
  /-- A curve. -/
  | curveTo (curve : Curve)
  /-- A stem between two edges. -/
  | stem (kind : StemKind) (near far : Number)
  /-- Two curves that are drawn as a line where they are flatter than the depth. -/
  | flex (depth : Number) (left right : Curve)
  /-- An accented character, its accent shifted against the base. -/
  | accented (shift : Point) (parts : Components)
  /-- An operator that draws nothing, by its two bytes. -/
  | operator (code : Nat) (operands : List Number)
deriving DecidableEq

/-- The two bytes of the operator `dotsection`. -/
def dotsectionCode : Nat := 3072

/-- The curve as a matrix maps it. -/
def Curve.transform (m : Matrix) (c : Curve) : Curve :=
  ⟨m.transform c.first, m.transform c.second, m.transform c.last⟩

/-- The edge of a stem as a matrix maps it. -/
def Matrix.transformEdge (m : Matrix) (vertical : Bool) (edge : Number) : Number :=
  if vertical then edge * m.sx + m.tx else edge * m.sy + m.ty

/-- The element as a matrix maps it. -/
def Element.transform (m : Matrix) : Element → Element
  | width advance => width (advance * m.sx)
  | moveTo p => moveTo (m.transform p)
  | lineTo p => lineTo (m.transform p)
  | curveTo c => curveTo (c.transform m)
  | stem kind near far =>
    stem kind (m.transformEdge kind.vertical near) (m.transformEdge kind.vertical far)
  | flex depth left right => flex depth (left.transform m) (right.transform m)
  | accented shift parts => accented shift parts
  | operator code operands => operator code operands

end Type1
