import Type1.Number

/-!
# Points and matrices

* `Point`: a position or a displacement, added coordinate by coordinate.
* `Matrix`: an affine map, given by the six entries that a font file lists.
* `Matrix.isIdentity`: compares numbers, not bits, so a negative zero counts as zero.
-/

namespace Type1

/-- A position in the plane of the glyph, or a displacement. -/
structure Point where
  /-- Horizontal coordinate. -/
  x : Number
  /-- Vertical coordinate. -/
  y : Number
deriving DecidableEq, Inhabited

namespace Point

/-- The origin. -/
def zero : Point := ⟨0, 0⟩

instance : Add Point := ⟨fun p q => ⟨p.x + q.x, p.y + q.y⟩⟩

/-- The point with a function applied to both coordinates. -/
def map (f : Number → Number) (p : Point) : Point := ⟨f p.x, f p.y⟩

/-- The point with both coordinates rounded to whole numbers. -/
def round (p : Point) : Point := p.map Number.round

end Point

/-- An affine map of the plane. The fields stand in the order in which a font file lists them. -/
structure Matrix where
  /-- What a unit of `x` adds to `x`. -/
  sx : Number := 1
  /-- What a unit of `x` adds to `y`. -/
  ky : Number := 0
  /-- What a unit of `y` adds to `x`. -/
  kx : Number := 0
  /-- What a unit of `y` adds to `y`. -/
  sy : Number := 1
  /-- The horizontal translation. -/
  tx : Number := 0
  /-- The vertical translation. -/
  ty : Number := 0
deriving DecidableEq, Inhabited

namespace Matrix

/-- The matrix that maps every point to itself. -/
def identity : Matrix := {}

/-- Whether all entries equal those of the identity as numbers. -/
def isIdentity (m : Matrix) : Bool :=
  m.sx == 1 && m.ky == 0 && m.kx == 0 && m.sy == 1 && m.tx == 0 && m.ty == 0

/-- The image of a point. Both products are added before the translation. -/
def transform (m : Matrix) (p : Point) : Point :=
  ⟨m.sx * p.x + m.kx * p.y + m.tx, m.ky * p.x + m.sy * p.y + m.ty⟩

end Matrix

end Type1
