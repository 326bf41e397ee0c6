import Type1.Geometry

/-!
# Fonts and settings

* `Font`: what a charstring needs to know of its font.
* `Settings`: how a charstring is to be decoded.
* `Capabilities`: the elements that a receiver takes.
* `Setup`: what the decoding itself depends on. Of the matrix it knows only whether there is one,
  and of the receiver only whether accented characters are left to it.
-/

namespace Type1

/-- What a charstring needs to know of its font. -/
structure Font where
  /-- The offsets of the subroutines, by number. -/
  subrs : List Nat := []
  /-- The number of master designs. -/
  masters : Nat := 0
  /-- The weight of each master. -/
  weights : List Number := []
  /-- The design coordinates, each between 0 and 1. -/
  normalizedDesign : List Number := []
  /-- The design coordinates as the user gives them. -/
  userDesign : List Number := []
  /-- The offset of the glyph at a code of the standard encoding, if glyphs can be looked up. -/
  lookup : Option (UInt8 → Option Nat) := none

/-- How a charstring is to be decoded. -/
structure Settings where
  /-- Stop as soon as the width is known. -/
  widthOnly : Bool := false
  /-- Map all coordinates by the matrix. -/
  useMatrix : Bool := false
  /-- Decode the parts of an accented character in its place, and drop deprecated operators. -/
  updateOperators : Bool := false
  /-- The matrix. -/
  matrix : Matrix := {}

/-- The switches of the settings from a sum of powers of two. -/
def Settings.ofBits (bits : Nat) (matrix : Matrix) : Settings where
  widthOnly := bits.testBit 0
  useMatrix := bits.testBit 1
  updateOperators := bits.testBit 2
  matrix := matrix

/-- The matrix that acts on the glyph; the identity does not. -/
def Settings.activeMatrix? (settings : Settings) : Option Matrix :=
  if settings.useMatrix && !settings.matrix.isIdentity then some settings.matrix else none

/-- The elements that a receiver takes. -/
structure Capabilities where
  /-- The width. -/
  width : Bool := true
  /-- The starts of contours. -/
  move : Bool := true
  /-- Lines. -/
  line : Bool := true
  /-- Curves. -/
  curve : Bool := true
  /-- Stems. -/
  stem : Bool := true
  /-- Flexes as such. -/
  flex : Bool := true
  /-- Accented characters as such. -/
  accented : Bool := true
  /-- Operators that draw nothing. -/
  operator : Bool := true
deriving DecidableEq, Repr

namespace Capabilities

/-- The capabilities from a sum of powers of two. -/
def ofBits (bits : Nat) : Capabilities where
  width := bits.testBit 0
  move := bits.testBit 1
  line := bits.testBit 2
  curve := bits.testBit 3
  stem := bits.testBit 4
  flex := bits.testBit 5
  accented := bits.testBit 6
  operator := bits.testBit 7

/-- Width and contours, and nothing else. -/
def outline : Capabilities := ofBits 15

end Capabilities

/-- What the decoding of a charstring depends on. -/
structure Setup where
  /-- The font. -/
  font : Font
  /-- The decoding stops as soon as the width is known. -/
  widthOnly : Bool := false
  /-- An accented character is reported as such, its parts are not decoded. -/
  keepsAccented : Bool := false
  /-- A matrix acts on the glyph, so all coordinates are rounded before it does. -/
  mapped : Bool := false

/-- The setup for a font, settings and a receiver. -/
def Setup.of (font : Font) (settings : Settings) (takes : Capabilities) : Setup where
  font := font
  widthOnly := settings.widthOnly
  keepsAccented := takes.accented && !settings.updateOperators
  mapped := settings.activeMatrix?.isSome

end Type1
