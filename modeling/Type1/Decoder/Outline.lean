import Type1.Decoder

/-!
# Contours

The current point is whole: whoever moves it rounds it. Control points are rounded only if a matrix
acts on the glyph or values were blended, see `Decoder.control`.

* `Decoder.placeAccent`: the shift of an accent, added once, before the accent is drawn.
* `Decoder.startContour`: the move that a line or a curve implies if none came since the last
  contour was closed.
* `Decoder.moveBy`, `Decoder.lineBy`, `Decoder.curveBy`, `Decoder.flexTo`: the segments.
-/

namespace Type1.Decoder

/-- A control coordinate, or the edge of a stem: rounded if a matrix acts or values were blended. -/
def control (setup : Setup) (d : Decoder) (v : Number) : Number :=
  if setup.mapped || d.blended then v.round else v

/-- A control point. -/
def controlPoint (setup : Setup) (d : Decoder) (p : Point) : Point := p.map (d.control setup)

/-- The point of the glyph at absolute coordinates of the program. Those of an accent shift. -/
def absolute (d : Decoder) (p : Point) : Point :=
  match d.part with
  | .accent _ shift _ => p + shift
  | _ => p

/-- Adds the shift of an accent to the current point, unless it includes the shift already. -/
def placeAccent (d : Decoder) : Decoder :=
  match d.part with
  | .accent bearing shift false =>
    { d with point := d.point + shift, part := .accent bearing shift true }
  | _ => d

/-- Makes a contour begin at the current point. -/
def openContour (d : Decoder) : Decoder :=
  report (.moveTo d.point) { d with moveDue := false, moved := true }

/-- Places the accent, and opens a contour if one is due. -/
def startContour (d : Decoder) : Decoder :=
  let d := d.placeAccent
  if d.moveDue then d.openContour else d

/-- Starts a contour at a displacement from the current point. -/
def moveBy (delta : Point) (d : Decoder) : Decoder :=
  let d := d.placeAccent
  openContour { d with point := (d.point + delta).round }

/-- Draws a line along a displacement. -/
def lineBy (delta : Point) (d : Decoder) : Decoder :=
  let d := d.startContour
  let point := (d.point + delta).round
  report (.lineTo point) { d with point }

/-- Draws a curve along three displacements. -/
def curveBy (setup : Setup) (delta₁ delta₂ delta₃ : Point) (d : Decoder) : Decoder :=
  let d := d.startContour
  let first := d.controlPoint setup (d.point + delta₁)
  let second := d.controlPoint setup (first + delta₂)
  let last := (second + delta₃).round
  report (.curveTo ⟨first, second, last⟩) { d with point := last }

/-- Draws a flex through points of the glyph. -/
def flexTo (setup : Setup) (depth : Number) (left right : Curve) (d : Decoder) : Decoder :=
  let d := d.startContour
  let control := d.controlPoint setup
  let last := (control right.last).round
  let e := Element.flex depth ⟨control left.first, control left.second, control left.last⟩
    ⟨control right.first, control right.second, last⟩
  report e { d with point := last }

/-- Sets the current point to absolute coordinates of the program. The shift of an accent counts as
added from then on. -/
def setPoint (p : Point) (d : Decoder) : Decoder :=
  let d := d.placeAccent
  { d with point := (d.absolute p).round }

end Type1.Decoder
