import Type1.Decoder.Hint

/-!
# What is drawn for a receiver

An element of the glyph is given to a receiver where it comes about: the receiver is asked whether
it takes such elements, and coordinates are mapped by the matrix on the way. The positions that the
decoding goes on from are never mapped.

* `Receiver`: what a glyph is decoded for.
* `Receiver.mapPoint`, `Receiver.mapCurve`, `Receiver.mapEdge`, `Receiver.mapWidth`: coordinates as
  the receiver is given them.
* `Receiver.emitWidth`, `Receiver.emitDotsection`, `Receiver.emitMove`, `Receiver.emitCurve`: single
  elements, if they are taken.
* `Receiver.moveBy`, `Receiver.lineBy`, `Receiver.curveBy`, `Receiver.flexTo`: the segments. A
  receiver that takes no flexes is given two curves.
* `Receiver.addStem`, `Receiver.hintStem`, `Receiver.hintStems`: the stems.
-/

namespace Type1

/-- What a glyph is decoded for: a font, the settings, and the elements that are taken. -/
structure Receiver where
  /-- The font. -/
  font : Font
  /-- How the glyph is to be decoded. -/
  settings : Settings := {}
  /-- The elements that the receiver takes. -/
  takes : Capabilities := {}

namespace Receiver

variable (r : Receiver)

/-- What calculations and roundings depend on. -/
def setup : Setup := .of r.font r.settings r.takes

/-! ## Coordinates -/

/-- A point as the receiver is given it. -/
def mapPoint (p : Point) : Point :=
  match r.settings.activeMatrix? with
  | some m => m.transform p
  | none => p

/-- A curve as the receiver is given it. -/
def mapCurve (c : Curve) : Curve := ⟨r.mapPoint c.first, r.mapPoint c.second, r.mapPoint c.last⟩

/-- The edge of a stem as the receiver is given it. -/
def mapEdge (vertical : Bool) (edge : Number) : Number :=
  match r.settings.activeMatrix? with
  | some m => m.transformEdge vertical edge
  | none => edge

/-- A width as the receiver is given it. -/
def mapWidth (advance : Number) : Number :=
  match r.settings.activeMatrix? with
  | some m => advance * m.sx
  | none => advance

/-! ## Width and deprecated operators -/

/-- Gives the receiver the width. -/
def emitWidth (width : Number) (d : Decoder) : Decoder :=
  if r.takes.width then d.report (.width width) else d

/-- Gives the receiver `dotsection`, unless deprecated operators are to be dropped. -/
def emitDotsection (d : Decoder) : Decoder :=
  if !r.settings.updateOperators && r.takes.operator then d.report (.operator dotsectionCode [])
  else d

/-! ## Contours -/

/-- Gives the receiver the start of a contour. -/
def emitMove (p : Point) (d : Decoder) : Decoder :=
  if r.takes.move then d.report (.moveTo (r.mapPoint p)) else d

/-- Gives the receiver a curve. -/
def emitCurve (c : Curve) (d : Decoder) : Decoder :=
  if r.takes.curve then d.report (.curveTo (r.mapCurve c)) else d

/-- Makes a contour begin at the current point. -/
def openContour (d : Decoder) : Decoder :=
  r.emitMove d.point { d with moveDue := false, moved := true }

/-- Places the accent, and opens a contour if one is due. -/
def startContour (d : Decoder) : Decoder :=
  let d := d.placeAccent
  if d.moveDue then r.openContour d else d

/-- Starts a contour at a displacement from the current point. -/
def moveBy (delta : Point) (d : Decoder) : Decoder :=
  let d := d.placeAccent
  r.openContour { d with point := (d.point + delta).round }

/-- Draws a line along a displacement. -/
def lineBy (delta : Point) (d : Decoder) : Decoder :=
  let d := r.startContour d
  let d := { d with point := (d.point + delta).round }
  if r.takes.line then d.report (.lineTo (r.mapPoint d.point)) else d

/-- Draws a curve along three displacements. -/
def curveBy (delta₁ delta₂ delta₃ : Point) (d : Decoder) : Decoder :=
  let d := r.startContour d
  let first := d.controlPoint r.setup (d.point + delta₁)
  let second := d.controlPoint r.setup (first + delta₂)
  let last := (second + delta₃).round
  r.emitCurve ⟨first, second, last⟩ { d with point := last }

/-- Draws a flex through points of the glyph, as such or as two curves. -/
def flexTo (depth : Number) (left right : Curve) (d : Decoder) : Decoder :=
  let d := r.startContour d
  let control := d.controlPoint r.setup
  let left : Curve := ⟨control left.first, control left.second, control left.last⟩
  let right : Curve := ⟨control right.first, control right.second, (control right.last).round⟩
  let d :=
    if r.takes.flex then d.report (.flex depth (r.mapCurve left) (r.mapCurve right))
    else r.emitCurve right (r.emitCurve left d)
  { d with point := right.last }

/-! ## Stems -/

/-- Gives the receiver a stem between two edges. The marks that are due are gone afterwards, whether
it takes stems or not. -/
def addStem (kind : StemKind) (near far : Number) (d : Decoder) : Decoder :=
  let kind := { kind with newHints := d.hintsDue, newGroup := d.groupDue }
  let d := { d with hintsDue := false, groupDue := false }
  if r.takes.stem then
    let near := r.mapEdge kind.vertical (d.control r.setup near)
    let far := r.mapEdge kind.vertical (d.control r.setup far)
    d.report (.stem kind near far)
  else d

/-- Gives the receiver a stem that begins at a position relative to the side bearing. -/
def hintStem (kind : StemKind) (position extent : Number) (d : Decoder) : Decoder :=
  let d := if d.moved && !d.hintsRenewed then d.renewHints else d
  let near := position + d.stemOrigin.across kind.vertical
  r.addStem kind near (near + extent) d

/-- Gives the receiver three stems, of a position and a width each. -/
def hintStems (kind : StemKind) (v : Vector Number 6) (d : Decoder) : Decoder :=
  d |> r.hintStem kind v.first v.second
    |> r.hintStem kind v.third v.fourth
    |> r.hintStem kind v.fifth v.sixth

end Receiver

end Type1
