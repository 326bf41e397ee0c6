import Type1.Glyph

/-!
# What a receiver is given, in hindsight

`Decode.execute` produces the elements of a glyph as if everything were taken, in the coordinates of
the glyph, and `Session.decodeGlyph` decodes a whole charstring so. `Element.deliver` makes of each
what a receiver is given: nothing if it does not take such elements, two curves for a flex that it
does not take as such, and otherwise the element, mapped by the matrix if there is one.

`Receiver.deliver` does so with the history of a state, and with its width. What a decoding for a
receiver does to such a state is what the plain decoding does, delivered
(`Receiver.execute_deliver`).
-/

namespace Type1

/-- What becomes of an element at a receiver. -/
def Element.accept (takes : Capabilities) (updateOperators : Bool) : Element → List Element
  | e@(width _) => if takes.width then [e] else []
  | e@(moveTo _) => if takes.move then [e] else []
  | e@(lineTo _) => if takes.line then [e] else []
  | e@(curveTo _) => if takes.curve then [e] else []
  | e@(stem ..) => if takes.stem then [e] else []
  | e@(flex _ left right) =>
    if takes.flex then [e] else if takes.curve then [curveTo left, curveTo right] else []
  | e@(accented ..) => [e]
  | e@(operator ..) => if takes.operator && !updateOperators then [e] else []

/-- What a receiver is given for an element. -/
def Element.deliver (settings : Settings) (takes : Capabilities) (e : Element) : List Element :=
  let accepted := e.accept takes settings.updateOperators
  match settings.activeMatrix? with
  | some m => accepted.map (transform m)
  | none => accepted

/-- The history as it presents itself with a receiver: only the elements depend on it. -/
def Event.deliver (settings : Settings) (takes : Capabilities) : Event → List Event
  | element e => (e.deliver settings takes).map element
  | event => [event]

/-- Decodes the charstring at an offset as if everything were taken. -/
def Session.decodeGlyph (s : Source) (setup : Setup) (offset : Nat) (st : Source.State) : Outcome :=
  decodeAt s (Decode.execute setup) (nested s (Decode.execute setup) maxDepth) offset
    ⟨st, .start setup.font⟩

/-- The state as a receiver has it: with what it was given in the history, and the width that it was
told. -/
def Receiver.deliver (r : Receiver) (d : Decoder) : Decoder :=
  { d with
    width := d.width.map r.mapWidth
    history := (d.history.toList.flatMap (Event.deliver r.settings r.takes)).toArray }

/-- The glyph of a state at the end of a decoding; a matrix scales its width. -/
def Decoder.glyph (settings : Settings) (d : Decoder) : Glyph where
  width :=
    match settings.activeMatrix? with
    | some m => d.width.map (· * m.sx)
    | none => d.width
  components := d.components

end Type1
