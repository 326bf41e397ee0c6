import Type1.Receiver.Execute
import Type1.Session

/-!
# Decoding a glyph

* `Glyph`: what is found out about a glyph.
* `Report`, `Session.report`: what a decoding tells, its history and its result.
* `parse`: the decoding of a charstring for a receiver.
-/

namespace Type1

/-- What is found out about a glyph. -/
structure Glyph where
  /-- The advance width, if the charstring gives one. -/
  width : Option Number
  /-- The codes of the parts, if the glyph is an accented character. -/
  components : Option Components
deriving DecidableEq

/-- What a decoding tells. -/
structure Report where
  /-- What came about, in order. -/
  events : List Event
  /-- What was found out, or why the decoding failed. -/
  result : Except Error Glyph

/-- What a receiver was given, in order. -/
def Report.elements (r : Report) : List Element := r.events.filterMap Event.element?

/-- What is told of a decoding that ends so, and the source after it. -/
def Session.report (offset : Nat) : Outcome → Report × Source.State
  | .ok _ ⟨source, d⟩ => (⟨d.history.toList, .ok ⟨d.width, d.components⟩⟩, source)
  | .error error ⟨source, d⟩ => (⟨d.history.toList ++ [.failed offset error], .error error⟩, source)

/-- Decodes the charstring at an offset of a source: what it tells, and the source afterwards. -/
def parse (s : Source) (font : Font) (settings : Settings) (takes : Capabilities) (offset : Nat)
    (source : Source.State) : Report × Source.State :=
  let execute := Receiver.execute { font, settings, takes }
  Session.report offset
    (Session.decodeAt s execute (Session.nested s execute maxDepth) offset ⟨source, .start font⟩)

end Type1
