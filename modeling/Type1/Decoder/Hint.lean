import Type1.Decoder.Outline

/-!
# Stem hints

A stem is given by an edge relative to the side bearing and by a width.

* `Decoder.stemOrigin`: the side bearing that counts for what is being decoded.
* `Decoder.addStem`: reports a stem with the marks that are due, which none after it bears again.
* `Decoder.hintStem`: a stem of `hstem` and the like. The first such stem after the first contour
  starts a new set of hints, unless one was asked for already.
* `Decoder.counterStems`: the stems of counter hints.
-/

namespace Type1

/-- The coordinate across stems that are vertical, or across those that are not. -/
def Point.across (vertical : Bool) (p : Point) : Number := if vertical then p.x else p.y

namespace Decoder

/-- The point that stems are relative to. -/
def stemOrigin (d : Decoder) : Point :=
  match d.part with
  | .glyph => d.bearing
  | .base bearing => bearing
  | .accent bearing shift _ => bearing + shift

/-- Asks for a new set of hints. -/
def renewHints (d : Decoder) : Decoder := { d with hintsDue := true, hintsRenewed := true }

/-- Reports a stem between two edges. -/
def addStem (setup : Setup) (kind : StemKind) (near far : Number) (d : Decoder) : Decoder :=
  let kind := { kind with newHints := d.hintsDue, newGroup := d.groupDue }
  report (.stem kind (d.control setup near) (d.control setup far))
    { d with hintsDue := false, groupDue := false }

/-- Reports a stem that begins at a position relative to the side bearing. -/
def hintStem (setup : Setup) (kind : StemKind) (position extent : Number) (d : Decoder) : Decoder :=
  let d := if d.moved && !d.hintsRenewed then d.renewHints else d
  let near := position + d.stemOrigin.across kind.vertical
  d.addStem setup kind near (near + extent)

/-- Reports three stems, given by position and width each. -/
def hintStems (setup : Setup) (kind : StemKind) (v : Vector Number 6) (d : Decoder) : Decoder :=
  d |> hintStem setup kind v.first v.second
    |> hintStem setup kind v.third v.fourth
    |> hintStem setup kind v.fifth v.sixth

end Decoder

namespace Decode

/-- Reports the stems of counter hints, of which the values stand from the last to the first: the
distance from the edge before, and the width. A negative width ends the group, and the next group
is across the other axis and starts from the side bearing again. Values that run out before a group
ends are an error, but the stems up to there are reported. -/
def counterStems (setup : Setup) (vertical : Bool) (edge : Number) : List Number → Decode Unit
  | gap :: width :: rest => do
    let near := edge + gap
    let far := near + width.abs
    modify (·.addStem setup { vertical, counter := true } near far)
    if width < 0 then
      match rest with
      | [] => pure ()
      | _ =>
        -- The edge of the group before does not count for the next one.
        modify ({ · with groupDue := true })
        counterStems setup (!vertical) ((← get).stemOrigin.across !vertical) rest
    else
      counterStems setup vertical far rest
  | _ => refuse .cutOffGroup .badCounterControl

/-- Collects the top `n` operands as counter hints, and reports all that were collected if these are
the last. The groups are horizontal and vertical in turn. -/
def counterHints (setup : Setup) (n : Nat) (complete : Bool) : Decode Unit := do
  let counters := (← get).counters ++ (← take n).toList
  if counters.length > counterCapacity then throw .badCounterControl
  modify ({ · with counters })
  if complete then
    modify ({ · with counters := [] })
    match counters.reverse with
    | [] => pure ()
    | values =>
      modify ({ · with groupDue := true })
      counterStems setup false ((← get).stemOrigin.across false) values

end Decode

end Type1
