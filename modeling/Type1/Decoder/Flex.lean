import Type1.Decoder.Outline

/-!
# Flex

A flex is two curves that are drawn as a line where they are nearly flat. It comes as a start, seven
moves that draw nothing but collect points, and an end that gives the depth and the last point.

* `Decode.startFlex`, `Decode.move`, `Decode.endFlex`: the three steps.

The first collected point is a reference for the others and belongs to neither curve, and the last
one gives way to the point that the end states.
-/

namespace Type1

/-- Moves collect points from now on, beginning at the current point. -/
def Decoder.startFlex (d : Decoder) : Decoder :=
  let d := d.placeAccent
  { d with flex := { active := true, reach := d.point, points := [] } }

namespace Decode

/-- Moves along a displacement. Within a flex that collects a point, otherwise it starts a
contour. -/
def move (delta : Point) : Decode Unit := do
  let flex := (← get).flex
  if flex.active then
    let reach := flex.reach + delta
    if flex.points.length < Flex.capacity then
      modify ({ · with flex := { flex with reach, points := flex.points ++ [reach] } })
    else
      throw .badFlex
  else
    modify (·.moveBy delta)

/-- Draws the collected flex, given the number of arguments, which are its depth and its last point.
The point stays on the stack. -/
def endFlex (setup : Setup) (n : Nat) : Decode Unit := do
  let flex := (← get).flex
  match n, flex.active, flex.points with
  | 3, true, [_, p₁, p₂, p₃, p₄, p₅, _] =>
    -- The flex is over even if its operands are not there.
    modify ({ · with flex := { flex with active := false } })
    let v ← take 3
    let last := (← get).absolute ⟨v.second, v.third⟩
    modify (·.flexTo setup v.first ⟨p₁, p₂, p₃⟩ ⟨p₄, p₅, last⟩)
    pushAll [v.second, v.third]
  | _, _, _ => refuse (.malformedFlex n flex.coordinates) .badFlex

end Decode

end Type1
