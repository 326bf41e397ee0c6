import Type1.Decoder.Execute
import Type1.Receiver

/-!
# Execution of instructions for a receiver

`Receiver.execute` does all that an instruction does, and gives the receiver what comes about by it.
Whether a receiver takes the width, accented characters and deprecated operators is asked here, and
the width is kept as the receiver is given it.

What gives a receiver nothing is a computation of `Decode`: the operand stack, calculations,
blending, and the operators that end a level or call another one.
-/

namespace Type1.Receiver

open Decode

variable (r : Receiver)

/-! ## Flexes and counter hints -/

/-- Moves along a displacement. Within a flex that collects a point, otherwise it starts a
contour. -/
def move (delta : Point) : Decode Unit := do
  let flex := (← get).flex
  if flex.active then
    let reach := flex.reach + delta
    if flex.points.length < Flex.capacity then
      modify ({ · with flex := { flex with reach, points := flex.points ++ [reach] } })
    else
      throw .badFlex
  else
    modify (r.moveBy delta)

/-- Draws the collected flex, given the number of arguments, which are its depth and its last point.
The point stays on the stack. -/
def endFlex (n : Nat) : Decode Unit := do
  let flex := (← get).flex
  match n, flex.active, flex.points with
  | 3, true, [_, p₁, p₂, p₃, p₄, p₅, _] =>
    modify ({ · with flex := { flex with active := false } })
    let v ← take 3
    let last := (← get).absolute ⟨v.second, v.third⟩
    modify (r.flexTo v.first ⟨p₁, p₂, p₃⟩ ⟨p₄, p₅, last⟩)
    pushAll [v.second, v.third]
  | _, _, _ => refuse (.malformedFlex n flex.coordinates) .badFlex

/-- Gives the receiver the stems of counter hints, of which the values stand from the last to the
first. -/
def counterStems (vertical : Bool) (edge : Number) : List Number → Decode Unit
  | gap :: width :: rest => do
    let near := edge + gap
    let far := near + width.abs
    modify (r.addStem { vertical, counter := true } near far)
    if width < 0 then
      match rest with
      | [] => pure ()
      | _ =>
        modify ({ · with groupDue := true })
        counterStems (!vertical) ((← get).stemOrigin.across !vertical) rest
    else
      counterStems vertical far rest
  | _ => refuse .cutOffGroup .badCounterControl

/-- Collects the top `n` operands as counter hints, and gives the receiver the stems of all that
were collected if these are the last. -/
def counterHints (n : Nat) (complete : Bool) : Decode Unit := do
  let counters := (← get).counters ++ (← take n).toList
  if counters.length > counterCapacity then throw .badCounterControl
  modify ({ · with counters })
  if complete then
    modify ({ · with counters := [] })
    match counters.reverse with
    | [] => pure ()
    | values =>
      modify ({ · with groupDue := true })
      r.counterStems false ((← get).stemOrigin.across false) values

/-- Performs an other subroutine with `n` arguments. -/
def performOtherSubr (n : Nat) : OtherSubr → Decode Unit
  | .endFlex => r.endFlex n
  | .counterHints complete => r.counterHints n complete
  | subr => Decode.performOtherSubr r.setup n subr

/-- Calls the other subroutine that the top operand selects, with the number of arguments that the
operand below it states. -/
def callOtherSubr : Decode Unit := do
  let v ← take 2
  let n ← toIndex v.first
  require n
  let selector ← orFail .invalidOtherSubr v.second.truncate?
  match OtherSubr.ofSelector? selector with
  | some subr =>
    require (subr.arity n)
    r.performOtherSubr n subr
  | none => refuse (.unknownOtherSubr selector) .invalidOtherSubr

/-! ## Width and accented characters -/

/-- Takes side bearing and width: those of the glyph the first time, later ones only move the
current point. The width is kept as the receiver is given it. -/
def metrics (bearing : Point) (advance : Number) : Decode Control := do
  modify ({ · with point := bearing.round })
  match (← get).part with
  | .base _ => modify ({ · with part := .base bearing })
  | .accent _ shift placed => modify ({ · with part := .accent bearing shift placed })
  | .glyph =>
    if (← get).width.isSome then
      note .repeatedWidth
    else
      let advance := if advance.abs > 32000 then advance / 65536 else advance
      let width := r.mapWidth ((← get).control r.setup advance)
      modify fun d => r.emitWidth width { d with bearing, width := some width }
      if r.settings.widthOnly then return .leave .finished
  return .next

/-- An accented character: side bearing of the accent, its origin, and the codes of both parts. It
is left to a receiver that takes such characters, unless deprecated operators are to be resolved. -/
def accented (v : Vector Number 5) : Decode Control := do
  let base ← orFail .badSeac v.fourth.toByte?
  let accent ← orFail .badSeac v.fifth.toByte?
  match (← get).part with
  | .glyph => pure ()
  | _ => refuse .nestedAccent .badSeac
  modify ({ · with components := some ⟨base, accent⟩ })
  let shift : Point := ⟨v.second - v.first, v.third⟩
  if !r.settings.updateOperators && r.takes.accented then
    modify (·.report (.accented shift ⟨base, accent⟩))
    return .leave .finished
  else
    let glyphs ← orFail .badSeac r.font.lookup
    let baseOffset ← lookUp glyphs base
    let accentOffset ← lookUp glyphs accent
    return .compose baseOffset accentOffset shift

/-! ## Operators and instructions -/

/-- Reads `n` operands from the bottom of the stack, moves by them, and clears the stack. -/
def moveWith (n : Nat) (delta : Vector Number n → Point) : Decode Control := do
  let v ← arguments n
  r.move (delta v)
  clear
  return .next

/-- Executes an operator. -/
def perform : Operator → Decode Control
  | .hstem => draw 2 fun v => r.hintStem {} v.first v.second
  | .vstem => draw 2 fun v => r.hintStem { vertical := true } v.first v.second
  | .hstem3 => draw 6 fun v => r.hintStems { triple := true } v
  | .vstem3 => draw 6 fun v => r.hintStems { vertical := true, triple := true } v
  | .rmoveto => r.moveWith 2 fun v => ⟨v.first, v.second⟩
  | .hmoveto => r.moveWith 1 fun v => ⟨v.first, 0⟩
  | .vmoveto => r.moveWith 1 fun v => ⟨0, v.first⟩
  | .rlineto => draw 2 fun v => r.lineBy ⟨v.first, v.second⟩
  | .hlineto => draw 1 fun v => r.lineBy ⟨v.first, 0⟩
  | .vlineto => draw 1 fun v => r.lineBy ⟨0, v.first⟩
  | .rrcurveto => draw 6 fun v =>
    r.curveBy ⟨v.first, v.second⟩ ⟨v.third, v.fourth⟩ ⟨v.fifth, v.sixth⟩
  | .vhcurveto => draw 4 fun v => r.curveBy ⟨0, v.first⟩ ⟨v.second, v.third⟩ ⟨v.fourth, 0⟩
  | .hvcurveto => draw 4 fun v => r.curveBy ⟨v.first, 0⟩ ⟨v.second, v.third⟩ ⟨0, v.fourth⟩
  | .dotsection => draw 0 fun _ => r.emitDotsection
  | .hsbw => do
    let v ← arguments 2
    clear
    r.metrics ⟨v.first, 0⟩ v.second
  | .sbw => do
    let v ← arguments 4
    clear
    r.metrics ⟨v.first, v.second⟩ v.third
  | .seac => do
    let v ← arguments 5
    clear
    r.accented v
  | .callothersubr => do
    r.callOtherSubr
    return .next
  | op => Decode.perform r.setup op

/-- Executes an instruction. An operator enters the history before it looks at its operands. -/
def execute : Instruction → Decode Control
  | .number value => do
    push value
    return .next
  | .operator op => do
    modify fun d => d.record (.began op d.operands.toList)
    r.perform op
  | .reserved byte => refuse (.reservedByte byte) .invalidOperator

end Type1.Receiver
