import Type1.Decoder.OtherSubr
import Type1.Instruction

/-!
# Execution of instructions

`Decode.execute` does all that an instruction does to the state, and tells with a `Control` what is
to be read next. It never touches the source: subroutines and the parts of accented characters are
left to the caller.

Operators that draw or hint read their operands from the bottom of the stack and clear it.
-/

namespace Type1

/-- How a charstring or a subroutine comes to its end. -/
inductive Flow where
  /-- Its caller goes on. -/
  | returned
  /-- The glyph is complete. -/
  | finished
deriving DecidableEq, Repr

/-- What is to be read after an instruction. -/
inductive Control where
  /-- The next instruction. -/
  | next
  /-- Nothing more at this level. -/
  | leave (flow : Flow)
  /-- The subroutine at an offset, and then the next instruction. -/
  | call (offset : Nat)
  /-- The base character and the shifted accent at their offsets, and then nothing more. -/
  | compose (base accent : Nat) (shift : Point)

namespace Decode

/-- Takes side bearing and width: those of the glyph the first time, later ones only move the
current point. A part of an accented character only has a side bearing. A width beyond 32000 either
way is counted in units of 1/65536. -/
def metrics (setup : Setup) (bearing : Point) (advance : Number) : Decode Control := do
  -- This is for the repeated ones as well, and is not shifted in an accent.
  modify ({ · with point := bearing.round })
  match (← get).part with
  | .base _ => modify ({ · with part := .base bearing })
  | .accent _ shift placed => modify ({ · with part := .accent bearing shift placed })
  | .glyph =>
    if (← get).width.isSome then
      note .repeatedWidth
    else
      let width := (← get).control setup (if advance.abs > 32000 then advance / 65536 else advance)
      modify fun d => .report (.width width) { d with bearing, width := some width }
      if setup.widthOnly then return .leave .finished
  return .next

/-- The offset of the glyph at a code, which is noted in the history. -/
def lookUp (glyphs : UInt8 → Option Nat) (code : UInt8) : Decode Nat := do
  let offset := glyphs code
  modify (·.record (.lookedUp code offset))
  orFail .badSeac offset

/-- An accented character: side bearing of the accent, its origin, and the codes of both parts. It
is reported as such or composed of its parts. -/
def accented (setup : Setup) (v : Vector Number 5) : Decode Control := do
  let base ← orFail .badSeac v.fourth.toByte?
  let accent ← orFail .badSeac v.fifth.toByte?
  match (← get).part with
  | .glyph => pure ()
  | _ => refuse .nestedAccent .badSeac
  modify ({ · with components := some ⟨base, accent⟩ })
  let shift : Point := ⟨v.second - v.first, v.third⟩
  if setup.keepsAccented then
    modify (·.report (.accented shift ⟨base, accent⟩))
    return .leave .finished
  else
    let glyphs ← orFail .badSeac setup.font.lookup
    let baseOffset ← lookUp glyphs base
    let accentOffset ← lookUp glyphs accent
    return .compose baseOffset accentOffset shift

/-- Reads `n` operands from the bottom of the stack, changes the state by them, and clears the
stack. -/
def draw (n : Nat) (f : Vector Number n → Decoder → Decoder) : Decode Control := do
  let v ← arguments n
  modify (f v)
  clear
  return .next

/-- Reads `n` operands from the bottom of the stack, moves by them, and clears the stack. -/
def moveWith (n : Nat) (delta : Vector Number n → Point) : Decode Control := do
  let v ← arguments n
  move (delta v)
  clear
  return .next

/-- Executes an operator. -/
def perform (setup : Setup) : Operator → Decode Control
  | .hstem => draw 2 fun v => .hintStem setup {} v.first v.second
  | .vstem => draw 2 fun v => .hintStem setup { vertical := true } v.first v.second
  | .hstem3 => draw 6 fun v => .hintStems setup { triple := true } v
  | .vstem3 => draw 6 fun v => .hintStems setup { vertical := true, triple := true } v
  | .rmoveto => moveWith 2 fun v => ⟨v.first, v.second⟩
  | .hmoveto => moveWith 1 fun v => ⟨v.first, 0⟩
  | .vmoveto => moveWith 1 fun v => ⟨0, v.first⟩
  | .rlineto => draw 2 fun v => .lineBy ⟨v.first, v.second⟩
  | .hlineto => draw 1 fun v => .lineBy ⟨v.first, 0⟩
  | .vlineto => draw 1 fun v => .lineBy ⟨0, v.first⟩
  | .rrcurveto => draw 6 fun v =>
    .curveBy setup ⟨v.first, v.second⟩ ⟨v.third, v.fourth⟩ ⟨v.fifth, v.sixth⟩
  | .vhcurveto => draw 4 fun v => .curveBy setup ⟨0, v.first⟩ ⟨v.second, v.third⟩ ⟨v.fourth, 0⟩
  | .hvcurveto => draw 4 fun v => .curveBy setup ⟨v.first, 0⟩ ⟨v.second, v.third⟩ ⟨0, v.fourth⟩
  | .closepath => draw 0 fun _ d => { d with moveDue := true }
  | .setcurrentpoint => draw 2 fun v => .setPoint ⟨v.first, v.second⟩
  | .dotsection => draw 0 fun _ => .report (.operator dotsectionCode [])
  | .hsbw => do
    let v ← arguments 2
    clear
    metrics setup ⟨v.first, 0⟩ v.second
  | .sbw => do
    let v ← arguments 4
    clear
    metrics setup ⟨v.first, v.second⟩ v.third
  | .seac => do
    let v ← arguments 5
    clear
    accented setup v
  | .callsubr => do
    let v ← take 1
    let offset := v.first.toIndex?.bind (setup.font.subrs[·]?)
    return .call (← orFail .invalidSubr offset)
  | .returnToCaller => return .leave .returned
  | .endchar => do
    clear
    return .leave .finished
  | .blend => do
    let v ← take 1
    blend setup (← toIndex v.first)
    return .next
  | .callothersubr => do
    callOtherSubr setup
    return .next
  | .pop => return .next
  | .calculate op => do
    calculate op
    return .next
  | .unknown code => refuse (.unknownOperator code) .invalidOperator

/-- Executes an instruction. An operator enters the history before it looks at its operands. -/
def execute (setup : Setup) : Instruction → Decode Control
  | .number value => do
    push value
    return .next
  | .operator op => do
    modify fun d => d.record (.began op d.operands.toList)
    perform setup op
  | .reserved byte => refuse (.reservedByte byte) .invalidOperator

theorem execute_operator (setup : Setup) (op : Operator) (d : Decoder) :
    execute setup (.operator op) d = perform setup op (d.record (.began op d.operands.toList)) :=
  rfl

end Decode

end Type1
