import Type1.Decoder.Execute
import Type1.Proofs.Checked.Buffer

/-!
# The operators on arrays

The operators as they work on arrays of fixed size, one access after the other, with every access
checked. What they do to the rest of the state is that of the operators themselves.

* `Machine`: the state of a decoding with the operand stack, the points of a flex and the counter
  hints on arrays.
* `Checked.aside`: a computation that needs none of the arrays.
* `Checked.execute`: executes an instruction.
-/

namespace Type1

/-- The number of coordinates that a flex has room for. -/
def Flex.length : Nat := 17

/-- A state of a decoding, partly on arrays. -/
structure Machine where
  /-- The operand stack. -/
  stack : Buffer Operands.capacity
  /-- The coordinates of the flex. -/
  flex : Buffer Flex.length
  /-- The counter hints. -/
  counters : Buffer counterCapacity
  /-- The rest of the state, in which the above are empty. -/
  rest : Decoder

/-- The store with the cells of a register replaced. -/
def Storage.replace (m : Storage) : (r : Register) → Vector Number r.size → Storage
  | .weights, weights => { m with weights }
  | .normalizedDesign, normalizedDesign => { m with normalizedDesign }
  | .userDesign, userDesign => { m with userDesign }

/-- A computation on arrays that checks its accesses. -/
abbrev Checked := Guarded Machine

namespace Checked

open Guarded

variable {α : Type}

/-! ## The stack -/

/-- A computation that needs none of the arrays. -/
def aside (x : Decode α) : Checked α := fun m =>
  match x m.rest with
  | .ok a rest => .ok a { m with rest }
  | .error e rest => .error (.failed e) { m with rest }

/-- Fails unless there are at least `n` operands. -/
def require (n : Nat) : Checked Unit := do (← get).stack.require n

/-- Puts a value on top of the stack. -/
def push (v : Number) : Checked Unit := do
  let stack ← (← get).stack.push v
  modify ({ · with stack })

/-- Takes the value on top of the stack. -/
def pop : Checked Number := do
  let (v, stack) ← (← get).stack.pop
  modify ({ · with stack })
  pure v

/-- The operand at an index from the bottom. -/
def operand (i : Nat) : Checked Number := do (← get).stack.get i

/-- Changes the operand at an index from the bottom. -/
def setOperand (i : Nat) (v : Number) : Checked Unit := do
  let stack ← (← get).stack.set i v
  modify ({ · with stack })

/-- Removes all operands. -/
def clear : Checked Unit := modify fun m => { m with stack := m.stack.clear }

/-- Takes the top `n` operands one after the other. -/
def popAll : (n : Nat) → Checked (Vector Number n)
  | 0 => pure #v[]
  | n + 1 => do
    let last ← pop
    let v ← popAll n
    pure (v.push last)

/-- Reads the lowest `n` operands one after the other. -/
def lowest : (n : Nat) → Checked (Vector Number n)
  | 0 => pure #v[]
  | n + 1 => do
    let v ← lowest n
    let last ← operand n
    pure (v.push last)

/-- The lowest `n` operands, if there are as many. -/
def arguments (n : Nat) : Checked (Vector Number n) := do
  require n
  lowest n

/-! ## Calculations -/

/-- Replaces the top operand. -/
def unary (f : Number → Number) : Checked Unit := do
  let a ← pop
  push (f a)

/-- Replaces the two top operands by one. -/
def binary (f : Number → Number → Number) : Checked Unit := do
  require 2
  let v ← popAll 2
  push (f v.first v.second)

/-- Exchanges the two top operands. -/
def exchange : Checked Unit := do
  let stack ← (← get).stack.exchange
  modify ({ · with stack })

/-- Puts a copy of the operand `i` below the top on the stack. -/
def duplicate (i : Int) : Checked Unit := do
  let stack ← (← get).stack.duplicate i
  modify ({ · with stack })

/-- Moves each of the top `n` operands up by `j` places. -/
def roll (n j : Int) : Checked Unit := do
  let stack ← (← get).stack.roll n j
  modify ({ · with stack })

/-- Writes a value into a cell. -/
def put (i : Nat) (v : Number) : Checked Unit :=
  if i < Storage.cellCount then do
    let storage := (← get).rest.storage
    let cells ← write storage.cells i v
    aside (modify ({ · with storage := { storage with cells } }))
  else
    fail .boundsCheck

/-- Writes cells into a register. -/
def store (v : Vector Number 4) : Checked Unit := do
  let (cell, n) ← orFail .boundsCheck (Number.range? v.third v.fourth Storage.cellCount)
  let register ← orFail .boundsCheck (Register.ofNumber? v.first)
  let (start, k) ← orFail .boundsCheck (Number.range? v.second v.fourth register.size)
  let storage := (← get).rest.storage
  let values ← slice storage.cells cell (cell + n)
  let cells ← copyInto (storage.register register) start (start + k) values
  aside (modify ({ · with storage := storage.replace register cells }))

/-- Writes the beginning of a register into cells. -/
def load (v : Vector Number 3) : Checked Unit := do
  let (cell, n) ← orFail .boundsCheck (Number.range? v.second v.third Storage.cellCount)
  let register ← orFail .boundsCheck (Register.ofNumber? v.first)
  let (start, k) ← orFail .boundsCheck (Number.range? 0 v.third register.size)
  let storage := (← get).rest.storage
  let source ← slice (storage.register register) start (start + k)
  let copy ← copyInto (Vector.replicate Storage.maxMasters (0 : Number)) 0 k source
  let values ← slice copy 0 n
  let cells ← copyInto storage.cells cell (cell + n) values
  aside (modify ({ · with storage := { storage with cells } }))

/-- Performs a calculation. -/
def calculate : Calculation → Checked Unit
  | .and => binary fun a b => .ofBool (a != 0 && b != 0)
  | .or => binary fun a b => .ofBool (a != 0 || b != 0)
  | .not => unary fun a => .ofBool (a == 0)
  | .eq => binary fun a b => .ofBool (a == b)
  | .abs => unary Float32.abs
  | .neg => unary (- ·)
  | .add => binary (· + ·)
  | .sub => binary (· - ·)
  | .mul => binary (· * ·)
  | .div => binary (· / ·)
  | .sqrt => do
    let a ← pop
    if a < 0 then fail .sqrtDomain
    push a.sqrt
  | .drop => do
    let _ ← pop
  | .dup => do
    let a ← pop
    push a
    push a
  | .exch => exchange
  | .index => do
    require 2
    duplicate (← orFail .boundsCheck (← pop).truncate?)
  | .roll => do
    require 2
    let v ← popAll 2
    let j ← orFail .boundsCheck v.second.truncate?
    let n ← orFail .boundsCheck v.first.truncate?
    roll n j
  | .put => do
    require 2
    let i ← orFail .boundsCheck (← pop).toIndex?
    put i (← pop)
  | .get => do
    let i ← orFail .boundsCheck (← pop).toIndex?
    push (← orFail .boundsCheck (← get).rest.storage.cells[i]?)
  | .ifelse => do
    require 4
    let v ← popAll 4
    push (if v.third ≤ v.fourth then v.first else v.second)
  | .random => do
    let seed := nextSeed (← get).rest.seed
    aside (modify ({ · with seed }))
    ensure .arithmetic (((seed >>> 16) &&& 0x7fff).toNat + 1 < 2 ^ 32)
    push (randomOf seed)
  | .store => do
    require 4
    store (← popAll 4)
  | .load => do
    require 3
    load (← popAll 3)

/-! ## Blending -/

/-- A value with the weighted differences of `count` masters from the master `m` on added. Those of
the value begin at the operand `first`. -/
def addDifferences (first : Nat) : (count m : Nat) → Number → Checked Number
  | 0, _, v => pure v
  | count + 1, m, v => do
    let weight ← read (← get).rest.storage.weights m
    let i ← minus (← plus first m) 1
    let difference ← operand i
    addDifferences first count (m + 1) (v + weight * difference)

/-- Blends `count` operands from the index `i` of those that begin at `base`; the differences begin
at `deltas`. -/
def blendOperands (masters base deltas : Nat) : (count i : Nat) → Checked Unit
  | 0, _ => pure ()
  | count + 1, i => do
    let k ← plus base i
    let v ← operand k
    let others ← minus masters 1
    let first ← plus deltas (← times i others)
    let v ← addDifferences first others 1 v
    setOperand k v
    blendOperands masters base deltas count (i + 1)

/-- Replaces the values of the first master and the differences by blended values. -/
def blend (setup : Setup) (n : Nat) : Checked Unit := do
  let masters := setup.font.masters
  if masters ≤ 1 ∨ Storage.maxMasters < masters then fail .invalidWeightVector
  let total ← orFail .stackUnderflow (if n * masters < wordSize then some (n * masters) else none)
  require total
  let base ← minus (← get).stack.size total
  let deltas ← plus base n
  blendOperands masters base deltas n 0
  modify fun m => { m with stack := m.stack.truncate deltas }
  aside (modify ({ · with blended := true }))

/-! ## Flex and counter hints -/

/-- Moves along a displacement, or collects a point of a flex. -/
def move (delta : Point) : Checked Unit := do
  let flex := (← get).rest.flex
  if flex.active then
    let reach := flex.reach + delta
    aside (modify ({ · with flex := { flex with reach } }))
    match ← (← get).flex.extend? [reach.x, reach.y] with
    | some buffer => modify ({ · with flex := buffer })
    | none => fail .badFlex
  else
    aside (modify (·.moveBy delta))

/-- The points of a list of coordinates. An odd one out is dropped. -/
def pairs : List Number → List Point
  | x :: y :: rest => ⟨x, y⟩ :: pairs rest
  | _ => []

/-- The points of both curves from the coordinates that were collected, the first two of which
belong to no curve. The last point is given. -/
def curvePoints (collected : List Number) (last : Point) : Vector Point 6 :=
  (Vector.ofFn fun i => (pairs (collected.drop 2)).getD i.val .zero).set 5 last

/-- Draws the collected flex, given the number of arguments. -/
def endFlex (setup : Setup) (n : Nat) : Checked Unit := do
  let m ← get
  if n ≠ 3 ∨ m.rest.flex.active = false ∨ m.flex.size ≠ 14 then
    aside (Decode.refuse (.malformedFlex n m.flex.size) .badFlex)
  else
    aside (modify fun d => { d with flex := { d.flex with active := false } })
    let v ← popAll 3
    let collected ← (← get).flex.contents
    ensure .slice (2 ≤ collected.length)
    let points := curvePoints collected ((← get).rest.absolute ⟨v.second, v.third⟩)
    aside (modify (·.flexTo setup v.first ⟨points.first, points.second, points.third⟩
      ⟨points.fourth, points.fifth, points.sixth⟩))
    push v.second
    push v.third

/-- Reports the stems of the first `i` counter hints, from the last of them to the first. -/
def counterStems (setup : Setup) (values : Vector Number counterCapacity) (vertical : Bool)
    (edge : Number) (i : Nat) : Checked Unit :=
  if _h : i < 2 then aside (Decode.refuse .cutOffGroup .badCounterControl)
  else do
    let gap ← read values (← minus i 1)
    let width ← read values (← minus i 2)
    let near := edge + gap
    let far := near + width.abs
    aside (modify (·.addStem setup { vertical, counter := true } near far))
    if width < 0 then
      if i - 2 = 0 then pure ()
      else
        aside (modify ({ · with groupDue := true }))
        let origin := (← get).rest.stemOrigin
        counterStems setup values (!vertical) (origin.across !vertical) (i - 2)
    else
      counterStems setup values vertical far (i - 2)
termination_by i

/-- Reports the stems of all counter hints that were collected. -/
def reportCounters (setup : Setup) : Checked Unit := do
  let counters := (← get).counters
  let collected ← counters.contents
  let values ← copyInto (Vector.replicate counterCapacity (0 : Number)) 0 counters.size collected
  modify fun m => { m with counters := m.counters.clear }
  if 0 < counters.size then
    aside (modify ({ · with groupDue := true }))
    let origin := (← get).rest.stemOrigin
    counterStems setup values false (origin.across false) counters.size

/-- Collects the top `n` operands as counter hints, and reports all that were collected if these
are the last. -/
def counterHints (setup : Setup) (n : Nat) (complete : Bool) : Checked Unit := do
  let base ← minus (← get).stack.size n
  let values ← (← get).stack.top n
  match ← (← get).counters.extend? values with
  | none => fail .badCounterControl
  | some counters =>
    modify fun m => { m with counters, stack := m.stack.truncate base }
    if complete then reportCounters setup

/-! ## Other subroutines -/

/-- Copies the weights of the masters into cells from an index on. -/
def storeWeights (setup : Setup) : Checked Unit := do
  let masters := setup.font.masters
  if Storage.maxMasters < masters then fail .invalidWeightVector
  let i ← pop
  let (cell, n) ← orFail .boundsCheck (Number.range? i (Number.ofInt masters) Storage.cellCount)
  let storage := (← get).rest.storage
  let values ← slice storage.weights 0 masters
  let cells ← copyInto storage.cells cell (cell + n) values
  aside (modify ({ · with storage := { storage with cells } }))

/-- Performs an other subroutine with `n` arguments. -/
def performOtherSubr (setup : Setup) (n : Nat) : OtherSubr → Checked Unit
  | .endFlex => endFlex setup n
  | .startFlex => do
    aside (modify (·.startFlex))
    modify fun m => { m with flex := m.flex.clear }
  | .flexPoint => pure ()
  | .renewHints => aside (modify (·.renewHints))
  | .counterHints complete => counterHints setup n complete
  | .blend k => blend setup k
  | .storeWeights => storeWeights setup
  | .calculate op => calculate op

/-- Calls the other subroutine that the top operand selects. -/
def callOtherSubr (setup : Setup) : Checked Unit := do
  require 2
  let v ← popAll 2
  let n ← orFail .boundsCheck v.first.toIndex?
  require n
  let selector ← orFail .invalidOtherSubr v.second.truncate?
  match OtherSubr.ofSelector? selector with
  | some subr =>
    require (subr.arity n)
    performOtherSubr setup n subr
  | none => aside (Decode.refuse (.unknownOtherSubr selector) .invalidOtherSubr)

/-! ## Operators and instructions -/

/-- Reads `n` operands from the bottom of the stack, changes the state by them, and clears the
stack. -/
def draw (n : Nat) (f : Vector Number n → Decoder → Decoder) : Checked Control := do
  let v ← arguments n
  aside (modify (f v))
  clear
  return .next

/-- Reads `n` operands from the bottom of the stack, moves by them, and clears the stack. -/
def moveWith (n : Nat) (delta : Vector Number n → Point) : Checked Control := do
  let v ← arguments n
  move (delta v)
  clear
  return .next

/-- Reports the stem `i` of three. -/
def hintStemAt (setup : Setup) (kind : StemKind) (i : Nat) : Checked Unit := do
  let position ← operand (← times i 2)
  let extent ← operand (← plus (← times i 2) 1)
  aside (modify (.hintStem setup kind position extent))

/-- Reports three stems, one after the other, and clears the stack. -/
def hintStems (setup : Setup) (kind : StemKind) : Checked Control := do
  require 6
  hintStemAt setup kind 0
  hintStemAt setup kind 1
  hintStemAt setup kind 2
  clear
  return .next

/-- Executes an operator. -/
def perform (setup : Setup) : Operator → Checked Control
  | .hstem => draw 2 fun v => .hintStem setup {} v.first v.second
  | .vstem => draw 2 fun v => .hintStem setup { vertical := true } v.first v.second
  | .hstem3 => hintStems setup { triple := true }
  | .vstem3 => hintStems setup { vertical := true, triple := true }
  | .rmoveto => moveWith 2 fun v => ⟨v.first, v.second⟩
  | .hmoveto => moveWith 1 fun v => ⟨v.first, 0⟩
  | .vmoveto => moveWith 1 fun v => ⟨0, v.first⟩
  | .rlineto => draw 2 fun v => .lineBy ⟨v.first, v.second⟩
  | .hlineto => draw 1 fun v => .lineBy ⟨v.first, 0⟩
  | .vlineto => draw 1 fun v => .lineBy ⟨0, v.first⟩
  | .rrcurveto => draw 6 fun v =>
    .curveBy setup ⟨v.first, v.second⟩ ⟨v.third, v.fourth⟩ ⟨v.fifth, v.sixth⟩
  | .vhcurveto => draw 4 fun v => .curveBy setup ⟨0, v.first⟩ ⟨v.second, v.third⟩ ⟨v.fourth, 0⟩
  | .hvcurveto => draw 4 fun v => .curveBy setup ⟨v.first, 0⟩ ⟨v.second, v.third⟩ ⟨0, v.fourth⟩
  | .closepath => draw 0 fun _ d => { d with moveDue := true }
  | .setcurrentpoint => draw 2 fun v => .setPoint ⟨v.first, v.second⟩
  | .dotsection => draw 0 fun _ => .report (.operator dotsectionCode [])
  | .hsbw => do
    let v ← arguments 2
    clear
    aside (Decode.metrics setup ⟨v.first, 0⟩ v.second)
  | .sbw => do
    let v ← arguments 4
    clear
    aside (Decode.metrics setup ⟨v.first, v.second⟩ v.third)
  | .seac => do
    let v ← arguments 5
    clear
    aside (Decode.accented setup v)
  | .callsubr => do
    let index ← pop
    return .call (← orFail .invalidSubr (index.toIndex?.bind (setup.font.subrs[·]?)))
  | .returnToCaller => return .leave .returned
  | .endchar => do
    clear
    return .leave .finished
  | .blend => do
    let n ← orFail .boundsCheck (← pop).toIndex?
    blend setup n
    return .next
  | .callothersubr => do
    callOtherSubr setup
    return .next
  | .pop => return .next
  | .calculate op => do
    calculate op
    return .next
  | .unknown code => aside (Decode.refuse (.unknownOperator code) .invalidOperator)

/-- Executes an instruction. The operands that an operator finds are listed in the history. -/
def execute (setup : Setup) : Instruction → Checked Control
  | .number value => do
    push value
    return .next
  | .operator op => do
    let operands ← (← get).stack.contents
    aside (modify (·.record (.began op operands)))
    perform setup op
  | .reserved byte => aside (Decode.refuse (.reservedByte byte) .invalidOperator)

end Checked

end Type1
