import Type1.Decoder

/-!
# Calculations

The operators that work on the operand stack and the storage alone. Results stay on the stack.

* `rotate`: the values with the last few moved to the front.
* `Decode.roll`, `Decode.index`: rearranging the stack by counts that are operands themselves.
* `Decode.calculate`: all calculations.
* `nextSeed`, `randomOf`: random numbers, which are the same for every glyph.
-/

namespace Type1

/-- The values moved up by `j` places, those at the end coming round to the front. A negative `j`
moves them down. -/
def rotate (j : Int) (values : List Number) : List Number :=
  let k := values.length - (j % values.length).toNat
  values.drop k ++ values.take k

/-- Moving values keeps their number. -/
theorem length_rotate (j : Int) (values : List Number) :
    (rotate j values).length = values.length := by
  rw [rotate, List.length_append, Nat.add_comm, ← List.length_append, List.take_append_drop]

/-- The seed that follows a seed. -/
def nextSeed (seed : UInt32) : UInt32 := seed * 1103515245 + 12345

/-- The random number of a seed, above 0 and up to 1. -/
def randomOf (seed : UInt32) : Number := (((seed >>> 16) &&& 0x7fff) + 1).toFloat32 / 32768

namespace Decode

/-- Replaces the top operand. -/
def unary (f : Number → Number) : Decode Unit := do
  let v ← take 1
  push (f v.first)

/-- Replaces the two top operands by one. -/
def binary (f : Number → Number → Number) : Decode Unit := do
  let v ← take 2
  push (f v.first v.second)

/-- The operand as an index or a count. -/
def toIndex (v : Number) : Decode Nat := orFail .boundsCheck v.toIndex?

/-- Puts a copy of the operand `i` below the top on the stack; a negative `i` stands for the top. -/
def index (i : Int) : Decode Unit := do
  push (← orFail .boundsCheck ((← get).operands.fromTop? i.toNat))

/-- Moves each of the top `n` operands up by `j` places, the topmost coming round to the bottom. -/
def roll (n j : Int) : Decode Unit := do
  if 0 < n ∧ n ≤ (← get).operands.size then
    let values ← take n.toNat
    pushAll (rotate j values.toList)
  else
    throw .boundsCheck

/-- Writes cells into a register: its number, the start in it, the first cell, and how many. -/
def store (v : Vector Number 4) : Decode Unit := do
  let register ← orFail .boundsCheck (Register.ofNumber? v.first)
  let (cell, n) ← orFail .boundsCheck (Number.range? v.third v.fourth Storage.cellCount)
  let (start, _) ← orFail .boundsCheck (Number.range? v.second v.fourth register.size)
  modify fun d =>
    { d with storage := d.storage.writeRegister register start (segment d.storage.cells cell n) }

/-- Writes the beginning of a register into cells: its number, the first cell, and how many. -/
def load (v : Vector Number 3) : Decode Unit := do
  let register ← orFail .boundsCheck (Register.ofNumber? v.first)
  let (cell, n) ← orFail .boundsCheck (Number.range? v.second v.third Storage.cellCount)
  -- A register is read from its beginning, so that only the count has to fit.
  let _ ← orFail .boundsCheck (Number.range? 0 v.third register.size)
  modify fun d =>
    { d with storage := d.storage.writeCells cell (segment (d.storage.register register) 0 n) }

/-- Performs a calculation. -/
def calculate : Calculation → Decode Unit
  | .and => binary fun a b => .ofBool (a != 0 && b != 0)
  | .or => binary fun a b => .ofBool (a != 0 || b != 0)
  | .not => unary fun a => .ofBool (a == 0)
  | .eq => binary fun a b => .ofBool (a == b)
  | .abs => unary Float32.abs
  | .neg => unary (- ·)
  | .add => binary (· + ·)
  | .sub => binary (· - ·)
  | .mul => binary (· * ·)
  | .div => binary (· / ·)
  | .sqrt => do
    let v ← take 1
    if v.first < 0 then throw .sqrtDomain
    push v.first.sqrt
  | .drop => do
    let _ ← take 1
  | .dup => do
    let v ← take 1
    pushAll [v.first, v.first]
  | .exch => do
    let v ← take 2
    pushAll [v.second, v.first]
  | .index => do
    require 2
    let v ← take 1
    index (← orFail .boundsCheck v.first.truncate?)
  | .roll => do
    let v ← take 2
    roll (← orFail .boundsCheck v.first.truncate?) (← orFail .boundsCheck v.second.truncate?)
  | .put => do
    let v ← take 2
    let i ← toIndex v.second
    if i < Storage.cellCount then
      modify fun d => { d with storage := d.storage.writeCells i [v.first] }
    else
      throw .boundsCheck
  | .get => do
    let v ← take 1
    let i ← toIndex v.first
    push (← orFail .boundsCheck (← get).storage.cells[i]?)
  | .ifelse => do
    let v ← take 4
    push (if v.third ≤ v.fourth then v.first else v.second)
  | .random => do
    let seed := nextSeed (← get).seed
    modify ({ · with seed })
    push (randomOf seed)
  | .store => do
    store (← take 4)
  | .load => do
    load (← take 3)

end Decode

end Type1
