import Type1.Number

/-!
# Storage of a glyph program

A glyph program of a font with several masters computes in a store of 32 cells and three registers:
the weights of the masters, and the design coordinates in two scales.

* `overwrite`, `segment`: writing and reading a run of neighbouring cells.
* `Register.ofNumber?`: the register that an operand names.
* `Storage.ofVectors`: the store with which a glyph begins: its cells are zero, and the registers
  hold the vectors of the font as far as these go.
-/

namespace Type1

/-- The cells with a list of values written from a start on; values past the end go nowhere. -/
def overwrite {n : Nat} (cells : Vector Number n) (start : Nat) (values : List Number) :
    Vector Number n :=
  Vector.ofFn fun k =>
    if h : start ≤ k.val ∧ k.val - start < values.length then values[k.val - start]
    else cells[k]

/-- The values of `count` cells from a start on. -/
def segment {n : Nat} (cells : Vector Number n) (start count : Nat) : List Number :=
  (cells.toList.drop start).take count

/-- The number of cells. -/
abbrev Storage.cellCount : Nat := 32

/-- The most masters that a font can have. -/
abbrev Storage.maxMasters : Nat := 16

/-- The most design coordinates that a font can have. -/
abbrev Storage.maxAxes : Nat := 4

/-- A register of a glyph program. -/
inductive Register where
  /-- The weight of each master. -/
  | weights
  /-- The design coordinates, each between 0 and 1. -/
  | normalizedDesign
  /-- The design coordinates as the user gives them. -/
  | userDesign
deriving DecidableEq, Repr

namespace Register

/-- The number of cells of a register. -/
abbrev size : Register → Nat
  | weights => Storage.maxMasters
  | normalizedDesign => Storage.maxAxes
  | userDesign => Storage.maxAxes

/-- The register that an operand names. -/
def ofNumber? (v : Number) : Option Register :=
  match v.truncate? with
  | some 0 => some weights
  | some 1 => some normalizedDesign
  | some 2 => some userDesign
  | _ => none

end Register

/-- The cells and the registers of a glyph program. -/
structure Storage where
  /-- The cells that `put` and `get` reach. -/
  cells : Vector Number Storage.cellCount
  /-- The weight of each master. -/
  weights : Vector Number Storage.maxMasters
  /-- The design coordinates, each between 0 and 1. -/
  normalizedDesign : Vector Number Storage.maxAxes
  /-- The design coordinates as the user gives them. -/
  userDesign : Vector Number Storage.maxAxes
deriving DecidableEq

namespace Storage

/-- As many cells as needed, filled from a list; missing values are zero, and excess is dropped. -/
def fill (n : Nat) (values : List Number) : Vector Number n :=
  Vector.ofFn fun k => values.getD k.val 0

/-- The store with which a glyph begins. -/
def ofVectors (weights normalizedDesign userDesign : List Number) : Storage where
  cells := Vector.replicate cellCount 0
  weights := fill maxMasters weights
  normalizedDesign := fill maxAxes normalizedDesign
  userDesign := fill maxAxes userDesign

/-- The cells of a register. -/
def register (m : Storage) : (r : Register) → Vector Number r.size
  | .weights => m.weights
  | .normalizedDesign => m.normalizedDesign
  | .userDesign => m.userDesign

/-- The store with values written into a register from a start on. -/
def writeRegister (m : Storage) (r : Register) (start : Nat) (values : List Number) : Storage :=
  match r with
  | .weights => { m with weights := overwrite m.weights start values }
  | .normalizedDesign => { m with normalizedDesign := overwrite m.normalizedDesign start values }
  | .userDesign => { m with userDesign := overwrite m.userDesign start values }

/-- The store with values written into the cells from a start on. -/
def writeCells (m : Storage) (start : Nat) (values : List Number) : Storage :=
  { m with cells := overwrite m.cells start values }

end Storage

end Type1
