import Type1.Event
import Type1.Font
import Type1.Operands
import Type1.Storage

/-!
# The state of a decoding

* `Decoder`: everything that the operators read and write, and the history so far.
* `Part`: whether the glyph itself is decoded or one of the two parts of an accented character, with
  the positions that depend on it.
* `Decode`: a computation on the state that may fail. A failure keeps the state that it happened in,
  so the history up to it is not lost.
* `push`, `pushAll`, `take`, `arguments`, `require`, `clear`: the operand stack.
* `pushAll_run`, `take_run`, `arguments_run` and their counterparts for a stack that is full or too
  short: what each does, in terms of the stack's own operations.
-/

namespace Type1

/-- The glyph or the part of an accented character that is being decoded. -/
inductive Part where
  /-- The glyph itself. -/
  | glyph
  /-- The base character, with the side bearing that it gave. -/
  | base (bearing : Point)
  /-- The accent, with the side bearing that it gave, its shift, and whether the current point
  includes the shift already. -/
  | accent (bearing shift : Point) (placed : Bool)
deriving DecidableEq, Inhabited

/-- The points of a flex that moves collect. -/
structure Flex where
  /-- Moves collect points now. -/
  active : Bool := false
  /-- The point that the moves have reached. -/
  reach : Point := .zero
  /-- The points collected, the first one first. -/
  points : List Point := []
deriving DecidableEq, Inhabited

/-- The most points that a flex collects, one more than a complete flex has. -/
def Flex.capacity : Nat := 8

/-- The number of coordinates collected. -/
def Flex.coordinates (f : Flex) : Nat := 2 * f.points.length

/-- Everything that the operators of a charstring read and write. -/
structure Decoder where
  /-- The operand stack. -/
  operands : Operands := .empty
  /-- The current point. -/
  point : Point := .zero
  /-- The side bearing of the glyph. -/
  bearing : Point := .zero
  /-- The advance width of the glyph, once it is known. -/
  width : Option Number := none
  /-- What is being decoded. -/
  part : Part := .glyph
  /-- The codes of the parts, once the glyph turned out to be an accented character. -/
  components : Option Components := none
  /-- The next line or curve has to start a contour. -/
  moveDue : Bool := true
  /-- A contour was started. -/
  moved : Bool := false
  /-- The next stem starts a new set of hints. -/
  hintsDue : Bool := false
  /-- A new set of hints was asked for. -/
  hintsRenewed : Bool := false
  /-- The next stem starts a counter group. -/
  groupDue : Bool := false
  /-- Values were blended. -/
  blended : Bool := false
  /-- The flex that is being collected, or the last one. -/
  flex : Flex := {}
  /-- The counter hints collected so far. -/
  counters : List Number := []
  /-- The cells and registers. -/
  storage : Storage
  /-- The seed of the next random number. -/
  seed : UInt32 := 1
  /-- What came about so far. -/
  history : Array Event := #[]
deriving DecidableEq

/-- The most counter hint values that are collected. -/
def counterCapacity : Nat := 96

namespace Decoder

/-- The state in which a charstring of a font begins. -/
def start (font : Font) : Decoder where
  storage := .ofVectors font.weights font.normalizedDesign font.userDesign

/-- The state after an event. -/
def record (event : Event) (d : Decoder) : Decoder :=
  { d with history := d.history.push event }

/-- The state after calls of the source. -/
def recordCalls (calls : List Source.Call) (d : Decoder) : Decoder :=
  calls.foldl (fun d call => d.record (.called call)) d

/-- The state after the glyph got an element. -/
def report (e : Element) (d : Decoder) : Decoder := d.record (.element e)

end Decoder

/-- A computation on the state of a decoding that may fail. -/
abbrev Decode := EStateM Error Decoder

namespace Decode

/-- Makes a remark. -/
def note (n : Note) : Decode Unit := modify (·.record (.noted n))

/-- Makes a remark and fails. -/
def refuse {α : Type} (n : Note) (e : Error) : Decode α := do
  note n
  throw e

/-- The value of an option, or a failure. -/
def orFail {α : Type} (e : Error) : Option α → Decode α
  | some a => pure a
  | none => throw e

/-- Fails unless there are at least `n` operands. -/
def require (n : Nat) : Decode Unit := do
  if (← get).operands.size < n then throw .stackUnderflow

/-- Puts values on top of the operand stack, the last one topmost. -/
def pushAll (values : List Number) : Decode Unit := do
  let operands ← orFail .stackOverflow ((← get).operands.append? values)
  modify ({ · with operands })

/-- Puts a value on top of the operand stack. -/
def push (value : Number) : Decode Unit := pushAll [value]

/-- Takes the top `n` operands, which come in the order in which they were put there. -/
def take (n : Nat) : Decode (Vector Number n) := do
  let (operands, values) ← orFail .stackUnderflow ((← get).operands.split? n)
  modify ({ · with operands })
  pure values

/-- The lowest `n` operands, which stay where they are. -/
def arguments (n : Nat) : Decode (Vector Number n) := do
  orFail .stackUnderflow ((← get).operands.bottom? n)

/-- Removes all operands. -/
def clear : Decode Unit := modify ({ · with operands := .empty })

/-! ## What the stack operations do -/

section Run

variable {α β : Type} {d : Decoder} {n : Nat}

theorem bind_run {x : Decode α} {k : α → Decode β} {a : α} {e : Decoder} (h : x d = .ok a e) :
    (x >>= k) d = k a e := by
  show EStateM.bind x k d = _
  rw [EStateM.bind, h]

theorem bind_run_error {x : Decode α} {k : α → Decode β} {y : Error} {e : Decoder}
    (h : x d = .error y e) : (x >>= k) d = .error y e := by
  show EStateM.bind x k d = _
  rw [EStateM.bind, h]

theorem get_bind_run {k : Decoder → Decode β} : (get >>= k) d = k d d := rfl

theorem modify_bind_run {f : Decoder → Decoder} {k : Unit → Decode β} :
    (modify f >>= k) d = k () (f d) := rfl

theorem require_run (h : n ≤ d.operands.size) : require n d = .ok () d := by
  rw [require, get_bind_run, if_neg (Nat.not_lt.2 h)]
  rfl

theorem require_run_short (h : d.operands.size < n) : require n d = .error .stackUnderflow d := by
  rw [require, get_bind_run, if_pos h]
  rfl

theorem pushAll_run {values : List Number} {operands : Operands}
    (h : d.operands.append? values = some operands) :
    pushAll values d = .ok () { d with operands } := by
  rw [pushAll, get_bind_run, h]
  rfl

theorem pushAll_run_full {values : List Number}
    (h : Operands.capacity < d.operands.size + values.length) :
    pushAll values d = .error .stackOverflow d := by
  rw [pushAll, get_bind_run, Operands.append?_eq_none_iff.2 h]
  rfl

theorem take_run {operands : Operands} {v : Vector Number n}
    (h : d.operands.split? n = some (operands, v)) : take n d = .ok v { d with operands } := by
  rw [take, get_bind_run, h]
  rfl

theorem take_run_short (h : d.operands.size < n) : take n d = .error .stackUnderflow d := by
  rw [take, get_bind_run, Operands.split?_eq_none_iff.2 h]
  rfl

theorem arguments_run {v : Vector Number n} (h : d.operands.bottom? n = some v) :
    arguments n d = .ok v d := by
  rw [arguments, get_bind_run, h]
  rfl

theorem arguments_run_short (h : d.operands.size < n) :
    arguments n d = .error .stackUnderflow d := by
  rw [arguments, get_bind_run, Operands.bottom?_eq_none_iff.2 h]
  rfl

end Run

end Decode

end Type1
