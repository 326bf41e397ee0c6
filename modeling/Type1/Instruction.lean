import Type1.Cursor
import Type1.Number
import Type1.Operator

/-!
# Instructions

The bytes of a charstring are a sequence of instructions: numbers, operators and reserved bytes. The
first byte of an instruction tells how many more it has, so where the next one begins does not
depend on what is executed.

* `Instruction.ofBytes`: the instruction of a first byte and the bytes after it.
* `Cursor.readInstruction`: reads one; `Cursor.readInstruction_lt`: the cursor moves on.
* `encodeShort`, `encodeLong`: the bytes of an integer.
-/

namespace Type1

/-- One step of a charstring. -/
inductive Instruction where
  /-- An operand to push. -/
  | number (value : Number)
  /-- An operator to execute. -/
  | operator (op : Operator)
  /-- A byte that no operator has. -/
  | reserved (byte : UInt8)
deriving DecidableEq

namespace Instruction

/-- The number of bytes that follow a first byte. -/
def following (first : UInt8) : Nat :=
  if first = 12 then 1
  else if first < 247 then 0
  else if first < 255 then 1
  else 4

/-- The integer of four bytes in two's complement, the most significant first. -/
def word (b₀ b₁ b₂ b₃ : UInt8) : Int :=
  let n : Int := ((b₀.toNat * 256 + b₁.toNat) * 256 + b₂.toNat) * 256 + b₃.toNat
  if n < 2147483648 then n else n - 4294967296

/-- The instruction that a first byte begins, given the `following first` bytes after it. -/
def ofBytes (first : UInt8) : List UInt8 → Instruction
  | [] =>
    if first < 32 then
      match Operator.ofByte? first with
      | some op => operator op
      | none => reserved first
    else number (Number.ofInt ((first.toNat : Int) - 139))
  | [b] =>
    if first = 12 then operator (Operator.ofEscape b)
    else if first < 251 then
      number (Number.ofInt (((first.toNat : Int) - 247) * 256 + b.toNat + 108))
    else number (Number.ofInt (-((first.toNat : Int) - 251) * 256 - b.toNat - 108))
  | [b₀, b₁, b₂, b₃] => number (Number.ofInt (word b₀ b₁ b₂ b₃))
  | _ => reserved first

/-- The five bytes of an integer of at most 32 bits. -/
def encodeLong (n : Int) : List UInt8 :=
  let w := (n % 4294967296).toNat
  [255, (w / 16777216).toUInt8, (w / 65536).toUInt8, (w / 256).toUInt8, w.toUInt8]

/-- The fewest bytes of an integer of at most 32 bits: one up to 107 in magnitude, two up to 1131,
and otherwise five. -/
def encodeShort (n : Int) : List UInt8 :=
  if -107 ≤ n ∧ n ≤ 107 then [(n + 139).toNat.toUInt8]
  else if 108 ≤ n ∧ n ≤ 1131 then
    let m := (n - 108).toNat
    [(m / 256 + 247).toUInt8, m.toUInt8]
  else if -1131 ≤ n ∧ n ≤ -108 then
    let m := (-n - 108).toNat
    [(m / 256 + 251).toUInt8, m.toUInt8]
  else encodeLong n

end Instruction

/-- Reads the instruction at the position of the cursor. -/
def Cursor.readInstruction {s : Source} (c : Cursor s) : Reading s Instruction :=
  c.readByte.bind fun first next =>
    (readBytes (Instruction.following first) next).map (Instruction.ofBytes first)

/-- An instruction takes the cursor further. -/
theorem Cursor.readInstruction_lt {s : Source} {c next : Cursor s} {i : Instruction}
    {calls : List Source.Call} (h : c.readInstruction = .done i next calls) :
    c.position < next.position := by
  unfold readInstruction at h
  have hb := endsAt_readByte c
  cases hr : c.readByte with
  | failed => simp [hr, Reading.bind] at h
  | done first mid _ =>
    rw [hr] at h hb
    have hm := (endsAt_readBytes (Instruction.following first) mid).map (Instruction.ofBytes first)
    have hn := hm.after ‹_›
    simp only [Reading.bind] at h
    rw [h] at hn
    simp only [Reading.EndsAt] at hb hn
    omega

end Type1
