import Type1.Number

/-!
# The operand stack

`Operands` holds at most 48 numbers, listed from the bottom of the stack to its top.

* `append?`: puts numbers on top, if there is room.
* `split?`: takes numbers off the top; they come in the order in which they were put there.
* `bottom?`: looks at the lowest numbers, from which the drawing operators read.
* `split?_append?`: what was put on top can be taken off again.
* `Vector.first` to `Vector.sixth`: the operands of an operator by their position.
-/

namespace Vector

variable {α : Type} {n : Nat}

/-- The item at the first position. -/
def first (v : Vector α (n + 1)) : α := v[0]

/-- The item at the second position. -/
def second (v : Vector α (n + 2)) : α := v[1]

/-- The item at the third position. -/
def third (v : Vector α (n + 3)) : α := v[2]

/-- The item at the fourth position. -/
def fourth (v : Vector α (n + 4)) : α := v[3]

/-- The item at the fifth position. -/
def fifth (v : Vector α (n + 5)) : α := v[4]

/-- The item at the sixth position. -/
def sixth (v : Vector α (n + 6)) : α := v[5]

end Vector

namespace Type1

/-- The number of operands that a stack has room for. -/
def Operands.capacity : Nat := 48

/-- The operand stack, from its bottom to its top. -/
structure Operands where
  /-- The operands, the lowest first. -/
  toList : List Number
  /-- There is room for all of them. -/
  length_le : toList.length ≤ Operands.capacity
deriving DecidableEq

namespace Operands

/-- The stack without operands. -/
def empty : Operands := ⟨[], Nat.zero_le _⟩

instance : Inhabited Operands := ⟨empty⟩

/-- The number of operands. -/
def size (s : Operands) : Nat := s.toList.length

/-- The stack with values on top, the last one topmost, if it has room for all of them. -/
def append? (s : Operands) (values : List Number) : Option Operands :=
  if h : s.size + values.length ≤ capacity then
    some ⟨s.toList ++ values, by rw [List.length_append]; exact h⟩
  else
    none

/-- The stack without its top `n` operands, and these, if there are as many. -/
def split? (s : Operands) (n : Nat) : Option (Operands × Vector Number n) :=
  if h : n ≤ s.size then
    some (⟨s.toList.take (s.size - n), by
        have := s.length_le; rw [List.length_take]; omega⟩,
      ⟨(s.toList.drop (s.size - n)).toArray, by
        unfold size at h ⊢; rw [List.size_toArray, List.length_drop]; omega⟩)
  else
    none

/-- The lowest `n` operands, if there are as many. -/
def bottom? (s : Operands) (n : Nat) : Option (Vector Number n) :=
  if h : n ≤ s.size then
    some ⟨(s.toList.take n).toArray, by
      unfold size at h; rw [List.size_toArray, List.length_take]; omega⟩
  else
    none

/-- The operand `i` below the top, if the stack goes down so far. -/
def fromTop? (s : Operands) (i : Nat) : Option Number := s.toList.reverse[i]?

theorem ext {s t : Operands} (h : s.toList = t.toList) : s = t := by
  cases s
  cases t
  cases h
  rfl

/-- Values find no room exactly if the stack would grow past its capacity. -/
theorem append?_eq_none_iff {s : Operands} {values : List Number} :
    s.append? values = none ↔ capacity < s.size + values.length := by
  simp [append?]

/-- Operands are missing exactly if the stack has fewer. -/
theorem split?_eq_none_iff {s : Operands} {n : Nat} : s.split? n = none ↔ s.size < n := by
  simp [split?]

/-- The lowest operands are missing exactly if the stack has fewer. -/
theorem bottom?_eq_none_iff {s : Operands} {n : Nat} : s.bottom? n = none ↔ s.size < n := by
  simp [bottom?]

/-- What was put on top can be taken off again, and leaves the stack as it was. -/
theorem split?_append? {s t : Operands} {values : List Number} (h : s.append? values = some t) :
    t.split? values.length = some (s, ⟨values.toArray, List.size_toArray⟩) := by
  unfold append? at h
  split at h
  · cases h
    have hn : (s.toList ++ values).length - values.length = s.toList.length := by simp
    simp [split?, size]
  · simp at h

end Operands

end Type1
