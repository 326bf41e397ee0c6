import Mathlib.Algebra.Group.Nat.Defs
import Type1.Error
import Type1.Storage

/-!
# Arrays with checked accesses

Each access to an array and each sum or difference of lengths is checked here, and one that does not
fit is a `Fault`. A fault is no error of a charstring, and a program without faults needs none of
the checks.

* `Guarded`: computations that may stop with a fault or fail with an error.
* `plus`, `minus`, `times`, `read`, `write`, `slice`, `copyInto`: the checked operations, each with
  the condition under which it has no fault (`*_run`).
* `Buffer`: an array with the number of its cells that are in use, as a stack and as an accumulator.
  `b.Holds l`: the cells in use are those of the list `l`. Under it an operation on `b` does to `l`
  what its lemma states, for all lengths, or fails with an error.
-/

namespace Type1

/-- A condition of an operation that does not hold. -/
inductive Fault where
  /-- An index is past the end of its array. -/
  | index
  /-- A range does not lie in its array. -/
  | slice
  /-- Source and target of a copy differ in length. -/
  | lengths
  /-- A result is no number of its type. -/
  | arithmetic
  /-- An assertion does not hold. -/
  | assertion
deriving DecidableEq, Repr

/-- Why a computation stops early. -/
inductive Stop where
  /-- A condition does not hold. -/
  | fault (f : Fault)
  /-- The charstring is in error. -/
  | failed (e : Error)
deriving DecidableEq, Repr

/-- A computation that checks the conditions of its operations. -/
abbrev Guarded (σ : Type) := EStateM Stop σ

namespace Guarded

variable {σ α β : Type}

/-- Fails with an error of the charstring. -/
def fail (e : Error) : Guarded σ α := throw (.failed e)

/-- Stops unless a condition holds. -/
def ensure (f : Fault) (p : Prop) [Decidable p] : Guarded σ Unit :=
  if p then pure () else throw (.fault f)

/-- The value of an option, or an error. -/
def orFail (e : Error) : Option α → Guarded σ α
  | some a => pure a
  | none => fail e

/-- The number of values of a machine word. -/
abbrev wordSize : Nat := 2 ^ 64

/-- The sum of two words. -/
def plus (a b : Nat) : Guarded σ Nat := do
  ensure .arithmetic (a + b < wordSize)
  pure (a + b)

/-- The difference of two words. -/
def minus (a b : Nat) : Guarded σ Nat := do
  ensure .arithmetic (b ≤ a)
  pure (a - b)

/-- The product of two words. -/
def times (a b : Nat) : Guarded σ Nat := do
  ensure .arithmetic (a * b < wordSize)
  pure (a * b)

/-- The cell at an index. -/
def read {n : Nat} (cells : Vector α n) (i : Nat) : Guarded σ α :=
  if h : i < n then pure cells[i] else throw (.fault .index)

/-- The item of a list at an index. -/
def item (l : List α) (i : Nat) : Guarded σ α :=
  if h : i < l.length then pure l[i] else throw (.fault .index)

/-- A signed integer of 16 bits. -/
def short (n : Int) : Guarded σ Int := do
  ensure .arithmetic (-32768 ≤ n ∧ n < 32768)
  pure n

/-- The cells with one of them changed. -/
def write {n : Nat} (cells : Vector α n) (i : Nat) (v : α) : Guarded σ (Vector α n) :=
  if h : i < n then pure (cells.set i v) else throw (.fault .index)

/-- The cells from `i` up to but excluding `j`. -/
def slice {n : Nat} (cells : Vector Number n) (i j : Nat) : Guarded σ (List Number) := do
  ensure .slice (i ≤ j ∧ j ≤ n)
  pure (segment cells i (j - i))

/-- The cells with those from `i` up to but excluding `j` replaced by as many values. -/
def copyInto {n : Nat} (cells : Vector Number n) (i j : Nat) (values : List Number) :
    Guarded σ (Vector Number n) := do
  ensure .slice (i ≤ j ∧ j ≤ n)
  ensure .lengths (values.length = j - i)
  pure (overwrite cells i values)

/-! ## Runs of the operations -/

section Run

variable {s t : σ} {n i j : Nat}

theorem bind_ok {ε : Type} {x : EStateM ε σ α} {k : α → EStateM ε σ β} {a : α}
    (h : x s = .ok a t) : (x >>= k) s = k a t := by
  show EStateM.bind x k s = _
  rw [EStateM.bind, h]

theorem bind_error {ε : Type} {x : EStateM ε σ α} {k : α → EStateM ε σ β} {e : ε}
    (h : x s = .error e t) : (x >>= k) s = .error e t := by
  show EStateM.bind x k s = _
  rw [EStateM.bind, h]

theorem bind_congr {ε : Type} {x y : EStateM ε σ α} {k : α → EStateM ε σ β} (h : x s = y s) :
    (x >>= k) s = (y >>= k) s := by
  show EStateM.bind x k s = EStateM.bind y k s
  rw [EStateM.bind, h, EStateM.bind]

theorem get_bind {ε : Type} {k : σ → EStateM ε σ α} : (get >>= k) s = k s s := rfl

theorem modify_bind {ε : Type} {f : σ → σ} {k : Unit → EStateM ε σ α} :
    (modify f >>= k) s = k () (f s) := rfl

theorem ensure_run {f : Fault} {p : Prop} [Decidable p] (h : p) : ensure f p s = .ok () s := by
  rw [ensure, if_pos h]
  rfl

theorem orFail_run {e : Error} {a : α} : orFail e (some a) s = .ok a s := rfl

theorem plus_run (h : i + j < wordSize) : plus i j s = .ok (i + j) s :=
  (bind_ok (ensure_run h)).trans rfl

theorem minus_run (h : j ≤ i) : minus i j s = .ok (i - j) s :=
  (bind_ok (ensure_run h)).trans rfl

theorem times_run (h : i * j < wordSize) : times i j s = .ok (i * j) s :=
  (bind_ok (ensure_run h)).trans rfl

theorem read_run {cells : Vector α n} (h : i < n) : read cells i s = .ok cells[i] s := by
  rw [read, dif_pos h]
  rfl

theorem item_run {l : List α} (h : i < l.length) : item l i s = .ok l[i] s := by
  rw [item, dif_pos h]
  rfl

theorem short_run {n : Int} (h : -32768 ≤ n ∧ n < 32768) : short n s = .ok n s :=
  (bind_ok (ensure_run h)).trans rfl

theorem write_run {cells : Vector α n} {v : α} (h : i < n) :
    write cells i v s = .ok (cells.set i v) s := by
  rw [write, dif_pos h]
  rfl

theorem slice_run {cells : Vector Number n} (hij : i ≤ j) (hj : j ≤ n) :
    slice cells i j s = .ok (segment cells i (j - i)) s :=
  (bind_ok (ensure_run ⟨hij, hj⟩)).trans rfl

theorem copyInto_run {cells : Vector Number n} {values : List Number} (h : i + values.length = j)
    (hj : j ≤ n) : copyInto cells i j values s = .ok (overwrite cells i values) s :=
  (bind_ok (ensure_run ⟨by omega, hj⟩)).trans ((bind_ok (ensure_run (by omega))).trans rfl)

end Run

end Guarded

/-! ## Cells as lists -/

theorem length_segment {n start count : Nat} {cells : Vector Number n} (h : start + count ≤ n) :
    (segment cells start count).length = count := by
  rw [segment, List.length_take, List.length_drop, Vector.length_toList]
  omega

theorem getElem_eq_of_toList {α : Type} {n k : Nat} {cells : Vector α n} {l : List α}
    (h : cells.toList = l) (hk : k < n) (hl : k < l.length) : cells[k] = l[k] := by
  subst h
  rw [Vector.getElem_toList]

/-- Values written into a list of cells. -/
theorem toList_overwrite {n : Nat} {cells : Vector Number n} {front values rest : List Number}
    (h : cells.toList = front ++ rest) (hle : values.length ≤ rest.length) :
    (overwrite cells front.length values).toList =
      front ++ values ++ rest.drop values.length := by
  have hlen := congrArg List.length h
  rw [Vector.length_toList, List.length_append] at hlen
  refine List.ext_getElem ?_ fun k hk _ => ?_
  · simp only [Vector.length_toList, List.length_append, List.length_drop]
    omega
  rw [Vector.length_toList] at hk
  simp only [Vector.getElem_toList, overwrite, Vector.getElem_ofFn, Fin.getElem_fin,
    getElem_eq_of_toList h hk (by rw [List.length_append]; omega)]
  by_cases hfront : k < front.length
  · rw [dif_neg (by omega), List.getElem_append_left hfront,
      List.getElem_append_left (by rw [List.length_append]; omega),
      List.getElem_append_left hfront]
  by_cases hvalues : k - front.length < values.length
  · rw [dif_pos ⟨by omega, hvalues⟩, List.getElem_append_left (by rw [List.length_append]; omega),
      List.getElem_append_right (by omega)]
  · rw [dif_neg (by omega), List.getElem_append_right (by omega),
      List.getElem_append_right (by rw [List.length_append]; omega), List.getElem_drop]
    congr 1
    rw [List.length_append]
    omega

/-! ## Buffers -/

/-- An array with the number of its cells that are in use. -/
structure Buffer (n : Nat) where
  /-- The cells. -/
  cells : Vector Number n
  /-- The number of cells in use, which are the first. -/
  size : Nat

namespace Buffer

open Guarded

variable {σ : Type} {n : Nat}

/-- The buffer without a cell in use. -/
def empty : Buffer n := ⟨Vector.replicate n 0, 0⟩

/-- Fails unless at least `k` cells are in use. -/
def require (b : Buffer n) (k : Nat) : Guarded σ Unit :=
  if b.size < k then fail .stackUnderflow else pure ()

/-- Takes one more cell into use. -/
def push (b : Buffer n) (v : Number) : Guarded σ (Buffer n) :=
  if b.size = n then fail .stackOverflow
  else do
    let cells ← write b.cells b.size v
    let size ← plus b.size 1
    pure ⟨cells, size⟩

/-- The last cell in use, and the buffer without it. -/
def pop (b : Buffer n) : Guarded σ (Number × Buffer n) :=
  if b.size = 0 then fail .stackUnderflow
  else do
    let size ← minus b.size 1
    let v ← read b.cells size
    pure (v, { b with size })

/-- A cell in use. -/
def get (b : Buffer n) (i : Nat) : Guarded σ Number := do
  ensure .assertion (i < b.size)
  read b.cells i

/-- Changes a cell in use. -/
def set (b : Buffer n) (i : Nat) (v : Number) : Guarded σ (Buffer n) := do
  ensure .assertion (i < b.size)
  let cells ← write b.cells i v
  pure { b with cells }

/-- All cells in use. -/
def contents (b : Buffer n) : Guarded σ (List Number) := slice b.cells 0 b.size

/-- The last `k` cells in use. -/
def top (b : Buffer n) (k : Nat) : Guarded σ (List Number) := do
  b.require k
  let i ← minus b.size k
  slice b.cells i b.size

/-- Leaves at most `k` cells in use. -/
def truncate (b : Buffer n) (k : Nat) : Buffer n := { b with size := min b.size k }

/-- Leaves no cell in use. -/
def clear (b : Buffer n) : Buffer n := { b with size := 0 }

/-- Takes more cells into use, if there are as many. -/
def extend? (b : Buffer n) (values : List Number) : Guarded σ (Option (Buffer n)) :=
  if b.size + values.length < wordSize ∧ b.size + values.length ≤ n then do
    let cells ← copyInto b.cells b.size (b.size + values.length) values
    pure (some ⟨cells, b.size + values.length⟩)
  else
    pure none

/-- Exchanges the last two cells in use. -/
def exchange (b : Buffer n) : Guarded σ (Buffer n) := do
  b.require 2
  let i ← minus b.size 1
  let j ← minus b.size 2
  let v ← read b.cells i
  let w ← read b.cells j
  let cells ← write b.cells i w
  let cells ← write cells j v
  pure { b with cells }

/-- Puts a copy of the cell `i` before the last one in use behind it, and of the last one itself
for a negative `i`. -/
def duplicate (b : Buffer n) (i : Int) : Guarded σ (Buffer n) := do
  b.require 1
  let i := i.toNat
  if b.size ≤ i then fail .boundsCheck
  else do
    let last ← minus b.size 1
    let k ← minus last i
    let v ← read b.cells k
    b.push v

/-- The values with the last `j` of them moved to the front. -/
def rotateRight (j : Nat) (values : List Number) : Guarded σ (List Number) := do
  ensure .assertion (j ≤ values.length)
  pure (values.drop (values.length - j) ++ values.take (values.length - j))

/-- Moves the last `n` cells in use by `j` places, those at the end coming round. -/
def roll (b : Buffer n) (count j : Int) : Guarded σ (Buffer n) :=
  if 0 < count ∧ count ≤ b.size then do
    -- The remainder is one of signed 32-bit integers.
    ensure .arithmetic (0 < count ∧ count < 2147483648)
    let i ← minus b.size count.toNat
    let values ← slice b.cells i b.size
    let values ← rotateRight (j % count).toNat values
    let cells ← copyInto b.cells i b.size values
    pure { b with cells }
  else
    fail .boundsCheck

/-! ## What the operations do to the cells in use -/

/-- The cells in use are those of a list. -/
structure Holds (b : Buffer n) (l : List Number) : Prop where
  size : b.size = l.length
  cells : l <+: b.cells.toList

variable {b : Buffer n} {l : List Number} {s : σ}

theorem holds_empty : (empty : Buffer n).Holds [] := ⟨rfl, List.nil_prefix⟩

theorem Holds.length_le (h : b.Holds l) : l.length ≤ n := by
  have := h.cells.length_le
  rwa [Vector.length_toList] at this

theorem holds_clear : b.clear.Holds [] := ⟨rfl, List.nil_prefix⟩

theorem Holds.truncate (h : b.Holds l) (k : Nat) : (b.truncate k).Holds (l.take k) := by
  refine ⟨?_, (List.take_prefix k l).trans h.cells⟩
  rw [Buffer.truncate, h.size, List.length_take, Nat.min_comm]

theorem Holds.getElem (h : b.Holds l) {i : Nat} (hn : i < n) (hi : i < l.length) :
    b.cells[i] = l[i] := by
  obtain ⟨rest, hrest⟩ := h.cells
  rw [getElem_eq_of_toList hrest.symm hn (by rw [List.length_append]; omega),
    List.getElem_append_left hi]

theorem Holds.segment (h : b.Holds l) {i j : Nat} (hij : i + j ≤ l.length) :
    Type1.segment b.cells i j = (l.drop i).take j := by
  obtain ⟨rest, hrest⟩ := h.cells
  rw [Type1.segment, ← hrest, List.drop_append_of_le_length (by omega),
    List.take_append_of_le_length (by rw [List.length_drop]; omega)]

/-- Cells overwritten from an index on. -/
theorem Holds.overwrite {front back values : List Number} (h : b.Holds (front ++ back))
    (hle : front.length + values.length ≤ n) :
    front ++ values <+: (Type1.overwrite b.cells front.length values).toList := by
  obtain ⟨rest, hrest⟩ := h.cells
  rw [List.append_assoc] at hrest
  have hlen := congrArg List.length hrest
  rw [Vector.length_toList, List.length_append] at hlen
  exact ⟨_, (toList_overwrite hrest.symm (by omega)).symm⟩

/-- A cell overwritten. -/
theorem Holds.write {front back : List Number} {v : Number} (h : b.Holds (front ++ v :: back))
    (w : Number) :
    ∃ hi, { b with cells := b.cells.set front.length w hi }.Holds (front ++ w :: back) := by
  have hle := h.length_le
  have hsize := h.size
  obtain ⟨rest, hrest⟩ := h.cells
  rw [List.length_append, List.length_cons] at hle hsize
  refine ⟨by omega, ?_, rest, ?_⟩
  · rw [List.length_append, List.length_cons]
    exact hsize
  · rw [Vector.toList_set, ← hrest, List.append_assoc, List.append_assoc,
      List.set_append_right _ _ (Nat.le_refl _), Nat.sub_self]
    rfl

theorem require_run (h : b.Holds l) {k : Nat} (hk : k ≤ l.length) : b.require k s = .ok () s := by
  rw [require, h.size, if_neg (Nat.not_lt.2 hk)]
  rfl

theorem require_run_short (h : b.Holds l) {k : Nat} (hk : l.length < k) :
    b.require k s = .error (.failed .stackUnderflow) s := by
  rw [require, h.size, if_pos hk]
  rfl

theorem push_run (h : b.Holds l) (hn : n < wordSize) (hl : l.length < n) (v : Number) :
    ∃ c, b.push v s = .ok c s ∧ c.Holds (l ++ [v]) := by
  obtain ⟨rest, hrest⟩ := h.cells
  have hlen := congrArg List.length hrest
  rw [Vector.length_toList, List.length_append] at hlen
  have hi : b.size < n := by rw [h.size]; exact hl
  refine ⟨⟨b.cells.set b.size v, b.size + 1⟩, ?_, ?_, ?_⟩
  · rw [push, if_neg (by omega), bind_ok (write_run hi), bind_ok (plus_run (by omega))]
    rfl
  · rw [List.length_append, ← h.size]
    rfl
  · cases rest with
    | nil => simp at hlen; omega
    | cons w rest =>
      refine ⟨rest, ?_⟩
      rw [Vector.toList_set, ← hrest, h.size, List.set_append_right _ _ (Nat.le_refl _),
        Nat.sub_self, List.append_assoc]
      rfl

theorem push_run_full (h : b.Holds l) (hl : l.length = n) (v : Number) :
    b.push v s = .error (.failed .stackOverflow) s := by
  rw [push, if_pos (h.size.trans hl)]
  rfl

theorem pop_run {v : Number} (h : b.Holds (l ++ [v])) :
    ∃ c, b.pop s = .ok (v, c) s ∧ c.Holds l := by
  have hsize := h.size
  have hle := h.length_le
  rw [List.length_append, List.length_singleton] at hsize hle
  refine ⟨{ b with size := l.length }, ?_, rfl, (List.prefix_append l [v]).trans h.cells⟩
  have hget := h.getElem (i := l.length) (by omega) (by simp)
  rw [List.getElem_concat_length rfl] at hget
  have hpred : b.size - 1 = l.length := by omega
  rw [pop, if_neg (by omega), bind_ok (minus_run (by omega)), hpred,
    bind_ok (read_run (by omega)), hget]
  rfl

theorem pop_run_empty (h : b.Holds []) : b.pop s = .error (.failed .stackUnderflow) s := by
  have hsize : b.size = 0 := h.size
  rw [pop, if_pos hsize]
  rfl

theorem get_run (h : b.Holds l) {i : Nat} (hi : i < l.length) : b.get i s = .ok l[i] s := by
  have hn : i < n := Nat.lt_of_lt_of_le hi h.length_le
  rw [get, bind_ok (ensure_run (by rw [h.size]; exact hi)), read_run hn, h.getElem hn hi]

theorem set_run {front back : List Number} {v : Number} (h : b.Holds (front ++ v :: back))
    (w : Number) :
    ∃ c, b.set front.length w s = .ok c s ∧ c.Holds (front ++ w :: back) := by
  obtain ⟨hi, hw⟩ := h.write w
  have hsize := h.size
  rw [List.length_append, List.length_cons] at hsize
  refine ⟨_, ?_, hw⟩
  rw [set, bind_ok (ensure_run (by omega)), bind_ok (write_run hi)]
  rfl

theorem contents_run (h : b.Holds l) : b.contents s = .ok l s := by
  have hle := h.length_le
  rw [contents, slice_run (Nat.zero_le _) (by rw [h.size]; exact hle), Nat.sub_zero, h.size,
    h.segment (by omega), List.drop_zero, List.take_length]

theorem top_run (h : b.Holds l) {k : Nat} (hk : k ≤ l.length) :
    b.top k s = .ok (l.drop (l.length - k)) s := by
  have hle := h.length_le
  rw [top, bind_ok (require_run h hk), bind_ok (minus_run (by rw [h.size]; exact hk)), h.size,
    slice_run (by omega) (by omega), h.segment (by omega),
    List.take_of_length_le (Nat.le_of_eq List.length_drop)]

theorem extend?_run (h : b.Holds l) (hn : n < wordSize) {values : List Number}
    (hl : l.length + values.length ≤ n) :
    ∃ c, b.extend? values s = .ok (some c) s ∧ c.Holds (l ++ values) := by
  refine ⟨⟨overwrite b.cells b.size values, b.size + values.length⟩, ?_, ?_, ?_⟩
  · rw [extend?, if_pos ⟨by rw [h.size]; omega, by rw [h.size]; omega⟩,
      bind_ok (copyInto_run rfl (by rw [h.size]; omega))]
    rfl
  · rw [h.size, List.length_append]
  · have := h
    rw [← List.append_nil l] at this
    rw [h.size]
    exact this.overwrite (by omega)

theorem extend?_run_full (h : b.Holds l) {values : List Number}
    (hl : n < l.length + values.length) : b.extend? values s = .ok none s := by
  rw [extend?, if_neg (by rw [h.size]; omega)]
  rfl

theorem exchange_run {v w : Number} (h : b.Holds (l ++ [v, w])) :
    ∃ c, b.exchange s = .ok c s ∧ c.Holds (l ++ [w, v]) := by
  have hsize := h.size
  have hle := h.length_le
  rw [List.length_append, List.length_cons, List.length_singleton] at hsize hle
  have hlast : b.size - 1 = l.length + 1 := by omega
  have hbefore : b.size - 2 = l.length := by omega
  have hv : b.cells[l.length] = v := by
    rw [h.getElem _ (by simp), List.getElem_append_right (Nat.le_refl _)]
    simp
  have hw : b.cells[l.length + 1] = w := by
    rw [h.getElem _ (by simp), List.getElem_append_right (by omega)]
    simp
  obtain ⟨hi, hfirst⟩ : ∃ hi, { b with cells := b.cells.set (l.length + 1) v hi }.Holds
      (l ++ [v, v]) := by
    have := h
    rw [show l ++ [v, w] = (l ++ [v]) ++ w :: [] by simp] at this
    have := this.write v
    simpa using this
  obtain ⟨hj, hsecond⟩ := hfirst.write w
  refine ⟨_, ?_, hsecond⟩
  rw [exchange, bind_ok (require_run h (by simp)), bind_ok (minus_run (by omega)),
    bind_ok (minus_run (by omega)), hlast, hbefore, bind_ok (read_run (by omega)),
    bind_ok (read_run (by omega)), hv, hw, bind_ok (write_run hi), bind_ok (write_run hj)]
  rfl

theorem duplicate_eq (h : b.Holds l) {i : Int} (hi : i.toNat < l.length)
    (hlt : l.length - 1 - i.toNat < l.length) :
    b.duplicate i s = b.push l[l.length - 1 - i.toNat] s := by
  have hget := h.getElem (Nat.lt_of_lt_of_le hlt h.length_le) hlt
  have hle := h.length_le
  rw [duplicate, bind_ok (require_run h (by omega))]
  simp only [h.size]
  rw [if_neg (by omega), bind_ok (minus_run (by omega)), bind_ok (minus_run (by omega)),
    bind_ok (read_run (by omega)), hget]

theorem duplicate_run_short (h : b.Holds l) (hpos : 0 < l.length) {i : Int}
    (hi : l.length ≤ i.toNat) : b.duplicate i s = .error (.failed .boundsCheck) s := by
  rw [duplicate, bind_ok (require_run h hpos)]
  simp only [h.size]
  rw [if_pos hi]
  rfl

theorem roll_run {front back : List Number} (h : b.Holds (front ++ back)) {count : Int}
    (hcount : count = back.length) (hpos : 0 < count) (hn : n < 2147483648) (j : Int) :
    ∃ c, b.roll count j s = .ok c s ∧ c.Holds (front ++
      (back.drop (back.length - (j % count).toNat) ++
        back.take (back.length - (j % count).toNat))) := by
  have hsize := h.size
  have hle := h.length_le
  rw [List.length_append] at hsize hle
  have hi : b.size - count.toNat = front.length := by omega
  have hslice : b.size - front.length = back.length := by omega
  have hj : (j % count).toNat ≤ back.length := by
    have := Int.emod_lt_of_pos j hpos
    omega
  have hrotate : rotateRight (j % count).toNat back s = .ok
      (back.drop (back.length - (j % count).toNat) ++
        back.take (back.length - (j % count).toNat)) s :=
    (bind_ok (ensure_run hj)).trans rfl
  have hlen (k : Nat) : (back.drop k ++ back.take k).length = back.length := by
    rw [List.length_append, List.length_drop, List.length_take]
    omega
  refine ⟨{ b with cells := overwrite b.cells front.length _ }, ?_, ?_, h.overwrite ?_⟩
  · rw [roll, if_pos ⟨hpos, by omega⟩, bind_ok (ensure_run ⟨hpos, by omega⟩),
      bind_ok (minus_run (by omega)), hi, bind_ok (slice_run (by omega) (by omega)), hslice,
      h.segment (Nat.le_of_eq List.length_append.symm), List.drop_left, List.take_length,
      bind_ok hrotate, bind_ok (copyInto_run (by rw [hlen]; omega) (by omega))]
    rfl
  · rw [List.length_append, hlen]
    exact hsize
  · rw [hlen]
    exact hle

end Buffer

end Type1
