import Type1.Error
import Type1.Source

/-!
# The reading position in a source

A `Cursor` holds the unread bytes of the current chunk and the offset of the first of them. It
exists only after a seek, so its position is always one of the source.

* `Cursor.openAt`: seeks and reads the first chunk at once, so a cursor at the end of the data does
  not come about.
* `Cursor.readByte`: the byte at the position; the next chunk is read only when the last is used up.
* `endsAt_openAt`, `endsAt_readByte`, `endsAt_readBytes`: where each of them ends.
  A level of decoding is finite because of these.
-/

namespace Type1

/-- The unread bytes of a chunk, and where they stand in the source. -/
structure Cursor (s : Source) where
  /-- The state of the source. -/
  state : Source.State
  /-- The bytes of the chunk that are not read yet. -/
  buffer : List UInt8
  /-- The offset of the next byte. -/
  position : Nat
  /-- The source stands right after the chunk. -/
  position_add : position + buffer.length = state.offset
  /-- The source stands within the data. -/
  offset_le : state.offset ≤ s.data.length

/-- What a reading gives: a value and the cursor after it, or an error; in both cases with the calls
that were made of the source, in order. -/
inductive Reading (s : Source) (α : Type) where
  /-- The value, and the cursor after it. -/
  | done (value : α) (cursor : Cursor s) (calls : List Source.Call)
  /-- The error, and the state of the source after it. -/
  | failed (error : Error) (state : Source.State) (calls : List Source.Call)

namespace Reading

variable {s : Source} {α β : Type}

/-- The reading with calls made before it. -/
def after (calls : List Source.Call) : Reading s α → Reading s α
  | done value cursor later => done value cursor (calls ++ later)
  | failed error state later => failed error state (calls ++ later)

/-- The reading with a function applied to the value. -/
def map (f : α → β) : Reading s α → Reading s β
  | done value cursor calls => done (f value) cursor calls
  | failed error state calls => failed error state calls

/-- A reading that goes on from the value and the cursor of another. -/
def bind (r : Reading s α) (next : α → Cursor s → Reading s β) : Reading s β :=
  match r with
  | done value cursor calls => (next value cursor).after calls
  | failed error state calls => failed error state calls

/-- Every cursor that the reading may leave stands at an offset. -/
def EndsAt (r : Reading s α) (position : Nat) : Prop :=
  match r with
  | done _ cursor _ => cursor.position = position
  | failed _ _ _ => True

theorem EndsAt.of_eq {r : Reading s α} {m n : Nat} (h : r.EndsAt m) (e : m = n) : r.EndsAt n :=
  e ▸ h

theorem EndsAt.after {r : Reading s α} {n : Nat} (h : r.EndsAt n) (calls : List Source.Call) :
    (r.after calls).EndsAt n := by
  cases r <;> exact h

theorem EndsAt.map {r : Reading s α} {n : Nat} (h : r.EndsAt n) (f : α → β) :
    (r.map f).EndsAt n := by
  cases r <;> exact h

theorem EndsAt.bind {r : Reading s α} {next : α → Cursor s → Reading s β} {m n : Nat}
    (h : r.EndsAt m) (hn : ∀ a c, c.position = m → (next a c).EndsAt n) :
    (r.bind next).EndsAt n := by
  cases r with
  | done value cursor calls => exact (hn value cursor h).after calls
  | failed => trivial

end Reading

namespace Cursor

variable {s : Source}

/-- The position of a cursor is within the data. -/
theorem position_le (c : Cursor s) : c.position ≤ s.data.length := by
  have := c.position_add
  have := c.offset_le
  omega

/-- The number of bytes from the position to the end of the data. -/
def remaining (c : Cursor s) : Nat := s.data.length - c.position

/-- Reads a chunk at the state's offset; one without bytes is an error. -/
def load (st : Source.State) (valid : st.offset ≤ s.data.length) : Reading s Unit :=
  match h : s.read st with
  | (some (byte :: rest), next) =>
    .done () ⟨next, byte :: rest, st.offset, (Source.read_offset h valid).1.symm,
      (Source.read_offset h valid).2⟩ [.read (some (rest.length + 1))]
  | (chunk, next) => .failed .streamRead next [.read (chunk.map (·.length))]

/-- Goes to an offset of the source and reads the first chunk there. -/
def openAt (offset : Nat) (st : Source.State) : Reading s Unit :=
  match h : s.seek offset st with
  | (true, next) =>
    (load next (by have := Source.seek_offset h; omega)).after [.seek offset true]
  | (false, next) => .failed .streamSeek next [.seek offset false]

/-- Takes the first byte of the chunk, which is read anew if no byte of it is left. -/
def readByte (c : Cursor s) : Reading s UInt8 :=
  match h : c.buffer with
  | byte :: rest =>
    .done byte { c with
      buffer := rest
      position := c.position + 1
      position_add := by have := c.position_add; simp [h] at this; omega } []
  | [] =>
    match h : s.read c.state with
    | (some (byte :: rest), next) =>
      .done byte ⟨next, rest, c.position + 1, by
        have := (Source.read_offset h c.offset_le).1
        have := c.position_add
        simp_all
        omega, (Source.read_offset h c.offset_le).2⟩ [.read (some (rest.length + 1))]
    | (chunk, next) => .failed .streamRead next [.read (chunk.map (·.length))]

/-- Reads a number of bytes, in order. -/
def readBytes : Nat → Cursor s → Reading s (List UInt8)
  | 0, c => .done [] c []
  | n + 1, c => c.readByte.bind fun byte next => (readBytes n next).map (byte :: ·)

theorem endsAt_load (st : Source.State) (valid : st.offset ≤ s.data.length) :
    (load st valid).EndsAt st.offset := by
  unfold load
  split
  · exact rfl
  · trivial

/-- Opening at an offset leaves the cursor there. -/
theorem endsAt_openAt (offset : Nat) (st : Source.State) :
    (openAt (s := s) offset st).EndsAt offset := by
  unfold openAt
  split
  · next next h =>
    exact ((endsAt_load next _).after _).of_eq (Source.seek_offset h).1
  · trivial

/-- A byte takes the cursor one further. -/
theorem endsAt_readByte (c : Cursor s) : c.readByte.EndsAt (c.position + 1) := by
  unfold readByte
  split
  · exact rfl
  · split
    · exact rfl
    · trivial

/-- A number of bytes takes the cursor that much further. -/
theorem endsAt_readBytes (n : Nat) (c : Cursor s) : (readBytes n c).EndsAt (c.position + n) := by
  induction n generalizing c with
  | zero => exact rfl
  | succ n ih =>
    refine (endsAt_readByte c).bind fun byte next hn => ?_
    exact ((ih next).map (byte :: ·)).of_eq (by omega)

theorem openAt_position {offset : Nat} {st : Source.State} {c : Cursor s} {u : Unit}
    {calls : List Source.Call} (h : openAt offset st = .done u c calls) : c.position = offset := by
  have := endsAt_openAt (s := s) offset st
  rw [h] at this
  exact this

/-- A cursor that is further on has fewer bytes before it. -/
theorem remaining_lt {c next : Cursor s} (h : c.position < next.position) :
    next.remaining < c.remaining := by
  have := next.position_le
  unfold remaining
  omega

end Cursor

end Type1
