/-!
# Sources of bytes

A `Source` is a block of bytes that is read in chunks from a current offset. How many bytes a chunk
has is the source's business, and a read or a seek may fail.

* `Source.seek`, `Source.read`: the two calls. They move a `Source.State`, which also counts them.
* `Source.seek_offset`: after a seek that succeeds the source stands at the offset, which is not
  past the data.
* `Source.read_offset`: a read advances the offset by the length of the chunk it gives, and never
  past the data.
-/

namespace Type1

/-- The calls of a source that fail, by their number among the calls of their kind, from 0. -/
structure Faults where
  /-- The read that gives no chunk. -/
  noneRead : Option Nat := none
  /-- The read that gives a chunk without bytes. -/
  emptyRead : Option Nat := none
  /-- The seek that is refused. -/
  failedSeek : Option Nat := none
deriving DecidableEq, Inhabited

/-- A block of bytes that is read in chunks. -/
structure Source where
  /-- The bytes. -/
  data : List UInt8
  /-- The most bytes that a chunk has, if there is a limit. -/
  limit : Option Nat := none
  /-- The calls that fail. -/
  faults : Faults := {}

/-- A call of a source, with what it answered. -/
inductive Source.Call where
  /-- A seek to an offset, and whether the source went there. -/
  | seek (offset : Nat) (done : Bool)
  /-- A read, and the length of the chunk if there was one. -/
  | read (length : Option Nat)
deriving DecidableEq

/-- Where a source stands, and how often it was called. -/
structure Source.State where
  /-- The offset of the next chunk. -/
  offset : Nat := 0
  /-- The number of reads so far. -/
  reads : Nat := 0
  /-- The number of seeks so far. -/
  seeks : Nat := 0
deriving DecidableEq, Inhabited

namespace Source

/-- A source that gives all remaining bytes in one chunk. -/
def ofBytes (data : List UInt8) : Source := { data }

/-- A source that gives at most `length` bytes in a chunk, and at least one while there are any. -/
def chunked (data : List UInt8) (length : Nat) : Source := { data, limit := some (max length 1) }

/-- The bytes of the chunk at an offset. -/
def chunkAt (s : Source) (offset : Nat) : List UInt8 :=
  match s.limit with
  | some n => (s.data.drop offset).take n
  | none => s.data.drop offset

/-- Goes to an offset. The end of the data is one, although nothing can be read there. -/
def seek (s : Source) (offset : Nat) (st : State) : Bool × State :=
  let called := { st with seeks := st.seeks + 1 }
  if s.faults.failedSeek = some st.seeks then (false, called)
  else if offset ≤ s.data.length then (true, { called with offset })
  else (false, called)

/-- Gives the next chunk and goes past it. -/
def read (s : Source) (st : State) : Option (List UInt8) × State :=
  let called := { st with reads := st.reads + 1 }
  if s.faults.noneRead = some st.reads then (none, called)
  else if s.faults.emptyRead = some st.reads then (some [], called)
  else
    let chunk := s.chunkAt st.offset
    (some chunk, { called with offset := st.offset + chunk.length })

/-- After a seek that succeeds the source stands at the offset, which the data reach. -/
theorem seek_offset {s : Source} {offset : Nat} {st next : State}
    (h : s.seek offset st = (true, next)) : next.offset = offset ∧ offset ≤ s.data.length := by
  unfold seek at h
  by_cases hf : s.faults.failedSeek = some st.seeks <;> by_cases ho : offset ≤ s.data.length <;>
    simp [hf, ho] at h
  subst h
  exact ⟨rfl, ho⟩

/-- A chunk ends within the data if it starts there. -/
theorem chunkAt_length_le {s : Source} {offset : Nat} (h : offset ≤ s.data.length) :
    offset + (s.chunkAt offset).length ≤ s.data.length := by
  unfold chunkAt
  split <;> simp <;> omega

/-- A read that gives a chunk advances by its length, and stays within the data. -/
theorem read_offset {s : Source} {chunk : List UInt8} {st next : State}
    (h : s.read st = (some chunk, next)) (valid : st.offset ≤ s.data.length) :
    next.offset = st.offset + chunk.length ∧ next.offset ≤ s.data.length := by
  unfold read at h
  by_cases hn : s.faults.noneRead = some st.reads
  · simp [hn] at h
  by_cases he : s.faults.emptyRead = some st.reads
  · simp only [hn, he, reduceIte, Prod.mk.injEq, Option.some.injEq] at h
    obtain ⟨rfl, rfl⟩ := h
    exact ⟨rfl, valid⟩
  · simp only [hn, he, reduceIte, Prod.mk.injEq, Option.some.injEq] at h
    obtain ⟨rfl, rfl⟩ := h
    exact ⟨rfl, chunkAt_length_le valid⟩

end Source

end Type1
