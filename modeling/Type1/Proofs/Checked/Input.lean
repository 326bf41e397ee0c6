import Type1.Proofs.Checked.Program
import Type1.Proofs.Checked.Refinement
import Type1.Proofs.Reading

/-!
# Reading with a checked position

The reading position as the place in a chunk and the offset of the chunk, with every access to the
chunk and every sum checked. Positions are words, of which there are as many as the data need.

* `Memory`: bytes in memory, no more than a word counts.
* `Process`: a decoding with its reading position and the number of levels above the glyph.
* `Process.readInstruction`, `Process.seek`, `Process.position`: the reading.
* `Process.Reads`: an outcome is that of a reading with a cursor. `readInstruction_reads` and
  `seek_reads` say so of the reading of instructions and the seeking.
-/

namespace Type1

/-- Bytes in memory that are handed out in chunks. -/
structure Memory where
  /-- The bytes. -/
  data : List UInt8
  /-- The most bytes of a chunk, if there is a limit. -/
  chunk : Option Nat := none
  /-- Their number is a word. -/
  length_lt : data.length < Guarded.wordSize

namespace Memory

/-- The source of the bytes. -/
def toSource (memory : Memory) : Source := .memory memory.data memory.chunk

theorem toSource_data (memory : Memory) : memory.toSource.data = memory.data := Source.memory_data

theorem reliable_toSource (memory : Memory) : memory.toSource.Reliable := Source.reliable_memory

/-- The most bytes of a chunk, which is the greatest word if there is no limit. -/
def limit (memory : Memory) : Nat :=
  match memory.chunk with
  | some length => max length 1
  | none => Guarded.wordSize - 1

end Memory

/-- The reading position, as a place in a chunk. -/
structure Input where
  /-- The offset of the next chunk. -/
  source : Nat := 0
  /-- The bytes of the chunk. -/
  buffer : List UInt8 := []
  /-- The number of bytes of the chunk that are read. -/
  next : Nat := 0
  /-- The offset of the chunk. -/
  offset : Nat := 0

/-- The place in the chunk is the position of a cursor. -/
structure Input.At {s : Source} (i : Input) (c : Cursor s) : Prop where
  source : i.source = c.state.offset
  next_le : i.next ≤ i.buffer.length
  buffer : i.buffer.drop i.next = c.buffer
  position : i.offset + i.next = c.position

/-- A decoding on arrays that is under way. -/
structure Process where
  /-- The reading position. -/
  input : Input
  /-- The number of levels above the glyph. -/
  depth : Nat
  /-- The state of the decoding. -/
  machine : Machine

namespace Process

open Guarded

variable {α β : Type}

/-! ## The reading -/

/-- Enters a call of the source in the history. -/
def called (call : Source.Call) : Guarded Process Unit :=
  modify fun p =>
    { p with machine := { p.machine with rest := p.machine.rest.record (.called call) } }

/-- Changes the reading position. -/
def modifyInput (f : Input → Input) : Guarded Process Unit :=
  modify fun p => { p with input := f p.input }

/-- The next chunk of the source. -/
def readChunk (memory : Memory) : Guarded Process (List UInt8) := do
  let start := (← get).input.source
  if memory.data.length < start then fail .streamRead
  let tail := memory.data.drop start
  let length := min tail.length memory.limit
  modifyInput ({ · with source := ← plus start length })
  ensure .slice (length ≤ tail.length)
  called (.read (some length))
  return tail.take length

/-- Goes on to the next chunk, which has to have bytes. -/
def refill (memory : Memory) : Guarded Process Unit := do
  let input := (← get).input
  let offset ← plus input.offset input.buffer.length
  modifyInput ({ · with offset, buffer := [], next := 0 })
  let chunk ← readChunk memory
  if chunk = [] then fail .streamRead
  modifyInput ({ · with buffer := chunk })

/-- Goes to an offset and reads the first chunk there. -/
def seek (memory : Memory) (offset : Nat) : Guarded Process Unit :=
  if memory.data.length < offset then do
    called (.seek offset false)
    fail .streamSeek
  else do
    called (.seek offset true)
    modifyInput fun _ => ⟨offset, [], 0, offset⟩
    refill memory

/-- The offset of the next byte. -/
def position : Guarded Process Nat := do
  let input := (← get).input
  plus input.offset input.next

/-- The next byte. -/
def readByte (memory : Memory) : Guarded Process UInt8 := do
  let input := (← get).input
  if input.next = input.buffer.length then refill memory
  let input := (← get).input
  let byte ← item input.buffer input.next
  let next ← plus input.next 1
  modifyInput ({ · with next })
  return byte

/-- A number of bytes, in order. -/
def readBytes (memory : Memory) : Nat → Guarded Process (List UInt8)
  | 0 => pure []
  | n + 1 => do
    let byte ← readByte memory
    let bytes ← readBytes memory n
    return byte :: bytes

/-- The instruction of a first byte. -/
def readFollowing (memory : Memory) (first : UInt8) : Guarded Process Instruction :=
  if first = 12 then return .operator (.ofEscape (← readByte memory))
  else if first < 32 then
    match Operator.ofByte? first with
    | some op => return .operator op
    | none => return .reserved first
  else if first < 247 then return .number (.ofInt (← short (first.toNat - 139)))
  else if first < 251 then do
    let byte ← readByte memory
    let high ← short ((← short (first.toNat - 247)) * 256)
    let n ← short ((← short (high + byte.toNat)) + 108)
    ensure .assertion (108 ≤ n ∧ n ≤ 1131)
    return .number (.ofInt n)
  else if first < 255 then do
    let byte ← readByte memory
    let high ← short ((← short (-(← short (first.toNat - 251)))) * 256)
    let n ← short ((← short (high - byte.toNat)) - 108)
    ensure .assertion (-1131 ≤ n ∧ n ≤ -108)
    return .number (.ofInt n)
  else do
    let bytes ← readBytes memory 4
    return .ofBytes first bytes

/-- The next instruction. -/
def readInstruction (memory : Memory) : Guarded Process Instruction := do
  let first ← readByte memory
  readFollowing memory first

/-! ## What is read -/

section Reads

variable {memory : Memory} {p : Process} {d : Decoder} {k : Nat}

/-- The process reads on at a cursor, at a depth, and has the state of a decoding. -/
structure At {s : Source} (p : Process) (c : Cursor s) (d : Decoder) (k : Nat) : Prop where
  input : p.input.At c
  depth : p.depth = k
  machine : p.machine.Shows d

/-- The outcome of a reading from a state at a depth. The calls of the source enter the history. -/
inductive Reads {s : Source} (d : Decoder) (k : Nat) :
    EStateM.Result Stop Process α → Reading s α → Prop where
  | done {a : α} {c : Cursor s} {calls : List Source.Call} {p : Process} :
      p.At c (d.recordCalls calls) k → Reads d k (.ok a p) (.done a c calls)
  | failed {e : Error} {st : Source.State} {calls : List Source.Call} {p : Process} :
      p.machine.Shows (d.recordCalls calls) → Reads d k (.error (.failed e) p) (.failed e st calls)

theorem recordCalls_append (calls later : List Source.Call) :
    d.recordCalls (calls ++ later) = (d.recordCalls calls).recordCalls later := by
  rw [Decoder.recordCalls, List.foldl_append]
  rfl

theorem Reads.after {s : Source} {calls : List Source.Call} {o : EStateM.Result Stop Process α}
    {r : Reading s α} (h : Reads (d.recordCalls calls) k o r) : Reads d k o (r.after calls) := by
  cases h with
  | done h =>
    rw [← recordCalls_append] at h
    exact .done h
  | failed h =>
    rw [← recordCalls_append] at h
    exact .failed h

/-- A reading goes on from the cursor that another one leaves. -/
theorem Reads.bind_of_done {s : Source} {x : Guarded Process α} {f : α → Guarded Process β}
    {r : Reading s α} {g : α → Cursor s → Reading s β} (hx : Reads d k (x p) r)
    (hf : ∀ a c calls d p, r = .done a c calls → p.At c d k → Reads d k (f a p) (g a c)) :
    Reads d k ((x >>= f) p) (r.bind g) := by
  show Reads d k (EStateM.bind x f p) _
  unfold EStateM.bind
  revert hx
  generalize x p = o
  rintro (h | h)
  · exact (hf _ _ _ _ _ rfl h).after
  · exact .failed h

theorem Reads.bind {s : Source} {x : Guarded Process α} {f : α → Guarded Process β}
    {r : Reading s α} {g : α → Cursor s → Reading s β} (hx : Reads d k (x p) r)
    (hf : ∀ a c d p, p.At c d k → Reads d k (f a p) (g a c)) :
    Reads d k ((x >>= f) p) (r.bind g) :=
  hx.bind_of_done fun a c _ d p _ h => hf a c d p h

theorem Reads.map {s : Source} {x : Guarded Process α} {r : Reading s α} (hx : Reads d k (x p) r)
    (f : α → β) : Reads d k ((do return f (← x) : Guarded Process β) p) (r.map f) := by
  show Reads d k (EStateM.bind x (fun a => pure (f a)) p) _
  unfold EStateM.bind
  revert hx
  generalize x p = o
  rintro (h | h)
  · exact .done h
  · exact .failed h

/-- The chunk at an offset is what the source has there up to the limit. -/
theorem chunkAt_eq (memory : Memory) (offset : Nat) :
    memory.toSource.chunkAt offset =
      (memory.data.drop offset).take (min (memory.data.drop offset).length memory.limit) := by
  have hlt := memory.length_lt
  have hlen : (memory.data.drop offset).length ≤ memory.data.length := by
    rw [List.length_drop]
    omega
  rw [← List.take_take, List.take_of_length_le (List.length_take_le' _ _), Memory.toSource,
    Memory.limit]
  cases memory.chunk with
  | some n => rfl
  | none =>
    refine (List.take_of_length_le (Nat.le_sub_one_of_lt ?_)).symm
    exact Nat.lt_of_le_of_lt hlen hlt

theorem readChunk_run (h : p.input.source ≤ memory.data.length) {chunk : List UInt8}
    (hc : memory.toSource.chunkAt p.input.source = chunk) :
    readChunk memory p = .ok chunk { p with
      input := { p.input with source := p.input.source + chunk.length }
      machine := { p.machine with
        rest := p.machine.rest.record (.called (.read (some chunk.length))) } } := by
  have hlt := memory.length_lt
  rw [chunkAt_eq] at hc
  have hlen : min (memory.data.drop p.input.source).length memory.limit = chunk.length := by
    rw [← hc, List.length_take]
    omega
  have hle : chunk.length ≤ (memory.data.drop p.input.source).length := by
    rw [← hlen]
    exact Nat.min_le_left _ _
  rw [hlen] at hc
  rw [readChunk, get_bind, if_neg (by omega)]
  dsimp only
  rw [hlen, hc, bind_ok (plus_run (by rw [List.length_drop] at hle; omega)), modifyInput,
    modify_bind, bind_ok (ensure_run hle)]
  rfl

/-- A chunk with bytes is loaded. -/
theorem load_of_cons {s : Source} (hs : s.Reliable) {st : Source.State}
    (valid : st.offset ≤ s.data.length) {byte : UInt8} {rest : List UInt8}
    (hc : s.chunkAt st.offset = byte :: rest) :
    ∃ c : Cursor s, Cursor.load st valid = .done () c [.read (some (rest.length + 1))] ∧
      c.buffer = byte :: rest ∧ c.position = st.offset ∧
      c.state.offset = st.offset + (rest.length + 1) := by
  unfold Cursor.load
  split
  · next byte' rest' next hread =>
    rw [hs.read, hc] at hread
    obtain ⟨hchunk, rfl⟩ := Prod.mk.inj hread
    obtain ⟨rfl, rfl⟩ := List.cons.inj (Option.some.inj hchunk)
    exact ⟨_, rfl, rfl, rfl, rfl⟩
  · next chunk next hno hread =>
    rw [hs.read, hc] at hread
    exact (hno _ _ (Prod.mk.inj hread).1.symm).elim

theorem load_of_nil {s : Source} (hs : s.Reliable) {st : Source.State}
    (valid : st.offset ≤ s.data.length) (hc : s.chunkAt st.offset = []) :
    ∃ st', Cursor.load st valid = .failed .streamRead st' [.read (some 0)] := by
  unfold Cursor.load
  split
  · next byte rest next hread =>
    rw [hs.read, hc] at hread
    cases Option.some.inj (Prod.mk.inj hread).1
  · next chunk next hno hread =>
    rw [hs.read, hc] at hread
    obtain ⟨rfl, rfl⟩ := Prod.mk.inj hread
    exact ⟨_, rfl⟩

theorem buffer_ne_nil_of_load {s : Source} {st : Source.State} {valid : st.offset ≤ s.data.length}
    {c : Cursor s} {u : Unit} {calls : List Source.Call}
    (h : Cursor.load st valid = .done u c calls) :
    c.buffer ≠ [] := by
  unfold Cursor.load at h
  split at h
  · cases h
    exact List.cons_ne_nil _ _
  · cases h

theorem refill_reads {st : Source.State} (valid : st.offset ≤ memory.toSource.data.length)
    (hs : p.machine.Shows d) (hk : p.depth = k) (hsource : p.input.source = st.offset)
    (hoffset : p.input.offset + p.input.buffer.length = st.offset) :
    Reads d k (refill memory p) (Cursor.load st valid) := by
  have hlt := memory.length_lt
  have hle : st.offset ≤ memory.data.length := memory.toSource_data ▸ valid
  generalize hc : memory.toSource.chunkAt st.offset = chunk
  rw [refill, get_bind, bind_ok (plus_run (by omega)), modifyInput, modify_bind, hoffset,
    bind_ok (readChunk_run (by exact hsource ▸ hle) (by exact hsource ▸ hc))]
  cases chunk with
  | nil =>
    obtain ⟨st', hload⟩ := load_of_nil memory.reliable_toSource valid hc
    rw [hload, if_pos rfl]
    exact .failed (hs.record _)
  | cons byte rest =>
    obtain ⟨c, hload, hbuffer, hposition, hoffset⟩ := load_of_cons memory.reliable_toSource valid hc
    rw [hload, if_neg (List.cons_ne_nil byte rest)]
    refine .done ⟨⟨?_, Nat.zero_le _, hbuffer.symm, hposition.symm⟩, hk, hs.record _⟩
    rw [hoffset, ← hsource]
    rfl

/-- A chunk ends within the data. -/
theorem At.length_le {c : Cursor memory.toSource} (h : p.At c d k) :
    p.input.offset + p.input.buffer.length ≤ memory.data.length := by
  have hlen := congrArg List.length h.input.buffer
  rw [List.length_drop] at hlen
  have hnext := h.input.next_le
  have hposition := h.input.position
  have hadd := c.position_add
  have hoffset := c.offset_le
  rw [memory.toSource_data] at hoffset
  omega

theorem position_run {c : Cursor memory.toSource} (h : p.At c d k) :
    position p = .ok c.position p := by
  have hlt := memory.length_lt
  have hle := h.length_le
  have hnext := h.input.next_le
  rw [position, get_bind, plus_run (by omega), h.input.position]

/-- The byte at the place in the chunk, if not all bytes of it are read. -/
theorem item_reads {c : Cursor memory.toSource} (h : p.At c d k) (hc : c.buffer ≠ []) :
    Reads d k ((do
      let input := (← get).input
      let byte ← item input.buffer input.next
      let next ← plus input.next 1
      modifyInput ({ · with next })
      return byte : Guarded Process UInt8) p) c.readByte := by
  have hlt := memory.length_lt
  have hle := h.length_le
  have hbuffer := h.input.buffer
  have hnext : p.input.next < p.input.buffer.length := by
    refine Nat.lt_of_not_le fun hge => hc ?_
    rw [← hbuffer, List.drop_eq_nil_of_le hge]
  rw [get_bind, bind_ok (item_run hnext), bind_ok (plus_run (by omega))]
  rw [List.drop_eq_getElem_cons hnext] at hbuffer
  unfold Cursor.readByte
  split
  · next byte rest hcons =>
    rw [hcons] at hbuffer
    obtain ⟨hbyte, hrest⟩ := List.cons.inj hbuffer
    rw [hbyte]
    exact .done ⟨⟨h.input.source, hnext, hrest, congrArg (· + 1) h.input.position⟩, h.depth,
      h.machine⟩
  · next hnil => exact absurd hnil hc

/-- A byte behind a chunk is the first of the next chunk. -/
theorem readByte_of_nil {s : Source} {c : Cursor s} (hc : c.buffer = []) :
    c.readByte = (Cursor.load c.state c.offset_le).bind fun _ next => next.readByte := by
  have hposition : c.position = c.state.offset := by
    have := c.position_add
    rwa [hc] at this
  unfold Cursor.load
  conv =>
    lhs
    unfold Cursor.readByte
  split
  · next hcons => rw [hc] at hcons; cases hcons
  · split
    · simp [Reading.bind, Reading.after, Cursor.readByte, hposition]
    · rfl

theorem readByte_reads {c : Cursor memory.toSource} (h : p.At c d k) :
    Reads d k (readByte memory p) c.readByte := by
  rw [readByte, get_bind]
  dsimp only
  by_cases hc : c.buffer = []
  · have hnext : p.input.next = p.input.buffer.length := by
      have hbuffer := h.input.buffer
      rw [hc, List.drop_eq_nil_iff] at hbuffer
      exact Nat.le_antisymm h.input.next_le hbuffer
    rw [if_pos hnext, readByte_of_nil hc]
    have hload : Reads d k (refill memory p) (Cursor.load c.state c.offset_le) := by
      refine refill_reads c.offset_le h.machine h.depth h.input.source ?_
      rw [← hnext, h.input.position, ← c.position_add, hc]
      rfl
    exact hload.bind_of_done fun _ c calls d p hdone h => item_reads h (buffer_ne_nil_of_load hdone)
  · have hnext : p.input.next ≠ p.input.buffer.length := by
      refine fun hnext => hc ?_
      rw [← h.input.buffer, hnext, List.drop_length]
    rw [if_neg hnext]
    exact item_reads h hc

theorem readBytes_reads (n : Nat) {c : Cursor memory.toSource} (h : p.At c d k) :
    Reads d k (readBytes memory n p) (c.readBytes n) := by
  induction n generalizing c d p with
  | zero => exact .done h
  | succ n ih => exact (readByte_reads h).bind fun byte c d p h => (ih h).map (byte :: ·)

/-- An instruction of two bytes. -/
theorem twoBytes_reads {first : UInt8} {f : UInt8 → Guarded Process Instruction}
    (hf : ∀ byte p, f byte p = .ok (.ofBytes first [byte]) p) {c : Cursor memory.toSource}
    (h : p.At c d k) :
    Reads d k ((readByte memory >>= f) p) ((c.readBytes 1).map (Instruction.ofBytes first)) := by
  have hmap : (c.readBytes 1).map (Instruction.ofBytes first) =
      c.readByte.bind fun byte next => .done (.ofBytes first [byte]) next [] := by
    rw [Cursor.readBytes]
    cases c.readByte <;> rfl
  rw [hmap]
  refine (readByte_reads h).bind fun byte c d p h => ?_
  rw [hf]
  exact .done h

theorem readFollowing_reads (first : UInt8) {c : Cursor memory.toSource} (h : p.At c d k) :
    Reads d k (readFollowing memory first p)
      ((c.readBytes (Instruction.following first)).map (Instruction.ofBytes first)) := by
  unfold readFollowing Instruction.following
  have below {b : UInt8} (hb : ¬first < b) : b.toNat ≤ first.toNat :=
    Nat.le_of_not_lt fun hlt => hb (UInt8.lt_iff_toNat_lt.2 hlt)
  have above {b : UInt8} (hb : first < b) : first.toNat < b.toNat := UInt8.lt_iff_toNat_lt.1 hb
  -- The cases are those of the program, in its order, so that each is left with a range of first
  -- bytes on which its sums of words can be seen to fit.
  by_cases hescape : first = 12
  · subst hescape
    rw [if_pos rfl, if_pos rfl]
    refine twoBytes_reads (fun byte p => ?_) h
    rfl
  rw [if_neg hescape, if_neg hescape]
  by_cases hoperator : first < 32
  · have hlt := above hoperator
    rw [if_pos hoperator, if_pos (UInt8.lt_iff_toNat_lt.2 (Nat.lt_trans hlt (by decide)))]
    show Reads d k _ (.done (Instruction.ofBytes first []) c [])
    rw [Instruction.ofBytes, if_pos hoperator]
    cases Operator.ofByte? first <;> exact .done h
  rw [if_neg hoperator]
  by_cases hone : first < 247
  · have hge := below hoperator
    have hlt := above hone
    rw [if_pos hone, if_pos hone, bind_ok (short_run (by simp at hge hlt; omega))]
    show Reads d k _ (.done (Instruction.ofBytes first []) c [])
    rw [Instruction.ofBytes, if_neg hoperator]
    exact .done h
  rw [if_neg hone, if_neg hone]
  by_cases hpositive : first < 251
  · have hge := below hone
    have hlt := above hpositive
    rw [if_pos hpositive, if_pos (UInt8.lt_iff_toNat_lt.2 (Nat.lt_trans hlt (by decide)))]
    refine twoBytes_reads (fun byte p => ?_) h
    have hbyte := byte.toNat_lt
    simp at hge hlt
    rw [bind_ok (short_run (by omega)), bind_ok (short_run (by omega)),
      bind_ok (short_run (by omega)), bind_ok (short_run (by omega)),
      bind_ok (ensure_run (by omega)), Instruction.ofBytes, if_neg hescape, if_pos hpositive]
    rfl
  rw [if_neg hpositive]
  by_cases hnegative : first < 255
  · have hge := below hpositive
    have hlt := above hnegative
    rw [if_pos hnegative, if_pos hnegative]
    refine twoBytes_reads (fun byte p => ?_) h
    have hbyte := byte.toNat_lt
    simp at hge hlt
    rw [bind_ok (short_run (by omega)), bind_ok (short_run (by omega)),
      bind_ok (short_run (by omega)), bind_ok (short_run (by omega)),
      bind_ok (short_run (by omega)), bind_ok (ensure_run (by omega))]
    rw [Instruction.ofBytes, if_neg hescape, if_neg hpositive]
    rfl
  · rw [if_neg hnegative, if_neg hnegative]
    exact (readBytes_reads 4 h).map _

/-- The reading of instructions has no fault. -/
theorem readInstruction_reads {c : Cursor memory.toSource} (h : p.At c d k) :
    Reads d k (readInstruction memory p) c.readInstruction :=
  (readByte_reads h).bind fun first _ _ _ h => readFollowing_reads first h

/-- Seeking has no fault. -/
theorem seek_reads (offset : Nat) (st : Source.State) (hs : p.machine.Shows d) (hk : p.depth = k) :
    Reads d k (seek memory offset p) (Cursor.openAt (s := memory.toSource) offset st) := by
  have hr := memory.reliable_toSource.seek offset st
  have hdata := memory.toSource_data
  unfold Cursor.openAt
  rw [seek]
  by_cases hle : offset ≤ memory.data.length
  · rw [if_pos (hdata ▸ hle)] at hr
    rw [if_neg (Nat.not_lt.2 hle), called, modify_bind, modifyInput, modify_bind]
    split
    · next next hseek =>
      rw [hr] at hseek
      obtain ⟨-, rfl⟩ := Prod.mk.inj hseek
      refine Reads.after (refill_reads _ ?_ hk rfl rfl)
      exact hs.record _
    · next next hseek =>
      rw [hr] at hseek
      cases (Prod.mk.inj hseek).1
  · rw [if_neg (hdata ▸ hle)] at hr
    rw [if_pos (Nat.lt_of_not_le hle), called, modify_bind]
    split
    · next next hseek =>
      rw [hr] at hseek
      cases (Prod.mk.inj hseek).1
    · exact .failed (hs.record _)

end Reads

end Process

end Type1
