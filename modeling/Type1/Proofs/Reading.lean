import Type1.Instruction

/-!
# Reading from memory

A source in memory refuses no call, and its chunks have bytes as long as there are any. What a
cursor reads from it depends on its position alone: the chunks are not visible.

`Source.memory data chunk`: the bytes in memory, with a limit for the chunks if there is one.

`c.Faithful`: the unread bytes of the chunk are those of the data at the position.

`r.Gives p o`: the reading `r`, begun at `p`, gives the value and takes the number of bytes that `o`
states, and leaves a faithful cursor; or there are no bytes left for it.

`Instruction.first?`: the instruction at the front of a list of bytes, and its length.
`readInstruction_gives`: a cursor reads the instruction at the front of the bytes from its position.
-/

namespace Type1

/-! ## Sources in memory -/

namespace Source

/-- The bytes in memory, handed out in chunks of limited length or all at once. -/
def memory (data : List UInt8) (chunk : Option Nat) : Source :=
  match chunk with
  | some length => chunked data length
  | none => ofBytes data

/-- No call fails, and a chunk has bytes as long as there are any. -/
structure Reliable (s : Source) : Prop where
  faults : s.faults = {}
  limit : s.limit ≠ some 0

variable {data : List UInt8} {chunk : Option Nat}

@[simp] theorem memory_data : (memory data chunk).data = data := by
  cases chunk <;> rfl

theorem reliable_memory : (memory data chunk).Reliable := by
  cases chunk with
  | none => exact ⟨rfl, nofun⟩
  | some n =>
    refine ⟨rfl, fun h => ?_⟩
    have : max n 1 = 0 := Option.some.inj h
    omega

variable {s : Source}

theorem Reliable.read (hs : s.Reliable) (st : State) :
    s.read st = (some (s.chunkAt st.offset),
      { st with reads := st.reads + 1, offset := st.offset + (s.chunkAt st.offset).length }) := by
  simp [Source.read, hs.faults]

theorem Reliable.seek (hs : s.Reliable) (offset : Nat) (st : State) :
    s.seek offset st = if offset ≤ s.data.length
      then (true, { st with seeks := st.seeks + 1, offset })
      else (false, { st with seeks := st.seeks + 1 }) := by
  simp [Source.seek, hs.faults]

theorem chunkAt_isPrefix (offset : Nat) : s.chunkAt offset <+: s.data.drop offset := by
  unfold chunkAt
  split
  · exact List.take_prefix _ _
  · exact List.prefix_rfl

/-- Only at the end of the data is a chunk empty. -/
theorem Reliable.chunkAt_eq_nil (hs : s.Reliable) {offset : Nat} :
    s.chunkAt offset = [] ↔ s.data.length ≤ offset := by
  have := hs.limit
  unfold chunkAt
  split <;> simp_all

/-- A chunk with bytes has those of the data at the offset. -/
theorem Reliable.isPrefix_of_read (hs : s.Reliable) {st next : State} {chunk : List UInt8}
    (h : s.read st = (some chunk, next)) : chunk <+: s.data.drop st.offset := by
  rw [hs.read] at h
  rw [← Option.some.inj (Prod.mk.inj h).1]
  exact s.chunkAt_isPrefix st.offset

/-- A read that gives no byte stands at the end of the data. -/
theorem Reliable.le_of_read (hs : s.Reliable) {st next : State} {chunk : Option (List UInt8)}
    (h : s.read st = (chunk, next)) (hno : ∀ byte rest, chunk = some (byte :: rest) → False) :
    s.data.length ≤ st.offset := by
  rw [hs.read] at h
  rw [← hs.chunkAt_eq_nil]
  cases hch : s.chunkAt st.offset with
  | nil => rfl
  | cons byte rest => exact (hno byte rest (by rw [← (Prod.mk.inj h).1, hch])).elim

end Source

/-- The rest of a list that begins with a byte of the data. -/
theorem cons_isPrefix_drop {byte : UInt8} {rest data : List UInt8} {p : Nat}
    (h : byte :: rest <+: data.drop p) : data[p]? = some byte ∧ rest <+: data.drop (p + 1) := by
  obtain ⟨tail, ht⟩ := h
  refine ⟨?_, tail, ?_⟩
  · rw [← List.head?_drop, ← ht]
    rfl
  · rw [← List.tail_drop, ← ht]
    rfl

/-! ## Lists of bytes -/

/-- The first bytes of a list, with their number, if there are as many. -/
def front? (n : Nat) (bytes : List UInt8) : Option (List UInt8 × Nat) :=
  if n ≤ bytes.length then some (bytes.take n, n) else none

/-- The instruction at the front of a list of bytes, with its length. -/
def Instruction.first? : List UInt8 → Option (Instruction × Nat)
  | [] => none
  | first :: rest =>
    (front? (following first) rest).map fun (bytes, n) => (ofBytes first bytes, n + 1)

/-! ## Cursors -/

variable {s : Source} {α β : Type}

/-- The unread bytes of the chunk are those of the data at the position. -/
def Cursor.Faithful (c : Cursor s) : Prop := c.buffer <+: s.data.drop c.position

/-- A reading begun at a position gives a value and takes a number of bytes, or finds too few. -/
def Reading.Gives (r : Reading s α) (position : Nat) : Option (α × Nat) → Prop
  | some (a, n) => ∃ c calls, r = .done a c calls ∧ c.position = position + n ∧ c.Faithful
  | none => ∃ st calls, r = .failed .streamRead st calls

namespace Reading.Gives

variable {r : Reading s α} {p : Nat} {o : Option (α × Nat)}

theorem of_eq (h : r.Gives p o) {o' : Option (α × Nat)} (e : o = o') : r.Gives p o' := e ▸ h

theorem after (h : r.Gives p o) (calls : List Source.Call) : (r.after calls).Gives p o := by
  cases o with
  | some x =>
    obtain ⟨c, later, rfl, hc⟩ := h
    exact ⟨c, calls ++ later, rfl, hc⟩
  | none =>
    obtain ⟨st, later, rfl⟩ := h
    exact ⟨st, calls ++ later, rfl⟩

theorem map (h : r.Gives p o) (f : α → β) :
    (r.map f).Gives p (o.map fun (a, n) => (f a, n)) := by
  cases o with
  | some x =>
    obtain ⟨c, calls, rfl, hc⟩ := h
    exact ⟨c, calls, rfl, hc⟩
  | none =>
    obtain ⟨st, calls, rfl⟩ := h
    exact ⟨st, calls, rfl⟩

/-- What goes on from a value takes its bytes after those of the value. -/
theorem bind (h : r.Gives p o) (next : α → Cursor s → Reading s β)
    (o' : α → Nat → Option (β × Nat))
    (hn : ∀ a n c, o = some (a, n) → c.position = p + n → c.Faithful →
      (next a c).Gives (p + n) (o' a n)) :
    (r.bind next).Gives p (o.bind fun (a, n) => (o' a n).map fun (b, m) => (b, n + m)) := by
  cases o with
  | none =>
    obtain ⟨st, calls, rfl⟩ := h
    exact ⟨st, calls, rfl⟩
  | some x =>
    obtain ⟨a, n⟩ := x
    obtain ⟨c, calls, rfl, hp, hc⟩ := h
    have hr := (hn a n c rfl hp hc).after calls
    show ((next a c).after calls).Gives p ((o' a n).map _)
    cases ho : o' a n with
    | none => rwa [ho] at hr
    | some y =>
      rw [ho] at hr
      obtain ⟨c', later, he, hp', hc'⟩ := hr
      exact ⟨c', later, he, by rw [hp', Nat.add_assoc], hc'⟩

end Reading.Gives

namespace Cursor

/-- A byte is that of the data at the position. -/
theorem readByte_gives (hs : s.Reliable) {c : Cursor s} (hc : c.Faithful) :
    c.readByte.Gives c.position (s.data[c.position]?.map (·, 1)) := by
  unfold readByte
  split
  · next byte rest h =>
    unfold Faithful at hc
    rw [h] at hc
    obtain ⟨hb, hrest⟩ := cons_isPrefix_drop hc
    rw [hb]
    exact ⟨_, _, rfl, rfl, hrest⟩
  · next h =>
    have hp : c.position = c.state.offset := by
      have := c.position_add
      simpa [h] using this
    split
    · next byte rest next hread =>
      obtain ⟨hb, hrest⟩ := cons_isPrefix_drop (hp ▸ hs.isPrefix_of_read hread)
      rw [hb]
      exact ⟨_, _, rfl, rfl, hrest⟩
    · next chunk next hno hread =>
      rw [List.getElem?_eq_none (hp ▸ hs.le_of_read hread hno)]
      exact ⟨_, _, rfl⟩

/-- Bytes are those at the front of the data from the position on. -/
theorem readBytes_gives (hs : s.Reliable) (n : Nat) {c : Cursor s} (hc : c.Faithful) :
    (readBytes n c).Gives c.position (front? n (s.data.drop c.position)) := by
  induction n generalizing c with
  | zero => exact ⟨c, [], rfl, rfl, hc⟩
  | succ n ih =>
    have hr := (readByte_gives hs hc).bind
      (fun byte next => (readBytes n next).map (byte :: ·))
      (fun byte m => (front? n (s.data.drop (c.position + m))).map
        fun (bytes, k) => (byte :: bytes, k))
      fun byte m next _ hp hn => hp ▸ (ih hn).map (byte :: ·)
    refine hr.of_eq ?_
    simp only [← List.head?_drop, ← List.drop_drop]
    cases s.data.drop c.position with
    | nil => rfl
    | cons byte rest =>
      simp only [List.head?_cons, Option.map_some, Option.bind_some, List.drop_one, List.tail_cons,
        front?, List.length_cons, Nat.add_le_add_iff_right]
      split <;> simp [Nat.add_comm]

/-- A cursor reads the instruction at the front of the data from its position on. -/
theorem readInstruction_gives (hs : s.Reliable) {c : Cursor s} (hc : c.Faithful) :
    c.readInstruction.Gives c.position (Instruction.first? (s.data.drop c.position)) := by
  have hr := (readByte_gives hs hc).bind
    (fun first next => (readBytes (Instruction.following first) next).map
      (Instruction.ofBytes first))
    (fun first m => (front? (Instruction.following first) (s.data.drop (c.position + m))).map
      fun (bytes, k) => (Instruction.ofBytes first bytes, k))
    fun first m next _ hp hn => hp ▸ (readBytes_gives hs _ hn).map (Instruction.ofBytes first)
  refine hr.of_eq ?_
  simp only [← List.head?_drop, ← List.drop_drop]
  cases s.data.drop c.position with
  | nil => rfl
  | cons first rest =>
    simp only [List.head?_cons, Option.map_some, Option.bind_some, List.drop_one, List.tail_cons,
      front?, Instruction.first?]
    split <;> simp [Nat.add_comm]

/-- A chunk is those bytes of the data that it stands for, unless none are left. -/
theorem load_gives (hs : s.Reliable) (st : Source.State) (valid : st.offset ≤ s.data.length) :
    (load st valid).Gives st.offset
      (if st.offset < s.data.length then some ((), 0) else none) := by
  unfold load
  split
  · next byte rest next hread =>
    have hpre := hs.isPrefix_of_read hread
    have hlt : st.offset < s.data.length :=
      (List.getElem?_eq_some_iff.1 (cons_isPrefix_drop hpre).1).1
    rw [if_pos hlt]
    exact ⟨_, _, rfl, rfl, hpre⟩
  · next chunk next hno hread =>
    rw [if_neg (Nat.not_lt.2 (hs.le_of_read hread hno))]
    exact ⟨_, _, rfl⟩

/-- Opening within the data leaves a faithful cursor there, and at their end there is nothing to
read. -/
theorem openAt_gives (hs : s.Reliable) {offset : Nat} (h : offset ≤ s.data.length)
    (st : Source.State) :
    (openAt (s := s) offset st).Gives offset
      (if offset < s.data.length then some ((), 0) else none) := by
  have hseek := hs.seek offset st
  rw [if_pos h] at hseek
  unfold openAt
  split
  · next next he =>
    rw [he] at hseek
    obtain rfl : next = _ := (Prod.mk.inj hseek).2
    exact (load_gives hs _ h).after _
  · next next he =>
    rw [he] at hseek
    simp at hseek

/-- Past the end of the data there is no offset. -/
theorem openAt_past (hs : s.Reliable) {offset : Nat} (h : s.data.length < offset)
    (st : Source.State) :
    ∃ st' calls, openAt (s := s) offset st = .failed .streamSeek st' calls := by
  have hseek := hs.seek offset st
  rw [if_neg (Nat.not_le.2 h)] at hseek
  unfold openAt
  split
  · next next he =>
    rw [he] at hseek
    simp at hseek
  · exact ⟨_, _, rfl⟩

end Cursor

end Type1
