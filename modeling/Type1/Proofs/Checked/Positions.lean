import Type1.Proofs.Checked.Input

/-!
# The reading position is a number

The position is kept as the offset of a chunk and a place in the chunk, and the source stands
further on by what is not read of the chunk. Yet nothing but the sum of offset and place can be told
from what is read: each call leaves the chunk to be the data at its offset, with the source right
behind it.

* `Input.Stands`: the place in a chunk stands for a position in the data.
* `Process.refill_within`, `Process.seek_within`, `Process.readByte_within`: what a call leaves,
  with `Process.refill_end`, `Process.seek_end` and `Process.readByte_end` where the data ends.
* `Process.seek_iff`, `Process.readByte_iff`: when a call answers, and where it then stands.
* `Command`, `Process.perform`, `Cursor.perform`: calls one after the other, until one fails.
* `Command.answer`: what they give, by the position alone (`Process.outcome_perform`,
  `Cursor.outcome_perform`).
* `position_of_calls`: the position after any calls. `position_of_calls_chunked`: calls across the
  borders of chunks.
-/

namespace Type1

/-! ## Places and positions -/

/-- The place in the chunk stands for a position: the chunk has the bytes of the data at its offset,
and the source stands behind it. -/
structure Input.Stands (i : Input) (data : List UInt8) (position : Nat) : Prop where
  source : i.source = i.offset + i.buffer.length
  source_le : i.source ≤ data.length
  next_le : i.next ≤ i.buffer.length
  buffer : i.buffer <+: data.drop i.offset
  position : i.offset + i.next = position

theorem Input.Stands.le {i : Input} {data : List UInt8} {k : Nat} (h : i.Stands data k) :
    k ≤ data.length := by
  have hsource := h.source
  have hle := h.source_le
  have hnext := h.next_le
  have hposition := h.position
  omega

/-- Where no byte of the chunk is left, the chunk and the source end at the position. -/
theorem Input.Stands.ends {i : Input} {data : List UInt8} {k : Nat} (h : i.Stands data k)
    (hnext : i.next = i.buffer.length) : i.source = k ∧ i.offset + i.buffer.length = k := by
  have hend : i.offset + i.buffer.length = k := hnext ▸ h.position
  exact ⟨h.source.trans hend, hend⟩

/-- The byte at the place in the chunk is that at the position. -/
theorem Input.Stands.getElem?_eq {i : Input} {data : List UInt8} {k : Nat} (h : i.Stands data k)
    (hnext : i.next < i.buffer.length) : data[k]? = some i.buffer[i.next] := by
  obtain ⟨rest, hrest⟩ := h.buffer
  rw [← h.position, ← List.getElem?_drop, ← hrest, List.getElem?_append_left hnext,
    List.getElem?_eq_getElem hnext]

namespace Process

open Guarded

variable {memory : Memory} {p : Process} {k : Nat}

theorem position_stands (h : p.input.Stands memory.data k) : position p = .ok k p := by
  have hlt := memory.length_lt
  have hle := h.le
  have hposition := h.position
  rw [position, get_bind, plus_run (by omega), hposition]

/-- Only at the end of the data there is no chunk. -/
theorem chunkAt_eq_nil (memory : Memory) (k : Nat) :
    memory.toSource.chunkAt k = [] ↔ memory.data.length ≤ k := by
  rw [← memory.toSource_data]
  exact memory.reliable_toSource.chunkAt_eq_nil

/-- At the end of a chunk the next one is read, if the data go on. -/
theorem refill_within (hsource : p.input.source = k)
    (hoffset : p.input.offset + p.input.buffer.length = k) (hk : k < memory.data.length) :
    ∃ q, refill memory p = .ok () q ∧ q.input.Stands memory.data k ∧
      q.input.next < q.input.buffer.length := by
  have hlt := memory.length_lt
  have hprefix := memory.toSource.chunkAt_isPrefix k
  have hwithin : k ≤ memory.toSource.data.length →
      k + (memory.toSource.chunkAt k).length ≤ memory.toSource.data.length :=
    Source.chunkAt_length_le
  rw [memory.toSource_data] at hprefix hwithin
  cases hc : memory.toSource.chunkAt k with
  | nil => exact absurd hk (Nat.not_lt.2 ((chunkAt_eq_nil memory k).1 hc))
  | cons byte rest =>
    rw [hc] at hprefix hwithin
    refine ⟨{ p with
      input := ⟨p.input.source + (rest.length + 1), byte :: rest, 0, k⟩
      machine := { p.machine with
        rest := p.machine.rest.record (.called (.read (some (rest.length + 1)))) } },
      ?_, ⟨?_, ?_, Nat.zero_le _, hprefix, rfl⟩, Nat.zero_lt_succ _⟩
    · rw [refill, get_bind, bind_ok (plus_run (by omega)), modifyInput, modify_bind, hoffset,
        bind_ok (readChunk_run (by show p.input.source ≤ _; omega) (by exact hsource ▸ hc)),
        if_neg (List.cons_ne_nil byte rest)]
      rfl
    · exact congrArg (· + (rest.length + 1)) hsource
    · exact hsource ▸ hwithin (Nat.le_of_lt hk)

/-- At the end of the data no chunk is read, and the position is the same as before. -/
theorem refill_end (hsource : p.input.source = k)
    (hoffset : p.input.offset + p.input.buffer.length = k) (hk : k = memory.data.length) :
    ∃ q, refill memory p = .error (.failed .streamRead) q ∧ q.input.Stands memory.data k := by
  have hlt := memory.length_lt
  have hc := (chunkAt_eq_nil memory k).2 (Nat.le_of_eq hk.symm)
  refine ⟨{ p with
    input := ⟨p.input.source, [], 0, k⟩
    machine := { p.machine with rest := p.machine.rest.record (.called (.read (some 0))) } },
    ?_, ⟨hsource, Nat.le_of_eq (hsource.trans hk), Nat.le_refl _, List.nil_prefix, rfl⟩⟩
  rw [refill, get_bind, bind_ok (plus_run (by omega)), modifyInput, modify_bind, hoffset,
    bind_ok (readChunk_run (by show p.input.source ≤ _; omega) (by exact hsource ▸ hc)),
    if_pos rfl]
  rfl

/-- A seek within the data goes to the offset and reads a chunk there. -/
theorem seek_run {offset : Nat} (h : offset ≤ memory.data.length) (p : Process) :
    ∃ q : Process, q.input = ⟨offset, [], 0, offset⟩ ∧ seek memory offset p = refill memory q := by
  rw [seek, if_neg (Nat.not_lt.2 h)]
  exact ⟨_, rfl, rfl⟩

theorem seek_within {offset : Nat} (h : offset < memory.data.length) (p : Process) :
    ∃ q, seek memory offset p = .ok () q ∧ q.input.Stands memory.data offset := by
  obtain ⟨q, hinput, hseek⟩ := seek_run (Nat.le_of_lt h) p
  obtain ⟨r, hrefill, hr, -⟩ := refill_within (p := q) (by rw [hinput]) (by rw [hinput]; rfl) h
  exact ⟨r, hseek.trans hrefill, hr⟩

theorem seek_end {offset : Nat} (h : offset = memory.data.length) (p : Process) :
    ∃ q, seek memory offset p = .error (.failed .streamRead) q := by
  obtain ⟨q, hinput, hseek⟩ := seek_run (Nat.le_of_eq h) p
  obtain ⟨r, hrefill, -⟩ := refill_end (p := q) (by rw [hinput]) (by rw [hinput]; rfl) h
  exact ⟨r, hseek.trans hrefill⟩

theorem seek_past {offset : Nat} (h : memory.data.length < offset) (p : Process) :
    ∃ q, seek memory offset p = .error (.failed .streamSeek) q := by
  rw [seek, if_pos h]
  exact ⟨_, rfl⟩

/-- Where the chunk has a byte left, the place behind it is one further. -/
theorem item_stands {byte : UInt8} (h : p.input.Stands memory.data k)
    (hnext : p.input.next < p.input.buffer.length) (hbyte : memory.data[k]? = some byte) :
    ∃ q, (do
      let input := (← get).input
      let byte ← item input.buffer input.next
      let next ← plus input.next 1
      modifyInput ({ · with next })
      return byte : Guarded Process UInt8) p = .ok byte q ∧ q.input.Stands memory.data (k + 1) := by
  have hlt := memory.length_lt
  have hsource := h.source
  have hle := h.source_le
  obtain rfl := Option.some.inj (hbyte.symm.trans (h.getElem?_eq hnext))
  rw [get_bind, bind_ok (item_run hnext), bind_ok (plus_run (by omega))]
  exact ⟨{ p with input := { p.input with next := p.input.next + 1 } }, rfl,
    ⟨hsource, hle, hnext, h.buffer, congrArg (· + 1) h.position⟩⟩

/-- Within the data, the byte at the position is read, and the position is one further then. -/
theorem readByte_within {byte : UInt8} (h : p.input.Stands memory.data k)
    (hbyte : memory.data[k]? = some byte) :
    ∃ q, readByte memory p = .ok byte q ∧ q.input.Stands memory.data (k + 1) := by
  have hk : k < memory.data.length := (List.getElem?_eq_some_iff.1 hbyte).1
  rw [readByte, get_bind]
  dsimp only
  by_cases hnext : p.input.next = p.input.buffer.length
  · obtain ⟨hsource, hoffset⟩ := h.ends hnext
    obtain ⟨q, hrefill, hq, hroom⟩ := refill_within hsource hoffset hk
    rw [if_pos hnext, bind_ok hrefill]
    exact item_stands hq hroom hbyte
  · rw [if_neg hnext]
    exact item_stands h (Nat.lt_of_le_of_ne h.next_le hnext) hbyte

/-- At the end of the data no byte is read, and the position stays there. -/
theorem readByte_end (h : p.input.Stands memory.data k) (hk : k = memory.data.length) :
    ∃ q, readByte memory p = .error (.failed .streamRead) q ∧ q.input.Stands memory.data k := by
  have hnext : p.input.next = p.input.buffer.length := by
    have hsource := h.source
    have hle := h.source_le
    have hposition := h.position
    have hnext := h.next_le
    omega
  obtain ⟨hsource, hoffset⟩ := h.ends hnext
  obtain ⟨q, hrefill, hq⟩ := refill_end hsource hoffset hk
  rw [readByte, get_bind]
  dsimp only
  rw [if_pos hnext]
  exact ⟨q, bind_error hrefill, hq⟩

/-- How a seek ends depends on the offset alone. -/
theorem seek_iff (memory : Memory) (offset : Nat) (p : Process) :
    ((∃ q, seek memory offset p = .ok () q ∧ position q = .ok offset q) ↔
      offset < memory.data.length) ∧
    ((∃ q, seek memory offset p = .error (.failed .streamRead) q) ↔
      offset = memory.data.length) ∧
    ((∃ q, seek memory offset p = .error (.failed .streamSeek) q) ↔
      memory.data.length < offset) := by
  rcases Nat.lt_trichotomy offset memory.data.length with hlt | heq | hgt
  · obtain ⟨q, hseek, hq⟩ := seek_within hlt p
    refine ⟨iff_of_true ⟨q, hseek, position_stands hq⟩ hlt, iff_of_false ?_ (Nat.ne_of_lt hlt),
      iff_of_false ?_ (Nat.lt_asymm hlt)⟩ <;>
    · rintro ⟨r, hr⟩
      cases hseek.symm.trans hr
  · obtain ⟨q, hseek⟩ := seek_end heq p
    refine ⟨iff_of_false ?_ (Nat.not_lt.2 (Nat.le_of_eq heq.symm)), iff_of_true ⟨q, hseek⟩ heq,
      iff_of_false ?_ (Nat.not_lt.2 (Nat.le_of_eq heq))⟩
    · rintro ⟨r, hr, -⟩
      cases hseek.symm.trans hr
    · rintro ⟨r, hr⟩
      cases hseek.symm.trans hr
  · obtain ⟨q, hseek⟩ := seek_past hgt p
    refine ⟨iff_of_false ?_ (Nat.lt_asymm hgt), iff_of_false ?_ (Nat.ne_of_gt hgt),
      iff_of_true ⟨q, hseek⟩ hgt⟩
    · rintro ⟨r, hr, -⟩
      cases hseek.symm.trans hr
    · rintro ⟨r, hr⟩
      cases hseek.symm.trans hr

/-- How the reading of a byte ends depends on the position alone. -/
theorem readByte_iff (h : p.input.Stands memory.data k) :
    (∀ byte, (∃ q, readByte memory p = .ok byte q ∧ position q = .ok (k + 1) q) ↔
      memory.data[k]? = some byte) ∧
    ((∃ q, readByte memory p = .error (.failed .streamRead) q ∧ position q = .ok k q) ↔
      k = memory.data.length) := by
  cases hbyte : memory.data[k]? with
  | some byte =>
    obtain ⟨q, hread, hq⟩ := readByte_within h hbyte
    have hk : k < memory.data.length := (List.getElem?_eq_some_iff.1 hbyte).1
    refine ⟨fun b => ⟨?_, ?_⟩, iff_of_false ?_ (Nat.ne_of_lt hk)⟩
    · rintro ⟨r, hr, -⟩
      cases hread.symm.trans hr
      rfl
    · rintro ⟨⟩
      exact ⟨q, hread, position_stands hq⟩
    · rintro ⟨r, hr, -⟩
      cases hread.symm.trans hr
  | none =>
    have hk := Nat.le_antisymm h.le (List.getElem?_eq_none_iff.1 hbyte)
    obtain ⟨q, hread, hq⟩ := readByte_end h hk
    refine ⟨fun b => iff_of_false ?_ nofun, iff_of_true ⟨q, hread, position_stands hq⟩ hk⟩
    rintro ⟨r, hr, -⟩
    cases hread.symm.trans hr

end Process

/-! ## Calls one after the other -/

/-- A call of the reading. -/
inductive Command where
  /-- Goes to an offset. -/
  | seek (offset : Nat)
  /-- Reads a byte. -/
  | readByte
deriving DecidableEq

namespace Command

/-- The offset that was gone to last and the number of bytes read since then, after further
calls. -/
def since : List Command → Nat × Nat → Nat × Nat
  | [], reached => reached
  | seek offset :: later, _ => since later (offset, 0)
  | readByte :: later, (offset, n) => since later (offset, n + 1)

/-- The bytes that calls give from a position on, or the error of the first that fails. -/
def answer (data : List UInt8) : Nat → List Command → Except Error (List UInt8)
  | _, [] => .ok []
  | _, seek offset :: later =>
    if offset < data.length then answer data offset later
    else .error (if offset = data.length then .streamRead else .streamSeek)
  | position, readByte :: later =>
    match data[position]? with
    | some byte => (answer data (position + 1) later).map (byte :: ·)
    | none => .error .streamRead

theorem since_append (calls later : List Command) (reached : Nat × Nat) :
    since (calls ++ later) reached = since later (since calls reached) := by
  induction calls generalizing reached with
  | nil => rfl
  | cons call calls ih =>
    cases call with
    | seek offset => exact ih _
    | readByte => exact ih _

end Command

/-- What a computation comes to, apart from the state. -/
def Guarded.outcome {σ α : Type} : EStateM.Result Stop σ α → Except Stop α
  | .ok a _ => .ok a
  | .error stop _ => .error stop

theorem Guarded.eq_ok_of_outcome {σ α : Type} {x : EStateM.Result Stop σ α} {a : α}
    (h : outcome x = .ok a) : ∃ s, x = .ok a s := by
  cases x with
  | ok b s =>
    cases h
    exact ⟨s, rfl⟩
  | error stop s => cases h

/-- What a reading comes to, apart from the cursor. -/
def Reading.outcome {s : Source} {α : Type} : Reading s α → Except Error α
  | .done a _ _ => .ok a
  | .failed error _ _ => .error error

namespace Process

open Guarded

variable {memory : Memory} {p : Process} {k : Nat}

/-- Makes calls one after the other, and gives the bytes that they read. -/
def perform (memory : Memory) : List Command → Guarded Process (List UInt8)
  | [] => pure []
  | .seek offset :: later => do
    seek memory offset
    perform memory later
  | .readByte :: later => do
    let byte ← readByte memory
    let bytes ← perform memory later
    return byte :: bytes

/-- Calls give what the position tells, and leave the position where they state. -/
theorem perform_cases {o n : Nat} (h : p.input.Stands memory.data (o + n))
    (commands : List Command) :
    (∃ bytes q, perform memory commands p = .ok bytes q ∧
      Command.answer memory.data (o + n) commands = .ok bytes ∧
      q.input.Stands memory.data
        ((Command.since commands (o, n)).1 + (Command.since commands (o, n)).2)) ∨
    ∃ e q, perform memory commands p = .error (.failed e) q ∧
      Command.answer memory.data (o + n) commands = .error e := by
  -- The position after a call is where the later calls begin.
  induction commands generalizing p o n with
  | nil => exact .inl ⟨[], p, rfl, rfl, h⟩
  | cons command later ih =>
    cases command with
    | seek offset =>
      rw [perform, Command.answer]
      rcases Nat.lt_trichotomy offset memory.data.length with hlt | heq | hgt
      · obtain ⟨q, hseek, hq⟩ := seek_within hlt p
        rw [bind_ok hseek, if_pos hlt]
        exact ih (o := offset) (n := 0) hq
      · obtain ⟨q, hseek⟩ := seek_end heq p
        rw [bind_error hseek, if_neg (Nat.not_lt.2 (Nat.le_of_eq heq.symm)), if_pos heq]
        exact .inr ⟨_, q, rfl, rfl⟩
      · obtain ⟨q, hseek⟩ := seek_past hgt p
        rw [bind_error hseek, if_neg (Nat.not_lt.2 (Nat.le_of_lt hgt)), if_neg (Nat.ne_of_gt hgt)]
        exact .inr ⟨_, q, rfl, rfl⟩
    | readByte =>
      rw [perform, Command.answer]
      cases hbyte : memory.data[o + n]? with
      | none =>
        have hk := Nat.le_antisymm h.le (List.getElem?_eq_none_iff.1 hbyte)
        obtain ⟨q, hread, -⟩ := readByte_end h hk
        rw [bind_error hread]
        exact .inr ⟨_, q, rfl, rfl⟩
      | some byte =>
        obtain ⟨q, hread, hq⟩ := readByte_within h hbyte
        rw [bind_ok hread]
        dsimp only
        obtain ⟨bytes, r, hlater, hanswer, hr⟩ | ⟨e, r, hlater, hanswer⟩ := ih (n := n + 1) hq
        · rw [bind_ok hlater, Nat.add_assoc, hanswer]
          exact .inl ⟨_, r, rfl, rfl, hr⟩
        · rw [bind_error hlater, Nat.add_assoc, hanswer]
          exact .inr ⟨_, r, rfl, rfl⟩

/-- What calls come to is told by the position. -/
theorem outcome_perform (h : p.input.Stands memory.data k) (commands : List Command) :
    outcome (perform memory commands p) =
      (Command.answer memory.data k commands).mapError .failed := by
  obtain ⟨bytes, q, hperform, hanswer, -⟩ | ⟨e, q, hperform, hanswer⟩ :=
    perform_cases (o := k) (n := 0) h commands
  · rw [hperform, show Command.answer memory.data k commands = _ from hanswer]
    rfl
  · rw [hperform, show Command.answer memory.data k commands = _ from hanswer]
    rfl

/-- After calls of which none has failed, the position is where they state. -/
theorem perform_stands {o n : Nat} {q : Process} {commands : List Command} {bytes : List UInt8}
    (h : p.input.Stands memory.data (o + n)) (hperform : perform memory commands p = .ok bytes q) :
    q.input.Stands memory.data
      ((Command.since commands (o, n)).1 + (Command.since commands (o, n)).2) := by
  obtain ⟨bytes', q', hperform', -, hq⟩ | ⟨e, q', hperform', -⟩ := perform_cases h commands
  · cases hperform'.symm.trans hperform
    exact hq
  · cases hperform'.symm.trans hperform

/-- Calls that begin with a seek go on from its offset. -/
theorem perform_seek {offset : Nat} {q : Process} {commands : List Command} {bytes : List UInt8}
    (h : perform memory (.seek offset :: commands) p = .ok bytes q) :
    offset < memory.data.length ∧ ∃ p' : Process, p'.input.Stands memory.data offset ∧
      perform memory commands p' = .ok bytes q := by
  rw [perform] at h
  rcases Nat.lt_trichotomy offset memory.data.length with hlt | heq | hgt
  · obtain ⟨p', hseek, hp'⟩ := seek_within hlt p
    rw [bind_ok hseek] at h
    exact ⟨hlt, p', hp', h⟩
  · obtain ⟨p', hseek⟩ := seek_end heq p
    cases (bind_error hseek).symm.trans h
  · obtain ⟨p', hseek⟩ := seek_past hgt p
    cases (bind_error hseek).symm.trans h

end Process

namespace Cursor

variable {s : Source}

/-- Makes calls one after the other, and gives the bytes that they read. -/
def perform (c : Cursor s) : List Command → Reading s (List UInt8)
  | [] => .done [] c []
  | .seek offset :: later => (openAt offset c.state).bind fun _ next => next.perform later
  | .readByte :: later => c.readByte.bind fun byte next => (next.perform later).map (byte :: ·)

/-- The calls of a cursor give what its position tells. -/
theorem perform_cases (hs : s.Reliable) {c : Cursor s} (hc : c.Faithful) {o n : Nat}
    (hposition : c.position = o + n) (commands : List Command) :
    (∃ bytes next calls, c.perform commands = .done bytes next calls ∧
      Command.answer s.data (o + n) commands = .ok bytes ∧ next.Faithful ∧
      next.position = (Command.since commands (o, n)).1 + (Command.since commands (o, n)).2) ∨
    ∃ e st calls, c.perform commands = .failed e st calls ∧
      Command.answer s.data (o + n) commands = .error e := by
  induction commands generalizing c o n with
  | nil => exact .inl ⟨[], c, [], rfl, rfl, hc, hposition⟩
  | cons command later ih =>
    cases command with
    | seek offset =>
      rw [perform, Command.answer]
      rcases Nat.lt_or_ge s.data.length offset with hgt | hle
      · obtain ⟨st, calls, hopen⟩ := openAt_past hs hgt c.state
        rw [hopen, if_neg (Nat.not_lt.2 (Nat.le_of_lt hgt)), if_neg (Nat.ne_of_gt hgt)]
        exact .inr ⟨_, _, _, rfl, rfl⟩
      · have hgives := openAt_gives hs hle c.state
        by_cases hlt : offset < s.data.length
        · rw [if_pos hlt] at hgives ⊢
          obtain ⟨next, calls, hopen, hnext, hfaithful⟩ := hgives
          rw [hopen]
          obtain ⟨bytes, last, more, hlater, hrest⟩ | ⟨e, st, more, hlater, hanswer⟩ :=
            ih hfaithful (o := offset) (n := 0) hnext
          · exact .inl ⟨bytes, last, calls ++ more, by rw [Reading.bind, hlater]; rfl, hrest⟩
          · exact .inr ⟨e, st, calls ++ more, by rw [Reading.bind, hlater]; rfl, hanswer⟩
        · rw [if_neg hlt] at hgives ⊢
          obtain ⟨st, calls, hopen⟩ := hgives
          rw [hopen, if_pos (Nat.le_antisymm hle (Nat.le_of_not_lt hlt))]
          exact .inr ⟨_, _, _, rfl, rfl⟩
    | readByte =>
      rw [perform, Command.answer]
      have hgives := readByte_gives hs hc
      rw [hposition] at hgives
      cases hbyte : s.data[o + n]? with
      | none =>
        rw [hbyte] at hgives
        obtain ⟨st, calls, hread⟩ := hgives
        rw [hread]
        exact .inr ⟨_, _, _, rfl, rfl⟩
      | some byte =>
        rw [hbyte] at hgives
        obtain ⟨next, calls, hread, hnext, hfaithful⟩ := hgives
        rw [hread]
        dsimp only
        obtain ⟨bytes, last, more, hlater, hanswer, hrest⟩ | ⟨e, st, more, hlater, hanswer⟩ :=
          ih hfaithful (o := o) (n := n + 1) hnext
        · rw [Nat.add_assoc, hanswer]
          exact .inl ⟨_, last, calls ++ more, by rw [Reading.bind, hlater]; rfl, rfl, hrest⟩
        · rw [Nat.add_assoc, hanswer]
          exact .inr ⟨e, st, calls ++ more, by rw [Reading.bind, hlater]; rfl, rfl⟩

/-- What the calls of a cursor come to is told by its position. -/
theorem outcome_perform (hs : s.Reliable) {c : Cursor s} (hc : c.Faithful)
    (commands : List Command) :
    (c.perform commands).outcome = Command.answer s.data c.position commands := by
  obtain ⟨bytes, next, calls, hperform, hanswer, -⟩ | ⟨e, st, calls, hperform, hanswer⟩ :=
    perform_cases hs hc (o := c.position) (n := 0) rfl commands
  · exact (congrArg Reading.outcome hperform).trans hanswer.symm
  · exact (congrArg Reading.outcome hperform).trans hanswer.symm

end Cursor

/-- After any calls that begin with a seek and of which none has failed, the position is the last
offset that was gone to and the number of bytes read since then. It alone tells what further calls
come to, however the data are cut into chunks: the next byte is that at the position, and there is
none exactly at the end of the data, where the position stays; a seek goes to any offset before the
end of the data. So what was there after going back to the position is there as before, whatever was
done in between. The cursor on which decoding reads has the same position, and its calls come to the
same. -/
theorem position_of_calls (memory : Memory) (p q : Process) (offset : Nat)
    (commands : List Command) (bytes : List UInt8)
    (h : Process.perform memory (.seek offset :: commands) p = .ok bytes q) :
    let data := memory.data
    let reached := Command.since commands (offset, 0)
    let k := reached.1 + reached.2
    (Process.position q = .ok k q ∧ k ≤ data.length) ∧
    ((∀ byte, (∃ r, Process.readByte memory q = .ok byte r ∧ Process.position r = .ok (k + 1) r) ↔
        data[k]? = some byte) ∧
      ((∃ r, Process.readByte memory q = .error (.failed .streamRead) r ∧
        Process.position r = .ok k r) ↔ k = data.length)) ∧
    (∀ o, ((∃ r, Process.seek memory o q = .ok () r ∧ Process.position r = .ok o r) ↔
        o < data.length) ∧
      ((∃ r, Process.seek memory o q = .error (.failed .streamRead) r) ↔ o = data.length) ∧
      ((∃ r, Process.seek memory o q = .error (.failed .streamSeek) r) ↔ data.length < o)) ∧
    (∀ later, Guarded.outcome (Process.perform memory later q) =
      (Command.answer data k later).mapError .failed) ∧
    (∀ between others r, Process.perform memory (between ++ [.seek k]) q = .ok others r →
      Process.position r = .ok k r ∧ ∀ later, Guarded.outcome (Process.perform memory later r) =
        Guarded.outcome (Process.perform memory later q)) ∧
    ∀ st, ∃ c calls, ((Cursor.openAt (s := memory.toSource) offset st).bind
        fun _ c => c.perform commands) = .done bytes c calls ∧
      c.position = k ∧ ∀ later, (c.perform later).outcome = Command.answer data k later := by
  intro data reached k
  obtain ⟨hoffset, p', hp', hperform⟩ := Process.perform_seek h
  -- After the seek, the process stands at the place that the calls come to, as they succeed.
  obtain ⟨_, _, hperform', hanswer, hq⟩ | ⟨e, _, hperform', -⟩ :=
    Process.perform_cases (o := offset) (n := 0) hp' commands
  all_goals cases hperform'.symm.trans hperform
  refine ⟨⟨Process.position_stands hq, hq.le⟩, Process.readByte_iff hq,
    fun o => Process.seek_iff memory o q, Process.outcome_perform hq, ?_, ?_⟩
  · -- Where the process stands after a seek depends on the last seek and on what was read since,
    -- and on nothing before them.
    intro between others r hr
    have hstands := Process.perform_stands (o := reached.1) (n := reached.2) hq hr
    rw [Command.since_append] at hstands
    exact ⟨Process.position_stands hstands, fun later =>
      (Process.outcome_perform hstands later).trans (Process.outcome_perform hq later).symm⟩
  · intro st
    have hs := memory.reliable_toSource
    rw [← memory.toSource_data] at hoffset
    -- The same calls of a cursor: it begins at the same place, and gives the same answers from
    -- there.
    have hgives := Cursor.openAt_gives hs (Nat.le_of_lt hoffset) st
    rw [if_pos hoffset] at hgives
    obtain ⟨c, calls, hopen, hc, hfaithful⟩ := hgives
    rw [← memory.toSource_data] at hanswer
    obtain ⟨bytes', last, more, hrun, hanswer', hlast, hposition⟩ | ⟨e, _, _, -, hfailed⟩ :=
      Cursor.perform_cases hs hfaithful (o := offset) (n := 0) hc commands
    · cases hanswer.symm.trans hanswer'
      refine ⟨last, calls ++ more, by rw [hopen, Reading.bind, hrun]; rfl, hposition,
        fun later => ?_⟩
      rw [Cursor.outcome_perform hs hlast later, hposition, memory.toSource_data]
    · cases hanswer.symm.trans hfailed

/-- Going on after a seek to a saved position, over data in chunks of four bytes: the second byte
and the third are read, then the last, and then those after the third. -/
theorem position_of_calls_chunked :
    let memory : Memory := ⟨[10, 11, 12, 13, 14, 15], some 4, by decide⟩
    let start : Process := ⟨{}, 0, ⟨.empty, .empty, .empty, .start {}⟩⟩
    ∃ q r, Process.perform memory [.seek 1, .readByte, .readByte] start = .ok [11, 12] q ∧
      Process.position q = .ok 3 q ∧
      Process.perform memory ([.seek 5, .readByte] ++ [.seek 3]) q = .ok [15] r ∧
      Process.position r = .ok 3 r ∧
      Guarded.outcome (Process.perform memory [.readByte, .readByte] r) = .ok [13, 14] := by
  intro memory start
  obtain ⟨q, hq⟩ : ∃ q, Process.perform memory [.seek 1, .readByte, .readByte] start =
      .ok [11, 12] q := ⟨_, rfl⟩
  obtain ⟨⟨hposition, -⟩, -, -, houtcome, hback, -⟩ :=
    position_of_calls memory start q 1 [.readByte, .readByte] [11, 12] hq
  obtain ⟨r, hr⟩ : ∃ r, Process.perform memory ([.seek 5, .readByte] ++ [.seek 3]) q =
      .ok [15] r := Guarded.eq_ok_of_outcome (houtcome ([.seek 5, .readByte] ++ [.seek 3]))
  obtain ⟨hsaved, hsame⟩ := hback [.seek 5, .readByte] [15] r hr
  exact ⟨q, r, hq, hposition, hr, hsaved, (hsame _).trans (houtcome [.readByte, .readByte])⟩

end Type1
