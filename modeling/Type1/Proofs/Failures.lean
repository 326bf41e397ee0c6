import Type1.Proofs.Checked.Input
import Type1.Proofs.Telling

/-!
# A source that fails

A call of the source that fails stops a decoding at once: it has told what it would have told up to
that call, it makes no further call, and its error is that of the call.

* `Source.Failure`, `Source.failing`: a source one call of which fails.
* `Reading.Spoiled`: a reading from such a source is the same, or it ends with that call. So it is
  with instructions (`spoiled_readInstruction`) and with opening at an offset (`spoiled_openAt`).
* `Run.Spoiled`: a run from such a source is the same, or it has ended with that call. A step keeps
  it (`spoiled_step`), and so does a run (`spoiled_advance`).
* `failure_stops`: what a decoding reports whose source fails.
-/

namespace Type1

namespace Source

/-- A way in which a call of a source fails. -/
inductive Failure where
  /-- A read gives no chunk. -/
  | noneRead
  /-- A read gives a chunk without bytes. -/
  | emptyRead
  /-- A seek is refused. -/
  | failedSeek
deriving DecidableEq, Repr

namespace Failure

/-- Whether it is reads that fail, not seeks. -/
def ofRead : Failure → Bool
  | noneRead | emptyRead => true
  | failedSeek => false

/-- Whether the call is of the kind that fails. -/
def concerns (failure : Failure) : Call → Bool
  | .read _ => failure.ofRead
  | .seek .. => !failure.ofRead

/-- How often a source was called in this way. -/
def count (failure : Failure) (st : State) : Nat :=
  if failure.ofRead then st.reads else st.seeks

/-- The call with the answer that it has when it fails. -/
def spoil : Failure → Call → Call
  | noneRead, .read _ => .read none
  | emptyRead, .read _ => .read (some 0)
  | _, .seek offset _ => .seek offset false
  | _, call => call

/-- The error of a call that fails. -/
def error (failure : Failure) : Error := if failure.ofRead then .streamRead else .streamSeek

/-- The one call that fails is the one after `n` of its kind. -/
def faults (n : Nat) : Failure → Faults
  | noneRead => { noneRead := some n }
  | emptyRead => { emptyRead := some n }
  | failedSeek => { failedSeek := some n }

/-- Whether the event is a call of the kind that fails. -/
def marks (failure : Failure) : Event → Bool
  | .called call => failure.concerns call
  | _ => false

end Failure

/-- The source, of which the call after `n` of its kind fails. -/
def failing (s : Source) (failure : Failure) (n : Nat) : Source :=
  { s with faults := failure.faults n }

variable {s : Source} {failure : Failure} {n : Nat} {st : State}

/-- Any other read is the same. -/
theorem read_failing (hs : s.faults = {})
    (h : failure.ofRead = true → failure.count st ≠ n) :
    (s.failing failure n).read st = s.read st := by
  cases failure with
  | noneRead =>
    have hne : n ≠ st.reads := fun he => h rfl he.symm
    simp [read, failing, Failure.faults, chunkAt, hs, hne]
  | emptyRead =>
    have hne : n ≠ st.reads := fun he => h rfl he.symm
    simp [read, failing, Failure.faults, chunkAt, hs, hne]
  | failedSeek => simp [read, failing, Failure.faults, chunkAt, hs]

/-- A read that fails gives no bytes. -/
theorem read_struck (hread : failure.ofRead = true) (hn : failure.count st = n) :
    ∃ chunk, (s.failing failure n).read st = (chunk, { st with reads := st.reads + 1 }) ∧
      (∀ byte rest, chunk ≠ some (byte :: rest)) ∧
      ∀ length, failure.spoil (.read length) = .read (chunk.map (·.length)) := by
  subst hn
  cases failure with
  | noneRead =>
    refine ⟨none, ?_, by simp, fun _ => rfl⟩
    simp [read, failing, Failure.faults, Failure.count, Failure.ofRead]
  | emptyRead =>
    refine ⟨some [], ?_, by simp, fun _ => rfl⟩
    simp [read, failing, Failure.faults, Failure.count, Failure.ofRead]
  | failedSeek => cases hread

/-- Any other seek is the same. -/
theorem seek_failing (hs : s.faults = {}) {offset : Nat}
    (h : failure.ofRead = false → failure.count st ≠ n) :
    (s.failing failure n).seek offset st = s.seek offset st := by
  cases failure with
  | failedSeek =>
    have hne : n ≠ st.seeks := fun he => h rfl he.symm
    simp [seek, failing, Failure.faults, hs, hne]
    rfl
  | noneRead | emptyRead =>
    simp [seek, failing, Failure.faults, hs]
    rfl

/-- A seek that fails is refused. -/
theorem seek_struck (hseek : failure.ofRead = false) (hn : failure.count st = n) (offset : Nat) :
    (s.failing failure n).seek offset st = (false, { st with seeks := st.seeks + 1 }) := by
  subst hn
  cases failure with
  | failedSeek => simp [seek, failing, Failure.faults, Failure.count, Failure.ofRead]
  | noneRead | emptyRead => cases hseek

/-- A call of the kind is counted. -/
theorem count_read (failure : Failure) {chunk : Option (List UInt8)} {next : State}
    (h : s.read st = (chunk, next))
    (length : Option Nat) :
    failure.count next = failure.count st + [Call.read length].countP failure.concerns := by
  have hnext : next.reads = st.reads + 1 ∧ next.seeks = st.seeks := by
    unfold read at h
    dsimp only at h
    split at h
    · cases h
      exact ⟨rfl, rfl⟩
    · split at h <;> cases h <;> exact ⟨rfl, rfl⟩
  cases failure <;> simp [Failure.count, Failure.concerns, Failure.ofRead, hnext]

theorem count_seek (failure : Failure) {offset : Nat} {answer : Bool} {next : State}
    (h : s.seek offset st = (answer, next)) (done : Bool) :
    failure.count next = failure.count st + [Call.seek offset done].countP failure.concerns := by
  have hnext : next.reads = st.reads ∧ next.seeks = st.seeks + 1 := by
    unfold seek at h
    dsimp only at h
    split at h
    · cases h
      exact ⟨rfl, rfl⟩
    · split at h <;> cases h <;> exact ⟨rfl, rfl⟩
  cases failure <;> simp [Failure.count, Failure.concerns, Failure.ofRead, hnext]

/-- A call that does not fail is made before the one that does. -/
theorem count_le_of_ne {call : Call} (hle : failure.count st ≤ n)
    (h : failure.concerns call = true → failure.count st ≠ n) :
    failure.count st + [call].countP failure.concerns ≤ n := by
  rw [List.countP_singleton]
  split
  · next hcall =>
    have := h hcall
    omega
  · exact hle

end Source

variable {s : Source} {failure : Source.Failure} {n : Nat} {α β : Type}

/-! ## Readings -/

/-- The cursor in a source that has the same bytes. -/
def Cursor.failing (failure : Source.Failure) (n : Nat) (c : Cursor s) :
    Cursor (s.failing failure n) :=
  ⟨c.state, c.buffer, c.position, c.position_add, c.offset_le⟩

namespace Reading

/-- The reading in a source that has the same bytes. -/
def failing (failure : Source.Failure) (n : Nat) : Reading s α → Reading (s.failing failure n) α
  | done value c calls => done value (c.failing failure n) calls
  | failed error st calls => failed error st calls

/-- The state of the source after the reading. -/
def state : Reading s α → Source.State
  | done _ c _ => c.state
  | failed _ st _ => st

/-- The calls that the reading makes. -/
def calls : Reading s α → List Source.Call
  | done _ _ calls => calls
  | failed _ _ calls => calls

/-- From a source one call of which fails, the reading is the same, as it makes that call not yet;
or it ends with that call. -/
inductive Spoiled (failure : Source.Failure) (n : Nat) (st : Source.State) (r : Reading s α) :
    Reading (s.failing failure n) α → Prop where
  /-- The call is not made. -/
  | same (hcount : failure.count r.state = failure.count st + r.calls.countP failure.concerns)
      (hle : failure.count r.state ≤ n) : Spoiled failure n st r (r.failing failure n)
  /-- The call fails. -/
  | struck (before : List Source.Call) (call : Source.Call) (later : List Source.Call)
      (next : Source.State) (hcalls : r.calls = before ++ call :: later)
      (hcall : failure.concerns call = true)
      (hcount : failure.count st + before.countP failure.concerns = n)
      (hnext : failure.count next = n + 1) :
      Spoiled failure n st r (.failed failure.error next (before ++ [failure.spoil call]))

variable {st : Source.State} {r : Reading s α} {r' : Reading (s.failing failure n) α}

theorem state_after (calls : List Source.Call) : (r.after calls).state = r.state := by
  cases r <;> rfl

theorem calls_after (calls : List Source.Call) : (r.after calls).calls = calls ++ r.calls := by
  cases r <;> rfl

theorem state_map (f : α → β) : (r.map f).state = r.state := by
  cases r <;> rfl

theorem calls_map (f : α → β) : (r.map f).calls = r.calls := by
  cases r <;> rfl

/-- A reading that begins after other calls. -/
theorem Spoiled.after {first : Source.State} {calls : List Source.Call}
    (h : Spoiled failure n st r r')
    (hst : failure.count st = failure.count first + calls.countP failure.concerns) :
    Spoiled failure n first (r.after calls) (r'.after calls) := by
  cases h with
  | same hcount hle =>
    have hfailing : (r.failing failure n).after calls = (r.after calls).failing failure n := by
      cases r <;> rfl
    rw [hfailing]
    refine .same ?_ ?_
    · rw [state_after, calls_after, List.countP_append, hcount, hst, Nat.add_assoc]
    · rwa [state_after]
  | struck before call later next hcalls hcall hcount hnext =>
    have hafter : (failed failure.error next (before ++ [failure.spoil call]) :
        Reading (s.failing failure n) α).after calls =
        failed failure.error next ((calls ++ before) ++ [failure.spoil call]) := by
      rw [List.append_assoc]
      rfl
    rw [hafter]
    refine .struck (calls ++ before) call later next ?_ hcall ?_ hnext
    · rw [calls_after, hcalls, List.append_assoc]
    · rw [List.countP_append, ← Nat.add_assoc, ← hst, hcount]

theorem Spoiled.map (h : Spoiled failure n st r r') (f : α → β) :
    Spoiled failure n st (r.map f) (r'.map f) := by
  cases h with
  | same hcount hle =>
    have hfailing : (r.failing failure n).map f = (r.map f).failing failure n := by
      cases r <;> rfl
    rw [hfailing]
    refine .same ?_ ?_
    · rwa [state_map, calls_map]
    · rwa [state_map]
  | struck before call later next hcalls hcall hcount hnext =>
    exact .struck before call later next (by rwa [calls_map]) hcall hcount hnext

/-- A reading that goes on from another. -/
theorem Spoiled.bind {next : α → Cursor s → Reading s β}
    {next' : α → Cursor (s.failing failure n) → Reading (s.failing failure n) β}
    (h : Spoiled failure n st r r')
    (hn : ∀ a c calls, r = .done a c calls → failure.count c.state ≤ n →
      Spoiled failure n c.state (next a c) (next' a (c.failing failure n))) :
    Spoiled failure n st (r.bind next) (r'.bind next') := by
  cases h with
  | same hcount hle =>
    cases r with
    | done a c calls => exact (hn a c calls rfl hle).after hcount
    | failed error st calls => exact .same hcount hle
  | struck before call later last hcalls hcall hcount hnext =>
    cases r with
    | done a c calls =>
      refine .struck before call (later ++ (next a c).calls) last ?_ hcall hcount hnext
      have hcalls : calls = before ++ call :: later := hcalls
      rw [bind, calls_after, hcalls, List.append_assoc, List.cons_append]
    | failed error st calls => exact .struck before call later last hcalls hcall hcount hnext

end Reading

namespace Cursor

variable {st : Source.State}

/-- A chunk that is given or not as by the other source. -/
theorem load_failing (hread : (s.failing failure n).read st = s.read st)
    (valid : st.offset ≤ s.data.length) :
    load (s := s.failing failure n) st valid = (load (s := s) st valid).failing failure n := by
  unfold load
  split
  · next byte rest next h =>
    rw [hread] at h
    split
    · next h' =>
      cases h.symm.trans h'
      rfl
    · next hno h' =>
      cases h.symm.trans h'
      exact (hno byte rest rfl).elim
  · next chunk next hno h =>
    rw [hread] at h
    split
    · next byte rest next h' =>
      cases h.symm.trans h'
      exact (hno byte rest rfl).elim
    · next h' =>
      cases h.symm.trans h'
      rfl

/-- A chunk makes one call. -/
theorem load_call (failure : Source.Failure) (valid : st.offset ≤ s.data.length) :
    ∃ length, (load (s := s) st valid).calls = [.read length] ∧
      failure.count (load (s := s) st valid).state =
        failure.count st + [Source.Call.read length].countP failure.concerns := by
  unfold load
  split
  · next h => exact ⟨_, rfl, Source.count_read failure h _⟩
  · next h => exact ⟨_, rfl, Source.count_read failure h _⟩

/-- A chunk that is not given. -/
theorem load_struck (hread : failure.ofRead = true) (hn : failure.count st = n)
    (valid : st.offset ≤ s.data.length) (length : Option Nat) :
    load (s := s.failing failure n) st valid = .failed failure.error
      { st with reads := st.reads + 1 } [failure.spoil (.read length)] := by
  obtain ⟨chunk, h, hno, hspoil⟩ := Source.read_struck (s := s) hread hn
  unfold load
  split
  · next byte rest next h' => exact (hno byte rest (Prod.mk.inj (h.symm.trans h')).1).elim
  · next h' =>
    cases h.symm.trans h'
    rw [hspoil, Source.Failure.error, if_pos hread]

theorem spoiled_load (hs : s.faults = {}) (hle : failure.count st ≤ n)
    (valid : st.offset ≤ s.data.length) :
    Reading.Spoiled failure n st (load st valid)
      (load (s := s.failing failure n) st valid) := by
  obtain ⟨length, hcalls, hstate⟩ := load_call (s := s) failure valid
  by_cases h : failure.ofRead = true ∧ failure.count st = n
  · rw [load_struck h.1 h.2 valid length]
    refine .struck [] (.read length) [] _ hcalls h.1 h.2 ?_
    rw [← h.2, Source.Failure.count, Source.Failure.count, if_pos h.1, if_pos h.1]
  · have hne (hread : failure.ofRead = true) (hn : failure.count st = n) : False := h ⟨hread, hn⟩
    rw [load_failing (Source.read_failing hs hne)]
    exact .same (hcalls ▸ hstate) (hstate ▸ Source.count_le_of_ne hle hne)

section Open

variable {offset : Nat} {next : Source.State}

theorem openAt_of_refused (h : s.seek offset st = (false, next)) :
    openAt (s := s) offset st = .failed .streamSeek next [.seek offset false] := by
  unfold openAt
  split
  · next h' => cases h.symm.trans h'
  · next h' =>
    cases h.symm.trans h'
    rfl

theorem openAt_of_done (h : s.seek offset st = (true, next)) :
    openAt (s := s) offset st =
      (load next (Nat.le_trans (Nat.le_of_eq (Source.seek_offset h).1)
        (Source.seek_offset h).2)).after [.seek offset true] := by
  unfold openAt
  split
  · next h' =>
    cases h.symm.trans h'
    rfl
  · next h' => cases h.symm.trans h'

/-- Opening at an offset seeks first. -/
theorem openAt_call (offset : Nat) (st : Source.State) :
    ∃ done later, (openAt (s := s) offset st).calls = .seek offset done :: later := by
  rcases h : s.seek offset st with ⟨_ | _, next⟩
  · exact ⟨false, [], by rw [openAt_of_refused h]; rfl⟩
  · exact ⟨true, _, by rw [openAt_of_done h]; exact Reading.calls_after _⟩

end Open

theorem spoiled_openAt (hs : s.faults = {}) (hle : failure.count st ≤ n) (offset : Nat) :
    Reading.Spoiled failure n st (openAt offset st)
      (openAt (s := s.failing failure n) offset st) := by
  -- The failing call is this seek, or it is still to come: the read behind the seek or a later one.
  by_cases h : failure.ofRead = false ∧ failure.count st = n
  · obtain ⟨done, later, hcalls⟩ := openAt_call (s := s) offset st
    have hcall : failure.concerns (.seek offset done) = true := by
      simp [Source.Failure.concerns, h.1]
    have hstruck : openAt (s := s.failing failure n) offset st =
        .failed failure.error { st with seeks := st.seeks + 1 }
          [failure.spoil (.seek offset done)] := by
      rw [openAt_of_refused (Source.seek_struck h.1 h.2 offset), Source.Failure.error, h.1]
      cases failure <;> rfl
    rw [hstruck]
    refine .struck [] (.seek offset done) later _ hcalls hcall h.2 ?_
    rw [← h.2, Source.Failure.count, Source.Failure.count, h.1]
    rfl
  · have hne {done : Bool} (hseek : failure.concerns (.seek offset done) = true)
        (hn : failure.count st = n) : False :=
      h ⟨by simpa [Source.Failure.concerns] using hseek, hn⟩
    have hsame : (s.failing failure n).seek offset st = s.seek offset st :=
      Source.seek_failing hs fun hseek hn => h ⟨hseek, hn⟩
    rcases hseek : s.seek offset st with ⟨done, next⟩
    have hcount := Source.count_seek failure hseek done
    have hnext : failure.count next ≤ n := hcount ▸ Source.count_le_of_ne hle hne
    cases done with
    | false =>
      rw [openAt_of_refused hseek, openAt_of_refused (hsame.trans hseek)]
      exact .same hcount hnext
    | true =>
      rw [openAt_of_done hseek, openAt_of_done (hsame.trans hseek)]
      exact (spoiled_load hs hnext _).after hcount

/-- A byte may be the first of another chunk. -/
theorem spoiled_readByte (hs : s.faults = {}) (c : Cursor s) (hle : failure.count c.state ≤ n) :
    Reading.Spoiled failure n c.state c.readByte (c.failing failure n).readByte := by
  have hhead (c : Cursor s) (hle : failure.count c.state ≤ n) (hc : c.buffer ≠ []) :
      Reading.Spoiled failure n c.state c.readByte (c.failing failure n).readByte := by
    obtain ⟨state, _ | ⟨byte, rest⟩, position, hadd, hoffset⟩ := c
    · exact absurd rfl hc
    · exact .same rfl hle
  by_cases hc : c.buffer = []
  · have hc' : (c.failing failure n).buffer = [] := hc
    rw [Process.readByte_of_nil hc, Process.readByte_of_nil hc']
    exact (spoiled_load hs hle c.offset_le).bind fun _ c calls hload hle =>
      hhead c hle (Process.buffer_ne_nil_of_load hload)
  · exact hhead c hle hc

theorem spoiled_readBytes (hs : s.faults = {}) (k : Nat) (c : Cursor s)
    (hle : failure.count c.state ≤ n) :
    Reading.Spoiled failure n c.state (c.readBytes k) ((c.failing failure n).readBytes k) := by
  induction k generalizing c with
  | zero => exact .same rfl hle
  | succ k ih =>
    exact (spoiled_readByte hs c hle).bind fun byte c _ _ hle => (ih c hle).map (byte :: ·)

theorem spoiled_readInstruction (hs : s.faults = {}) (c : Cursor s)
    (hle : failure.count c.state ≤ n) :
    Reading.Spoiled failure n c.state c.readInstruction (c.failing failure n).readInstruction :=
  (spoiled_readByte hs c hle).bind fun first c _ _ hle =>
    (spoiled_readBytes hs (Instruction.following first) c hle).map (Instruction.ofBytes first)

end Cursor

/-! ## Runs -/

/-- Calls come after the events before. -/
theorem Decoder.events_recordCalls (d : Decoder) (calls : List Source.Call) :
    (d.recordCalls calls).events = d.events ++ calls.map .called := by
  induction calls generalizing d with
  | nil => exact (List.append_nil _).symm
  | cons call calls ih =>
    refine (ih (d.record (.called call))).trans ?_
    rw [d.events_record, List.append_assoc]
    rfl

namespace Source.Failure

theorem countP_called (failure : Failure) (calls : List Call) :
    (calls.map Event.called).countP failure.marks = calls.countP failure.concerns := by
  rw [List.countP_map]
  rfl

/-- The calls of the kind are those among the calls of the source. -/
theorem countP_events (failure : Failure) (events : List Event) :
    events.countP failure.marks = (events.filterMap Event.call?).countP failure.concerns := by
  rw [List.countP_filterMap]
  refine congrArg (events.countP ·) (funext fun event => ?_)
  cases event <;> rfl

end Source.Failure

/-- The run in a source that has the same bytes. -/
def Status.failing (failure : Source.Failure) (n : Nat) : Status s → Status (s.failing failure n)
  | .running m => .running ⟨m.frames, m.cursor.failing failure n, m.decoder⟩
  | .ended o => .ended o

/-- The calls that may fail were made `first` times before, and as often since then as the history
lists them. None of them was the one after `n`. -/
def Session.Counts (failure : Source.Failure) (first n : Nat) (session : Session) : Prop :=
  failure.count session.source = first + session.decoder.events.countP failure.marks ∧
    failure.count session.source ≤ n

namespace Run

variable {setup : Setup} {first : Nat}

/-- From a source one call of which fails, the run is the same, as it has not come to that call; or
it has ended with that call. -/
inductive Spoiled (failure : Source.Failure) (first n : Nat) (x : Status s) :
    Status (s.failing failure n) → Prop where
  /-- The call was not made. -/
  | same (hcounts : x.session.Counts failure first n) :
      Spoiled failure first n x (x.failing failure n)
  /-- The call failed. -/
  | struck (before : List Event) (call : Source.Call) (session : Session)
      (hevents : before ++ [.called call] <+: x.session.decoder.events)
      (hcall : failure.concerns call = true)
      (hcount : first + before.countP failure.marks = n)
      (hleft : session.decoder.events = before ++ [.called (failure.spoil call)])
      (hsource : failure.count session.source = n + 1) :
      Spoiled failure first n x (.ended (.error failure.error session))

/-- A reading ends a run that ends with it. -/
theorem spoiled_of_struck {st : Source.State} {d : Decoder} {before later : List Source.Call}
    {call : Source.Call} {next : Source.State} {x : Status s}
    (hfirst : failure.count st = first + d.events.countP failure.marks)
    (hcall : failure.concerns call = true)
    (hcount : failure.count st + before.countP failure.concerns = n)
    (hnext : failure.count next = n + 1)
    (hgrows : (d.recordCalls (before ++ call :: later)).events <+: x.session.decoder.events) :
    Spoiled failure first n x (.ended (.error failure.error
      ⟨next, d.recordCalls (before ++ [failure.spoil call])⟩)) := by
  refine .struck (d.events ++ before.map .called) call _ ?_ hcall ?_ ?_ hnext
  · refine .trans ?_ hgrows
    rw [Decoder.events_recordCalls]
    exact ⟨later.map .called, by simp⟩
  · rw [List.countP_append, failure.countP_called, ← Nat.add_assoc, ← hfirst, hcount]
  · rw [Decoder.events_recordCalls, List.map_append, List.append_assoc]
    rfl

/-- What follows a reading. -/
def onward (d : Decoder) (r : Reading s α) (next : α → Cursor s → Decoder → Status s) : Status s :=
  match r with
  | .done value c calls => next value c (d.recordCalls calls)
  | .failed error st calls => .ended (.error error ⟨st, d.recordCalls calls⟩)

/-- A run goes on after a reading, or it has ended with it. -/
theorem spoiled_onward {st : Source.State} {d : Decoder} {r : Reading s α}
    {r' : Reading (s.failing failure n) α} {next : α → Cursor s → Decoder → Status s}
    {next' : α → Cursor (s.failing failure n) → Decoder → Status (s.failing failure n)}
    (h : r.Spoiled failure n st r') (hcounts : Session.Counts failure first n ⟨st, d⟩)
    (hgrows : ∀ a c e, e.events <+: (next a c e).session.decoder.events)
    (hnext : ∀ a c calls, r = .done a c calls →
      Session.Counts failure first n ⟨c.state, d.recordCalls calls⟩ →
      Spoiled failure first n (next a c (d.recordCalls calls))
        (next' a (c.failing failure n) (d.recordCalls calls))) :
    Spoiled failure first n (onward d r next) (onward d r' next') := by
  cases h with
  | same hcount hle =>
    have hsession : Session.Counts failure first n ⟨r.state, d.recordCalls r.calls⟩ := by
      refine ⟨?_, hle⟩
      have := hcounts.1
      dsimp only at this ⊢
      rw [Decoder.events_recordCalls, List.countP_append, failure.countP_called]
      omega
    cases r with
    | done a c calls => exact hnext a c calls rfl hsession
    | failed error st calls => exact .same hsession
  | struck before call later last hcalls hcall hcount hlast =>
    have hgrows : (d.recordCalls r.calls).events <+: (onward d r next).session.decoder.events := by
      cases r with
      | done a c calls => exact hgrows a c _
      | failed error st calls => exact List.prefix_rfl
    rw [hcalls] at hgrows
    exact spoiled_of_struck hcounts.1 hcall hcount hlast hgrows

theorem resume_eq_onward (frames : List Frame) (offset : Nat) (session : Session) :
    resume s frames offset session =
      onward session.decoder (Cursor.openAt offset session.source) fun _ c d =>
        .running ⟨frames, c, d⟩ := by
  unfold resume onward
  cases Cursor.openAt (s := s) offset session.source <;> rfl

theorem spoiled_resume (hs : s.faults = {}) {session : Session}
    (h : session.Counts failure first n) (frames : List Frame) (offset : Nat) :
    Spoiled failure first n (resume s frames offset session)
      (resume (s.failing failure n) frames offset session) := by
  rw [resume_eq_onward, resume_eq_onward]
  exact spoiled_onward (Cursor.spoiled_openAt hs h.2 offset) h (fun _ _ _ => List.prefix_rfl)
    fun _ _ _ _ hcounts => .same hcounts

theorem spoiled_enter (hs : s.faults = {}) {session : Session}
    (h : session.Counts failure first n) (f : Frame) (frames : List Frame) (offset : Nat) :
    Spoiled failure first n (enter s f frames offset session)
      (enter (s.failing failure n) f frames offset session) := by
  unfold enter
  split
  · exact spoiled_resume hs h _ _
  · exact .same h

theorem spoiled_leave (hs : s.faults = {}) {session : Session}
    (h : session.Counts failure first n) (frames : List Frame) (flow : Flow) :
    Spoiled failure first n (leave s frames flow session)
      (leave (s.failing failure n) frames flow session) := by
  induction frames generalizing flow session with
  | nil => exact .same h
  | cons f frames ih =>
    cases f with
    | caller p =>
      cases flow with
      | returned => exact spoiled_resume hs h frames p
      | finished => exact ih h .finished
    | base accent shift =>
      have h : (session.mapDecoder (.beginAccent shift)).Counts failure first n := h
      exact spoiled_enter hs h .accent frames accent
    | accent =>
      have h : (session.mapDecoder .endParts).Counts failure first n := h
      exact ih h .finished

/-- What follows an instruction that was read. -/
def act (setup : Setup) (frames : List Frame) (i : Instruction) (c : Cursor s) (d : Decoder) :
    Status s :=
  match Decode.execute setup i d with
  | .error error d => .ended (.error error ⟨c.state, d⟩)
  | .ok control d => pursue frames c d control

theorem step_eq_onward (m : Moment s) :
    step s setup m = onward m.decoder m.cursor.readInstruction (act setup m.frames) := by
  rcases step_cases setup m with ⟨_, _, _, hread, hstep⟩ | ⟨_, _, _, hread,
    ⟨_, _, hx, hstep⟩ | ⟨_, _, hx, hstep⟩⟩
  · rw [hstep, hread, onward]
  · rw [hstep, hread, onward, act, hx]
  · rw [hstep, hread, onward, act, hx]

/-- An instruction adds to what was told. -/
theorem act_grows (setup : Setup) (frames : List Frame) (i : Instruction) (c : Cursor s)
    (d : Decoder) : d.events <+: (act setup frames i c d).session.decoder.events := by
  have h := invariant_events setup d.events
  have hgrows := (Decode.blind_execute setup i).grows d
  refine meets_iff (P := (d.events <+: ·.events)) |>.1 ?_
  unfold act
  cases hx : Decode.execute setup i d with
  | error error e =>
    rw [hx] at hgrows
    exact hgrows
  | ok control e =>
    rw [hx] at hgrows
    cases control with
    | next => exact hgrows
    | leave flow => exact h.leave hgrows
    | call offset => exact h.enter hgrows
    | compose base accent shift => exact h.enter hgrows

/-- An instruction is the same whatever source it is from, as it does not call that. -/
theorem spoiled_act (hs : s.faults = {}) {c : Cursor s} {d : Decoder}
    (h : Session.Counts failure first n ⟨c.state, d⟩) (frames : List Frame) (i : Instruction) :
    Spoiled failure first n (act setup frames i c d)
      (act setup frames i (c.failing failure n) d) := by
  have hcalls := Decode.execute_calls setup i d
  have hcounts (e : Decoder) (he : e.calls = d.calls) :
      Session.Counts failure first n ⟨c.state, e⟩ := by
    refine ⟨?_, h.2⟩
    have := h.1
    dsimp only at this ⊢
    rwa [failure.countP_events, ← Decoder.calls, he, Decoder.calls, ← failure.countP_events]
  unfold act
  cases hx : Decode.execute setup i d with
  | error error e =>
    rw [hx] at hcalls
    exact .same (hcounts e hcalls)
  | ok control e =>
    rw [hx] at hcalls
    have he := hcounts e hcalls
    cases control with
    | next => exact .same he
    | leave flow => exact spoiled_leave hs he frames flow
    | call offset => exact spoiled_enter hs he (.caller c.position) frames offset
    | compose base accent shift =>
      exact spoiled_enter hs (hcounts e.beginBase hcalls) (.base accent shift) frames base

theorem spoiled_step (hs : s.faults = {}) {m : Moment s}
    (h : Session.Counts failure first n ⟨m.cursor.state, m.decoder⟩) :
    Spoiled failure first n (step s setup m)
      (step (s.failing failure n) setup ⟨m.frames, m.cursor.failing failure n, m.decoder⟩) := by
  rw [step_eq_onward, step_eq_onward]
  exact spoiled_onward (Cursor.spoiled_readInstruction hs m.cursor h.2) h (act_grows setup m.frames)
    fun i c calls _ hcounts => spoiled_act hs hcounts m.frames i

/-- A run goes on being the same, or it has ended. -/
theorem spoiled_advance (hs : s.faults = {}) {x : Status s} {x' : Status (s.failing failure n)}
    (h : Spoiled failure first n x x') (k : Nat) :
    Spoiled failure first n (advance s setup k x) (advance (s.failing failure n) setup k x') := by
  induction k generalizing x x' with
  | zero => exact h
  | succ k ih =>
    cases h with
    | same hcounts =>
      cases x with
      | running m => exact ih (spoiled_step hs hcounts)
      | ended o => exact .same hcounts
    | struck before call session hevents hcall hcount hleft hsource =>
      rw [advance_ended]
      exact .struck before call session (hevents.trans (advance_grows x (k + 1))) hcall hcount hleft
        hsource

end Run

/-- A receiver makes no difference to the calls. -/
theorem Source.Failure.countP_deliver (failure : Source.Failure) (settings : Settings)
    (takes : Capabilities) (events : List Event) :
    (events.flatMap (Event.deliver settings takes)).countP failure.marks =
      events.countP failure.marks := by
  induction events with
  | nil => rfl
  | cons event events ih =>
    rw [List.flatMap_cons, List.countP_append, ih, List.countP_cons, Nat.add_comm]
    congr 1
    cases event with
    | element e => simp [Event.deliver, Source.Failure.marks, List.countP_eq_zero]
    | _ => simp [Event.deliver, List.countP_singleton]

/-- What a run that is over reports has the calls that it has made. -/
theorem Run.countP_conclude (failure : Source.Failure) (settings : Settings)
    (takes : Capabilities) (offset : Nat) (o : Session.Outcome) :
    (conclude settings takes offset o).1.events.countP failure.marks =
      (left o).events.countP failure.marks := by
  cases o with
  | ok flow session => exact failure.countP_deliver settings takes _
  | error x session =>
    refine (List.countP_append ..).trans ?_
    rw [failure.countP_deliver settings takes]
    rfl

/-- What a run that is over reports begins with what it has told. -/
theorem Run.prefix_conclude (settings : Settings) (takes : Capabilities) (offset : Nat)
    {o : Session.Outcome} {events : List Event} (h : events <+: (left o).events) :
    events.flatMap (Event.deliver settings takes) <+:
      (conclude settings takes offset o).1.events := by
  obtain ⟨later, hlater⟩ := h
  cases o with
  | ok flow session =>
    refine ⟨later.flatMap (Event.deliver settings takes), ?_⟩
    rw [← List.flatMap_append, hlater]
    rfl
  | error x session =>
    refine ⟨later.flatMap (Event.deliver settings takes) ++ [.failed offset x], ?_⟩
    rw [← List.append_assoc, ← List.flatMap_append, hlater]
    rfl

/-- What a run reports that has ended with a call that fails. -/
theorem Run.conclude_struck (settings : Settings) (takes : Capabilities) (offset : Nat)
    {before : List Event} {call : Source.Call} {x : Error} {session : Session}
    (h : session.decoder.events = before ++ [.called call]) :
    (conclude settings takes offset (.error x session)).1 =
      ⟨before.flatMap (Event.deliver settings takes) ++ [.called call, .failed offset x],
        .error x⟩ := by
  show Report.mk (session.decoder.events.flatMap _ ++ _) _ = _
  rw [h, List.flatMap_append, List.append_assoc]
  rfl

/-- More events of a kind came about than before one of that kind. -/
theorem countP_lt_of_prefix {events before : List Event} {event : Event} {p : Event → Bool}
    (h : before ++ [event] <+: events) (hp : p event = true) :
    before.countP p < events.countP p := by
  have hle := h.sublist.countP_le (p := p)
  rw [List.countP_append, List.countP_singleton, if_pos hp] at hle
  exact hle

/-- If one call of a source fails that gives its data otherwise, and that is the one after `k` of
its kind, a decoding that makes no more than `k` such calls is as from a source without failures.
One that makes more reports what it reports from a source without failures before that call, then
the call, and the error of a call that fails. It makes no further call. -/
theorem failure_stops (data : List UInt8) (chunk : Option Nat) (font : Font) (settings : Settings)
    (takes : Capabilities) (offset : Nat) (st : Source.State) (failure : Source.Failure) (k : Nat) :
    let n := failure.count st + k
    let free := parse (.memory data chunk) font settings takes offset st
    let failed := parse ((Source.memory data chunk).failing failure n) font settings takes offset st
    (free.1.events.countP failure.marks ≤ k → failed = free) ∧
    (k < free.1.events.countP failure.marks → ∃ before call later,
      free.1.events = before ++ .called call :: later ∧ failure.concerns call = true ∧
      before.countP failure.marks = k ∧
      failed.1 = ⟨before ++ [.called (failure.spoil call), .failed offset failure.error],
        .error failure.error⟩ ∧
      failure.count failed.2 = n + 1) := by
  intro n free failed
  let setup := Setup.of font settings takes
  obtain ⟨j, -, hj⟩ := Run.after_eq_ended (s := .memory data chunk) setup offset st
  generalize Session.decodeGlyph (.memory data chunk) setup offset st = o at hj
  have hfree : free = Run.conclude settings takes offset o := Run.parse_eq_conclude hj
  have hcount : free.1.events.countP failure.marks = (Run.left o).events.countP failure.marks := by
    rw [hfree, Run.countP_conclude]
  have hstart : Session.Counts failure (failure.count st) n ⟨st, .start setup.font⟩ :=
    ⟨rfl, Nat.le_add_right _ _⟩
  have hs : (Source.memory data chunk).faults = {} := Source.reliable_memory.faults
  have hspoiled : Run.Spoiled failure (failure.count st) n
      (Run.after (.memory data chunk) setup offset st j)
      (Run.after ((Source.memory data chunk).failing failure n) setup offset st j) :=
    Run.spoiled_advance hs (Run.spoiled_resume hs hstart [] offset) j
  rw [hj] at hspoiled
  generalize hx : Run.after ((Source.memory data chunk).failing failure n) setup offset st j = x
    at hspoiled
  rw [hcount]
  -- Either the call that fails has not been made by the end of the run, or it has struck.
  cases hspoiled with
  | same hcounts =>
    have hle : (Run.left o).events.countP failure.marks ≤ k := by
      have hevents := hcounts.1
      have hn := hcounts.2
      rw [Run.session_ended] at hevents
      omega
    refine ⟨fun _ => ?_, fun hlt => absurd hle (Nat.not_le.2 hlt)⟩
    exact (Run.parse_eq_conclude hx).trans hfree.symm
  | struck before call session hevents hcall hcount hleft hsource =>
    rw [Run.session_ended] at hevents
    have hk : before.countP failure.marks = k := Nat.add_left_cancel hcount
    have hlt : k < (Run.left o).events.countP failure.marks :=
      hk ▸ countP_lt_of_prefix hevents hcall
    refine ⟨fun hle => absurd hle (Nat.not_le.2 hlt), fun _ => ?_⟩
    obtain ⟨later, hlater⟩ := Run.prefix_conclude settings takes offset hevents
    refine ⟨before.flatMap (Event.deliver settings takes), call, later, ?_, hcall, ?_, ?_, ?_⟩
    · rw [hfree, ← hlater, List.flatMap_append, List.append_assoc]
      rfl
    · rw [failure.countP_deliver, hk]
    · show (parse _ font settings takes offset st).1 = _
      rw [Run.parse_eq_conclude hx]
      exact Run.conclude_struck settings takes offset hleft
    · show failure.count (parse _ font settings takes offset st).2 = _
      rw [Run.parse_eq_conclude hx]
      exact hsource

/-- A subroutine returns, and the source refuses to go back behind the call. -/
example :
    let source := (Source.memory [139, 10, 14, 11] none).failing .failedSeek 2
    (parse source { subrs := [3] } {} {} 0 {}).1.result = .error .streamSeek := by
  decide +kernel

end Type1
