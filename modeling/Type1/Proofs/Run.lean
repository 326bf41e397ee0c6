import Mathlib.Algebra.Group.Nat.Defs
import Type1.Proofs.Levels

/-!
# Runs, instruction by instruction

A run has the levels that wait for the one above them on a list of frames, so an instruction is one
step of it, at whatever level it stands.

* **The machine**: `Moment` is what a run has between its instructions, `step` executes one, and
  `advance` a number of them.
* **The number of steps**: a level with `n` bytes before it takes fewer than `(n + 2) * bound` of
  them if each level above it takes fewer than `bound` (`advance_decode`).
* **What a run computes**: it ends as `Session.decodeGlyph` does (`after_eq_ended`), and what it
  leaves is what `parse` reports (`parse_eq_conclude`).
* **Changed states**: a run from a changed state goes on as the changed run does between its
  instructions (`Between.resume`, `Between.enter`, `Between.leave`).
-/

namespace Type1

/-- A level that waits for the one above it. -/
inductive Frame where
  /-- A level that called a subroutine goes on at the position behind the call. -/
  | caller (position : Nat)
  /-- An accented character whose base is being decoded still has to decode its accent. -/
  | base (accent : Nat) (shift : Point)
  /-- An accented character whose accent is being decoded is complete after it. -/
  | accent
deriving DecidableEq

/-- What a run has between its instructions. -/
structure Moment (s : Source) where
  /-- The levels that wait, the nearest one first. -/
  frames : List Frame
  /-- Where the next instruction is read. -/
  cursor : Cursor s
  /-- The state of the decoding. -/
  decoder : Decoder

/-- The number of levels above the glyph. -/
def Moment.depth {s : Source} (m : Moment s) : Nat := m.frames.length

/-- Whether a run goes on. -/
inductive Status (s : Source) where
  /-- There is an instruction to execute. -/
  | running (m : Moment s)
  /-- The run is over. -/
  | ended (outcome : Session.Outcome)

/-- The moment that a run has come to, if it goes on. -/
def Status.moment? {s : Source} : Status s → Option (Moment s)
  | running m => some m
  | ended _ => none

theorem Status.eq_running_of_moment? {s : Source} {x : Status s} {m : Moment s}
    (h : x.moment? = some m) : x = .running m := by
  cases x <;> cases h
  rfl

namespace Run

variable (s : Source) (setup : Setup)

/-! ## The machine -/

/-- A level begins or goes on at an offset. -/
def resume (frames : List Frame) (offset : Nat) (session : Session) : Status s :=
  match Cursor.openAt offset session.source with
  | .failed error source calls => .ended (.error error ⟨source, session.decoder.recordCalls calls⟩)
  | .done _ c calls => .running ⟨frames, c, session.decoder.recordCalls calls⟩

/-- A level above begins at an offset, if one is left. -/
def enter (f : Frame) (frames : List Frame) (offset : Nat) (session : Session) : Status s :=
  if frames.length < maxDepth then resume s (f :: frames) offset session
  else .ended (.error .subrDepth session)

/-- A level ends, and the nearest one that waits goes on, unless that ends with it. -/
def leave : List Frame → Flow → Session → Status s
  | [], flow, session => .ended (.ok flow session)
  | .caller p :: frames, .returned, session => resume s frames p session
  | .caller _ :: frames, .finished, session => leave frames .finished session
  | .base accent shift :: frames, _, session =>
    enter s .accent frames accent (session.mapDecoder (.beginAccent shift))
  | .accent :: frames, _, session => leave frames .finished (session.mapDecoder .endParts)

/-- An instruction is read, and executed as `execute` does. -/
def stepWith (execute : Instruction → Decode Control) (m : Moment s) : Status s :=
  match m.cursor.readInstruction with
  | .failed error source calls => .ended (.error error ⟨source, m.decoder.recordCalls calls⟩)
  | .done i next calls =>
    match execute i (m.decoder.recordCalls calls) with
    | .error error d => .ended (.error error ⟨next.state, d⟩)
    | .ok .next d => .running ⟨m.frames, next, d⟩
    | .ok (.leave flow) d => leave s m.frames flow ⟨next.state, d⟩
    | .ok (.call offset) d => enter s (.caller next.position) m.frames offset ⟨next.state, d⟩
    | .ok (.compose base accent shift) d =>
      enter s (.base accent shift) m.frames base ⟨next.state, d.beginBase⟩

/-- An instruction is read and executed. -/
def step (m : Moment s) : Status s := stepWith s (Decode.execute setup) m

/-- A run after a number of steps, each of them as `step` does. -/
def advanceWith (step : Moment s → Status s) : Nat → Status s → Status s
  | 0, x => x
  | _ + 1, .ended outcome => .ended outcome
  | n + 1, .running m => advanceWith step n (step m)

/-- A run after a number of steps. -/
def advance (n : Nat) (x : Status s) : Status s := advanceWith s (step s setup) n x

/-- The run of the charstring at an offset, after a number of steps. -/
def after (offset : Nat) (st : Source.State) (n : Nat) : Status s :=
  advance s setup n (resume s [] offset ⟨st, .start setup.font⟩)

variable {s setup}

theorem advance_add (j k : Nat) (x : Status s) :
    advance s setup (j + k) x = advance s setup k (advance s setup j x) := by
  induction j generalizing x with
  | zero => rw [Nat.zero_add]; rfl
  | succ j ih =>
    rw [Nat.succ_add]
    cases x with
    | ended outcome => cases k <;> rfl
    | running m => exact ih (step s setup m)

theorem advance_ended (n : Nat) (outcome : Session.Outcome) :
    advance s setup n (.ended outcome) = .ended outcome := by
  cases n <;> rfl

/-- A run comes to one end only. -/
theorem ended_unique {j k : Nat} {x : Status s} {o o' : Session.Outcome}
    (h : advance s setup j x = .ended o) (h' : advance s setup k x = .ended o') : o = o' := by
  have hj : advance s setup (j + k) x = .ended o := by rw [advance_add, h, advance_ended]
  have hk : advance s setup (k + j) x = .ended o' := by rw [advance_add, h', advance_ended]
  rw [Nat.add_comm] at hk
  exact Status.ended.inj (hj.symm.trans hk)

/-- A moment of a run is followed by a step, and comes after one or is the first. -/
theorem after_succ {offset : Nat} {st : Source.State} {n : Nat} {m : Moment s}
    (h : after s setup offset st n = .running m) :
    after s setup offset st (n + 1) = step s setup m := by
  unfold after at h ⊢
  rw [advance_add, h]
  rfl

/-- A run that is over stays so. -/
theorem after_of_ended {offset : Nat} {st : Source.State} {k n : Nat} {o : Session.Outcome}
    (h : after s setup offset st k = .ended o) (hle : k ≤ n) :
    after s setup offset st n = .ended o := by
  obtain ⟨j, rfl⟩ := Nat.exists_eq_add_of_le hle
  unfold after at h ⊢
  rw [advance_add, h, advance_ended]

/-- A run that goes on was going on before. -/
theorem running_of_succ {offset : Nat} {st : Source.State} {n : Nat} {m : Moment s}
    (h : after s setup offset st (n + 1) = .running m) :
    ∃ l, after s setup offset st n = .running l ∧ step s setup l = .running m := by
  cases hl : after s setup offset st n with
  | running l => exact ⟨l, rfl, (after_succ hl).symm.trans h⟩
  | ended outcome =>
    unfold after at h hl
    rw [advance_add, hl, advance_ended] at h
    cases h

/-- What holds at the beginning and is kept by a step holds at each moment of a run. -/
theorem invariant {P : Moment s → Prop} {offset : Nat} {st : Source.State}
    (hstart : ∀ m, resume s [] offset ⟨st, .start setup.font⟩ = .running m → P m)
    (hstep : ∀ l m, P l → step s setup l = .running m → P m) {n : Nat} {m : Moment s}
    (h : after s setup offset st n = .running m) : P m := by
  induction n generalizing m with
  | zero => exact hstart m h
  | succ n ih =>
    obtain ⟨l, hl, hm⟩ := running_of_succ h
    exact hstep l m (ih hl) hm

/-! ## What a run computes, and in how many steps -/

/-- What follows a level that ends so. -/
def proceed (frames : List Frame) : Session.Outcome → Status s
  | .ok flow session => leave s frames flow session
  | .error error session => .ended (.error error session)

/-- After fewer than `bound` steps, a level above is over and what waits for it goes on. -/
def Follows (setup : Setup) (nested : Nat → Session → Session.Outcome) (frames : List Frame)
    (bound : Nat) : Prop :=
  ∀ f offset session, ∃ t < bound,
    advance s setup t (enter s f frames offset session) =
      proceed (f :: frames) (nested offset session)

section Follows

variable {nested : Nat → Session → Session.Outcome} {frames : List Frame} {bound : Nat}

/-- The two parts of an accented character. -/
theorem advance_compose (h : Follows (s := s) setup nested frames bound) (base accent : Nat)
    (shift : Point) (session : Session) :
    ∃ t, t + 1 < 2 * bound ∧
      advance s setup t (enter s (.base accent shift) frames base (session.mapDecoder .beginBase)) =
        proceed frames (Session.compose nested base accent shift session) := by
  obtain ⟨t, ht, hb⟩ := h (.base accent shift) base (session.mapDecoder .beginBase)
  unfold Session.compose
  cases ho : nested base (session.mapDecoder .beginBase) with
  | error x session =>
    rw [ho] at hb
    exact ⟨t, by omega, hb⟩
  | ok flow session =>
    rw [ho] at hb
    obtain ⟨u, hu, ha⟩ := h .accent accent (session.mapDecoder (.beginAccent shift))
    refine ⟨t + u, by omega, ?_⟩
    rw [advance_add, hb]
    show advance s setup u (enter s .accent frames accent _) = _
    rw [ha]
    dsimp only
    cases nested accent (session.mapDecoder (.beginAccent shift)) with
    | error x session => rfl
    | ok flow session => rfl

/-- A level that goes on at an offset is over after the steps that one from a cursor there takes. -/
theorem advance_resume {offset n : Nat} (hpos : 0 < n)
    (hd : ∀ (c : Cursor s) (d : Decoder), c.position = offset → ∃ t < n,
      advance s setup t (.running ⟨frames, c, d⟩) =
        proceed frames (Session.decode s (Decode.execute setup) nested c d))
    (session : Session) :
    ∃ t < n, advance s setup t (resume s frames offset session) =
      proceed frames (Session.decodeAt s (Decode.execute setup) nested offset session) := by
  unfold resume Session.decodeAt
  cases hopen : Cursor.openAt (s := s) offset session.source with
  | failed error source calls => exact ⟨0, hpos, rfl⟩
  | done u c calls => exact hd c _ (Cursor.openAt_position hopen)

/-- A level is over after a number of steps that the bytes before it bound. -/
theorem advance_decode (h : Follows (s := s) setup nested frames bound) (c : Cursor s)
    (d : Decoder) :
    ∃ t < (c.remaining + 2) * bound,
      advance s setup t (.running ⟨frames, c, d⟩) =
        proceed frames (Session.decode s (Decode.execute setup) nested c d) := by
  have hbound : 0 < bound := by
    obtain ⟨t, ht, -⟩ := h .accent 0 ⟨{}, d⟩
    omega
  -- The induction is on the bytes before the level. Each instruction takes one of them at least,
  -- and so pays for the levels that it may put above this one.
  induction hr : c.remaining using Nat.strongRecOn generalizing c d with
  | ind r ih =>
    have hsplit (k : Nat) : (k + 1 + 2) * bound = (k + 2) * bound + bound := by
      rw [Nat.add_right_comm, Nat.succ_mul]
    have hone : 2 * bound ≤ (r + 2) * bound := Nat.mul_le_mul_right _ (by omega)
    cases hread : c.readInstruction with
    | failed error source calls =>
      refine ⟨1, by omega, ?_⟩
      rw [Session.decode_of_failed hread]
      simp only [advance, advanceWith, step, stepWith, hread]
      rfl
    | done i next calls =>
      have hlt := Cursor.remaining_lt (Cursor.readInstruction_lt hread)
      obtain ⟨k, hk⟩ : ∃ k, r = k + 1 := ⟨r - 1, by omega⟩
      have hle : (next.remaining + 2) * bound ≤ (k + 2) * bound :=
        Nat.mul_le_mul_right _ (by omega)
      rw [Session.decode_of_done hread]
      have hstep : advance s setup 1 (.running ⟨frames, c, d⟩) =
          step s setup ⟨frames, c, d⟩ := rfl
      simp only [step, stepWith, hread] at hstep
      cases hx : Decode.execute setup i (d.recordCalls calls) with
      | error error d =>
        rw [hx] at hstep
        exact ⟨1, by omega, hstep⟩
      | ok control e =>
        rw [hx] at hstep
        cases control with
        | next =>
          obtain ⟨t, ht, hd⟩ := ih _ (hr ▸ hlt) next e rfl
          refine ⟨1 + t, by rw [hk, hsplit]; omega, ?_⟩
          rw [advance_add, hstep]
          exact hd
        | leave flow => exact ⟨1, by omega, hstep⟩
        -- Both parts end before the bound of two levels, and the level ends with them.
        | compose base accent shift =>
          obtain ⟨t, ht, hc⟩ := advance_compose h base accent shift ⟨next.state, e⟩
          refine ⟨1 + t, by omega, ?_⟩
          rw [advance_add, hstep]
          exact hc
        | call offset =>
          obtain ⟨t, ht, hn⟩ := h (.caller next.position) offset ⟨next.state, e⟩
          have hcall : advance s setup (1 + t) (.running ⟨frames, c, d⟩) =
              proceed (.caller next.position :: frames) (nested offset ⟨next.state, e⟩) := by
            rw [advance_add, hstep]
            exact hn
          revert hcall
          dsimp only
          cases nested offset ⟨next.state, e⟩ with
          | error x session => exact fun hcall => ⟨1 + t, by omega, hcall⟩
          | ok flow session =>
            cases flow with
            | finished => exact fun hcall => ⟨1 + t, by omega, hcall⟩
            | returned =>
              intro hcall
              -- The level is as far as behind the call, wherever the subroutine has read.
              have hback (back : Cursor s) (d : Decoder) (hp : back.position = next.position) :
                  ∃ u < (next.remaining + 2) * bound,
                    advance s setup u (.running ⟨frames, back, d⟩) =
                      proceed frames (Session.decode s (Decode.execute setup) nested back d) := by
                have hr : back.remaining = next.remaining := by
                  rw [Cursor.remaining, hp]
                  rfl
                exact hr ▸ ih _ (by omega) back d rfl
              obtain ⟨u, hu, hd⟩ := advance_resume (Nat.mul_pos (by omega) hbound) hback session
              refine ⟨1 + t + u, by rw [hk, hsplit]; omega, ?_⟩
              rw [advance_add, hcall]
              exact hd

/-- A level from an offset is over after a number of steps that the size of the data bounds. -/
theorem advance_decodeAt (h : Follows (s := s) setup nested frames bound) (offset : Nat)
    (session : Session) :
    ∃ t < (s.data.length + 2) * bound, advance s setup t (resume s frames offset session) =
      proceed frames (Session.decodeAt s (Decode.execute setup) nested offset session) := by
  obtain ⟨t, ht, -⟩ := h .accent 0 session
  refine advance_resume (Nat.mul_pos (by omega) (by omega)) (fun c d _ => ?_) session
  obtain ⟨t, ht, hd⟩ := advance_decode h c d
  have hle : (c.remaining + 2) * bound ≤ (s.data.length + 2) * bound :=
    Nat.mul_le_mul_right _ (by unfold Cursor.remaining; omega)
  exact ⟨t, by omega, hd⟩

end Follows

theorem follows_nested (levels : Nat) {frames : List Frame}
    (h : frames.length + levels = maxDepth) :
    Follows (s := s) setup (Session.nested s (Decode.execute setup) levels) frames
      ((s.data.length + 2) ^ levels) := by
  induction levels generalizing frames with
  | zero =>
    intro f offset session
    refine ⟨0, Nat.one_pos, ?_⟩
    rw [advance, enter, if_neg (by omega)]
    rfl
  | succ levels ih =>
    intro f offset session
    have hf : (f :: frames).length + levels = maxDepth := by
      rw [List.length_cons]
      omega
    rw [enter, if_pos (by omega), Nat.pow_succ']
    exact advance_decodeAt (ih hf) offset session

/-- A run ends as the decoding does, after a number of steps that the size of the data bounds. -/
theorem after_eq_ended (setup : Setup) (offset : Nat) (st : Source.State) :
    ∃ n < (s.data.length + 2) ^ (maxDepth + 1),
      after s setup offset st n = .ended (Session.decodeGlyph s setup offset st) := by
  have hf : ([] : List Frame).length + maxDepth = maxDepth := by rfl
  obtain ⟨n, hn, hd⟩ := advance_decodeAt (follows_nested (s := s) maxDepth hf) offset
    ⟨st, .start setup.font⟩
  refine ⟨n, by rw [Nat.pow_succ']; exact hn, hd.trans ?_⟩
  show proceed [] (Session.decodeGlyph s setup offset st) = _
  cases Session.decodeGlyph s setup offset st <;> rfl

/-- A run that is over leaves what the decoding reports. -/
theorem parse_eq_conclude {font : Font} {settings : Settings} {takes : Capabilities} {offset : Nat}
    {st : Source.State} {n : Nat} {o : Session.Outcome}
    (h : after s (.of font settings takes) offset st n = .ended o) :
    parse s font settings takes offset st = conclude settings takes offset o := by
  obtain ⟨k, -, hk⟩ := after_eq_ended (s := s) (.of font settings takes) offset st
  obtain rfl := ended_unique hk h
  exact parse_eq s font settings takes offset st

end Run

/-! ## Runs from changed states -/

/-- The status with a change of the state of the decoding. -/
def Status.map {s : Source} (f : Decoder → Decoder) : Status s → Status s
  | .running m => .running { m with decoder := f m.decoder }
  | .ended o => .ended (Run.mapOutcome f o)

namespace Between

variable {s : Source} {f : Decoder → Decoder} (hf : Between f)
include hf

theorem resume (frames : List Frame) (offset : Nat) (session : Session) :
    Run.resume s frames offset (session.mapDecoder f) =
      (Run.resume s frames offset session).map f := by
  unfold Run.resume
  simp only [Session.mapDecoder, ← hf.calls]
  cases Cursor.openAt (s := s) offset session.source <;> rfl

theorem enter (frame : Frame) (frames : List Frame) (offset : Nat) (session : Session) :
    Run.enter s frame frames offset (session.mapDecoder f) =
      (Run.enter s frame frames offset session).map f := by
  unfold Run.enter
  split
  · exact hf.resume _ _ _
  · rfl

theorem leave (frames : List Frame) (flow : Flow) (session : Session) :
    Run.leave s frames flow (session.mapDecoder f) =
      (Run.leave s frames flow session).map f := by
  fun_induction Run.leave s frames flow session with
  | case1 flow session => rfl
  | case2 p frames session => exact hf.resume frames p session
  | case3 p frames session ih => exact ih
  | case4 accent shift frames flow session =>
    rw [← hf.enter]
    show Run.enter s .accent frames accent
      ⟨session.source, (f session.decoder).beginAccent shift⟩ = _
    rw [← hf.accent]
    rfl
  | case5 frames flow session ih =>
    rw [← ih]
    show Run.leave s frames .finished ⟨session.source, (f session.decoder).endParts⟩ = _
    rw [← hf.done]
    rfl

/-- A step does the same after a change, if its instruction does. -/
theorem stepWith {execute execute' : Instruction → Decode Control} {m : Moment s}
    (hx : ∀ i next calls, m.cursor.readInstruction = .done i next calls →
      execute' i (f (m.decoder.recordCalls calls)) =
        Decode.onState f (execute i (m.decoder.recordCalls calls))) :
    Run.stepWith s execute' { m with decoder := f m.decoder } =
      (Run.stepWith s execute m).map f := by
  unfold Run.stepWith
  dsimp only
  cases hread : m.cursor.readInstruction with
  | failed error source calls =>
    dsimp only
    rw [← hf.calls]
    rfl
  | done i next calls =>
    dsimp only
    rw [← hf.calls, hx i next calls hread]
    cases execute i (m.decoder.recordCalls calls) with
    | error error e => rfl
    | ok control e =>
      cases control with
      | next => rfl
      | leave flow => exact hf.leave m.frames flow ⟨next.state, e⟩
      | call offset => exact hf.enter (.caller next.position) m.frames offset ⟨next.state, e⟩
      | compose base accent shift =>
        have h := hf.enter (s := s) (.base accent shift) m.frames base ⟨next.state, e.beginBase⟩
        rw [← h]
        show Run.enter s _ m.frames base ⟨next.state, (f e).beginBase⟩ = _
        rw [← hf.base]
        rfl

omit hf in
/-- A run goes on from a changed state as the changed run, if each step does. -/
theorem advanceWith {step step' : Moment s → Status s}
    (hstep : ∀ m, step' { m with decoder := f m.decoder } = (step m).map f) (n : Nat)
    (x : Status s) :
    Run.advanceWith s step' n (x.map f) = (Run.advanceWith s step n x).map f := by
  induction n generalizing x with
  | zero => rfl
  | succ n ih =>
    cases x with
    | ended o => rfl
    | running m =>
      show Run.advanceWith s step' n (step' _) = _
      rw [hstep]
      exact ih (step m)

end Between

end Type1
