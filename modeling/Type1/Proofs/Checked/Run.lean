import Type1.Proofs.Checked.Input
import Type1.Proofs.Checked.Operators
import Type1.Proofs.Run

/-!
# A run has no faults

The run of a charstring on arrays, step by step, with every access checked: those of the operators,
those of the reading, and the count of the levels.

* `Process.start`, `Process.step`: how a run begins, and what it does next.
* `Process.after`: a run after a number of steps.
* `Process.Agrees`: a run on arrays is where a run is. Each step keeps it (`step_agrees`), so it
  holds after any number of steps (`after_agrees`). A fault agrees with nothing.
-/

namespace Type1

/-- The arrays with which a charstring of a font begins. -/
def Machine.start (font : Font) : Machine where
  stack := .empty
  flex := .empty
  counters := .empty
  rest := .start font

namespace Process

open Guarded

variable {α : Type}

/-! ## The steps -/

/-- What a step leads to. -/
inductive Next where
  /-- The next instruction, with the levels that wait. -/
  | running (frames : List Frame)
  /-- The end of the glyph. -/
  | ended (flow : Flow)

/-- A computation of the operators. -/
def onMachine (x : Checked α) : Guarded Process α := fun p =>
  match x p.machine with
  | .ok a machine => .ok a { p with machine }
  | .error e machine => .error e { p with machine }

/-- The first values of a list in as many cells as there are. -/
def copyPrefix (n : Nat) (values : List Number) : Guarded Process (Vector Number n) := do
  let length := min n values.length
  ensure .slice (length ≤ values.length)
  copyInto (Vector.replicate n 0) 0 length (values.take length)

/-- The state in which a charstring of a font begins. -/
def startMachine (font : Font) : Guarded Process Machine := do
  let weights ← copyPrefix Storage.maxMasters font.weights
  let normalizedDesign ← copyPrefix Storage.maxAxes font.normalizedDesign
  let userDesign ← copyPrefix Storage.maxAxes font.userDesign
  let cells := Vector.replicate Storage.cellCount 0
  let storage : Storage := { cells, weights, normalizedDesign, userDesign }
  return { stack := .empty, flex := .empty, counters := .empty, rest := { storage } }

variable (memory : Memory) (setup : Setup)

/-- A level begins or goes on at an offset. -/
def resume (frames : List Frame) (offset : Nat) : Guarded Process Next := do
  seek memory offset
  return .running frames

/-- A level above begins at an offset, if one is left. -/
def enter (f : Frame) (frames : List Frame) (offset : Nat) : Guarded Process Next := do
  let depth := (← get).depth
  if maxDepth ≤ depth then fail .subrDepth
  else
    let depth ← plus depth 1
    modify ({ · with depth })
    resume memory (f :: frames) offset

/-- A level is over. -/
def descend : Guarded Process Unit := do
  let depth ← minus (← get).depth 1
  modify ({ · with depth })

/-- A level ends, and the nearest one that waits goes on, unless that ends with it. -/
def leave : List Frame → Flow → Guarded Process Next
  | [], flow => return .ended flow
  | .caller back :: frames, .returned => do
    descend
    resume memory frames back
  | .caller _ :: frames, .finished => do
    descend
    leave frames .finished
  | .base accent shift :: frames, _ => do
    descend
    onMachine (Checked.aside (modify (.beginAccent shift)))
    onMachine Checked.clear
    enter memory .accent frames accent
  | .accent :: frames, _ => do
    descend
    onMachine (Checked.aside (modify .endParts))
    leave frames .finished

/-- An instruction is read and executed. -/
def step (frames : List Frame) : Guarded Process Next := do
  let i ← readInstruction memory
  match ← onMachine (Checked.execute setup i) with
  | .next => return .running frames
  | .leave flow => leave memory frames flow
  | .call offset =>
    let back ← position
    enter memory (.caller back) frames offset
  | .compose base accent shift =>
    onMachine (Checked.aside (modify .beginBase))
    enter memory (.base accent shift) frames base

/-- The charstring at an offset begins, from wherever the source stands. -/
def start (offset : Nat) : Guarded Process Next := do
  let source := (← get).input.source
  let machine ← startMachine setup.font
  set (Process.mk { source } 0 machine)
  resume memory [] offset

/-- A run after a number of steps. -/
def advance : Nat → EStateM.Result Stop Process Next → EStateM.Result Stop Process Next
  | n + 1, .ok (.running frames) p => advance n (step memory setup frames p)
  | _, r => r

/-- The run of the charstring at an offset, after a number of steps. -/
def after (offset : Nat) (p : Process) (n : Nat) : EStateM.Result Stop Process Next :=
  advance memory setup n (start memory setup offset p)

/-- What a run reports that is over without a fault. -/
def report (settings : Settings) (takes : Capabilities) (offset : Nat) :
    EStateM.Result Stop Process Next → Option Report
  | .ok (.ended _) p =>
    some ⟨p.machine.rest.history.toList.flatMap (Event.deliver settings takes),
      .ok (p.machine.rest.glyph settings)⟩
  | .error (.failed e) p =>
    some ⟨p.machine.rest.history.toList.flatMap (Event.deliver settings takes) ++
      [.failed offset e], .error e⟩
  | _ => none

variable {memory setup}

/-! ## Where a run is -/

variable {p : Process} {d : Decoder} {st : Source.State} {frames : List Frame}

/-- The run on arrays is where the run is: at the same levels and the same instruction with the same
state, or at the same end. -/
inductive Agrees : EStateM.Result Stop Process Next → Status memory.toSource → Prop where
  | running {frames : List Frame} {p : Process} {c : Cursor memory.toSource} {d : Decoder} :
      p.At c d frames.length → Agrees (.ok (.running frames) p) (.running ⟨frames, c, d⟩)
  | ended {flow : Flow} {p : Process} {st : Source.State} {d : Decoder} :
      p.machine.Shows d → Agrees (.ok (.ended flow) p) (.ended (.ok flow ⟨st, d⟩))
  | failed {e : Error} {p : Process} {st : Source.State} {d : Decoder} :
      p.machine.rest.history = d.history →
        Agrees (.error (.failed e) p) (.ended (.error e ⟨st, d⟩))

theorem resume_agrees (offset : Nat) (hs : p.machine.Shows d) (hk : p.depth = frames.length) :
    Agrees (resume memory frames offset p) (Run.resume memory.toSource frames offset ⟨st, d⟩) := by
  have hseek : Reads d frames.length (seek memory offset p)
      (Cursor.openAt (s := memory.toSource) offset st) :=
    seek_reads offset st hs hk
  unfold Run.resume
  show Agrees (EStateM.bind (seek memory offset) _ p) _
  unfold EStateM.bind
  dsimp only
  revert hseek
  generalize seek memory offset p = o
  generalize Cursor.openAt offset st = r
  rintro (h | h)
  · exact .running h
  · exact .failed h.history

theorem enter_agrees (f : Frame) (offset : Nat) (hs : p.machine.Shows d)
    (hk : p.depth = frames.length) :
    Agrees (enter memory f frames offset p)
      (Run.enter memory.toSource f frames offset ⟨st, d⟩) := by
  have hmax : maxDepth < wordSize := by decide
  rw [enter, get_bind, Run.enter, hk]
  by_cases hlt : frames.length < maxDepth
  · rw [if_pos hlt, if_neg (Nat.not_le.2 hlt), bind_ok (plus_run (by omega)), modify_bind]
    exact resume_agrees offset hs rfl
  · rw [if_neg hlt, if_pos (Nat.not_lt.1 hlt)]
    exact .failed hs.history

/-- A level that is over was one above the glyph. -/
theorem descend_run {f : Frame} (hk : p.depth = (f :: frames).length) :
    descend p = .ok () { p with depth := frames.length } := by
  rw [descend, get_bind, bind_ok (minus_run (by rw [hk]; exact Nat.succ_pos _)), hk]
  rfl

theorem onMachine_run {x : Checked α} {a : α} {m : Machine} (h : x p.machine = .ok a m) :
    onMachine x p = .ok a { p with machine := m } := by
  rw [onMachine, h]

theorem leave_agrees (flow : Flow) (hs : p.machine.Shows d) (hk : p.depth = frames.length) :
    Agrees (leave memory frames flow p) (Run.leave memory.toSource frames flow ⟨st, d⟩) := by
  induction frames generalizing flow p d with
  | nil => exact .ended hs
  | cons f frames ih =>
    cases f with
    | caller back =>
      cases flow with
      | returned =>
        rw [leave, Run.leave, bind_ok (descend_run hk)]
        exact resume_agrees back hs rfl
      | finished =>
        rw [leave, Run.leave, bind_ok (descend_run hk)]
        exact ih .finished hs rfl
    | base accent shift =>
      rw [leave, Run.leave, bind_ok (descend_run hk),
        bind_ok (onMachine_run Checked.aside_modify_run),
        bind_ok (onMachine_run Checked.clear_run)]
      exact enter_agrees .accent accent ⟨Buffer.holds_clear, hs.flex, hs.counters,
        congrArg (Decoder.beginAccent shift) hs.rest⟩ rfl
    | accent =>
      rw [leave, Run.leave, bind_ok (descend_run hk),
        bind_ok (onMachine_run Checked.aside_modify_run)]
      exact ih .finished ⟨hs.stack, hs.flex, hs.counters, congrArg Decoder.endParts hs.rest⟩ rfl

/-- A step on arrays is a step of the run. -/
theorem step_agrees {c : Cursor memory.toSource} (h : p.At c d frames.length) :
    Agrees (step memory setup frames p) (Run.step memory.toSource setup ⟨frames, c, d⟩) := by
  have hread := readInstruction_reads h
  show Agrees (EStateM.bind (readInstruction memory) _ p) _
  unfold EStateM.bind Run.step Run.stepWith
  dsimp only
  -- The instruction is read alike, executed alike, and left to the frames alike.
  revert hread
  generalize readInstruction memory p = o
  generalize c.readInstruction = r
  rintro (h | h)
  · next i next calls p =>
    have hx := Checked.refines_execute setup i _ _ h.machine
    show Agrees (EStateM.bind (onMachine _) _ p) _
    unfold EStateM.bind onMachine
    dsimp only
    revert hx
    generalize Checked.execute setup i p.machine = x
    generalize Decode.execute setup i (d.recordCalls calls) = y
    rintro (⟨rfl, hs⟩ | hh)
    · next control m d =>
      have hat : At { p with machine := m } next d frames.length := ⟨h.input, h.depth, hs⟩
      cases control with
      | next => exact .running hat
      | leave flow => exact leave_agrees flow hs h.depth
      | call offset =>
        dsimp only
        rw [bind_ok (position_run hat)]
        exact enter_agrees _ offset hs h.depth
      | compose base accent shift =>
        exact enter_agrees _ base ⟨hs.stack, hs.flex, hs.counters,
          congrArg Decoder.beginBase hs.rest⟩ h.depth
    · exact .failed hh
  · exact .failed h.history

theorem advance_agrees {r : EStateM.Result Stop Process Next} {x : Status memory.toSource}
    (h : Agrees r x) (n : Nat) :
    Agrees (advance memory setup n r) (Run.advance memory.toSource setup n x) := by
  induction n generalizing r x with
  | zero =>
    cases h with
    | running h => exact .running h
    | ended h => exact .ended h
    | failed h => exact .failed h
  | succ n ih =>
    cases h with
    | running h => exact ih (step_agrees h)
    | ended h => exact .ended h
    | failed h => exact .failed h

theorem copyPrefix_run (n : Nat) (values : List Number) :
    copyPrefix n values p = .ok (Storage.fill n values) p := by
  have hle : min n values.length ≤ values.length := Nat.min_le_right _ _
  have hlen : (values.take (min n values.length)).length = min n values.length := by
    rw [List.length_take]
    omega
  rw [copyPrefix, bind_ok (ensure_run hle),
    copyInto_run (by rw [hlen]; omega) (Nat.min_le_left _ _)]
  refine congrArg (EStateM.Result.ok · p) (Vector.ext fun k hk => ?_)
  simp only [overwrite, Storage.fill, Vector.getElem_ofFn, hlen, List.getD_eq_getElem?_getD]
  by_cases hv : k < values.length
  · rw [dif_pos (by omega), List.getElem?_eq_getElem hv, List.getElem_take]
    rfl
  · rw [dif_neg (by omega), List.getElem?_eq_none (Nat.le_of_not_lt hv)]
    exact Vector.getElem_replicate hk

theorem startMachine_run (font : Font) : startMachine font p = .ok (.start font) p := by
  rw [startMachine, bind_ok (copyPrefix_run _ _), bind_ok (copyPrefix_run _ _),
    bind_ok (copyPrefix_run _ _)]
  rfl

theorem shows_start (font : Font) : (Machine.start font).Shows (.start font) :=
  ⟨Buffer.holds_empty, Buffer.holds_empty, Buffer.holds_empty, rfl⟩

theorem start_agrees (offset : Nat) (p : Process) (st : Source.State) :
    Agrees (start memory setup offset p)
      (Run.resume memory.toSource [] offset ⟨st, .start setup.font⟩) := by
  rw [start, get_bind, bind_ok (startMachine_run setup.font)]
  exact resume_agrees offset (shows_start setup.font) rfl

/-- After any number of steps, the run on arrays is where the run is. -/
theorem after_agrees (offset : Nat) (p : Process) (st : Source.State) (n : Nat) :
    Agrees (after memory setup offset p n) (Run.after memory.toSource setup offset st n) :=
  advance_agrees (start_agrees offset p st) n

/-- The report of a run on arrays that is over is that of the run. -/
theorem Agrees.report {r : EStateM.Result Stop Process Next} {o : Session.Outcome}
    (h : Agrees r (.ended o : Status memory.toSource)) (settings : Settings) (takes : Capabilities)
    (offset : Nat) :
    Process.report settings takes offset r = some (Run.conclude settings takes offset o).1 := by
  cases h with
  | ended h =>
    have hglyph : ∀ d : Decoder, d.bare.glyph settings = d.glyph settings := fun _ => rfl
    rw [Process.report, Run.conclude, h.history, h.rest, hglyph]
  | failed h => rw [Process.report, Run.conclude, h]

end Process

end Type1
