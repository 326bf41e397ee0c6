import Mathlib.Data.Nat.Find
import Type1.Proofs.Contours

/-!
# A contour that is due without need

A state with a contour due differs from the one with none in a single move: the one that the next
line, curve or flex is given after, if no contour is started or closed before it anyway.

* `Between.step`: a run from a changed state is the changed run, as long as its instructions do not
  look at the change.
* `Run.ends`: a run ends from wherever it goes on.
* `Run.DrawsFirst`: the step that draws before anything else matters to contours.
* `pending_move_transparent`: the two runs, step by step.
-/

namespace Type1

variable {s : Source} {setup : Setup}

/-! ## Runs from changed states -/

/-- A part begins with what is due to it. -/
theorem between_setDue : Between (.setDue true) where
  called _ _ := rfl
  base _ := rfl
  accent _ _ := rfl
  done _ := rfl

theorem between_prepend (h : Array Event) : Between (.prepend h) where
  called _ d := (d.record_adjust { events := h } _).symm
  base _ := rfl
  accent _ _ := rfl
  done _ := rfl

namespace Between

variable {f : Decoder → Decoder} (hf : Between f)
include hf

/-- A step does the same after a change, if its instruction does. -/
theorem step {m : Moment s} (hx : ∀ i d, m.Executes i d →
      Decode.execute setup i (f d) = Decode.onState f (Decode.execute setup i d)) :
    Run.step s setup { m with decoder := f m.decoder } = (Run.step s setup m).map f :=
  hf.stepWith fun i next calls hread => hx i _ ⟨next, calls, hread, rfl⟩

end Between

namespace Run

/-- Events before the history make no difference to a run. -/
theorem advance_prepend (h : Array Event) (n : Nat) (x : Status s) :
    advance s setup n (x.map (.prepend h)) = (advance s setup n x).map (.prepend h) :=
  Between.advanceWith
    (fun _ => (between_prepend h).step fun i d _ => Decode.blind_execute setup i h d) n x

/-! ## The end -/

/-- The levels that a level that waits still has to see through. -/
def weight : Frame → Nat
  | .base _ _ => 2
  | .caller _ | .accent => 1

/-- A run ends from wherever it goes on, if no more levels wait than there are. -/
theorem ends (setup : Setup) {frames : List Frame} (h : frames.length ≤ maxDepth) (c : Cursor s)
    (d : Decoder) : ∃ n o, advance s setup n (.running ⟨frames, c, d⟩) = .ended o := by
  -- A level that is left lets one frame go, or puts the accent in the place of its base. So a base
  -- weighs as much as two frames.
  induction hw : (frames.map weight).sum using Nat.strongRecOn generalizing frames c d with
  | ind w ih =>
    have hlevels : frames.length + (maxDepth - frames.length) = maxDepth := Nat.add_sub_of_le h
    have hfollows : Follows (s := s) setup _ frames _ := follows_nested _ hlevels
    obtain ⟨t, -, ht⟩ := advance_decode hfollows c d
    cases hx : Session.decode s (Decode.execute setup)
      (Session.nested s (Decode.execute setup) (maxDepth - frames.length)) c d with
    | error x session =>
      rw [hx] at ht
      exact ⟨t, _, ht⟩
    | ok flow session =>
      rw [hx] at ht
      cases hm : leave s frames flow session with
      | ended o => exact ⟨t, o, ht.trans hm⟩
      | running m =>
        have hless : (m.frames.map weight).sum < w ∧ m.frames.length ≤ frames.length := by
          rw [← hw]
          rcases leave_eq_running hm with ⟨left, hf⟩ | ⟨left, waiting, shift, hf, hm⟩
          · rw [hf]
            simp only [List.map_append, List.map_cons, List.sum_append, List.sum_cons, weight,
              List.length_append, List.length_cons]
            omega
          · rw [hf, hm]
            simp only [List.map_append, List.map_cons, List.sum_append, List.sum_cons, weight,
              List.length_append, List.length_cons]
            omega
        obtain ⟨n, o, hn⟩ := ih _ hless.1 (Nat.le_trans hless.2 h) m.cursor m.decoder rfl
        refine ⟨t + n, o, ?_⟩
        rw [advance_add, ht]
        show advance s setup n (leave s frames flow session) = _
        rw [hm]
        exact hn

end Run

/-- The run from a moment on, after a number of steps. -/
def Moment.run (setup : Setup) (m : Moment s) (n : Nat) : Status s :=
  Run.advance s setup n (.running m)

/-- The moment with a change of the state of the decoding. -/
def Moment.map (f : Decoder → Decoder) (m : Moment s) : Moment s :=
  { m with decoder := f m.decoder }

namespace Moment

variable {m l : Moment s} {n : Nat} {o : Session.Outcome} {x : Status s}

theorem run_succ (h : m.run setup n = .running l) : m.run setup (n + 1) = Run.step s setup l := by
  unfold run at h ⊢
  rw [Run.advance_add, h]
  rfl

theorem run_add (h : m.run setup n = x) (k : Nat) :
    m.run setup (n + k) = Run.advance s setup k x := by
  unfold run at h ⊢
  rw [Run.advance_add, h]

theorem run_ended (h : m.run setup n = .ended o) (k : Nat) : m.run setup (n + k) = .ended o := by
  rw [run_add h, Run.advance_ended]

/-- What comes after a moment of a run. -/
theorem run_eq_after {offset : Nat} {st : Source.State}
    (h : Run.after s setup offset st n = .running m) (k : Nat) :
    m.run setup k = Run.after s setup offset st (n + k) := by
  unfold run Run.after at *
  rw [Run.advance_add, h]

theorem stroke_run (h : m.run setup n = .running l) :
    Run.stroke setup (m.run setup) n = l.strokeTo setup (Run.step s setup l) := by
  unfold Run.stroke
  rw [h, run_succ h]

end Moment

/-! ## What was started before -/

/-- If no contour is due, one was started. -/
def Decoder.Started (d : Decoder) : Prop := d.moveDue = false → d.moved = true

theorem Decoder.startContour_started {d : Decoder} (h : d.Started) :
    d.startContour.moved = true := by
  unfold startContour
  dsimp only
  split
  · rfl
  · next hdue =>
    rw [d.placeAccent_moved]
    obtain ⟨_, _, heq⟩ := d.placeAccent_eq
    rw [heq] at hdue
    exact h (Bool.eq_false_iff.2 hdue)

theorem Decoder.recordCalls_moved (d : Decoder) (calls : List Source.Call) :
    (d.recordCalls calls).moved = d.moved :=
  Decoder.recordCalls_induction (P := fun e => e.moved = d.moved) rfl (fun _ _ h => h) calls

theorem Change.started {a : Activity} {d e : Decoder} (h : Change setup a d e) (hd : d.Started) :
    e.Started := by
  have placed : d.placeAccent.Started := by
    obtain ⟨_, _, heq⟩ := d.placeAccent_eq
    rw [heq]
    exact hd
  cases h with
  | closed => exact nofun
  | move delta => exact fun _ => rfl
  | set p => exact placed
  | startFlex => exact placed
  | line delta => exact fun _ => Decoder.startContour_started hd
  | curve p q r => exact fun _ => Decoder.startContour_started hd
  | flexTo depth left right => exact fun _ => Decoder.startContour_started hd
  | stem kind position extent =>
    obtain ⟨_, _, _, _, heq⟩ := d.hintStem_eq setup kind position extent
    rw [heq]
    exact hd
  | _ => exact hd

theorem Run.invariant_started (setup : Setup) :
    Invariant setup (fun _ _ => True) Decoder.Started Decoder.Started := by
  refine .of_execute (fun i d hd => ?_) (fun _ _ h => h) (fun _ h => h) (fun _ _ _ => nofun)
    fun _ h => h
  have hbegin : (i.begin d).Started := by cases i <;> exact hd
  exact (Decode.changes_execute setup i d).keeps (fun _ _ h => h.started) hbegin

/-! ## Up to the first step that matters to contours -/

theorem Decode.Fails.onState {α : Type} {x : Decode α} {d : Decoder} (h : Fails x d) (due : Bool) :
    x (d.setDue due) = Decode.onState (.setDue due) (x d) := by
  obtain ⟨y, e, h⟩ := h
  have hself := h d.moveDue
  rw [d.setDue_self] at hself
  rw [h due, hself]
  rfl

variable {m : Moment s} {i : Instruction} {d : Decoder}

/-- An instruction that leaves contours alone, if only because it fails, does the same whether one
is due or not. -/
theorem Moment.execute_of_still (hi : m.Executes i d) (h : m.stroke setup = .still) (due : Bool) :
    Decode.execute setup i (d.setDue due) =
      Decode.onState (.setDue due) (Decode.execute setup i d) := by
  cases hx : Decode.execute setup i d with
  | ok control e =>
    rw [← hx]
    exact Decode.execute_of_still setup ((stroke_of_ok hi hx).symm.trans h) due
  | error y e =>
    rw [← hx]
    cases hstroke : i.stroke d with
    | still => exact Decode.execute_of_still setup hstroke due
    | closes =>
      have hrun := (Decode.execute_of_closes setup hstroke).2 d.moveDue
      cases hx.symm.trans hrun
    | moves =>
      rcases Decode.execute_of_moves setup hstroke with hfails | ⟨p, hrun⟩
      · exact hfails.onState due
      · cases hx.symm.trans (hrun d.moveDue)
    | draws =>
      rcases Decode.execute_of_draws setup hstroke with hfails | ⟨x, c, -, hrun⟩
      · exact hfails.onState due
      · cases hx.symm.trans (hrun d.moveDue)

/-- An instruction that starts or closes a contour does the same whether one is due or not. -/
theorem Moment.execute_of_reset {control : Control} {e : Decoder}
    (hx : Decode.execute setup i d = .ok control e) (h : i.stroke d = .moves ∨ i.stroke d = .closes)
    (due : Bool) : Decode.execute setup i (d.setDue due) = Decode.execute setup i d := by
  rcases h with h | h
  · rcases Decode.execute_of_moves setup h with ⟨y, c, hrun⟩ | ⟨p, hrun⟩
    · cases hx.symm.trans (hrun d.moveDue)
    · exact (hrun due).trans (hrun d.moveDue).symm
  · have hrun := (Decode.execute_of_closes setup h).2
    exact (hrun due).trans (hrun d.moveDue).symm

namespace Run

theorem step_of_next {next : Cursor s} {calls : List Source.Call} {e : Decoder}
    (hread : m.cursor.readInstruction = .done i next calls)
    (hx : Decode.execute setup i (m.decoder.recordCalls calls) = .ok .next e) :
    step s setup m = .running ⟨m.frames, next, e⟩ := by
  unfold step stepWith
  rw [hread]
  dsimp only
  rw [hx]

/-- A step that does not depend on whether a contour is due. -/
theorem step_setDue (hi : m.Executes i d)
    (h : Decode.execute setup i (d.setDue true) = Decode.execute setup i d) :
    step s setup (m.map (.setDue true)) = step s setup m := by
  obtain ⟨next, calls, hread, rfl⟩ := hi
  unfold step stepWith Moment.map
  simp only [hread, ← between_setDue.calls, h]

/-- The step at which a run draws while nothing before it has mattered to contours. -/
def DrawsFirst (setup : Setup) (run : Nat → Status s) (j : Nat) : Prop :=
  stroke setup run j = .draws ∧ ∀ k < j, stroke setup run k = .still

end Run

/-- A moment at which no contour is due. -/
structure Moment.Clear (m : Moment s) : Prop where
  fits : m.decoder.part.Fits m.frames
  moveDue : m.decoder.moveDue = false
  started : m.decoder.Started

namespace Moment

variable {l : Moment s} {n : Nat}

/-- A step that leaves contours alone does the same if one is due. -/
theorem Clear.step (h : m.Clear) (hstill : m.strokeTo setup (Run.step s setup m) = .still) :
    (∀ l, Run.step s setup m = .running l → l.Clear) ∧
      Run.step s setup (m.map (.setDue true)) = (Run.step s setup m).map (.setDue true) := by
  refine ⟨fun l hl => ⟨(Run.step_passage h.fits hl).2, ?_, ?_⟩, ?_⟩
  · have hdue := Run.moveDue_step h.fits hl
    rw [← hl, hstill] at hdue
    exact hdue.trans h.moveDue
  · have hmeets : Run.Meets Decoder.Started Decoder.Started (Run.step s setup m) :=
      (Run.invariant_started setup).step (fun _ _ _ => trivial) h.started
    rw [hl] at hmeets
    exact hmeets
  · have hmstill : m.stroke setup = .still := by
      unfold strokeTo at hstill
      split at hstill
      · cases hstill
      · exact hstill
    exact between_setDue.step fun i d hi => m.execute_of_still hi hmstill true

/-- Until a step matters to contours none is due, and a run in which one is due at first differs in
that alone. -/
theorem Clear.run (h : m.Clear) (hstill : ∀ k < n, Run.stroke setup (m.run setup) k = .still) :
    (∀ l, m.run setup n = .running l → l.Clear) ∧
      (m.map (.setDue true)).run setup n = (m.run setup n).map (.setDue true) := by
  induction n with
  | zero => exact ⟨fun l hl => by cases hl; exact h, rfl⟩
  | succ n ih =>
    obtain ⟨hclear, hmap⟩ := ih fun k hk => hstill k (Nat.lt_succ_of_lt hk)
    cases hl : m.run setup n with
    | ended o =>
      rw [hl] at hmap
      rw [run_ended hl 1, run_ended hmap 1]
      exact ⟨fun l hl => (nomatch hl), rfl⟩
    | running l =>
      have hlast := hstill n (Nat.lt_succ_self n)
      rw [stroke_run hl] at hlast
      rw [hl] at hmap
      rw [run_succ hl, run_succ hmap]
      exact (hclear l hl).step hlast

/-- An instruction that draws is followed by the next one of its level. -/
theorem executes_of_draws (h : m.stroke setup = .draws) :
    ∃ i next calls x c, m.cursor.readInstruction = .done i next calls ∧
      (i.begin (m.decoder.recordCalls calls)).Segment x c ∧
      ∀ due, Decode.execute setup i ((m.decoder.recordCalls calls).setDue due) =
        .ok .next (c.drawn due (m.decoder.recordCalls calls).placeAccent.point x) := by
  have hmatters : m.stroke setup ≠ .still := by
    rw [h]
    nofun
  obtain ⟨i, d, control, e, hi, hx, hstroke⟩ := m.executes_of_stroke hmatters
  obtain ⟨next, calls, hread, rfl⟩ := hi
  rcases Decode.execute_of_draws setup (hstroke.trans h) with
    ⟨y, c, hfails⟩ | ⟨x, c, hsegment, hrun⟩
  · cases hx.symm.trans (hfails (m.decoder.recordCalls calls).moveDue)
  · exact ⟨i, next, calls, x, c, hread, hsegment, hrun⟩

/-- No accent begins with what is drawn. -/
theorem beginsAccent_of_draws (h : m.stroke setup = .draws) :
    m.beginsAccent (Run.step s setup m) = false := by
  obtain ⟨i, next, calls, x, c, hread, -, hrun⟩ := executes_of_draws h
  rw [Run.step_of_next hread (hrun (m.decoder.recordCalls calls).moveDue)]
  show (decide (.accent ∈ m.frames) && decide (.accent ∉ m.frames)) = false
  by_cases hmem : Frame.accent ∈ m.frames <;> simp [hmem]

/-- A step that starts or closes a contour does the same if one is due. -/
theorem step_of_reset (hfits : m.decoder.part.Fits m.frames)
    (h : m.strokeTo setup (Run.step s setup m) = .moves ∨
      m.strokeTo setup (Run.step s setup m) = .closes) :
    Run.step s setup (m.map (.setDue true)) = Run.step s setup m := by
  have reset (h : m.stroke setup = .moves ∨ m.stroke setup = .closes) :
      Run.step s setup (m.map (.setDue true)) = Run.step s setup m := by
    have hmatters : m.stroke setup ≠ .still := by
      rcases h with h | h <;> rw [h] <;> nofun
    obtain ⟨i, d, control, e, hi, hx, hstroke⟩ := m.executes_of_stroke hmatters
    exact Run.step_setDue hi (execute_of_reset hx (hstroke ▸ h) true)
  by_cases hbegins : m.beginsAccent (Run.step s setup m) = true
  · cases hstroke : m.stroke setup with
    | moves => exact reset (.inl hstroke)
    | closes => exact reset (.inr hstroke)
    | draws =>
      rw [beginsAccent_of_draws hstroke] at hbegins
      cases hbegins
    | still =>
      have hmap : Run.step s setup (m.map (.setDue true)) =
          (Run.step s setup m).map (.setDue true) :=
        between_setDue.step fun i d hi => m.execute_of_still hi hstroke true
      refine hmap.trans ?_
      -- An accent begins with a contour due, whatever came before.
      cases hl : Run.step s setup m with
      | ended o =>
        rw [hl] at hbegins
        cases hbegins
      | running l =>
        have hdue : l.decoder.moveDue = true := by
          rw [Run.moveDue_step hfits hl, ← hl, strokeTo, if_pos hbegins]
          rfl
        show Status.running { l with decoder := l.decoder.setDue true } = _
        rw [Decoder.setDue_of_eq hdue]
  · rw [strokeTo, if_neg hbegins] at h
    exact reset h

/-- A step that draws is followed by the same, apart from the move before what is drawn. -/
theorem Clear.step_of_draws (h : m.Clear) (hdraws : m.stroke setup = .draws) :
    ∃ i d x y, m.Executes i d ∧ x.isDrawn = true ∧
      Run.step s setup m = Status.map (.prepend ((i.begin d).history.push (.element x))) y ∧
      Run.step s setup (m.map (.setDue true)) = y.map (.prepend
        (((i.begin d).history.push (.element (.moveTo d.placeAccent.point))).push
          (.element x))) := by
  obtain ⟨i, next, calls, x, c, hread, hsegment, hrun⟩ := executes_of_draws hdraws
  have hdue : (m.decoder.recordCalls calls).moveDue = false :=
    (m.decoder.recordCalls_moveDue calls).trans h.moveDue
  have hmoved : { c with moved := true } = c := by
    have hbegin : (i.begin (m.decoder.recordCalls calls)).moved = m.decoder.moved := by
      rw [← m.decoder.recordCalls_moved calls]
      cases i <;> rfl
    rw [← h.started h.moveDue, ← hbegin, ← hsegment.moved]
  refine ⟨i, _, x, .running ⟨m.frames, next, { c with history := #[] }⟩,
    ⟨next, calls, hread, rfl⟩, hsegment.isDrawn, ?_, ?_⟩
  · have hx := hrun false
    rw [Decoder.setDue_of_eq hdue] at hx
    rw [Run.step_of_next hread hx, ← hsegment.history]
    exact congrArg (fun e => Status.running ⟨m.frames, next, e⟩) (c.report x).eq_prepend
  · have hx := hrun true
    rw [between_setDue.calls] at hx
    rw [Run.step_of_next (m := m.map (.setDue true)) hread hx, ← hsegment.history]
    show Status.running ⟨m.frames, next, ({ c with moved := true }.report _).report x⟩ = _
    rw [hmoved]
    exact congrArg (fun e => Status.running ⟨m.frames, next, e⟩)
      ((c.report (.moveTo _)).report x).eq_prepend

/-- The runs join at the step that starts or closes a contour. -/
theorem Clear.run_of_reset {j : Nat} (h : m.Clear)
    (hstill : ∀ k < j, Run.stroke setup (m.run setup) k = .still)
    (hreset : Run.stroke setup (m.run setup) j = .moves ∨
      Run.stroke setup (m.run setup) j = .closes) :
    (m.map (.setDue true)).run setup (j + 1) = m.run setup (j + 1) := by
  obtain ⟨hclear, hmap⟩ := h.run hstill
  cases hl : m.run setup j with
  | ended o =>
    unfold Run.stroke at hreset
    rw [hl] at hreset
    exact hreset.elim nofun nofun
  | running l =>
    rw [stroke_run hl] at hreset
    rw [hl] at hmap
    rw [run_succ hl, run_succ hmap]
    exact step_of_reset (hclear l hl).fits hreset

/-- The runs differ in one move from the step on that draws first. -/
theorem Clear.run_of_draws {j : Nat} (h : m.Clear) (hdraws : Run.DrawsFirst setup (m.run setup) j) :
    ∃ l i d x y, m.run setup j = .running l ∧ l.Executes i d ∧ x.isDrawn = true ∧
      m.run setup (j + 1) = Status.map (.prepend ((i.begin d).history.push (.element x))) y ∧
      (m.map (.setDue true)).run setup (j + 1) = y.map (.prepend
        (((i.begin d).history.push (.element (.moveTo d.placeAccent.point))).push
          (.element x))) := by
  obtain ⟨hdraws, hstill⟩ := hdraws
  obtain ⟨hclear, hmap⟩ := h.run hstill
  obtain ⟨l, hl, hstroke⟩ := Run.running_of_stroke hdraws nofun nofun
  obtain ⟨i, d, x, y, hi, hx, hstep, hstep'⟩ := (hclear l hl).step_of_draws hstroke
  rw [hl] at hmap
  exact ⟨l, i, d, x, y, hl, hi, hx, (run_succ hl).trans hstep, (run_succ hmap).trans hstep'⟩

end Moment

namespace Run

/-- There is one step at most that draws first. -/
theorem DrawsFirst.unique {run : Nat → Status s} {j k : Nat} (hj : DrawsFirst setup run j)
    (hk : DrawsFirst setup run k) : j = k := by
  rcases Nat.lt_trichotomy j k with hlt | heq | hlt
  · cases hj.1.symm.trans (hk.2 j hlt)
  · exact heq
  · cases hk.1.symm.trans (hj.2 k hlt)

variable (settings : Settings) (takes : Capabilities) (offset : Nat)

/-- A contour that is due at the end is not told. -/
theorem conclude_setDue (o : Session.Outcome) :
    conclude settings takes offset (mapOutcome (.setDue true) o) =
      conclude settings takes offset o := by
  cases o <;> rfl

/-- Events before the history come first, and change nothing else. -/
theorem conclude_prepend (h : Array Event) (o : Session.Outcome) :
    (conclude settings takes offset (mapOutcome (.prepend h) o)).1.events =
        h.toList.flatMap (Event.deliver settings takes) ++
          (conclude settings takes offset o).1.events ∧
      (conclude settings takes offset (mapOutcome (.prepend h) o)).1.result =
        (conclude settings takes offset o).1.result ∧
      (conclude settings takes offset (mapOutcome (.prepend h) o)).2 =
        (conclude settings takes offset o).2 := by
  have hevents (d : Decoder) : (Decoder.prepend h d).history.toList.flatMap
      (Event.deliver settings takes) = h.toList.flatMap (Event.deliver settings takes) ++
        d.history.toList.flatMap (Event.deliver settings takes) := by
    show (h ++ d.history).toList.flatMap _ = _
    rw [Array.toList_append, List.flatMap_append]
  cases o with
  | ok flow session => exact ⟨hevents session.decoder, rfl, rfl⟩
  | error x session =>
    refine ⟨?_, rfl, rfl⟩
    show (Decoder.prepend h session.decoder).history.toList.flatMap _ ++ _ = _
    rw [hevents, List.append_assoc]
    rfl

/-- Where a changed status ends. -/
theorem eq_of_map_ended {f : Decoder → Decoder} {x : Status s} {o : Session.Outcome}
    (h : x.map f = .ended o) : ∃ o₀, x = .ended o₀ ∧ o = mapOutcome f o₀ := by
  cases x with
  | running m => cases h
  | ended o₀ => exact ⟨o₀, rfl, (Status.ended.inj h).symm⟩

end Run

/-- How the two runs end: the same but for what is due, or but for one move. -/
theorem Moment.Clear.ended {m : Moment s} {n : Nat} {o o' : Session.Outcome} (h : m.Clear)
    (ho : m.run setup n = .ended o) (ho' : (m.map (.setDue true)).run setup n = .ended o') :
    ((∀ j, ¬ Run.DrawsFirst setup (m.run setup) j) ∧
      (o' = Run.mapOutcome (.setDue true) o ∨ o' = o)) ∨
    ∃ j l i d x o₀, Run.DrawsFirst setup (m.run setup) j ∧ m.run setup j = .running l ∧
      l.Executes i d ∧ x.isDrawn = true ∧
      o = Run.mapOutcome (.prepend ((i.begin d).history.push (.element x))) o₀ ∧
      o' = Run.mapOutcome (.prepend (((i.begin d).history.push
        (.element (.moveTo d.placeAccent.point))).push (.element x))) o₀ := by
  -- If no step matters to contours, what is due stays so to the end.
  by_cases hall : ∀ k, Run.stroke setup (m.run setup) k = .still
  · have hmap := (h.run (n := n) fun k _ => hall k).2
    rw [ho, ho'] at hmap
    exact .inl ⟨fun j hj => (nomatch (hall j).symm.trans hj.1), .inl (Status.ended.inj hmap)⟩
  · -- The first step that matters to contours decides.
    have hsome := not_forall.1 hall
    obtain ⟨j, hmatters, hstill⟩ : ∃ j, Run.stroke setup (m.run setup) j ≠ .still ∧
        ∀ k < j, Run.stroke setup (m.run setup) k = .still :=
      ⟨Nat.find hsome, Nat.find_spec hsome, fun k hk =>
        Decidable.of_not_not (Nat.find_min hsome hk)⟩
    have hlater : m.run setup (j + 1 + n) = .ended o := by
      rw [Nat.add_comm]
      exact Moment.run_ended ho (j + 1)
    have hlater' : (m.map (.setDue true)).run setup (j + 1 + n) = .ended o' := by
      rw [Nat.add_comm]
      exact Moment.run_ended ho' (j + 1)
    -- A move and `closepath` leave the same whether a contour was due or not, so the runs are one
    -- after them.
    have reset (hreset : Run.stroke setup (m.run setup) j = .moves ∨
        Run.stroke setup (m.run setup) j = .closes) :
        (∀ j, ¬ Run.DrawsFirst setup (m.run setup) j) ∧
          (o' = Run.mapOutcome (.setDue true) o ∨ o' = o) := by
      refine ⟨fun j' hj' => ?_, .inr ?_⟩
      · rcases Nat.lt_trichotomy j j' with hlt | rfl | hlt
        · exact hmatters (hj'.2 j hlt)
        · rw [hj'.1] at hreset
          exact hreset.elim nofun nofun
        · cases (hstill j' hlt).symm.trans hj'.1
      · rw [Moment.run_add (h.run_of_reset hstill hreset), ← Moment.run_add rfl, hlater] at hlater'
        exact (Status.ended.inj hlater').symm
    cases hstroke : Run.stroke setup (m.run setup) j with
    | still => exact absurd hstroke hmatters
    | moves => exact .inl (reset (.inl hstroke))
    | closes => exact .inl (reset (.inr hstroke))
    | draws =>
      obtain ⟨l, i, d, x, y, hl, hi, hx, hrun, hrun'⟩ := h.run_of_draws ⟨hstroke, hstill⟩
      rw [Moment.run_add hrun, Run.advance_prepend] at hlater
      rw [Moment.run_add hrun', Run.advance_prepend] at hlater'
      obtain ⟨o₀, hend, rfl⟩ := Run.eq_of_map_ended hlater
      obtain ⟨o₁, hend', rfl⟩ := Run.eq_of_map_ended hlater'
      obtain rfl := Status.ended.inj (hend.symm.trans hend')
      exact .inr ⟨j, l, i, d, x, o₀, ⟨hstroke, hstill⟩, hl, hi, hx, rfl, rfl⟩

/-- `closepath` without operands makes a contour due, and changes nothing else. -/
theorem Decode.execute_closepath (setup : Setup) {d : Decoder} (h : d.operands = .empty) :
    execute setup (.operator .closepath) d =
      .ok .next (Decoder.record (.began .closepath []) { d with moveDue := true }) := by
  have hclosed := (execute_of_closes setup (i := .operator .closepath) (d := d) rfl).2 d.moveDue
  rw [d.setDue_self] at hclosed
  rw [hclosed]
  simp only [Instruction.begin, Decoder.record, h]
  rfl

/-- Two runs from moments at the same place have both ended after some number of steps. -/
theorem Moment.end_together (setup : Setup) {m : Moment s} (h : m.depth ≤ maxDepth)
    (f : Decoder → Decoder) :
    ∃ n o o', m.run setup n = .ended o ∧ (m.map f).run setup n = .ended o' := by
  obtain ⟨j, o, ho⟩ := Run.ends setup h m.cursor m.decoder
  obtain ⟨k, o', ho'⟩ := Run.ends setup h m.cursor (f m.decoder)
  refine ⟨j + k, o, o', run_ended ho k, ?_⟩
  rw [Nat.add_comm]
  exact run_ended ho' j

/-- From a moment of a run at which no contour is due, whatever bytes follow, a decoding in which
one is due comes to the same result and gives the same, apart from one move to the current point: if
a line, a curve or the end of a flex comes before any move outside of a flex, any `closepath` and
the beginning of an accent, the move is given right before it, and otherwise there is none. A
contour becomes due by `closepath`, which changes nothing else if there are no operands. -/
theorem pending_move_transparent {s₀ : Source} {font : Font} {settings : Settings}
    {takes : Capabilities} {offset₀ k : Nat} {st₀ : Source.State} {m₀ : Moment s₀}
    (hm₀ : Run.after s₀ (.of font settings takes) offset₀ st₀ k = .running m₀)
    (hdue : m₀.decoder.moveDue = false) (s : Source) (cursor : Cursor s) (offset : Nat) :
    let setup := Setup.of font settings takes
    let deliver := List.flatMap (Event.deliver settings takes)
    let clear : Moment s := ⟨m₀.frames, cursor, m₀.decoder⟩
    let pending : Moment s := ⟨m₀.frames, cursor, { m₀.decoder with moveDue := true }⟩
    (m₀.decoder.operands = .empty → Decode.execute setup (.operator .closepath) m₀.decoder =
      .ok .next (pending.decoder.record (.began .closepath []))) ∧
    ∃ n o o', clear.run setup n = .ended o ∧ pending.run setup n = .ended o' ∧
      let report := Run.conclude settings takes offset o
      let report' := Run.conclude settings takes offset o'
      report'.1.result = report.1.result ∧ report'.2 = report.2 ∧
      ((∀ j, ¬ Run.DrawsFirst setup (clear.run setup) j) → report' = report) ∧
      ∀ j, Run.DrawsFirst setup (clear.run setup) j →
        ∃ m i d x later, clear.run setup j = .running m ∧ m.Executes i d ∧ x.isDrawn = true ∧
          report.1.events = deliver (i.begin d).events ++ deliver [.element x] ++ later ∧
          report'.1.events = deliver (i.begin d).events ++
            deliver [.element (.moveTo d.placeAccent.point)] ++ deliver [.element x] ++ later := by
  intro setup deliver clear pending
  have hfits := Run.fits hm₀
  have hstarted : m₀.decoder.Started :=
    (Run.invariant_started setup).moment nofun (fun _ _ _ _ _ _ => trivial) hm₀
  have hclear : clear.Clear := ⟨hfits, hdue, hstarted⟩
  refine ⟨Decode.execute_closepath setup, ?_⟩
  have hdepth : m₀.depth ≤ maxDepth := Run.depth_le hm₀
  obtain ⟨n, o, o', ho, ho'⟩ := clear.end_together setup hdepth (.setDue true)
  refine ⟨n, o, o', ho, ho', ?_⟩
  intro report report'
  -- Either no step draws first, and both end alike; or one does, and from it on the histories
  -- differ by the move before its element alone.
  rcases hclear.ended ho ho' with ⟨hnone, hsame⟩ |
    ⟨j, l, i, d, x, o₀, hj, hl, hi, hx, rfl, rfl⟩
  · have hreport : report' = report := by
      rcases hsame with rfl | rfl
      · exact Run.conclude_setDue settings takes offset o
      · rfl
    exact ⟨by rw [hreport], by rw [hreport], fun _ => hreport, fun j hj => absurd hj (hnone j)⟩
  · obtain ⟨hevents, hresult, hsource⟩ := Run.conclude_prepend settings takes offset
      ((i.begin d).history.push (.element x)) o₀
    obtain ⟨hevents', hresult', hsource'⟩ := Run.conclude_prepend settings takes offset
      (((i.begin d).history.push (.element (.moveTo d.placeAccent.point))).push (.element x)) o₀
    refine ⟨hresult'.trans hresult.symm, hsource'.trans hsource.symm,
      fun hnone => absurd hj (hnone j), fun k hk => ?_⟩
    obtain rfl := hj.unique hk
    refine ⟨l, i, d, x, (Run.conclude settings takes offset o₀).1.events, hl, hi, hx,
      hevents.trans ?_, hevents'.trans ?_⟩
    · rw [Array.toList_push, List.flatMap_append]
      rfl
    · rw [Array.toList_push, Array.toList_push, List.flatMap_append, List.flatMap_append]
      rfl

/-- The bytes of `0 500 hsbw 5 hlineto 5 vlineto endchar`. -/
def Continuing.data : List UInt8 := [139, 248, 136, 13, 144, 6, 144, 7, 14]

/-- A contour that is due after the first line starts a contour with the second. -/
theorem pending_move_transparent_line :
    let setup := Setup.of {} {} {}
    ∃ m, Run.after (.memory Continuing.data none) setup 0 {} 5 = .running m ∧
      m.decoder.moveDue = false ∧ ∃ n o o' before p later,
        m.run setup n = .ended o ∧
        (m.map ({ · with moveDue := true })).run setup n = .ended o' ∧
        (Run.conclude {} {} 0 o).1.events = before ++ later ∧
        (Run.conclude {} {} 0 o').1.events = before ++ .element (.moveTo p) :: later := by
  intro setup
  obtain ⟨m, hm, -⟩ := Run.running_of_isPlaced? (by decide +kernel : Run.isPlaced?
    (Run.after (.memory Continuing.data none) setup 0 {} 5) = some false)
  have hdue : m.decoder.moveDue = false := by
    rw [Run.moveDue_eq hm, Bool.not_eq_false']
    decide +kernel
  have hrun : m.run setup = fun n =>
      Run.after (.memory Continuing.data none) setup 0 {} (5 + n) := by
    funext n
    unfold Run.after at hm ⊢
    rw [Run.advance_add, hm]
    rfl
  have hfirst : Run.DrawsFirst setup (m.run setup) 1 := by
    rw [hrun]
    exact ⟨by decide +kernel, by decide +kernel⟩
  obtain ⟨-, n, o, o', ho, ho', -, -, -, hdraws⟩ :=
    pending_move_transparent hm hdue (.memory Continuing.data none) m.cursor 0
  obtain ⟨l, i, d, x, later, -, -, -, hevents, hevents'⟩ := hdraws 1 hfirst
  refine ⟨m, hm, hdue, n, o, o', _, d.placeAccent.point, _, ho, ho',
    hevents.trans (List.append_assoc ..), hevents'.trans ?_⟩
  rw [List.append_assoc, List.append_assoc]
  rfl

end Type1
