import Type1.Proofs.Checked.Run
import Type1.Proofs.CounterGroups
import Type1.Proofs.PendingMove
import Type1.Proofs.Width

/-!
# The state between instructions

Whatever a program has executed, the state that it has reached is one of those that its operators
reckon with.

* `Decoder.Bounded`: the arrays of a program have room for what the state has. An instruction
  that succeeds keeps it, as it does the same on arrays.
* `Decoder.Renewed`: hints that are due were asked for.
* `Run.known_components`: the codes of the parts are known while a part is decoded.
* `Moment.Sound`: all that holds at a moment of a run (`Run.sound`).
* `state_invariant`: it holds at each moment, and nothing is taken back.
-/

namespace Type1

variable {s : Source} {setup : Setup} {d e : Decoder}

/-! ## What arrays have room for -/

/-- There are arrays of fixed size that hold what the state has. -/
def Decoder.Bounded (d : Decoder) : Prop := ∃ m : Machine, m.Shows d

namespace Decoder.Bounded

theorem operands (h : d.Bounded) : d.operands.size ≤ Operands.capacity := by
  obtain ⟨m, hm⟩ := h
  exact hm.stack.length_le

theorem counters (h : d.Bounded) : d.counters.length ≤ counterCapacity := by
  obtain ⟨m, hm⟩ := h
  exact hm.counters.length_le

/-- There is room for one coordinate more than the points have. -/
theorem flex (h : d.Bounded) : d.flex.coordinates ≤ 16 := by
  obtain ⟨m, hm⟩ := h
  have hle := hm.flex.length_le
  rw [Checked.Flex.length_values] at hle
  have hlength : Flex.length = 17 := rfl
  unfold Flex.coordinates
  omega

end Decoder.Bounded

theorem Run.invariant_bounded (setup : Setup) :
    Invariant setup (fun _ _ => True) Decoder.Bounded (fun _ => True) where
  called call := fun ⟨_, hm⟩ => ⟨_, hm.record (.called call)⟩
  ok {i _ _ _} _ := fun ⟨m, hm⟩ hx => by
    have hfollows := Checked.refines_execute setup i m _ hm
    rw [hx] at hfollows
    generalize Checked.execute setup i m = o at hfollows
    cases hfollows with
    | ok _ hm => exact ⟨_, hm⟩
  error _ _ _ := trivial
  fails _ := trivial
  base := fun ⟨m, hm⟩ => ⟨{ m with rest := m.rest.beginBase },
    hm.stack, hm.flex, hm.counters, congrArg Decoder.beginBase hm.rest⟩
  accent shift := fun ⟨m, hm⟩ => ⟨{ m with rest := m.rest.beginAccent shift, stack := .empty },
    Buffer.holds_empty, hm.flex, hm.counters, congrArg (Decoder.beginAccent shift) hm.rest⟩
  done := fun ⟨m, hm⟩ => ⟨{ m with rest := m.rest.endParts },
    hm.stack, hm.flex, hm.counters, congrArg Decoder.endParts hm.rest⟩

/-! ## What is due -/

theorem Run.invariant_settled (setup : Setup) :
    Invariant setup (fun _ _ => True) (·.groupDue = false) (fun _ => True) where
  called _ := id
  ok {i _ _ _} _ hd hx := by
    have hr : Decode.Related Settled Unrelated (Decode.execute setup i _) _ :=
      Decode.related_execute_settled i ⟨rfl, hd⟩
    rw [hx] at hr
    cases hr with
    | ok h => exact h.2
  error _ _ _ := trivial
  fails _ := trivial
  base := id
  accent _ := id
  done := id

/-- A new set of hints that is due was asked for. -/
def Decoder.Renewed (d : Decoder) : Prop := d.hintsDue = true → d.hintsRenewed = true

theorem Change.renewed {a : Activity} (h : Change setup a d e) (hd : d.Renewed) : e.Renewed := by
  have placed : d.placeAccent.Renewed := by
    obtain ⟨_, _, heq⟩ := d.placeAccent_eq
    rw [heq]
    exact hd
  have started : d.startContour.Renewed := by
    obtain ⟨_, _, _, heq⟩ := d.startContour_eq
    rw [heq]
    exact placed
  cases h with
  | renew => exact fun _ => rfl
  | stem kind position extent hkind => exact nofun
  | counterStem vertical near far => exact nofun
  | move delta => exact placed
  | set p => exact placed
  | startFlex => exact placed
  | line delta => exact started
  | curve p q r => exact started
  | flexTo depth left right => exact started
  | _ => exact hd

theorem Run.invariant_renewed (setup : Setup) :
    Invariant setup (fun _ _ => True) Decoder.Renewed Decoder.Renewed := by
  refine .of_execute (fun i d hd => ?_) (fun _ _ h => h) (fun _ h => h) (fun _ _ h => h)
    fun _ h => h
  have hbegin : (i.begin d).Renewed := by cases i <;> exact hd
  exact (Decode.changes_execute setup i d).keeps (fun _ _ hc he => hc.renewed he) hbegin

/-! ## What is being decoded -/

namespace Run

/-- A base begins when the codes of the parts are known. -/
theorem components_of_base {l m : Moment s} {accent : Nat} {shift : Point}
    (h : step s setup l = .running m) (hframes : m.frames = .base accent shift :: l.frames) :
    m.decoder.components.isSome = true := by
  rcases step_cases setup l with ⟨_, _, _, _, hstep⟩ | ⟨i, next, calls, _, ⟨_, _, _, hstep⟩ |
    ⟨control, e, hx, hstep⟩⟩
  · rw [hstep] at h
    cases h
  · rw [hstep] at h
    cases h
  · rw [hstep] at h
    cases control with
    | next =>
      cases h
      exact absurd hframes (List.cons_ne_self _ _).symm
    | leave flow =>
      rcases leave_eq_running h with ⟨left, hl⟩ | ⟨left, waiting, _, hl, hm⟩
      · have hlength := congrArg List.length hl
        rw [hframes, List.length_append, List.length_cons, List.length_cons] at hlength
        omega
      · cases hm.symm.trans hframes
    | call offset => cases (enter_eq_running h).1.symm.trans hframes
    | compose base accent shift =>
      obtain ⟨-, calls, hm⟩ := enter_passage h
      obtain ⟨-, -, -, -, codes, -, -, -, -, -, -, -, -, rfl⟩ := Decode.execute_eq_compose hx
      rw [hm]
      exact (Decoder.Retains.recordCalls _ calls).components rfl

variable {offset : Nat} {st : Source.State} {n : Nat} {m : Moment s}

/-- The codes of the parts are known while a part is decoded. -/
theorem known_components (h : after s setup offset st n = .running m) :
    m.frames.all Frame.isCaller = true ∨ m.decoder.components.isSome = true := by
  refine invariant
    (P := fun m => m.frames.all Frame.isCaller = true ∨ m.decoder.components.isSome = true)
    (fun m hm => ?_) (fun l m hl hm => ?_) h
  · rw [(resume_eq_running hm).1]
    exact .inl rfl
  · have hretains : l.decoder.Retains m.decoder := by
      have hstep := retains_step setup l
      rwa [hm] at hstep
    rcases hl with hl | hl
    · cases move_of_step hm with
      | next hframes => exact .inl (hframes ▸ hl)
      | call p hframes => exact .inl (by rw [hframes]; exact hl)
      | base accent shift hframes => exact .inr (components_of_base hm hframes)
      | back left hframes =>
        rw [hframes, List.all_append, List.all_cons, Bool.and_eq_true, Bool.and_eq_true] at hl
        exact .inl hl.2.2
      | accent left frames shift hbase =>
        rw [hbase, List.all_append, List.all_cons, Bool.and_eq_true, Bool.and_eq_true] at hl
        cases hl.2.1
    · exact .inr (hretains.components hl)

theorem resume_ne_ok (frames : List Frame) (offset : Nat) (session session' : Session)
    (flow : Flow) : resume s frames offset session ≠ .ended (.ok flow session') := by
  unfold resume
  split <;> nofun

theorem enter_ne_ok (f : Frame) (frames : List Frame) (offset : Nat) (session session' : Session)
    (flow : Flow) : enter s f frames offset session ≠ .ended (.ok flow session') := by
  unfold enter
  split
  · exact resume_ne_ok _ _ _ _ _
  · nofun

/-- A level that ends the run leaves the glyph itself. -/
theorem part_of_leave {frames : List Frame} {flow flow' : Flow} {session session' : Session}
    (hfits : session.decoder.part.Fits frames)
    (h : leave s frames flow session = .ended (.ok flow' session')) :
    session'.decoder.part = .glyph := by
  induction frames generalizing flow session with
  | nil =>
    cases h
    exact Part.fits_nil_iff.1 hfits
  | cons f frames ih =>
    cases f with
    | caller p =>
      have hfits := (Part.fits_caller _ p frames).1 hfits
      cases flow with
      | returned => exact absurd h (resume_ne_ok _ _ _ _ _)
      | finished => exact ih hfits h
    | base accent shift => exact absurd h (enter_ne_ok _ _ _ _ _ _)
    | accent =>
      rw [leave, leave_callers hfits.below_accent] at h
      cases h
      rfl

/-- A run that succeeds ends with the glyph itself. -/
theorem part_of_ended {flow : Flow} {session : Session}
    (h : after s setup offset st n = .ended (.ok flow session)) :
    session.decoder.part = .glyph := by
  induction n with
  | zero => exact absurd h (resume_ne_ok _ _ _ _ _)
  | succ n ih =>
    cases hm : after s setup offset st n with
    | ended o =>
      rw [after_of_ended hm (Nat.le_succ n)] at h
      exact ih (hm.trans h)
    | running m =>
      rw [after_succ hm] at h
      have hfits := fits hm
      rcases step_cases setup m with ⟨_, _, _, _, hstep⟩ | ⟨i, next, calls, _, ⟨_, _, _, hstep⟩ |
        ⟨control, e, hx, hstep⟩⟩
      · rw [hstep] at h
        cases h
      · rw [hstep] at h
        cases h
      · rw [← m.decoder.recordCalls_part calls, ← Decode.execute_fits hx] at hfits
        rw [hstep] at h
        cases control with
        | next => cases h
        | leave flow => exact part_of_leave hfits h
        | call offset => exact absurd h (enter_ne_ok _ _ _ _ _ _)
        | compose base accent shift => exact absurd h (enter_ne_ok _ _ _ _ _ _)

end Run

/-! ## All of it -/

/-- What holds of the state between two instructions, while levels wait. -/
structure Decoder.Sound (frames : List Frame) (d : Decoder) : Prop where
  /-- The operand stack has room for its operands. -/
  operands : d.operands.size ≤ 48
  /-- There is room for the counter hints. -/
  counters : d.counters.length ≤ 96
  /-- The points of a flex have two coordinates each, and there is room for them. -/
  flex : 2 ∣ d.flex.coordinates ∧ d.flex.coordinates ≤ 16
  /-- No stem starts a counter group unless it is one of counter hints. -/
  groupDue : d.groupDue = false
  /-- A contour is due, or one was started. -/
  moved : d.moveDue = true ∨ d.moved = true
  /-- A new set of hints that is due was asked for. -/
  hintsDue : d.hintsDue = true → d.hintsRenewed = true
  /-- The glyph itself is decoded while no level waits but callers. -/
  part : d.part = .glyph ↔ frames.all Frame.isCaller = true
  /-- While a part is decoded, the codes of the parts are known. -/
  components : d.part ≠ .glyph → d.components.isSome = true

namespace Run

variable {offset : Nat} {st : Source.State} {n : Nat}

/-- A state is sound that has all that a run keeps. -/
theorem sound_of_invariant (setup : Setup) {frames : List Frame}
    (hx : ∀ P E, Invariant setup (fun _ _ => True) P E → P (.start setup.font) → P d)
    (hpart : d.part = .glyph ↔ frames.all Frame.isCaller = true)
    (hcomponents : d.part ≠ .glyph → d.components.isSome = true) : d.Sound frames := by
  have hbounded := hx _ _ (invariant_bounded setup) ⟨_, Process.shows_start setup.font⟩
  refine ⟨hbounded.operands, hbounded.counters, ⟨Nat.dvd_mul_right 2 _, hbounded.flex⟩,
    hx _ _ (invariant_settled setup) rfl, ?_, hx _ _ (invariant_renewed setup) nofun, hpart,
    hcomponents⟩
  have hstarted : d.Started := hx _ _ (invariant_started setup) nofun
  cases hdue : d.moveDue with
  | true => exact .inl rfl
  | false => exact .inr (hstarted hdue)

theorem sound {m : Moment s} (h : after s setup offset st n = .running m) :
    m.decoder.Sound m.frames := by
  have hpart := Part.fits_glyph_iff (fits h)
  refine sound_of_invariant setup
    (fun P E hinv hstart => hinv.moment hstart (fun _ _ _ _ _ _ => trivial) h) hpart.symm
    fun hne => ?_
  exact (known_components h).resolve_left fun hcallers => hne (hpart.1 hcallers)

theorem sound_of_ended {flow : Flow} {session : Session}
    (h : after s setup offset st n = .ended (.ok flow session)) : session.decoder.Sound [] := by
  have hpart := part_of_ended h
  refine sound_of_invariant setup (fun P E hinv hstart => ?_) (iff_of_true hpart rfl)
    fun hne => absurd hpart hne
  have hmeets : Meets P E (after s setup offset st n) :=
    hinv.advance (hinv.resume hstart) (fun _ _ _ _ _ _ => trivial) n
  rwa [h] at hmeets

end Run

/-- At each moment of a run, at whatever level, and where it ends well, the state is sound. Contours
started, hints asked for, values blended, and the width are known from then on, and if a matrix acts
on the glyph, control points are rounded throughout. In a run on arrays, the arrays are filled no
further than the state is. -/
theorem state_invariant (font : Font) (settings : Settings) (takes : Capabilities) (offset : Nat) :
    let setup := Setup.of font settings takes
    (∀ (s : Source) (st : Source.State),
      let run := Run.after s setup offset st
      (∀ n m, run n = .running m → m.decoder.Sound m.frames) ∧
      (∀ n flow session, run n = .ended (.ok flow session) → session.decoder.Sound []) ∧
      (∀ i j, i ≤ j → (run i).session.decoder.Retains (run j).session.decoder) ∧
      (settings.activeMatrix?.isSome = true → ∀ n m v, run n = .running m →
        m.decoder.control setup v = v.round)) ∧
    ∀ (memory : Memory) (p q : Process) (n : Nat) (frames : List Frame),
      Process.after memory setup offset p n = .ok (.running frames) q →
      q.machine.stack.size ≤ 48 ∧ q.machine.counters.size ≤ 96 ∧
        2 ∣ q.machine.flex.size ∧ q.machine.flex.size ≤ 16 := by
  intro setup
  refine ⟨fun s st => ⟨fun n m => Run.sound, fun n flow session => Run.sound_of_ended,
    fun i j => Run.retains_after, fun hmatrix n m v _ => ?_⟩, fun memory p q n frames hq => ?_⟩
  · have hmapped : setup.mapped = true := hmatrix
    rw [Decoder.control, hmapped, Bool.true_or, if_pos rfl]
  · -- The arrays show the state of the run at the same step, and hold no more than its lists do.
    have hagrees : Process.Agrees (Process.after memory setup offset p n)
        (Run.after memory.toSource setup offset {} n) := Process.after_agrees offset p {} n
    rw [hq] at hagrees
    generalize hx : Run.after memory.toSource setup offset {} n = x at hagrees
    cases hagrees with
    | running hat =>
      have hsound := Run.sound hx
      have hstack := hat.machine.stack.size
      have hcounters := hat.machine.counters.size
      have hflex := hat.machine.flex.size.trans (Checked.Flex.length_values _)
      refine ⟨?_, ?_, ?_, ?_⟩
      · rw [hstack]
        exact hsound.operands
      · rw [hcounters]
        exact hsound.counters
      · rw [hflex]
        exact hsound.flex.1
      · rw [hflex]
        exact hsound.flex.2

end Type1
