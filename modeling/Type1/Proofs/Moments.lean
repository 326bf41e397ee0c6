import Type1.Proofs.Changes
import Type1.Proofs.Progress

/-!
# What holds at the moments of a run

* `Moment.Executes`: the instruction that a run is about to execute, and the state in which it does.
* `Run.last`: the state that a run leaves. A receiver is given its elements (`elements_parse`).
* `Run.Invariant`: what each instruction keeps, and the beginnings and ends of the parts of an
  accented character. It holds at each moment (`Invariant.moment`) and at the end
  (`Invariant.last`).
* `Part.Fits`: the levels that wait tell what is being decoded (`Run.fits`), so an accent and its
  subroutines are decoded while `Frame.accent` waits.
* `Run.Passage`: how a run passes from one moment to the next.
-/

namespace Type1

variable {s : Source} {setup : Setup}

/-- A run that is at the moment executes the instruction next, in a state. -/
def Moment.Executes (m : Moment s) (i : Instruction) (d : Decoder) : Prop :=
  ∃ next calls, m.cursor.readInstruction = .done i next calls ∧ d = m.decoder.recordCalls calls

/-- A moment has one instruction to execute at most. -/
theorem Moment.Executes.unique {m : Moment s} {i j : Instruction} {d e : Decoder}
    (h : m.Executes i d) (h' : m.Executes j e) : i = j ∧ d = e := by
  obtain ⟨next, calls, hread, rfl⟩ := h
  obtain ⟨next', calls', hread', rfl⟩ := h'
  cases hread.symm.trans hread'
  exact ⟨rfl, rfl⟩

/-- The instruction that a run that is at the moment executes next, if one can be read. -/
def Moment.instruction? (m : Moment s) : Option Instruction :=
  match m.cursor.readInstruction with
  | .done i _ _ => some i
  | .failed .. => none

theorem Moment.executes_of_instruction? {m : Moment s} {i : Instruction}
    (h : m.instruction? = some i) : ∃ d, m.Executes i d := by
  unfold instruction? at h
  cases hread : m.cursor.readInstruction with
  | failed error source calls => rw [hread] at h; cases h
  | done j next calls =>
    rw [hread] at h
    cases h
    exact ⟨_, next, calls, hread, rfl⟩

/-- What is kept by each event that is recorded. -/
theorem Decoder.recordCalls_induction {P : Decoder → Prop} {d : Decoder} (hd : P d)
    (h : ∀ d call, P d → P (d.record (.called call))) (calls : List Source.Call) :
    P (d.recordCalls calls) := by
  unfold Decoder.recordCalls
  induction calls generalizing d with
  | nil => exact hd
  | cons call calls ih => exact ih (h d call hd)

theorem Decoder.recordCalls_part (d : Decoder) (calls : List Source.Call) :
    (d.recordCalls calls).part = d.part :=
  Decoder.recordCalls_induction (P := fun e => e.part = d.part) rfl (fun _ _ h => h) calls

/-- Calls of the source leave all but the history alone. -/
theorem Decoder.recordCalls_eq (d : Decoder) (calls : List Source.Call) :
    ∃ history, d.recordCalls calls = { d with history } := by
  refine Decoder.recordCalls_induction (P := fun e => ∃ history, e = { d with history })
    ⟨d.history, rfl⟩ (fun e call h => ?_) calls
  obtain ⟨history, rfl⟩ := h
  exact ⟨history.push (.called call), rfl⟩

/-- An instruction is executed in the state of the moment, apart from the history. -/
theorem Moment.Executes.eq_history {m : Moment s} {i : Instruction} {d : Decoder}
    (h : m.Executes i d) : ∃ history, d = { m.decoder with history } := by
  obtain ⟨next, calls, -, rfl⟩ := h
  exact m.decoder.recordCalls_eq calls

namespace Run

/-! ## The end -/

/-- The state that a decoding leaves. -/
def left : Session.Outcome → Decoder
  | .ok _ session => session.decoder
  | .error _ session => session.decoder

variable (s setup) in
/-- The state that the run of the charstring at an offset leaves. -/
def last (offset : Nat) (st : Source.State) : Decoder :=
  left (Session.decodeGlyph s setup offset st)

variable {offset : Nat} {st : Source.State}

theorem last_eq {n : Nat} {o : Session.Outcome} (h : after s setup offset st n = .ended o) :
    last s setup offset st = left o := by
  obtain ⟨k, -, hk⟩ := after_eq_ended (s := s) setup offset st
  obtain rfl := ended_unique hk h
  rfl

/-- A receiver is given the elements that the run leaves, in its way. -/
theorem elements_parse (s : Source) (font : Font) (settings : Settings) (takes : Capabilities)
    (offset : Nat) (st : Source.State) :
    (parse s font settings takes offset st).1.elements =
      (last s (.of font settings takes) offset st).elements.flatMap
        (Element.deliver settings takes) := by
  rw [parse_eq, last]
  cases Session.decodeGlyph s (.of font settings takes) offset st with
  | ok flow session => exact filterMap_element?_deliver settings takes _
  | error x session =>
    refine (List.filterMap_append ..).trans ?_
    rw [filterMap_element?_deliver]
    exact List.append_nil _

/-! ## What a run keeps -/

/-- The state of a run that goes on or ends well is as `P` says, and of one that fails as `E`
says. -/
def Meets (P E : Decoder → Prop) : Status s → Prop
  | .running m => P m.decoder
  | .ended (.ok _ session) => P session.decoder
  | .ended (.error _ session) => E session.decoder

/-- What a run keeps if its instructions are executed in states as `Q` says: `P`, and `E` where it
fails. -/
structure Invariant (setup : Setup) (Q : Instruction → Decoder → Prop) (P E : Decoder → Prop) :
    Prop where
  /-- Calls of the source keep it. -/
  called {d : Decoder} (call : Source.Call) : P d → P (d.record (.called call))
  /-- An instruction that succeeds keeps it. -/
  ok {i : Instruction} {d e : Decoder} {control : Control} : Q i d → P d →
    Decode.execute setup i d = .ok control e → P e
  /-- An instruction can fail. -/
  error {i : Instruction} {d e : Decoder} {x : Error} : Q i d → P d →
    Decode.execute setup i d = .error x e → E e
  /-- A run can fail between two instructions. -/
  fails {d : Decoder} : P d → E d
  /-- A base can begin. -/
  base {d : Decoder} : P d → P d.beginBase
  /-- An accent can begin. -/
  accent {d : Decoder} (shift : Point) : P d → P (d.beginAccent shift)
  /-- An accented character can be complete. -/
  done {d : Decoder} : P d → P d.endParts

namespace Invariant

variable {Q : Instruction → Decoder → Prop} {P E : Decoder → Prop}

section Steps

variable (h : Invariant setup Q P E)
include h

theorem calls {d : Decoder} (hd : P d) (calls : List Source.Call) : P (d.recordCalls calls) :=
  Decoder.recordCalls_induction hd (fun _ call => h.called call) calls

theorem resume {frames : List Frame} {offset : Nat} {session : Session} (hd : P session.decoder) :
    Meets P E (Run.resume s frames offset session) := by
  unfold Run.resume
  split
  · exact h.fails (h.calls hd _)
  · exact h.calls hd _

theorem enter {f : Frame} {frames : List Frame} {offset : Nat} {session : Session}
    (hd : P session.decoder) : Meets P E (Run.enter s f frames offset session) := by
  unfold Run.enter
  split
  · exact h.resume hd
  · exact h.fails hd

theorem leave {frames : List Frame} {flow : Flow} {session : Session} (hd : P session.decoder) :
    Meets P E (Run.leave s frames flow session) := by
  fun_induction Run.leave s frames flow session with
  | case1 flow session => exact hd
  | case2 p frames session => exact h.resume hd
  | case3 p frames session ih => exact ih hd
  | case4 accent shift frames flow session => exact h.enter (h.accent shift hd)
  | case5 frames flow session ih => exact ih (h.done hd)

theorem step {m : Moment s} (hq : ∀ i d, m.Executes i d → Q i d) (hd : P m.decoder) :
    Meets P E (Run.step s setup m) := by
  have hcalls (calls : List Source.Call) : P (m.decoder.recordCalls calls) := h.calls hd calls
  unfold Run.step Run.stepWith
  cases hread : m.cursor.readInstruction with
  | failed error source calls => exact h.fails (hcalls calls)
  | done i next calls =>
    have hi := hq i _ ⟨next, calls, hread, rfl⟩
    dsimp only
    cases hx : Decode.execute setup i (m.decoder.recordCalls calls) with
    | error error e => exact h.error hi (hcalls calls) hx
    | ok control e =>
      have he := h.ok hi (hcalls calls) hx
      cases control with
      | next => exact he
      | leave flow => exact h.leave he
      | call offset => exact h.enter he
      | compose base accent shift => exact h.enter (h.base he)

/-- It holds from a moment on. -/
theorem advance {x : Status s} (hx : Meets P E x)
    (hq : ∀ n m i d, Run.advance s setup n x = .running m → m.Executes i d → Q i d) (n : Nat) :
    Meets P E (Run.advance s setup n x) := by
  induction n generalizing x with
  | zero => exact hx
  | succ n ih =>
    cases x with
    | ended outcome => exact hx
    | running m => exact ih (h.step (fun i d => hq 0 m i d rfl) hx) fun k => hq (k + 1)

theorem of_ended {o : Session.Outcome} (hmeets : Meets P E (.ended o : Status s)) : E (left o) := by
  cases o with
  | ok flow session => exact h.fails hmeets
  | error x session => exact hmeets

/-- If it holds at the beginning, it holds at each moment. -/
theorem moment (hstart : P (.start setup.font))
    (hq : ∀ n m i d, after s setup offset st n = .running m → m.Executes i d → Q i d)
    {n : Nat} {m : Moment s} (hm : after s setup offset st n = .running m) : P m.decoder := by
  have hmeets : Meets P E (after s setup offset st n) := h.advance (h.resume hstart) hq n
  rwa [hm] at hmeets

/-- If it holds at a moment, it holds of what the run leaves, if only as it does where the run
fails. -/
theorem last_of_moment {n : Nat} {m : Moment s} (hm : after s setup offset st n = .running m)
    (hd : P m.decoder)
    (hq : ∀ n m i d, after s setup offset st n = .running m → m.Executes i d → Q i d) :
    E (last s setup offset st) := by
  obtain ⟨k, -, hk⟩ := after_eq_ended (s := s) setup offset st
  have hmeets : Meets P E (after s setup offset st (n + k)) := by
    unfold after at hm hq ⊢
    rw [advance_add, hm]
    refine h.advance (x := .running m) hd (fun j l i d hl => hq (n + j) l i d ?_) k
    rw [advance_add, hm]
    exact hl
  have hend : after s setup offset st (n + k) = after s setup offset st k := by
    unfold after at hk ⊢
    rw [Nat.add_comm, advance_add, hk, advance_ended]
  rw [hend, hk] at hmeets
  exact h.of_ended hmeets

/-- If it holds at the beginning, it holds of what the run leaves, if only as it does where the run
fails. -/
theorem last (hstart : P (.start setup.font))
    (hq : ∀ n m i d, after s setup offset st n = .running m → m.Executes i d → Q i d) :
    E (last s setup offset st) := by
  have hmeets : Meets P E (after s setup offset st 0) := h.resume hstart
  cases hm : after s setup offset st 0 with
  | running m =>
    rw [hm] at hmeets
    exact h.last_of_moment hm hmeets hq
  | ended o =>
    rw [hm] at hmeets
    rw [last_eq hm]
    exact h.of_ended hmeets

end Steps

end Invariant

end Run

/-! ## The levels that wait -/

/-- Whether the level has called a subroutine. -/
def Frame.isCaller : Frame → Bool
  | .caller _ => true
  | _ => false

/-- The levels that wait are as they are while it is decoded: apart from callers, there are none
while the glyph itself is decoded, and one while a part is. -/
def Part.Fits (part : Part) (frames : List Frame) : Prop :=
  match part with
  | .glyph => frames.filter (!·.isCaller) = []
  | .base _ => ∃ accent shift, frames.filter (!·.isCaller) = [.base accent shift]
  | .accent .. => frames.filter (!·.isCaller) = [.accent]

theorem Part.fits_caller (part : Part) (p : Nat) (frames : List Frame) :
    part.Fits (.caller p :: frames) ↔ part.Fits frames := by
  cases part <;> rfl

/-- Only an accent fits the level that is complete after it. -/
theorem Part.fits_accent_iff {part : Part} :
    part.Fits [.accent] ↔ ∃ bearing shift placed, part = .accent bearing shift placed := by
  cases part with
  | glyph => exact ⟨nofun, nofun⟩
  | base bearing => exact ⟨fun ⟨_, _, h⟩ => (nomatch h), nofun⟩
  | accent bearing shift placed => exact ⟨fun _ => ⟨bearing, shift, placed, rfl⟩, fun _ => rfl⟩

/-- Only the glyph itself is decoded with no level waiting. -/
theorem Part.fits_nil_iff {part : Part} : part.Fits [] ↔ part = .glyph := by
  cases part with
  | glyph => exact ⟨fun _ => rfl, fun _ => rfl⟩
  | base bearing => exact ⟨fun ⟨_, _, h⟩ => (nomatch h), nofun⟩
  | accent bearing shift placed => exact ⟨nofun, nofun⟩

/-- An accent is decoded exactly while the level that is complete after it waits. -/
theorem Part.Fits.accent_iff {part : Part} {frames : List Frame} (h : part.Fits frames) :
    (∃ bearing shift placed, part = .accent bearing shift placed) ↔ .accent ∈ frames := by
  have hmem : .accent ∈ frames ↔ Frame.accent ∈ frames.filter (!·.isCaller) :=
    ⟨fun hmem => List.mem_filter.2 ⟨hmem, rfl⟩, fun hmem => (List.mem_filter.1 hmem).1⟩
  rw [hmem]
  cases part with
  | glyph =>
    rw [show frames.filter (!·.isCaller) = [] from h]
    exact ⟨nofun, nofun⟩
  | base bearing =>
    obtain ⟨accent, shift, h⟩ := h
    rw [h, List.mem_singleton]
    exact ⟨nofun, nofun⟩
  | accent bearing shift placed =>
    rw [show frames.filter (!·.isCaller) = [.accent] from h]
    exact ⟨fun _ => List.mem_singleton_self _, fun _ => ⟨bearing, shift, placed, rfl⟩⟩

/-- Below the level that is complete after an accent, only callers wait. -/
theorem Part.Fits.below_accent {part : Part} {frames : List Frame}
    (h : part.Fits (.accent :: frames)) : frames.filter (!·.isCaller) = [] := by
  cases part with
  | glyph => cases h
  | base bearing =>
    obtain ⟨_, _, h⟩ := h
    cases h
  | accent bearing shift placed => exact (List.cons.inj h).2

/-- The state in which a run goes on: as it is, or at the beginning of a part. -/
inductive Decoder.Onward (d : Decoder) : Decoder → Prop where
  /-- The same glyph or part goes on. -/
  | same : Onward d d
  /-- The base follows what the glyph itself has. -/
  | base (hpart : d.part = .glyph) : Onward d d.beginBase
  /-- The accent follows the base. -/
  | accent (bearing shift : Point) (hpart : d.part = .base bearing) :
    Onward d (d.beginAccent shift)

/-- Placing the accent makes no difference to what is being decoded. -/
theorem Decoder.fits_placeAccent (d : Decoder) : d.placeAccent.part.Fits = d.part.Fits := by
  unfold placeAccent
  split
  · next hpart =>
    rw [hpart]
    rfl
  · rfl

theorem Decoder.startContour_part (d : Decoder) : d.startContour.part = d.placeAccent.part := by
  obtain ⟨_, _, _, h⟩ := d.startContour_eq
  rw [h]

theorem Decoder.hintStem_part (setup : Setup) (kind : StemKind) (position extent : Number)
    (d : Decoder) : (d.hintStem setup kind position extent).part = d.part := by
  obtain ⟨_, _, _, _, h⟩ := d.hintStem_eq setup kind position extent
  rw [h]

/-- A change makes no difference to what is being decoded. -/
theorem Change.fits {a : Activity} {d e : Decoder} (h : Change setup a d e) :
    e.part.Fits = d.part.Fits := by
  cases h with
  | bearing bearing =>
    show (d.part.withBearing bearing).Fits = _
    cases d.part <;> rfl
  | move delta => exact d.fits_placeAccent
  | set p => exact d.fits_placeAccent
  | startFlex => exact d.fits_placeAccent
  | line delta => exact (congrArg Part.Fits d.startContour_part).trans d.fits_placeAccent
  | curve p q r => exact (congrArg Part.Fits d.startContour_part).trans d.fits_placeAccent
  | flexTo depth left right =>
    exact (congrArg Part.Fits d.startContour_part).trans d.fits_placeAccent
  | stem kind position extent => exact congrArg Part.Fits (d.hintStem_part setup kind _ _)
  | _ => rfl

theorem Decode.execute_fits {i : Instruction} {d e : Decoder} {control : Control}
    (h : execute setup i d = .ok control e) : e.part.Fits = d.part.Fits := by
  have hchanges := changes_execute setup i d
  rw [h] at hchanges
  have hbegin : (i.begin d).part = d.part := by cases i <;> rfl
  rw [← hbegin]
  exact hchanges.keeps (P := fun e => e.part.Fits = (i.begin d).part.Fits)
    (fun _ _ hc he => hc.fits.trans he) rfl

namespace Run

/-- A glyph that is complete completes all its callers. -/
theorem leave_callers {frames : List Frame} {session : Session}
    (h : frames.filter (!·.isCaller) = []) :
    leave s frames .finished session = .ended (.ok .finished session) := by
  induction frames with
  | nil => rfl
  | cons f frames ih =>
    cases f with
    | caller p => exact ih h
    | _ => cases h

theorem resume_passage {frames : List Frame} {offset : Nat} {session : Session} {m : Moment s}
    (h : resume s frames offset session = .running m) :
    m.frames = frames ∧ ∃ calls, m.decoder = session.decoder.recordCalls calls := by
  unfold resume at h
  split at h
  · cases h
  · cases h
    exact ⟨rfl, _, rfl⟩

theorem enter_passage {f : Frame} {frames : List Frame} {offset : Nat} {session : Session}
    {m : Moment s} (h : enter s f frames offset session = .running m) :
    m.frames = f :: frames ∧ ∃ calls, m.decoder = session.decoder.recordCalls calls := by
  unfold enter at h
  split at h
  · exact resume_passage h
  · cases h

/-- What follows a level that ends is the level that called it, or the accent after a base. -/
theorem leave_passage {frames : List Frame} {flow : Flow} {session : Session} {m : Moment s}
    (hfits : session.decoder.part.Fits frames) (h : leave s frames flow session = .running m) :
    ∃ c calls, session.decoder.Onward c ∧ m.decoder = c.recordCalls calls ∧
      c.part.Fits m.frames := by
  induction frames with
  | nil => cases h
  | cons f frames ih =>
    cases f with
    | caller p =>
      have hfits := (Part.fits_caller _ p frames).1 hfits
      cases flow with
      | returned =>
        obtain ⟨rfl, calls, hm⟩ := resume_passage h
        exact ⟨_, calls, .same, hm, hfits⟩
      | finished => exact ih hfits h
    | base accent shift =>
      obtain ⟨hframes, calls, hm⟩ := enter_passage h
      cases hpart : session.decoder.part with
      | glyph => rw [hpart] at hfits; cases hfits
      | accent bearing shift placed => rw [hpart] at hfits; cases hfits
      | base bearing =>
        rw [hpart] at hfits
        obtain ⟨_, _, hfits⟩ := hfits
        refine ⟨_, calls, .accent bearing shift hpart, hm, ?_⟩
        rw [hframes]
        exact congrArg (Frame.accent :: ·) (List.cons.inj hfits).2
    | accent =>
      rw [leave, leave_callers hfits.below_accent] at h
      cases h

/-- A run passes to the next moment by an instruction that succeeds. -/
def Passage (setup : Setup) (l m : Moment s) : Prop :=
  ∃ i d control e c calls, l.Executes i d ∧ Decode.execute setup i d = .ok control e ∧
    e.Onward c ∧ m.decoder = c.recordCalls calls

theorem step_passage {l m : Moment s} (hfits : l.decoder.part.Fits l.frames)
    (h : step s setup l = .running m) : Passage setup l m ∧ m.decoder.part.Fits m.frames := by
  unfold step stepWith at h
  cases hread : l.cursor.readInstruction with
  | failed error source calls => rw [hread] at h; cases h
  | done i next calls =>
    have hi : l.Executes i (l.decoder.recordCalls calls) := ⟨next, calls, hread, rfl⟩
    rw [← l.decoder.recordCalls_part calls] at hfits
    rw [hread] at h
    dsimp only at h
    generalize l.decoder.recordCalls calls = d at h hi hfits
    cases hx : Decode.execute setup i d with
    | error error e => rw [hx] at h; cases h
    | ok control e =>
      rw [← Decode.execute_fits hx] at hfits
      rw [hx] at h
      -- The levels that wait fit the state in which the run goes on.
      have passage {c : Decoder} (calls : List Source.Call) (hc : e.Onward c)
          (hm : m.decoder = c.recordCalls calls) (hfits : c.part.Fits m.frames) :
          Passage setup l m ∧ m.decoder.part.Fits m.frames := by
        refine ⟨⟨i, d, control, e, c, calls, hi, hx, hc, hm⟩, ?_⟩
        rwa [hm, c.recordCalls_part]
      cases control with
      | next =>
        cases h
        exact passage [] .same rfl hfits
      | leave flow =>
        obtain ⟨c, calls, hc, hm, hfits⟩ := leave_passage hfits h
        exact passage calls hc hm hfits
      | call offset =>
        obtain ⟨hframes, calls, hm⟩ := enter_passage h
        refine passage calls .same hm ?_
        rw [hframes]
        exact (Part.fits_caller _ _ _).2 hfits
      | compose base accent shift =>
        obtain ⟨hframes, calls, hm⟩ := enter_passage h
        obtain ⟨-, hglyph, -, -, codes, -, -, -, -, -, -, -, -, rfl⟩ := Decode.execute_eq_compose hx
        have hpart : (d.composed codes base accent).part = .glyph := hglyph
        rw [hpart] at hfits
        refine passage calls (.base hpart) hm ⟨accent, shift, ?_⟩
        rw [hframes]
        exact congrArg (Frame.base accent shift :: ·) hfits

variable {offset : Nat} {st : Source.State} {n : Nat} {m : Moment s}

/-- The levels that wait tell what is being decoded. -/
theorem fits (h : after s setup offset st n = .running m) : m.decoder.part.Fits m.frames := by
  refine invariant (P := fun m => m.decoder.part.Fits m.frames) (fun m hm => ?_)
    (fun l m hl hm => (step_passage hl hm).2) h
  obtain ⟨hframes, calls, hm⟩ := resume_passage hm
  rw [hframes, hm, Decoder.recordCalls_part]
  rfl

/-- A run comes to a moment other than its first by an instruction that succeeds. -/
theorem passage (h : after s setup offset st (n + 1) = .running m) :
    ∃ l, after s setup offset st n = .running l ∧ Passage setup l m := by
  obtain ⟨l, hl, hm⟩ := running_of_succ h
  exact ⟨l, hl, (step_passage (fits hl) hm).1⟩

end Run

end Type1
